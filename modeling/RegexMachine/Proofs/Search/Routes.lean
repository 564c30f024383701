import Mathlib.Data.List.Shortlex
import RegexMachine.Proofs.Search

/-!
# RegexMachine.Proofs.Search.Routes

**A breadth-first listing goes by least routes.** Let every step that `next` allows carry a label,
so that the labels ascend in the order in which `next` lists what comes after a thing. A route is
the list of the labels that are met on the way. Of two routes the shorter one comes first, and of
two routes of one length the one with the lesser label where they first differ. A listing from one
start holds things in the order of their least routes.

The reason is that a least route goes through least routes: without its last label it is the least
route to the thing before. So when the search takes up `b`, the things that have not been seen are
those whose least routes lead through `b` or through something that comes after `b`, and the first
of these are what `next` lists for `b`. `Frontier` says this of a turn of the search, and it is kept
from one turn to the next.
-/

namespace RegexMachine

namespace Search

variable {α L : Type} [LinearOrder L]

/-! ### Lists compared by their lengths first -/

theorem lex_append {u v : List L} (h : List.Lex (· < ·) u v) (hlength : u.length = v.length)
    (s t : List L) : List.Lex (· < ·) (u ++ s) (v ++ t) := by
  induction h with
  | nil => simp at hlength
  | cons _ ih => exact .cons (ih (by simpa using hlength))
  | rel hlt => exact .rel hlt

/-- A last label each does not change which of two routes comes first. -/
theorem shortlex_append_singleton {u v : List L} (h : List.Shortlex (· < ·) u v) (c d : L) :
    List.Shortlex (· < ·) (u ++ [c]) (v ++ [d]) := by
  rcases List.shortlex_def.mp h with hlt | ⟨heq, hlex⟩
  · exact .of_length_lt (by simpa using hlt)
  · exact .of_lex (by simpa using heq) (lex_append hlex heq [c] [d])

theorem length_le_of_shortlex {u v : List L} (h : List.Shortlex (· < ·) u v) :
    u.length ≤ v.length := by
  rcases List.shortlex_def.mp h with hlt | ⟨heq, -⟩
  · exact hlt.le
  · exact heq.le

theorem shortlex_append_of_lt {c d : L} (h : c < d) (u : List L) :
    List.Shortlex (· < ·) (u ++ [c]) (u ++ [d]) :=
  ((List.shortlex_singleton_iff c d).mpr h).append_left u

/-! ### Routes -/

/-- Every step of `next` has a label, and the labels ascend. -/
structure Labeled (next : α → List α) (arrows : α → List (L × α)) : Prop where
  heads (a : α) : (arrows a).map Prod.snd = next a
  ascending (a : α) : (arrows a).Pairwise fun x y => x.1 < y.1

theorem Labeled.mem_next {next : α → List α} {arrows : α → List (L × α)}
    (h : Labeled next arrows) {a b : α} : b ∈ next a ↔ ∃ c, (c, b) ∈ arrows a := by
  rw [← h.heads, List.mem_map]
  simp

/-- What comes after a thing, each with its place in the list for a label. -/
def places (next : α → List α) (a : α) : List (Nat × α) :=
  (next a).zipIdx.map Prod.swap

theorem labeled_places (next : α → List α) : Labeled next (places next) where
  heads a := by
    rw [places, List.map_map]
    exact List.zipIdx_map_fst 0 (next a)
  ascending a := by
    rw [places, List.pairwise_map]
    exact List.pairwise_map.mp (List.zipIdx_map_snd 0 (next a) ▸ List.pairwise_lt_range')

/-- `Route arrows a w b`: steps with the labels `w` lead from `a` to `b`. -/
inductive Route (arrows : α → List (L × α)) (a : α) : List L → α → Prop
  /-- Staying at the start. -/
  | nil : Route arrows a [] a
  /-- A route, and one step behind it. -/
  | snoc {w : List L} {b d : α} {c : L} :
      Route arrows a w b → (c, d) ∈ arrows b → Route arrows a (w ++ [c]) d

/-- `w` leads from `a` to `b`, and no route before it does. -/
structure LeastRoute (arrows : α → List (L × α)) (a : α) (w : List L) (b : α) : Prop where
  route : Route arrows a w b
  not_before {u : List L} : Route arrows a u b → ¬ List.Shortlex (· < ·) u w

section LeastRoute

variable {arrows : α → List (L × α)} {a b : α} {u w : List L}

theorem exists_leastRoute [WellFoundedLT L] (h : Route arrows a w b) :
    ∃ v, LeastRoute arrows a v b := by
  obtain ⟨v, hv, hmin⟩ := (List.Shortlex.wf (wellFounded_lt (α := L))).has_min
    {v | Route arrows a v b} ⟨w, h⟩
  exact ⟨v, hv, fun hu => hmin _ hu⟩

namespace LeastRoute

theorem unique (h : LeastRoute arrows a w b) (h' : LeastRoute arrows a u b) : w = u :=
  Std.Trichotomous.trichotomous w u (h'.not_before h.route) (h.not_before h'.route)

/-- No route is shorter. -/
theorem length_le (h : LeastRoute arrows a w b) (hu : Route arrows a u b) :
    w.length ≤ u.length :=
  Nat.not_lt.mp fun hlt => h.not_before hu (.of_length_lt hlt)

theorem eq_nil (h : LeastRoute arrows a w a) : w = [] :=
  (List.shortlex_nil_or_eq_nil w).resolve_left (h.not_before .nil)

/-- Without its last label a least route is the least route to the thing before. -/
theorem exists_parent (h : LeastRoute arrows a w b) (hne : b ≠ a) :
    ∃ v p c, w = v ++ [c] ∧ LeastRoute arrows a v p ∧ (c, b) ∈ arrows p := by
  obtain ⟨hroute, hleast⟩ := h
  cases hroute with
  | nil => exact absurd rfl hne
  | @snoc v p _ c hv hc =>
      refine ⟨v, p, c, rfl, ⟨hv, fun hu hbefore => ?_⟩, hc⟩
      exact hleast (.snoc hu hc) (shortlex_append_singleton hbefore c c)

end LeastRoute

end LeastRoute

/-- The least route from `a` to `b` comes before the least route to `d`. -/
def Before (arrows : α → List (L × α)) (a b d : α) : Prop :=
  ∀ u v, LeastRoute arrows a u b → LeastRoute arrows a v d → List.Shortlex (· < ·) u v

theorem before_of_ne (arrows : α → List (L × α)) {a d : α} (hne : d ≠ a) :
    Before arrows a a d := by
  intro u v hu hv
  obtain ⟨w, _, c, rfl, -, -⟩ := hv.exists_parent hne
  rw [hu.eq_nil]
  exact .of_length_lt (by simp)

/-! ### The turns of a search -/

variable {next : α → List α} {arrows : α → List (L × α)} {a : α}

/-- A turn of the search from `a`: the queue goes by least routes and comes before all that has not
been seen, and what comes after things taken off the queue has been seen. -/
structure Frontier (next : α → List α) (arrows : α → List (L × α)) (a : α)
    (seen queue : List α) : Prop where
  start : a ∈ seen
  queued : ∀ b ∈ queue, b ∈ seen
  reached : ∀ b ∈ queue, ∃ w, Route arrows a w b
  ordered : queue.Pairwise (Before arrows a)
  ahead : ∀ b ∈ queue, ∀ d, d ∉ seen → Before arrows a b d
  expanded : ∀ b ∈ seen, b ∉ queue → ∀ d ∈ next b, d ∈ seen

theorem frontier_start (next : α → List α) (arrows : α → List (L × α)) (a : α) :
    Frontier next arrows a [a] [a] where
  start := List.mem_singleton_self a
  queued _ hb := hb
  reached b hb := ⟨[], List.mem_singleton.mp hb ▸ .nil⟩
  ordered := List.pairwise_singleton _ a
  ahead b hb d hd := by
    rw [List.mem_singleton] at hb hd
    subst hb
    exact before_of_ne arrows hd
  expanded b hb hnot := absurd hb hnot

variable [DecidableEq α]

/-- What is new keeps the order of the least labels that lead to it. -/
theorem pairwise_unseen {xs : List (L × α)} (h : xs.Pairwise fun x y => x.1 < y.1)
    (seen : List α) : (unseen seen (xs.map Prod.snd)).Pairwise fun b d =>
      ∀ k, (k, d) ∈ xs → ∃ c, (c, b) ∈ xs ∧ c < k := by
  induction xs generalizing seen with
  | nil => exact .nil
  | cons x xs ih =>
      obtain ⟨hx, hxs⟩ := List.pairwise_cons.mp h
      -- The first place of what is new lies further on, unless it is the thing that stands here.
      have later : ∀ {seen' : List α} {d : α} {k : L}, x.2 ∈ seen' →
          d ∈ unseen seen' (xs.map Prod.snd) → (k, d) ∈ x :: xs → (k, d) ∈ xs := by
        intro seen' d k hmem hd hk
        rcases List.mem_cons.mp hk with rfl | hk
        · exact absurd hmem (mem_unseen.mp hd).2
        · exact hk
      have further : ∀ {seen' : List α}, x.2 ∈ seen' →
          (unseen seen' (xs.map Prod.snd)).Pairwise fun b d =>
            ∀ k, (k, d) ∈ x :: xs → ∃ c, (c, b) ∈ x :: xs ∧ c < k := by
        intro seen' hmem
        refine (ih hxs seen').imp_of_mem fun _ hd himp k hk => ?_
        obtain ⟨c, hc, hlt⟩ := himp k (later hmem hd hk)
        exact ⟨c, List.mem_cons_of_mem _ hc, hlt⟩
      rw [List.map_cons, unseen]
      split
      · next hmem => exact further hmem
      · have hmem : x.2 ∈ seen ++ [x.2] := List.mem_append_right _ (List.mem_singleton_self _)
        refine List.pairwise_cons.mpr ⟨fun d hd k hk => ?_, further hmem⟩
        exact ⟨x.1, List.mem_cons_self, hx _ (later hmem hd hk)⟩

namespace Frontier

variable {seen rest : List α} {b d : α} {v : List L}

section Turn

variable (h : Frontier next arrows a seen (b :: rest)) (hl : Labeled next arrows)

include h hl

/-- What has not been seen is reached through the thing taken up or through something behind it. -/
theorem exists_parent (hd : d ∉ seen) (hv : LeastRoute arrows a v d) :
    ∃ u p c, v = u ++ [c] ∧ LeastRoute arrows a u p ∧ (c, d) ∈ arrows p ∧
      (p = b ∨ Before arrows a b p) := by
  obtain ⟨u, p, c, rfl, hu, hc⟩ := hv.exists_parent fun heq => hd (heq ▸ h.start)
  refine ⟨u, p, c, rfl, hu, hc, ?_⟩
  by_cases hp : p ∈ seen
  · have hqueue : p ∈ b :: rest := Classical.byContradiction fun hnot =>
      hd (h.expanded p hp hnot d (hl.mem_next.mpr ⟨c, hc⟩))
    exact (List.mem_cons.mp hqueue).imp id fun hrest => (List.pairwise_cons.mp h.ordered).1 p hrest
  · exact Or.inr (h.ahead b List.mem_cons_self p hp)

variable [WellFoundedLT L]

/-- The least route to something new leads through the thing taken up. -/
theorem leastRoute_of_new (hnext : d ∈ next b) (hd : d ∉ seen) (hv : LeastRoute arrows a v d) :
    ∃ u c, v = u ++ [c] ∧ LeastRoute arrows a u b ∧ (c, d) ∈ arrows b := by
  obtain ⟨u, p, c, rfl, hu, hc, rfl | hbefore⟩ := h.exists_parent hl hd hv
  · exact ⟨u, c, rfl, hu, hc⟩
  · obtain ⟨_, hw⟩ := h.reached b List.mem_cons_self
    obtain ⟨w, hw⟩ := exists_leastRoute hw
    obtain ⟨k, hk⟩ := hl.mem_next.mp hnext
    exact absurd (shortlex_append_singleton (hbefore w u hw hu) k c)
      (hv.not_before (hw.route.snoc hk))

theorem pairwise_new : (unseen seen (next b)).Pairwise (Before arrows a) := by
  have hlabels := pairwise_unseen (hl.ascending b) seen
  rw [hl.heads] at hlabels
  refine hlabels.imp_of_mem fun hd he himp u v hu hv => ?_
  obtain ⟨hdnext, hd⟩ := mem_unseen.mp hd
  obtain ⟨henext, he⟩ := mem_unseen.mp he
  obtain ⟨u, k, rfl, hu', -⟩ := h.leastRoute_of_new hl hdnext hd hu
  obtain ⟨v, l, rfl, hv', harrow⟩ := h.leastRoute_of_new hl henext he hv
  cases hu'.unique hv'
  obtain ⟨c, hc, hlt⟩ := himp l harrow
  -- The label on the least route is the least label that leads there.
  have hle : k ≤ c := le_of_not_gt fun hck =>
    hu.not_before (hu'.route.snoc hc) (shortlex_append_of_lt hck u)
  exact shortlex_append_of_lt (hle.trans_lt hlt) u

theorem before_of_new (hnext : d ∈ next b) (hd : d ∉ seen) {e : α}
    (he : e ∉ seen ++ unseen seen (next b)) : Before arrows a d e := by
  intro u v hu hv
  rw [List.mem_append, not_or] at he
  obtain ⟨u, k, rfl, hu, -⟩ := h.leastRoute_of_new hl hnext hd hu
  obtain ⟨v, p, c, rfl, hv, hc, rfl | hbefore⟩ := h.exists_parent hl he.1 hv
  · exact absurd (mem_unseen.mpr ⟨hl.mem_next.mpr ⟨c, hc⟩, he.1⟩) he.2
  · exact shortlex_append_singleton (hbefore u v hu hv) k c

/-- One turn of the search. -/
theorem step : Frontier next arrows a (seen ++ unseen seen (next b))
    (rest ++ unseen seen (next b)) where
  start := List.mem_append_left _ h.start
  queued d hd := by
    rcases List.mem_append.mp hd with hd | hd
    · exact List.mem_append_left _ (h.queued d (List.mem_cons_of_mem _ hd))
    · exact List.mem_append_right _ hd
  reached d hd := by
    rcases List.mem_append.mp hd with hd | hd
    · exact h.reached d (List.mem_cons_of_mem _ hd)
    · obtain ⟨w, hw⟩ := h.reached b List.mem_cons_self
      obtain ⟨c, hc⟩ := hl.mem_next.mp (mem_unseen.mp hd).1
      exact ⟨_, hw.snoc hc⟩
  ordered := by
    refine List.pairwise_append.mpr ⟨(List.pairwise_cons.mp h.ordered).2, h.pairwise_new hl, ?_⟩
    intro d hd e he
    exact h.ahead d (List.mem_cons_of_mem _ hd) e (mem_unseen.mp he).2
  ahead d hd e he := by
    rcases List.mem_append.mp hd with hd | hd
    · exact h.ahead d (List.mem_cons_of_mem _ hd) e fun hseen => he (List.mem_append_left _ hseen)
    · exact h.before_of_new hl (mem_unseen.mp hd).1 (mem_unseen.mp hd).2 he
  expanded d hd hnot e he := by
    rw [List.mem_append, not_or] at hnot
    have hd : d ∈ seen := (List.mem_append.mp hd).resolve_right hnot.2
    by_cases heq : d = b
    · by_cases hseen : e ∈ seen
      · exact List.mem_append_left _ hseen
      · exact List.mem_append_right _ (mem_unseen.mpr ⟨heq ▸ he, hseen⟩)
    · have hqueue : d ∉ b :: rest := fun hmem => (List.mem_cons.mp hmem).elim heq hnot.1
      exact List.mem_append_left _ (h.expanded d hd hqueue e he)

end Turn

end Frontier

variable [WellFoundedLT L] {finite : Confined next}

theorem pairwise_visit (hl : Labeled next arrows) {seen queue : List α}
    (h : Frontier next arrows a seen queue) :
    (visit next finite seen queue).Pairwise (Before arrows a) := by
  fun_induction visit next finite seen queue with
  | case1 => exact .nil
  | case2 seen b rest new ih =>
      refine List.pairwise_cons.mpr ⟨fun d hd => ?_, ih (h.step hl)⟩
      -- What is listed later is on the queue now, or it has not been seen.
      rcases mem_queue_or_not_mem_seen hd with hd | hd
      · rcases List.mem_append.mp hd with hd | hd
        · exact (List.pairwise_cons.mp h.ordered).1 d hd
        · exact h.ahead b List.mem_cons_self d (mem_unseen.mp hd).2
      · exact h.ahead b List.mem_cons_self d fun hseen => hd (List.mem_append_left _ hseen)

/-- **A listing goes by least routes.** -/
theorem pairwise_search (hl : Labeled next arrows) (a : α) :
    (search next finite [a]).Pairwise (Before arrows a) :=
  pairwise_visit hl (frontier_start next arrows a)

end Search

end RegexMachine
