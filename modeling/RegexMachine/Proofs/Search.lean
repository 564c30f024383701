import Mathlib.Logic.Relation
import Mathlib.Data.Set.Function
import RegexMachine.Search

/-!
# RegexMachine.Proofs.Search

**What a breadth-first listing lists.** `search next starts` holds a thing exactly when `next` leads
to it from one of the starts, and it holds each thing once. A renaming that `next` respects may be
done before or after the listing, so the order of a listing does not depend on names.

The three facts are shown of `visit`, whose queue and whose record of what has come up are
arbitrary, by induction along its turns.
-/

namespace RegexMachine

open Relation

/-- `Leads next a b`: following `next` any number of times leads from `a` to `b`. -/
abbrev Leads {α : Type} (next : α → List α) : α → α → Prop :=
  ReflTransGen fun a b => b ∈ next a

namespace Search

variable {α β : Type} [DecidableEq α] [DecidableEq β]
variable {next : α → List α} {finite : Confined next}

/-! ### What is new -/

/-- What two lists in a row have that is new: the second one is looked through after the first. -/
theorem unseen_append (seen as bs : List α) :
    unseen seen (as ++ bs) = unseen seen as ++ unseen (seen ++ unseen seen as) bs := by
  induction as generalizing seen with
  | nil => simp [unseen]
  | cons a as ih =>
      rw [List.cons_append, unseen, unseen]
      split
      · exact ih seen
      · rw [ih, List.cons_append, List.append_assoc, List.singleton_append]

theorem unseen_sublist (seen as : List α) : (unseen seen as).Sublist as := by
  induction as generalizing seen with
  | nil => exact List.nil_sublist _
  | cons a as ih =>
      rw [unseen]
      split
      · exact (ih seen).cons a
      · exact (ih _).cons_cons a

/-! ### Everything that is listed can be reached, and the other way round -/

/-- The queue is listed first. -/
theorem prefix_visit (seen queue : List α) : queue <+: visit next finite seen queue := by
  fun_induction visit next finite seen queue with
  | case1 => exact List.prefix_rfl
  | case2 seen a rest new ih =>
      exact (List.prefix_cons_inj a).mpr ((List.prefix_append rest new).trans ih)

theorem mem_visit_of_mem_queue {seen queue : List α} {a : α} (h : a ∈ queue) :
    a ∈ visit next finite seen queue :=
  (prefix_visit seen queue).subset h

theorem leads_of_mem_visit {seen queue : List α} {b : α}
    (h : b ∈ visit next finite seen queue) : ∃ a ∈ queue, Leads next a b := by
  fun_induction visit next finite seen queue with
  | case1 => exact absurd h List.not_mem_nil
  | case2 seen a rest new ih =>
      rcases List.mem_cons.mp h with rfl | h
      · exact ⟨b, List.mem_cons_self, .refl⟩
      · obtain ⟨c, hc, hcb⟩ := ih h
        rcases List.mem_append.mp hc with hc | hc
        · exact ⟨c, List.mem_cons_of_mem _ hc, hcb⟩
        · exact ⟨a, List.mem_cons_self, .head (mem_unseen.mp hc).1 hcb⟩

/-- What comes after something listed has come up before or is listed too. -/
theorem mem_seen_or_mem_visit {seen queue : List α} {a b : α}
    (ha : a ∈ visit next finite seen queue) (hb : b ∈ next a) :
    b ∈ seen ∨ b ∈ visit next finite seen queue := by
  fun_induction visit next finite seen queue with
  | case1 => exact absurd ha List.not_mem_nil
  | case2 seen c rest new ih =>
      -- Whatever is new is put on the queue, and the queue is listed.
      have listed : ∀ d ∈ new, d ∈ visit next finite (seen ++ new) (rest ++ new) :=
        fun d hd => mem_visit_of_mem_queue (List.mem_append_right _ hd)
      rcases List.mem_cons.mp ha with rfl | ha
      · by_cases hs : b ∈ seen
        · exact Or.inl hs
        · exact Or.inr (List.mem_cons_of_mem _ (listed b (mem_unseen.mpr ⟨hb, hs⟩)))
      · rcases ih ha with h | h
        · rcases List.mem_append.mp h with h | h
          · exact Or.inl h
          · exact Or.inr (List.mem_cons_of_mem _ (listed b h))
        · exact Or.inr (List.mem_cons_of_mem _ h)

/-- A listing holds exactly what can be reached from the starts. -/
theorem mem_search {starts : List α} {b : α} :
    b ∈ search next finite starts ↔ ∃ a ∈ starts, Leads next a b := by
  constructor
  · exact leads_of_mem_visit
  · intro h
    obtain ⟨a, ha, hab⟩ := h
    -- The starts have been seen before the first step, but they are on the queue as well.
    induction hab with
    | refl => exact mem_visit_of_mem_queue ha
    | tail _ hbc ih =>
        rcases mem_seen_or_mem_visit ih hbc with h | h
        · exact mem_visit_of_mem_queue h
        · exact h

/-- What the search starts from is listed first. -/
theorem exists_search_eq_cons (a : α) (as : List α) :
    ∃ rest, search next finite (a :: as) = a :: rest := by
  have hbegin : a :: as <+: search next finite (a :: as) := prefix_visit _ _
  obtain ⟨more, hmore⟩ := hbegin
  exact ⟨as ++ more, hmore.symm⟩

/-! ### Everything is listed once -/

theorem mem_queue_or_not_mem_seen {seen queue : List α} {b : α}
    (h : b ∈ visit next finite seen queue) : b ∈ queue ∨ b ∉ seen := by
  fun_induction visit next finite seen queue with
  | case1 => exact absurd h List.not_mem_nil
  | case2 seen a rest new ih =>
      rcases List.mem_cons.mp h with rfl | h
      · exact Or.inl List.mem_cons_self
      · rcases ih h with h | h
        · rcases List.mem_append.mp h with h | h
          · exact Or.inl (List.mem_cons_of_mem _ h)
          · exact Or.inr (mem_unseen.mp h).2
        · exact Or.inr fun hs => h (List.mem_append_left _ hs)

theorem nodup_visit {seen queue : List α} (hnd : queue.Nodup) (hsub : ∀ a ∈ queue, a ∈ seen) :
    (visit next finite seen queue).Nodup := by
  fun_induction visit next finite seen queue with
  | case1 => exact List.nodup_nil
  | case2 seen a rest new ih =>
      obtain ⟨harest, hrest⟩ := List.nodup_cons.mp hnd
      have hnew : ∀ b ∈ new, b ∉ seen := fun b hb => (mem_unseen.mp hb).2
      have ha : a ∈ seen := hsub a List.mem_cons_self
      -- What is listed later is on the queue now or has not been seen, so it is not `a` again.
      refine List.nodup_cons.mpr ⟨fun hmem => ?_, ih ?_ ?_⟩
      · rcases mem_queue_or_not_mem_seen hmem with h | h
        · rcases List.mem_append.mp h with h | h
          · exact harest h
          · exact hnew a h ha
        · exact h (List.mem_append_left _ ha)
      · refine List.nodup_append.mpr ⟨hrest, nodup_unseen _ _, ?_⟩
        intro b hb c hc hbc
        subst hbc
        exact hnew b hc (hsub b (List.mem_cons_of_mem _ hb))
      · intro b hb
        rcases List.mem_append.mp hb with hb | hb
        · exact List.mem_append_left _ (hsub b (List.mem_cons_of_mem _ hb))
        · exact List.mem_append_right _ hb

theorem nodup_search {starts : List α} (h : starts.Nodup) :
    (search next finite starts).Nodup :=
  nodup_visit h fun _ ha => ha

/-- What holds of all pairs in a list, the earlier one first, is read off their places. -/
theorem rel_of_idxOf_lt {xs : List α} {R : α → α → Prop} (h : xs.Pairwise R) {a b : α} (hb : b ∈ xs)
    (hlt : xs.idxOf a < xs.idxOf b) : R a b := by
  have hbl : xs.idxOf b < xs.length := List.idxOf_lt_length_iff.mpr hb
  have hget := List.pairwise_iff_getElem.mp h _ _ (hlt.trans hbl) hbl hlt
  rwa [List.getElem_idxOf, List.getElem_idxOf] at hget

/-- A thing keeps its place when a list is renamed and no name comes up twice. -/
theorem idxOf_map {f : α → β} {xs : List α} (hnodup : (xs.map f).Nodup) {a : α} (ha : a ∈ xs) :
    (xs.map f).idxOf (f a) = xs.idxOf a := by
  have hplace : xs.idxOf a < (xs.map f).length := by
    rw [List.length_map]
    exact List.idxOf_lt_length_iff.mpr ha
  have hget : (xs.map f)[xs.idxOf a] = f a := by rw [List.getElem_map, List.getElem_idxOf]
  rw [← hget, hnodup.idxOf_getElem]

/-! ### Renaming

A renaming carries a listing over if it carries over every turn of the search. One that is injective
on the things that can come up, here those that satisfy `p`, does so if `next` of a renamed thing is
the renamed `next`. -/

variable {f : α → β} {p : α → Prop}

theorem unseen_map (hf : Set.InjOn f {a | p a}) {seen as : List α} (hseen : ∀ a ∈ seen, p a)
    (has : ∀ a ∈ as, p a) : unseen (seen.map f) (as.map f) = (unseen seen as).map f := by
  induction as generalizing seen with
  | nil => rfl
  | cons a as ih =>
      have ha : p a := has a List.mem_cons_self
      have hmem : f a ∈ seen.map f ↔ a ∈ seen := by
        constructor
        · intro h
          obtain ⟨b, hb, hba⟩ := List.mem_map.mp h
          exact hf (hseen b hb) ha hba ▸ hb
        · exact List.mem_map_of_mem
      have hrest : ∀ b ∈ as, p b := fun b hb => has b (List.mem_cons_of_mem _ hb)
      rw [List.map_cons, unseen, unseen]
      by_cases h : a ∈ seen
      · rw [if_pos h, if_pos (hmem.mpr h), ih hseen hrest]
      · have hseen' : ∀ b ∈ seen ++ [a], p b := by
          intro b hb
          rcases List.mem_append.mp hb with hb | hb
          · exact hseen b hb
          · exact List.mem_singleton.mp hb ▸ ha
        rw [if_neg h, if_neg (mt hmem.mp h), List.map_cons, ← ih hseen' hrest, List.map_append,
          List.map_singleton]

/-- A listing is carried over if every turn of it is. What has been seen at a turn and what is new
then stand at the beginning of the listing, so no other turns need to be looked at. -/
theorem visit_map_of_turns {next' : β → List β} {finite' : Confined next'} {listing : List α}
    (hturn : ∀ seen, ∀ a ∈ listing, seen ++ unseen seen (next a) <+: listing →
      unseen (seen.map f) (next' (f a)) = (unseen seen (next a)).map f) (seen queue : List α) :
    ∀ done, seen = done ++ queue → done ++ visit next finite seen queue = listing →
      visit next' finite' (seen.map f) (queue.map f) = (visit next finite seen queue).map f := by
  fun_induction visit next finite seen queue with
  | case1 =>
      intro _ _ _
      rw [List.map_nil, visit]
  | case2 seen a rest new ih =>
      intro done hseen hlisting
      have ha : a ∈ listing := hlisting ▸ by simp
      -- The thing taken up goes over to what is done.
      have hdone : done ++ [a] ++ visit next finite (seen ++ new) (rest ++ new) = listing := by
        rw [List.append_assoc]
        exact hlisting
      have hnew : seen ++ new = done ++ [a] ++ (rest ++ new) := by simp [hseen]
      have hbegin : seen ++ new <+: listing := by
        rw [hnew, ← hdone, List.prefix_append_right_inj]
        exact prefix_visit _ _
      rw [List.map_cons, visit, hturn seen a ha hbegin, List.map_cons, ← List.map_append,
        ← List.map_append, ih _ hnew hdone]

theorem search_map_of_turns {next' : β → List β} {finite' : Confined next'} {starts : List α}
    (hturn : ∀ seen, ∀ a ∈ search next finite starts,
      seen ++ unseen seen (next a) <+: search next finite starts →
        unseen (seen.map f) (next' (f a)) = (unseen seen (next a)).map f) :
    search next' finite' (starts.map f) = (search next finite starts).map f :=
  visit_map_of_turns hturn starts starts [] rfl rfl

/-- Renaming before a listing and renaming after it come to the same. -/
theorem search_map {next' : β → List β} {finite' : Confined next'}
    (hf : Set.InjOn f {a | p a}) (hclosed : ∀ a, p a → ∀ b ∈ next a, p b)
    (hnext : ∀ a, p a → next' (f a) = (next a).map f) {starts : List α}
    (hstarts : ∀ a ∈ starts, p a) :
    search next' finite' (starts.map f) = (search next finite starts).map f := by
  have hlisted : ∀ b ∈ search next finite starts, p b := by
    intro b hb
    obtain ⟨a, ha, hab⟩ := mem_search.mp hb
    clear hb
    induction hab with
    | refl => exact hstarts a ha
    | tail _ hbc ih => exact hclosed _ ih _ hbc
  refine search_map_of_turns fun seen a ha hbegin => ?_
  rw [hnext a (hlisted a ha)]
  refine unseen_map hf (fun b hb => ?_) (hclosed a (hlisted a ha))
  exact hlisted b (hbegin.subset (List.mem_append_left _ hb))

end Search

end RegexMachine
