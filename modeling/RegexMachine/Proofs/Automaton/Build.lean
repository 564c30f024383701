import RegexMachine.Proofs.Automaton.Edit

/-!
# RegexMachine.Proofs.Automaton.Build

**Building a machine state by state and edge by edge.** Completing a machine, merging the states of
blocks and making a machine deterministic all run loops of checked edits. The lemmas here say what
such loops leave: a loop that adds the states `0, 1, 2, …` leaves these states, and a loop that adds
edges between known states changes nothing but the edges and the alphabet. Of the edges for one
state and one character the last one is left, and all of them are if no two disagree.
-/

namespace RegexMachine

open Std

/-- What is at a place of a list with one thing more. -/
theorem getElem?_snoc_iff {α : Type} {xs : List α} {a b : α} {i : Nat} :
    (xs ++ [a])[i]? = some b ↔ xs[i]? = some b ∨ (i = xs.length ∧ a = b) := by
  rcases Nat.lt_trichotomy i xs.length with hlt | rfl | hgt
  · rw [List.getElem?_append_left hlt, or_iff_left fun h => Nat.ne_of_lt hlt h.1]
  · simp
  · have hend : (xs ++ [a]).length ≤ i := by
      rw [List.length_append, List.length_singleton]
      exact hgt
    rw [List.getElem?_eq_none hend, List.getElem?_eq_none (Nat.le_of_lt hgt)]
    simp [Nat.ne_of_gt hgt]

/-- A loop in a loop is one loop over the pairs. -/
theorem forM_forM_eq {m : Type → Type} [Monad m] [LawfulMonad m] {α β : Type} (xs : List α)
    (ys : α → List β) (f : α → β → m PUnit) :
    (xs.forM fun a => (ys a).forM (f a)) =
      (xs.flatMap fun a => (ys a).map fun b => (a, b)).forM fun ab => f ab.1 ab.2 := by
  have inner : ∀ (a : α) (bs : List β),
      bs.forM (f a) = (bs.map fun b => (a, b)).forM fun ab => f ab.1 ab.2 := by
    intro a bs
    induction bs with
    | nil => rfl
    | cons b bs ih =>
        simp only [List.forM_eq_forM, List.map_cons, List.forM_cons] at ih ⊢
        rw [ih]
  induction xs with
  | nil => rfl
  | cons a xs ih =>
      simp only [List.forM_eq_forM, List.forM_cons, List.flatMap_cons, List.forM_append]
        at ih inner ⊢
      rw [ih, inner]

namespace StateSet

/-- The name after an initial segment of the numbers is its length. -/
theorem nextFree_eq {s : StateSet} {n : Nat} (h : ∀ q, q ∈ s ↔ q < n) :
    nextFree s .naturals = n := by
  refine Nat.le_antisymm ?_
    (Nat.le_of_not_lt fun hlt => nextFree_not_mem (Or.inl rfl) ((h _).mpr hlt))
  unfold nextFree
  split
  · exact Nat.zero_le n
  · next last hmax =>
      exact (h last).mp (ExtTreeSet.max?_eq_some_iff_mem_and_forall.mp hmax).1

end StateSet

namespace Automaton

variable {κ τ : Type} [Ord κ]

/-- `n` differs from `m` at most in its edges and in its alphabet. -/
structure SameStates (m n : Automaton κ τ) : Prop where
  states : n.states = m.states
  initial : n.initial = m.initial
  finals : n.finals = m.finals

theorem SameStates.trans {l m n : Automaton κ τ} (h : SameStates l m) (h' : SameStates m n) :
    SameStates l n :=
  ⟨h'.states.trans h.states, h'.initial.trans h.initial, h'.finals.trans h.finals⟩

/-- A machine without edges and without a start state, whose states are the places of a list; the
final ones are those of the members that `accepting` picks. -/
structure Bare {α : Type} (xs : List α) (accepting : α → Bool) (m : Automaton κ τ) : Prop where
  mem_states {q : StateId} : q ∈ m.states ↔ q < xs.length
  mem_finals {q : StateId} : q ∈ m.finals ↔ ∃ a, xs[q]? = some a ∧ accepting a = true
  edges : m.edges = ∅
  alphabet : m.alphabet = ∅

section Bare

variable {α : Type} {accepting : α → Bool}

theorem bare_empty : Bare [] accepting (empty : Automaton κ τ) where
  mem_states := by simp [empty]
  mem_finals := by simp [empty]
  edges := rfl
  alphabet := rfl

/-- One state more, under the next name. -/
theorem Bare.withState {xs : List α} {m : Automaton κ τ} (h : Bare xs accepting m) (a : α) :
    Bare (xs ++ [a]) accepting (m.withState xs.length (accepting a)) where
  mem_states {q} := by
    rw [mem_states_withState, h.mem_states, List.length_append, List.length_singleton,
      Nat.lt_succ_iff_lt_or_eq, or_comm, eq_comm]
  mem_finals {q} := by
    rw [mem_finals_withState, h.mem_finals]
    constructor
    · intro hq
      rcases hq with ⟨ha, rfl⟩ | ⟨b, hb, hacc⟩
      · exact ⟨a, getElem?_snoc_iff.mpr (Or.inr ⟨rfl, rfl⟩), ha⟩
      · exact ⟨b, getElem?_snoc_iff.mpr (Or.inl hb), hacc⟩
    · intro hq
      obtain ⟨b, hb, hacc⟩ := hq
      rcases getElem?_snoc_iff.mp hb with hb | ⟨rfl, rfl⟩
      · exact Or.inr ⟨b, hb, hacc⟩
      · exact Or.inl ⟨hacc, rfl⟩
  edges := h.edges
  alphabet := h.alphabet

/-- Adding the states for a list one after the other, each under the next natural number. -/
theorem on_forM_newState (xs : List α) (accepting : α → Bool) :
    ∃ m : Automaton κ τ,
      (xs.forM fun a => do let _ ← newState (accepting a) .naturals).on empty = (.ok ⟨⟩, m) ∧
        Bare xs accepting m := by
  refine Edit.on_forM (fun done m => Bare done accepting m) bare_empty ?_
  intro done a _ m _ hm
  refine ⟨m.withState (m.nextFree .naturals) (accepting a), rfl, ?_⟩
  have hfree : m.nextFree .naturals = done.length := StateSet.nextFree_eq fun _ => hm.mem_states
  rw [hfree]
  exact hm.withState a

/-- Adding the states for a list one after the other, each under the number of its place. -/
theorem on_forM_addState (xs : List α) (accepting : α → Bool) :
    ∃ m : Automaton κ τ,
      (xs.zipIdx.forM fun (a, place) => addState place (accepting a)).on empty = (.ok ⟨⟩, m) ∧
        Bare xs accepting m := by
  have hloop : ∃ m : Automaton κ τ,
      (xs.zipIdx.forM fun (a, place) => addState place (accepting a)).on empty = (.ok ⟨⟩, m) ∧
        Bare (xs.zipIdx.map Prod.fst) accepting m := by
    refine Edit.on_forM (fun done m => Bare (done.map Prod.fst) accepting m) bare_empty ?_
    intro done (a, place) todo m hxs hm
    -- The places are counted through, so the next one is the number of states so far.
    have hplace : place = (done.map Prod.fst).length := by
      have hget : xs.zipIdx[done.length]? = some (a, place) := by rw [hxs]; simp
      rw [List.getElem?_zipIdx, Option.map_eq_some_iff] at hget
      obtain ⟨b, -, hb⟩ := hget
      rw [List.length_map, ← (Prod.mk.inj hb).2, Nat.zero_add]
    have hfree : place ∉ m.states := by
      rw [hm.mem_states, hplace]
      exact Nat.lt_irrefl _
    refine ⟨m.withState place (accepting a), ?_, ?_⟩
    · rw [on_addState, if_neg hfree]
    · rw [hplace, List.map_append, List.map_singleton]
      exact hm.withState a
  rwa [List.zipIdx_map_fst] at hloop

end Bare

end Automaton

namespace DFA

open Automaton

section Edges

variable {α : Type} (xs : List α) (source target : α → StateId) (char : α → Char)
  {f : α → Edit Char StateId PUnit} {d : DFA}

/-- A loop that adds edges between states. Of the edges for one state and one character the last one
is left. -/
theorem on_forM_addEdge (hf : ∀ x ∈ xs, f x = addEdge (source x) (target x) (char x))
    (hmem : ∀ x ∈ xs, source x ∈ d.states ∧ target x ∈ d.states) :
    ∃ left, (xs.forM f).on d = (.ok ⟨⟩, left) ∧ SameStates d left ∧ ∀ p k, next? left p k =
      ((xs.reverse.find? fun x => source x = p ∧ char x = k).map target).or (next? d p k) := by
  refine Edit.on_forM (fun done left => SameStates d left ∧ ∀ p k, next? left p k =
    ((done.reverse.find? fun x => source x = p ∧ char x = k).map target).or (next? d p k))
    ⟨⟨rfl, rfl, rfl⟩, fun _ _ => rfl⟩ ?_
  intro done x todo left hxs hinv
  obtain ⟨hsame, hnext⟩ := hinv
  have hx : x ∈ xs := by rw [hxs]; simp
  refine ⟨withEdge left (source x) (target x) (char x), ?_, ⟨hsame.states, hsame.initial,
    hsame.finals⟩, fun p k => ?_⟩
  · rw [hf x hx, on_addEdge, hsame.states, if_pos (hmem x hx).1, if_pos (hmem x hx).2]
  · rw [next?_withEdge, List.reverse_append, List.reverse_singleton, List.singleton_append,
      List.find?_cons]
    by_cases hkey : source x = p ∧ char x = k
    · simp [hkey]
    · simp [hkey, hnext]

/-- Every edge of the loop is there afterwards if none disagrees with another one or with an edge
that was there before. -/
theorem on_forM_addEdge_of_agree (hf : ∀ x ∈ xs, f x = addEdge (source x) (target x) (char x))
    (hmem : ∀ x ∈ xs, source x ∈ d.states ∧ target x ∈ d.states)
    (hagree : ∀ x ∈ xs, ∀ y ∈ xs, source x = source y → char x = char y → target x = target y)
    (hold : ∀ x ∈ xs, ∀ q, d.Edge (source x) (char x) q → target x = q) :
    ∃ left, (xs.forM f).on d = (.ok ⟨⟩, left) ∧ SameStates d left ∧
      ∀ p k q, left.Edge p k q ↔
        (∃ x ∈ xs, source x = p ∧ char x = k ∧ target x = q) ∨ d.Edge p k q := by
  obtain ⟨left, hon, hsame, hnext⟩ := on_forM_addEdge xs source target char hf hmem
  refine ⟨left, hon, hsame, fun p k q => ?_⟩
  rw [edge_iff_next?, hnext]
  cases hfind : xs.reverse.find? fun x => source x = p ∧ char x = k with
  | none =>
      have hkey : ∀ x ∈ xs, source x = p → char x ≠ k := by simpa using hfind
      rw [Option.map_none, Option.none_or, ← edge_iff_next?, or_iff_right]
      intro h
      obtain ⟨x, hx, hs, hc, -⟩ := h
      exact hkey x hx hs hc
  | some x =>
      have hx : x ∈ xs := List.mem_reverse.mp (List.mem_of_find?_eq_some hfind)
      obtain ⟨hs, hc⟩ : source x = p ∧ char x = k := by simpa using List.find?_some hfind
      rw [Option.map_some, Option.some_or, Option.some.injEq]
      constructor
      · intro htarget
        exact Or.inl ⟨x, hx, hs, hc, htarget⟩
      · intro h
        rcases h with ⟨y, hy, hsy, hcy, hty⟩ | h
        · exact (hagree x hx y hy (hs.trans hsy.symm) (hc.trans hcy.symm)).trans hty
        · exact hold x hx q (by rw [hs, hc]; exact h)

/-- A loop all of whose edges lead to one state. -/
theorem on_forM_addEdge_to (q : StateId) (hf : ∀ x ∈ xs, f x = addEdge (source x) q (char x))
    (hmem : ∀ x ∈ xs, source x ∈ d.states) (hq : q ∈ d.states) :
    ∃ left, (xs.forM f).on d = (.ok ⟨⟩, left) ∧ SameStates d left ∧ ∀ p k, next? left p k =
      if ∃ x ∈ xs, source x = p ∧ char x = k then some q else next? d p k := by
  obtain ⟨left, hon, hsame, hnext⟩ := on_forM_addEdge xs source (fun _ => q) char hf
    fun x hx => ⟨hmem x hx, hq⟩
  refine ⟨left, hon, hsame, fun p k => ?_⟩
  rw [hnext]
  cases hfind : xs.reverse.find? fun x => source x = p ∧ char x = k with
  | none =>
      have hkey : ¬ ∃ x ∈ xs, source x = p ∧ char x = k := by simpa using hfind
      rw [if_neg hkey]
      rfl
  | some x =>
      have hkey : source x = p ∧ char x = k := by simpa using List.find?_some hfind
      rw [if_pos ⟨x, List.mem_reverse.mp (List.mem_of_find?_eq_some hfind), hkey⟩]
      rfl

end Edges

end DFA

end RegexMachine
