import RegexMachine.Proofs.Built

/-!
# RegexMachine.Proofs.Determinization

**What making a machine deterministic gives.** Whatever calls a nondeterministic machine was built
by, if it has a start state then it is made deterministic without being refused, and the two
machines decide every word alike. A word with a character outside the alphabet is no exception: the
one machine has no edge for the character, and the other one runs out of states.

The deterministic machine is complete, and its states are the sets of states that words over the
alphabet lead to, each under one number; the empty set is one of them if a word leads to it. The
search for these sets takes up each of them once. There are at most `2 ^ k` sets of `k` states, so
it ends after at most that many turns.
-/

namespace RegexMachine

open Std

namespace NFA

/-- **The deterministic machine has the same words.** -/
theorem determinize_preserves {n : NFA} {start : StateId} (hn : n.Built)
    (hstart : n.initial = some start) :
    ∃ d, (determinize n).outcome = .ok d ∧ ∀ w, DFA.accepts d w = accepts n w := by
  obtain ⟨d, hok, hd⟩ := exists_determinize hstart
  exact ⟨d.renumber, hok,
    hd.accepts_renumber (explored_subsets n start) hn.wellFormed hstart⟩

/-- A machine with gaps between the names of its states, with empty moves in a circle, with an edge
out of a final state into the start state, and with a state that cannot be reached. -/
def tangled : NFA :=
  ((Automaton.setInitial 4).on ((addEdge 6 6 (.literal 'b')).on ((addEdge 9 4 (.literal 'a')).on
    ((addEdge 9 4 .epsilon).on ((addEdge 4 9 .epsilon).on ((Automaton.addState 6 true).on
      ((Automaton.addState 9 true).on
        ((Automaton.addState 4 false).on Automaton.empty).2).2).2).2).2).2).2).2

theorem built_tangled : Built tangled :=
  .call (.addEdge 6 6 _ (.addEdge 9 4 _ (.addEdge 9 4 _ (.addEdge 4 9 _ (.call (.call (.call .empty
    (.addState 4 false)) (.addState 9 true)) (.addState 6 true)))))) (.setInitial 4)

theorem determinize_preserves_tangled : ∃ d, (determinize tangled).outcome = .ok d ∧
    DFA.accepts d ['a', 'a'] = true ∧ DFA.accepts d ['a', 'b'] = false ∧
      DFA.accepts d ['c'] = false := by
  have hstart : tangled.initial = some 4 := by cbv
  obtain ⟨d, hok, haccepts⟩ := determinize_preserves built_tangled hstart
  refine ⟨d, hok, ?_, ?_, ?_⟩
  · rw [haccepts]
    cbv
  · rw [haccepts]
    cbv
  · rw [haccepts]
    cbv

/-- The states of `d` stand for the sets that words over the alphabet lead to from the set `first`,
and `d` moves between its states as `n` does between the sets. -/
structure Tracks (n : NFA) (first : StateSet) (d : DFA) : Prop where
  /-- Every state has an edge for every character of the alphabet. -/
  total : ∀ q ∈ d.states, ∀ c ∈ n.alphabet, ∃ r ∈ d.states, DFA.next? d q c = some r
  alphabet : d.alphabet = n.alphabet
  /-- The states are the numbers below their number. -/
  mem_states (q : StateId) : q ∈ d.states ↔ q < d.stateCount
  initial : d.initial = some 0
  stateCount_le : d.stateCount ≤ 2 ^ n.stateCount
  /-- Every state can be reached. -/
  reachable : ∀ q ∈ d.states, ∃ w, DFA.run? d 0 w = some q
  /-- Two words lead to the same state exactly if they lead to the same set. -/
  run?_eq_iff {u v : Word} : (∀ c ∈ u, c ∈ n.alphabet) → (∀ c ∈ v, c ∈ n.alphabet) →
    (DFA.run? d 0 u = DFA.run? d 0 v ↔ moves n first u = moves n first v)
  /-- Every set that a word leads to has one state of its own, and the word leads there. -/
  exists_name : ∃ name : StateSet → StateId,
    Set.BijOn name {s | ∃ w : Word, (∀ c ∈ w, c ∈ n.alphabet) ∧ moves n first w = s}
      {q | q ∈ d.states} ∧
    ∀ w : Word, (∀ c ∈ w, c ∈ n.alphabet) → DFA.run? d 0 w = some (name (moves n first w))
  /-- No set is taken up twice by the search, which lists a set when it takes it up. -/
  nodup_subsets : (subsets n first).Nodup
  /-- The sets taken up are those that words lead to. -/
  mem_subsets (s : StateSet) : s ∈ subsets n first ↔
    ∃ w : Word, (∀ c ∈ w, c ∈ n.alphabet) ∧ moves n first w = s
  /-- There are as many turns of the search as states. -/
  length_subsets : (subsets n first).length = d.stateCount

theorem Determined.tracks {n : NFA} {d : DFA} {start : StateId}
    (hd : Determined n (subsets n (closure n {start})) d)
    (h : Explored n start (subsets n (closure n {start}))) (hn : n.WellFormed)
    (hstart : n.initial = some start) : Tracks n (closure n {start}) d.renumber where
  total q hq c hc := by
    have htotal : DFA.Total d.renumber :=
      (hd.total h).relabel hd.wellFormed (Automaton.apart_number hd.wellFormed)
    obtain ⟨r, hedge⟩ := htotal q hq c ((hd.alphabet_eq h).symm ▸ hc)
    exact ⟨r, (Automaton.wellFormed_renumber hd.wellFormed).head_mem hedge,
      DFA.edge_iff_next?.mp hedge⟩
  alphabet := hd.alphabet_eq h
  mem_states _ := Automaton.mem_states_renumber hd.wellFormed
  initial := hd.initial_renumber
  stateCount_le := by
    rw [hd.stateCount_renumber]
    exact h.length_le hn (hn.initial_mem hstart)
  reachable q hq := by
    obtain ⟨s, hs, rfl⟩ := (hd.bijOn_name h).surjOn hq
    obtain ⟨w, hw, rfl⟩ := h.mem_iff.mp hs
    exact ⟨w, hd.run?_renumber h hw⟩
  run?_eq_iff {u v} hu hv := by
    rw [hd.run?_renumber h hu, hd.run?_renumber h hv, Option.some.injEq]
    exact (hd.bijOn_name h).injOn.eq_iff (h.mem_iff.mpr ⟨u, hu, rfl⟩) (h.mem_iff.mpr ⟨v, hv, rfl⟩)
  exists_name := by
    have hsets : {s | s ∈ subsets n (closure n {start})} =
        {s | ∃ w : Word, (∀ c ∈ w, c ∈ n.alphabet) ∧ moves n (closure n {start}) w = s} :=
      Set.ext fun s => h.mem_iff
    exact ⟨_, hsets ▸ hd.bijOn_name h, fun w hw => hd.run?_renumber h hw⟩
  nodup_subsets := h.nodup
  mem_subsets _ := h.mem_iff
  length_subsets := hd.stateCount_renumber.symm

/-- **The deterministic machine has one state for every set that words lead to.** -/
theorem determinize_tracks {n : NFA} {start : StateId} (hn : n.Built)
    (hstart : n.initial = some start) :
    ∃ d, (determinize n).outcome = .ok d ∧ Tracks n (closure n {start}) d := by
  obtain ⟨d, hok, hd⟩ := exists_determinize hstart
  exact ⟨d.renumber, hok, hd.tracks (explored_subsets n start) hn.wellFormed hstart⟩

/-- After one `a` or two the machine may be in the same states, and after a `b` in none. -/
theorem determinize_tracks_tangled : ∃ d, (determinize tangled).outcome = .ok d ∧
    DFA.run? d 0 ['a'] = DFA.run? d 0 ['a', 'a'] ∧ DFA.run? d 0 ['a'] ≠ DFA.run? d 0 ['b'] ∧
      d.stateCount ≤ 8 := by
  have hstart : tangled.initial = some 4 := by cbv
  have hcount : tangled.stateCount = 3 := by cbv
  have hletters : 'a' ∈ tangled.alphabet ∧ 'b' ∈ tangled.alphabet := by constructor <;> cbv
  have htwice : moves tangled (closure tangled {4}) ['a'] =
      moves tangled (closure tangled {4}) ['a', 'a'] := by cbv
  have hother : moves tangled (closure tangled {4}) ['a'] ≠
      moves tangled (closure tangled {4}) ['b'] := of_decide_eq_false (by cbv)
  obtain ⟨d, hok, hd⟩ := determinize_tracks built_tangled hstart
  refine ⟨d, hok, ?_, ?_, ?_⟩
  · exact (hd.run?_eq_iff (by simp [hletters]) (by simp [hletters])).mpr htwice
  · exact mt (hd.run?_eq_iff (by simp [hletters]) (by simp [hletters])).mp hother
  · have hle := hd.stateCount_le
    rwa [hcount] at hle

end NFA

end RegexMachine
