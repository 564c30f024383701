import RegexMachine.Proofs.Built
import RegexMachine.Proofs.DFA.Turns

/-!
# RegexMachine.Proofs.Minimization

**What minimizing a machine gives.** Whatever calls a machine was built by, if it has a start state
then minimizing it gives a complete machine over the same alphabet. The states of the result are
exactly the residual languages of the completed machine. On the way there as many turns are taken as
the result has states.

The words are the same if the machine had no need of a sink, or if there was a free name for one.
Past the last machine word there is none: what becomes of `ledge` then has another word.
-/

namespace RegexMachine

open Std

namespace DFA

open Automaton

variable {d : DFA} {start : StateId}

/-- A machine with missing edges and with a state that cannot be reached. -/
def sparse : DFA :=
  ((setInitial 0).on ((addEdge 2 1 'b').on ((addEdge 0 1 'a').on ((newState false).on
    ((newState true).on ((newState false).on Automaton.empty).2).2).2).2).2).2

theorem built_sparse : Built sparse :=
  .call (.addEdge 2 1 'b' (.addEdge 0 1 'a' (.call (.call (.call .empty (.newState false _))
    (.newState true _)) (.newState false _)))) (.setInitial 0)

/-- **Exactly the states that no word tells apart are merged.** So there is one state for every
residual language of the completed machine, and no two states have the same one. -/
theorem minimize_exact (hd : d.Built) (hstart : d.initial = some start) (ids : IdSpace) :
    ∃ total m, complete d ids = .ok total ∧ (minimize d ids).outcome = .ok m ∧
      (∀ p ∈ total.states, ∀ q ∈ total.states,
        ((∃ block ∈ (refined total).blocks, p ∈ block ∧ q ∈ block) ↔
          ∀ w : Word, (∀ c ∈ w, c ∈ total.alphabet) →
            acceptsFrom total p w = acceptsFrom total q w)) ∧
      m.stateCount = (residual total '' {q | q ∈ total.states}).ncard ∧
      ∀ i ∈ m.states, ∀ j ∈ m.states, i ≠ j → residual m i ≠ residual m j := by
  obtain ⟨total, m, hm, hok⟩ := exists_minimize hd.wellFormed hstart ids
  have hwf := wellFormed_renumber hm.wellFormed
  have hreduced : Reduced m.renumber :=
    hm.reduced.relabel hm.wellFormed (apart_number hm.wellFormed)
  refine ⟨total, m.renumber, hm.complete, hok, fun p hp q hq => ?_, ?_, fun i hi j hj hij heq => ?_⟩
  · rw [← alike_iff hm.filled.wellFormed]
    exact together_iff_alike hm.filled.wellFormed hm.filled.total hp hq
  · rw [stateCount_renumber hm.wellFormed, hm.stateCount_eq]
  · exact hij (hreduced i hi j hj ((residual_eq_iff hwf).mp heq))

/-- A machine with two final states that are never left. -/
def twoEnds : DFA :=
  ((setInitial 0).on ((addEdge 0 2 'b').on ((addEdge 0 1 'a').on ((newState true).on
    ((newState true).on ((newState false).on Automaton.empty).2).2).2).2).2).2

theorem built_twoEnds : Built twoEnds :=
  .call (.addEdge 0 2 'b' (.addEdge 0 1 'a' (.call (.call (.call .empty (.newState false _))
    (.newState true _)) (.newState true _)))) (.setInitial 0)

/-- The two are in one block, so no word tells them apart. -/
theorem minimize_exact_twoEnds : ∃ total : DFA, complete twoEnds = .ok total ∧
    ∀ w : Word, (∀ c ∈ w, c ∈ total.alphabet) →
      acceptsFrom total 1 w = acceptsFrom total 2 w := by
  have hstart : twoEnds.initial = some 0 := by cbv
  obtain ⟨total, m, hok, -, hblocks, -⟩ := minimize_exact built_twoEnds hstart .words
  have htogether : ((complete twoEnds).toOption.any fun t =>
      t.states.contains 1 && t.states.contains 2 &&
        (refined t).blocks.any fun block => decide (1 ∈ block ∧ 2 ∈ block)) = true := by cbv
  simp only [hok, Except.toOption, Option.any_some, Bool.and_eq_true, List.any_eq_true,
    decide_eq_true_eq, ExtTreeSet.contains_iff_mem] at htogether
  obtain ⟨⟨hone, htwo⟩, hblock⟩ := htogether
  exact ⟨total, hok, (hblocks 1 hone 2 htwo).mp hblock⟩

/-- **Every turn leaves a division of the states, and there are as many turns as blocks in the
end.** So there are no more turns than the completed machine has states. -/
theorem minimize_turns (hd : d.Built) (hstart : d.initial = some start) (ids : IdSpace) :
    ∃ total m, complete d ids = .ok total ∧ (minimize d ids).outcome = .ok m ∧
      (∀ r, Refinement.Arises total r → Refinement.Divides total r) ∧
      Refinement.Reached total (refined total).blocks.length (refined total) ∧
      (∀ k r, Refinement.Reached total k r →
        (r.pending = [] ↔ k = (refined total).blocks.length)) ∧
      (refined total).blocks.length ≤ total.stateCount ∧
      m.stateCount = (refined total).blocks.length := by
  obtain ⟨total, m, hm, hok⟩ := exists_minimize hd.wellFormed hstart ids
  have hwf := hm.filled.wellFormed
  have htotal := hm.filled.total
  obtain ⟨hend, hnil⟩ := Refinement.reached_refined total
  refine ⟨total, m.renumber, hm.complete, hok, fun r hr => hr.divides hwf htotal, hend,
    fun k r hr => ?_, (valid_refined hwf htotal).length_blocks_le, ?_⟩
  · constructor
    · intro hdone
      have hpending := hr.tally.pending
      rw [hdone, List.length_nil, Nat.zero_add] at hpending
      rw [hpending, hr.eq_refined hdone]
    · rintro rfl
      rw [hr.unique hend, hnil]
  · rw [stateCount_renumber hm.wellFormed, hm.merged.stateCount_eq]

/-- Three turns, though with the sink there are four states. -/
theorem minimize_turns_twoEnds : ∃ total m : DFA, complete twoEnds = .ok total ∧
    (minimize twoEnds).outcome = .ok m ∧ total.stateCount = 4 ∧ m.stateCount = 3 ∧
    Refinement.Reached total 3 (refined total) ∧ Refinement.Divides total (refined total) := by
  have hstart : twoEnds.initial = some 0 := by cbv
  obtain ⟨total, m, hcomplete, hok, hdivides, hend, -, -, hcount⟩ :=
    minimize_turns built_twoEnds hstart .words
  have hsizes : ((complete twoEnds).toOption.any fun t =>
      decide (t.stateCount = 4 ∧ (refined t).blocks.length = 3)) = true := by cbv
  simp only [hcomplete, Except.toOption, Option.any_some, decide_eq_true_eq] at hsizes
  rw [hsizes.2] at hcount hend
  exact ⟨total, m, hcomplete, hok, hsizes.1, hcount, hend, hdivides _ (.between hend)⟩

end DFA

end RegexMachine
