import RegexMachine.Automaton.Renumber
import RegexMachine.DFA.Basic
import RegexMachine.NFA.Simulation
import RegexMachine.Traced

/-!
# RegexMachine.NFA.Subset

**Making a machine deterministic.** The states of the deterministic machine stand for the sets of
states that the nondeterministic one may be in. `subsets` lists them in breadth-first order from the
set before the first character on, trying the characters of the alphabet in order; the empty set is
one of them if it comes up. A set is named by its place in the list: the machine is built up from
nothing, so the name after the last is the number of the states, and that goes round nowhere.
-/

namespace RegexMachine

open Std

namespace NFA

/-! ### The sets of states -/

/-- The sets reached from a set by one character, in the order of the alphabet. -/
def nextSubsets (n : NFA) (s : StateSet) : List StateSet :=
  n.alphabet.toList.map (move n s)

theorem confined_nextSubsets (n : NFA) : Confined (nextSubsets n) := by
  obtain ⟨sets, hsets⟩ := StateSet.exists_list_of_subsets n.allHeads
  refine ⟨sets, fun s t ht => hsets t fun q hq => ?_⟩
  obtain ⟨c, -, rfl⟩ := List.mem_map.1 ht
  exact mem_allHeads_of_mem_move hq

/-- The sets of states that can be reached from one of them, in breadth-first order. -/
def subsets (n : NFA) (first : StateSet) : List StateSet :=
  search (nextSubsets n) (confined_nextSubsets n) [first]

/-! ### The deterministic machine -/

/-- Builds the machine whose states are the places of the sets in the list. -/
def buildSubsets (n : NFA) (sets : List StateSet) : Edit Char StateId Unit := do
  sets.forM fun s => do
    let _ ← Automaton.newState (hasFinal n s) .naturals
  Automaton.setInitial 0
  sets.zipIdx.forM fun (s, place) =>
    n.alphabet.toList.forM fun c => DFA.addEdge place (sets.idxOf (move n s c)) c

/-- A record for every set but the first, in the order in which they come up. -/
def discoveries (sets : List StateSet) : List Record :=
  (sets.zipIdx.drop 1).map fun (s, place) => .discovered s place

/-- The deterministic machine over a list of sets, its states named by their places. -/
def subsetMachine (n : NFA) (sets : List StateSet) : Except Fault DFA :=
  (buildSubsets n sets).result .empty

/-- The deterministic machine with the same words. -/
def determinize (n : NFA) : Traced DFA := do
  let initial ← Traced.silent n.start
  let sets := subsets n (closure n {initial})
  Traced.report (discoveries sets)
  let d ← Traced.silent (subsetMachine n sets)
  Traced.report [.determinized n.stateCount d.stateCount]
  return d.renumber

end NFA

end RegexMachine
