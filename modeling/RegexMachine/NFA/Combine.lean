import RegexMachine.Automaton.Renumber
import RegexMachine.NFA.Basic

/-!
# RegexMachine.NFA.Combine

**Machines out of machines.** Three small machines match nothing, the empty word, and one character.
There is a way of combining machines for each way of combining expressions: a second machine is
moved up behind the first one's states and taken in, new start and accepting states are added where
needed, and empty moves connect the parts. The states of the result are numbered anew in
breadth-first order.

A combination is refused if a machine has no start state, and a machine is not taken in if moving it
up goes round and back onto states of the first one. Nothing has been changed then yet.
-/

namespace RegexMachine

open Std

namespace NFA

/-! ### The simplest machines -/

/-- Accepts nothing: the final state cannot be reached. -/
def ofEmpty : NFA where
  states := ExtTreeSet.ofList [0, 1]
  alphabet := ∅
  edges := ∅
  initial := some 0
  finals := {1}

/-- Accepts the empty word: one state, start and final at once. -/
def ofLambda : NFA where
  states := {0}
  alphabet := ∅
  edges := ∅
  initial := some 0
  finals := {0}

/-- Accepts one character: an edge from the start state to the final one. -/
def ofChar (c : Char) : NFA where
  states := ExtTreeSet.ofList [0, 1]
  alphabet := {c}
  edges := ExtTreeMap.ofList [(0, ExtTreeMap.ofList [(Symbol.literal c, {1})])]
  initial := some 0
  finals := {1}

/-! ### Combinations -/

/-- Takes in another machine, moved up behind the states already there, and answers its start state
and its final states under their new names. -/
def takeIn (other : NFA) (ids : IdSpace := .words) : Edit Symbol StateSet (StateId × StateSet) := do
  let moved := other.shift (← Edit.look (·.nextFree ids)) ids
  let initial ← Edit.answer moved.start
  Automaton.absorb moved
  return (initial, moved.finals)

/-- Appends another machine. Empty moves lead from the final states to its start state, and only its
final states stay final. -/
def concat (other : NFA) (ids : IdSpace := .words) : Edit Symbol StateSet Unit := do
  let initial ← Automaton.requireInitial
  let finals ← Edit.look (·.finals)
  let (otherInitial, otherFinals) ← takeIn other ids
  finals.toList.forM fun q => addEdge q otherInitial .epsilon
  Automaton.setFinals otherFinals
  Automaton.setInitial initial
  Edit.change Automaton.renumber

/-- Adds another machine as an alternative. Empty moves lead from a new start state to both start
states. -/
def union (other : NFA) (ids : IdSpace := .words) : Edit Symbol StateSet Unit := do
  let initial ← Automaton.requireInitial
  let (otherInitial, _) ← takeIn other ids
  let fork ← Automaton.newState false ids
  addEdge fork initial .epsilon
  addEdge fork otherInitial .epsilon
  Automaton.setInitial fork
  Edit.change Automaton.renumber

/-- Repeats the machine. A new start state leads in, and from every final state empty moves lead
back to the old start state and out to a new state, which alone is final. With `skip`, an empty move
also leads from the new start state straight out. -/
def loop (skip : Bool) (ids : IdSpace := .words) : Edit Symbol StateSet Unit := do
  let initial ← Automaton.requireInitial
  let finals ← Edit.look (·.finals)
  let entry ← Automaton.newState false ids
  let exit ← Automaton.newState false ids
  addEdge entry initial .epsilon
  if skip then addEdge entry exit .epsilon
  finals.toList.forM fun q => do
    addEdge q exit .epsilon
    addEdge q initial .epsilon
  Automaton.setFinals {exit}
  Automaton.setInitial entry
  Edit.change Automaton.renumber

/-- Repeats the machine any number of times. -/
def star (ids : IdSpace := .words) : Edit Symbol StateSet Unit := loop true ids

/-- Repeats the machine one or more times. -/
def plus (ids : IdSpace := .words) : Edit Symbol StateSet Unit := loop false ids

end NFA

end RegexMachine
