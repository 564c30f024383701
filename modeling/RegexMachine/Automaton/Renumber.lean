import RegexMachine.Automaton.Edit
import RegexMachine.Search

/-!
# RegexMachine.Automaton.Renumber

**Renaming and numbering states.** `relabel f` gives every state a new name: among the states, as
the source of an edge and inside its target, as the start state and among the final ones. The
alphabet stays. Moving all names up by an offset and giving one state another name are renamings of
this kind.

A renaming that gives two states one name merges them; where both have outgoing edges, those of the
greater name are kept. The renamings that machines go through give different states different names.

`renumber` names the states `0, 1, 2, …` in breadth-first order: the start state first, then the
states its edges lead to, edge by edge in the order of their keys, and so on. The states that cannot
be reached follow in ascending order. `order` is that list of states, and a state is numbered by its
place in it.
-/

namespace RegexMachine

open Std

namespace Automaton

variable {κ τ : Type} [Ord κ] [TransOrd κ] [Target τ]

/-! ### Renaming -/

/-- The machine with every state renamed. -/
def relabel (f : StateId → StateId) (m : Automaton κ τ) : Automaton κ τ where
  states := StateSet.image f m.states
  alphabet := m.alphabet
  edges := ExtTreeMap.ofList
    (m.edges.toList.map fun (q, out) => (f q, out.map fun _ t => Target.relabel f t))
  initial := m.initial.map f
  finals := StateSet.image f m.finals

/-- The machine with every state moved up by an offset. -/
def shift (offset : Nat) (m : Automaton κ τ) (ids : IdSpace := .words) : Automaton κ τ :=
  m.relabel (ids.add · offset)

/-- Gives the state `old` the name `new`. The name must be free, unless it is the old one. -/
def rename (old new : StateId) : Edit κ τ Unit := do
  requireState old
  if old = new then
    pure ()
  else if ← Edit.look (·.states.contains new) then
    Edit.refuse (.duplicateState new)
  else
    Edit.change (relabel fun q => if q = old then new else q)

/-! ### Numbering -/

theorem confined_successors (m : Automaton κ τ) : Confined m.successors :=
  ⟨m.allHeads, fun _ _ h => mem_allHeads_of_mem_successors h⟩

/-- The states that can be reached from the start state, in breadth-first order. -/
def reachable (m : Automaton κ τ) : List StateId :=
  search m.successors m.confined_successors m.initial.toList

/-- The states in the order in which they are numbered: the reachable ones breadth-first, then the
others ascending. -/
def order (m : Automaton κ τ) : List StateId :=
  let found := m.reachable
  found ++ m.states.toList.filter (· ∉ found)

/-- The number of a state: its place in the order. -/
def number (m : Automaton κ τ) (q : StateId) : StateId := m.order.idxOf q

/-- The machine with its states numbered from zero in breadth-first order. -/
def renumber (m : Automaton κ τ) : Automaton κ τ :=
  let order := m.order
  m.relabel order.idxOf

theorem renumber_eq_relabel (m : Automaton κ τ) : m.renumber = m.relabel m.number := rfl

end Automaton

end RegexMachine
