import RegexMachine.Automaton.Renumber
import RegexMachine.DFA.Refinement
import RegexMachine.Traced

/-!
# RegexMachine.DFA.Minimal

**The smallest machine for a language.** `minimize` completes a machine, divides its states as far
as words can tell them apart, and makes one state of every block. All states of a block have edges
into the same blocks, so the edges of any one of them, here the least, serve for the block. The
states of the result are numbered in breadth-first order.
-/

namespace RegexMachine

open Std

namespace DFA

/-! ### One state for a block -/

/-- The place of the block that holds a state. -/
def blockOf (blocks : List Block) (q : StateId) : Except Fault StateId :=
  match blocks.findIdx? (q ∈ ·) with
  | some place => .ok place
  | none => .error (.unknownState q)

/-- The edges of the least state of a block. -/
def edgesOfBlock (d : DFA) (block : Block) : List (Char × StateId) :=
  (block.head?.bind d.edgesFrom?).elim [] (·.toList)

/-- Builds the machine whose states are the places of the blocks. -/
def quotient (d : DFA) (blocks : List Block) (initial : StateId) : Edit Char StateId Unit := do
  blocks.zipIdx.forM fun (block, place) =>
    Automaton.addState place (block.any d.isFinal)
  blocks.zipIdx.forM fun (block, place) =>
    (edgesOfBlock d block).forM fun (c, q) => do
      addEdge place (← Edit.answer (blockOf blocks q)) c
  Automaton.setInitial (← Edit.answer (blockOf blocks initial))

/-! ### Minimizing -/

/-- The smallest complete machine with the same words. -/
def minimize (d : DFA) (ids : IdSpace := .words) : Traced DFA := do
  let total ← Traced.silent (complete d ids)
  let initial ← Traced.silent total.start
  let division := refined total
  Traced.report division.records
  let minimal ← Traced.silent ((quotient total division.blocks initial).result .empty)
  Traced.report [.minimized d.stateCount minimal.stateCount]
  return minimal.renumber

end DFA

end RegexMachine
