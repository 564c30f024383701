import RegexMachine.Automaton.Edit
import RegexMachine.Expr.Basic

/-!
# RegexMachine.DFA.Basic

**Deterministic machines.** A state has at most one edge for a character, and the edge leads to one
state. A word is read character by character from the start state on; where an edge is missing the
word is rejected.

`complete` fills in the missing edges. They all lead to the state under the name after the greatest
one, the sink. As long as that name is free the sink is new, not final and never left, so nothing
new is accepted.
-/

namespace RegexMachine

open Std

/-- A machine with at most one edge for a state and a character. -/
abbrev DFA := Automaton Char StateId

namespace DFA

/-! ### Edges -/

/-- The machine with an edge added or redirected. -/
def withEdge (d : DFA) (source target : StateId) (c : Char) : DFA :=
  { d with
    edges := d.edges.alter source fun out => some ((out.getD ∅).insert c target)
    alphabet := d.alphabet.insert c }

/-- Adds an edge between two states, in place of the one there for the character, if any. -/
def addEdge (source target : StateId) (c : Char) : Edit Char StateId Unit := do
  Automaton.requireState source
  Automaton.requireState target
  Edit.change (withEdge · source target c)

/-- The state that the edge of `q` for the character `c` leads to. -/
def next? (d : DFA) (q : StateId) (c : Char) : Option StateId :=
  d.target? q c

/-- An edge added leads where it was sent; all other edges stay. -/
theorem next?_withEdge (d : DFA) (source target q : StateId) (c k : Char) :
    next? (withEdge d source target c) q k =
      if source = q ∧ c = k then some target else next? d q k := by
  simp only [next?, Automaton.target?, Automaton.edgesFrom?, withEdge, ExtTreeMap.getElem?_alter,
    Nat.compare_eq_eq]
  by_cases hq : source = q
  · subst hq
    by_cases hk : c = k
    · simp [hk]
    · cases d.edges[source]? <;> simp [ExtTreeMap.getElem?_insert, hk]
  · simp [hq]

/-! ### Reading words -/

/-- The state reached from `q` by reading a word, if no edge is missing on the way. -/
def run? (d : DFA) (q : StateId) : Word → Option StateId
  | [] => some q
  | c :: w => (next? d q c).bind fun r => run? d r w

@[simp] theorem run?_nil (d : DFA) (q : StateId) : run? d q [] = some q := rfl

@[simp] theorem run?_cons (d : DFA) (q : StateId) (c : Char) (w : Word) :
    run? d q (c :: w) = (next? d q c).bind fun r => run? d r w := rfl

theorem run?_append (d : DFA) (q : StateId) (u v : Word) :
    run? d q (u ++ v) = (run? d q u).bind fun r => run? d r v := by
  induction u generalizing q with
  | nil => rfl
  | cons c u ih =>
      simp only [List.cons_append, run?_cons, Option.bind_assoc]
      exact congrArg _ (funext fun r => ih r)

/-- Whether a word leads from `q` to a final state. -/
def acceptsFrom (d : DFA) (q : StateId) (w : Word) : Bool :=
  (run? d q w).any d.isFinal

/-- Whether a word leads from the start state to a final one. -/
def accepts (d : DFA) (w : Word) : Bool :=
  d.initial.any fun q => acceptsFrom d q w

/-! ### Completing -/

/-- Whether every state has an edge for every character of the alphabet. -/
def isComplete (d : DFA) : Bool :=
  d.states.toList.all fun q => d.alphabet.toList.all fun c => (next? d q c).isSome

/-- The pairs of a state and a character of the alphabet that lack an edge. -/
def gaps (d : DFA) : List (StateId × Char) :=
  d.states.toList.flatMap fun q =>
    (d.alphabet.toList.filter fun c => next? d q c = none).map fun c => (q, c)

/-- Sends every missing edge of `d` to a new state that is never left. -/
def addSink (d : DFA) (ids : IdSpace := .words) : Edit Char StateId Unit := do
  let sink ← Automaton.newState false ids
  (gaps d).forM fun (q, c) => addEdge q sink c
  d.alphabet.toList.forM fun c => addEdge sink sink c

/-- The machine with no edge missing. A machine that lacks none is left as it is. -/
def complete (d : DFA) (ids : IdSpace := .words) : Except Fault DFA :=
  if isComplete d then .ok d else (addSink d ids).result d

end DFA

end RegexMachine
