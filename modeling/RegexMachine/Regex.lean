import RegexMachine.DFA.Minimal
import RegexMachine.Expr.Walk
import RegexMachine.NFA.Combine
import RegexMachine.NFA.Subset

/-!
# RegexMachine.Regex

**From an expression to a machine.** `Expr.toNFA` combines nondeterministic machines along the tree,
and `Expr.compile` makes the result deterministic and as small as possible. A `Regex` keeps an
expression together with its compiled machine, which decides whole words by reading them once; the
expression alone decides them too.

The machines combined along the tree have their states numbered without a gap. A name made on the
way is then no greater than the number of states in hand, so it is a natural number that goes round
nowhere.
-/

namespace RegexMachine

namespace Expr

/-- A nondeterministic machine for the expression. -/
def toNFA : Expr → Except Fault NFA
  | .empty => .ok NFA.ofEmpty
  | .lambda => .ok NFA.ofLambda
  | .char c => .ok (NFA.ofChar c)
  | .concat l r => do
      let left ← toNFA l
      let right ← toNFA r
      (NFA.concat right .naturals).result left
  | .union l r => do
      let left ← toNFA l
      let right ← toNFA r
      (NFA.union right .naturals).result left
  | .star e => do
      let inner ← toNFA e
      (NFA.star .naturals).result inner
  | .plus e => do
      let inner ← toNFA e
      (NFA.plus .naturals).result inner

/-- The smallest deterministic machine for the expression, complete over its characters. -/
def compile (e : Expr) : Traced DFA := do
  let n ← Traced.silent e.toNFA
  Traced.report [.built n.stateCount e]
  let d ← NFA.determinize n
  DFA.minimize d

end Expr

/-- A compiled expression. -/
structure Regex where
  /-- The expression. -/
  expr : Expr
  /-- Its machine. -/
  machine : DFA

namespace Regex

/-- Compiles an expression. -/
def ofExpr (e : Expr) : Traced Regex := do
  let machine ← e.compile
  Traced.report [.compiled e machine.stateCount]
  return ⟨e, machine⟩

/-- Whether the whole word matches, decided by the machine. -/
def isMatch (r : Regex) (w : Word) : Bool := DFA.accepts r.machine w

/-- Whether the whole word matches, decided on the expression alone. -/
def isMatchByExpr (r : Regex) (w : Word) : Bool := r.expr.matchesWord w

/-- A compiled expression is written like the expression. -/
instance : ToString Regex where
  toString r := toString r.expr

end Regex

end RegexMachine
