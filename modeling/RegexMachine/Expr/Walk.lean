import RegexMachine.Expr.Spans

/-!
# RegexMachine.Expr.Walk

**What an expression matches inside a word.** `spans word e` is the set of spans of `word` that
match `e`, computed from the operands upwards. `Walk` computes the same set without recursion: it
keeps a stack of visits still to make and a stack of the sets found so far, so neither a deep
expression nor a long word needs a deep call stack.

A node is visited twice. On entry it schedules its operands, the left one first, and its own exit
behind them; on exit it takes the sets of its operands off the second stack and puts its own on.
-/

namespace RegexMachine

open Std

namespace Spans

/-- The spans of any number of repetitions: the empty ones and those of `inner` are grown by
`inner`. -/
def star (length : Nat) (inner : Spans) : Spans :=
  chains (empties length ∪ inner) inner

/-- The spans of one or more repetitions. -/
def plus (inner : Spans) : Spans :=
  chains inner inner

end Spans

namespace Expr

/-- The spans of `word` that match the expression, from the operands upwards. -/
def spans (word : Word) : Expr → Spans
  | .empty => ∅
  | .lambda => Spans.empties word.length
  | .char c => Spans.ofChar word c
  | .concat l r => Spans.join (spans word l) (spans word r)
  | .union l r => spans word l ∪ spans word r
  | .star e => Spans.star word.length (spans word e)
  | .plus e => Spans.plus (spans word e)

end Expr

/-! ### Visits -/

/-- A visit still to make. -/
inductive Visit where
  /-- Schedule the operands, then the exit. -/
  | enter (e : Expr)
  /-- Put the sets of the operands together. -/
  | exit (e : Expr)
  deriving DecidableEq

namespace Visit

/-- The visits that an entry schedules, the first one in front. -/
def schedule (e : Expr) : List Visit :=
  match e with
  | .empty | .lambda | .char _ => [.exit e]
  | .concat l r | .union l r => [.enter l, .enter r, .exit e]
  | .star i | .plus i => [.enter i, .exit e]

/-- Puts the set of a node in place of the sets of its operands, the last operand in front. An
operand whose set is not there counts as matching nothing. -/
def combine (word : Word) (e : Expr) (found : List Spans) : List Spans :=
  match e with
  | .empty => ∅ :: found
  | .lambda => Spans.empties word.length :: found
  | .char c => Spans.ofChar word c :: found
  | .concat _ _ => Spans.join (found.tail.headD ∅) (found.headD ∅) :: found.tail.tail
  | .union _ _ => (found.tail.headD ∅ ∪ found.headD ∅) :: found.tail.tail
  | .star _ => Spans.star word.length (found.headD ∅) :: found.tail
  | .plus _ => Spans.plus (found.headD ∅) :: found.tail

/-- The number of visits that a visit stands for, itself included. -/
def cost : Visit → Nat
  | .enter e => 2 * e.nodeCount
  | .exit _ => 1

/-- The number of visits that some visits stand for, themselves included. -/
def totalCost : List Visit → Nat
  | [] => 0
  | v :: vs => v.cost + totalCost vs

@[simp] theorem totalCost_nil : totalCost [] = 0 := rfl

@[simp] theorem totalCost_cons (v : Visit) (vs : List Visit) :
    totalCost (v :: vs) = v.cost + totalCost vs := rfl

@[simp] theorem totalCost_append (us vs : List Visit) :
    totalCost (us ++ vs) = totalCost us + totalCost vs := by
  induction us with
  | nil => simp
  | cons u us ih => simp [ih, Nat.add_assoc]

/-- What an entry schedules is one visit less than the entry stands for. -/
theorem totalCost_schedule (e : Expr) : totalCost (schedule e) + 1 = (enter e).cost := by
  cases e <;> simp [schedule, cost, Expr.nodeCount] <;> omega

end Visit

/-! ### The walk -/

/-- A walk under way: the visits still to make and the sets found, the latest in front of each. -/
structure Walk where
  pending : List Visit
  found : List Spans

namespace Walk

/-- The walk that is about to enter an expression. -/
def start (e : Expr) : Walk := ⟨[.enter e], []⟩

/-- The number of visits still to make, those not yet scheduled included. -/
def cost (w : Walk) : Nat := Visit.totalCost w.pending

/-- Makes the next visit. -/
def step (word : Word) (w : Walk) : Walk :=
  match w.pending with
  | [] => w
  | .enter e :: rest => ⟨Visit.schedule e ++ rest, w.found⟩
  | .exit e :: rest => ⟨rest, Visit.combine word e w.found⟩

/-- Every visit made is one visit less to make. -/
theorem cost_step (word : Word) {w : Walk} (h : w.pending ≠ []) :
    (w.step word).cost + 1 = w.cost := by
  obtain ⟨pending, found⟩ := w
  match pending with
  | [] => exact absurd rfl h
  | .exit e :: rest => simp [step, cost, Visit.cost, Nat.add_comm]
  | .enter e :: rest =>
      have := Visit.totalCost_schedule e
      simp only [step, cost, Visit.totalCost_append, Visit.totalCost_cons]
      omega

/-- Makes visits until none is left. -/
def run (word : Word) (w : Walk) : Walk :=
  if h : w.pending = [] then w
  else
    have _ := cost_step word h
    run word (w.step word)
termination_by w.cost
decreasing_by omega

end Walk

namespace Expr

/-- The spans of `word` that match the expression, found by a walk. -/
def walkSpans (word : Word) (e : Expr) : Spans :=
  ((Walk.start e).run word).found.headD ∅

/-- Whether the whole word matches the expression, decided on the expression alone. -/
def matchesWord (e : Expr) (word : Word) : Bool :=
  (walkSpans word e).contains ⟨0, word.length⟩

end Expr

end RegexMachine
