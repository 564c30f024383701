import RegexMachine.Automaton.Edit
import RegexMachine.Expr.Basic

/-!
# RegexMachine.NFA.Basic

**Nondeterministic machines.** An edge carries a character or is an empty move, which reads nothing,
and a state may have edges for one symbol to any number of states. The symbols are ordered: the
characters by code point, and the empty move behind them all. The numbering of the states of a
machine follows that order.
-/

namespace RegexMachine

open Std

/-- What is read along an edge. -/
inductive Symbol where
  /-- One character. -/
  | literal (c : Char)
  /-- Nothing. -/
  | epsilon
  deriving DecidableEq, Repr

namespace Symbol

/-- The characters by code point, then the empty move. -/
instance : Ord Symbol where
  compare
    | .literal a, .literal b => compare a b
    | .literal _, .epsilon => .lt
    | .epsilon, .literal _ => .gt
    | .epsilon, .epsilon => .eq

instance : TransOrd Symbol where
  eq_swap {a b} :=
    match a, b with
    | .literal a, .literal b => (OrientedCmp.eq_swap : compare a b = (compare b a).swap)
    | .literal _, .epsilon | .epsilon, .literal _ | .epsilon, .epsilon => rfl
  isLE_trans {a b c} hab hbc :=
    match a, b, c with
    | .literal a, .literal b, .literal c =>
        have hab : (compare a b).isLE = true := hab
        have hbc : (compare b c).isLE = true := hbc
        show (compare a c).isLE = true from TransCmp.isLE_trans hab hbc
    | .literal _, _, .epsilon | .epsilon, _, .epsilon => rfl
    | .epsilon, .literal _, .literal _ => hab
    | .epsilon, .epsilon, .literal _ | .literal _, .epsilon, .literal _ => nomatch hbc

instance : LawfulEqOrd Symbol where
  eq_of_compare {a b} h :=
    match a, b with
    | .literal a, .literal b =>
        have h : compare a b = .eq := h
        congrArg literal (LawfulEqCmp.eq_of_compare h)
    | .literal _, .epsilon | .epsilon, .literal _ => nomatch h
    | .epsilon, .epsilon => rfl

/-- The characters that a symbol stands for: itself, or none. -/
def chars : Symbol → Word
  | .literal c => [c]
  | .epsilon => []

end Symbol

/-- A machine with empty moves and any number of edges for a state and a symbol. -/
abbrev NFA := Automaton Symbol StateSet

namespace NFA

/-- The machine with one more target on an edge. The alphabet gains the character of the edge. -/
def withEdge (n : NFA) (source target : StateId) (symbol : Symbol) : NFA :=
  { n with
    edges := n.edges.alter source fun out =>
      some ((out.getD ∅).alter symbol fun targets => some ((targets.getD ∅).insert target))
    alphabet := n.alphabet.insertMany symbol.chars }

/-- Adds an edge between two states. -/
def addEdge (source target : StateId) (symbol : Symbol) : Edit Symbol StateSet Unit := do
  Automaton.requireState source
  Automaton.requireState target
  Edit.change (withEdge · source target symbol)

/-- The states that the edges of `q` for a symbol lead to. -/
def targets (n : NFA) (q : StateId) (symbol : Symbol) : StateSet :=
  (n.target? q symbol).getD ∅

/-- An edge gains the target added; all other edges stay. -/
theorem target?_withEdge (n : NFA) (source target q : StateId) (symbol k : Symbol) :
    (withEdge n source target symbol).target? q k =
      if source = q ∧ symbol = k then some ((targets n q k).insert target) else n.target? q k := by
  simp only [targets, Automaton.target?, Automaton.edgesFrom?, withEdge, ExtTreeMap.getElem?_alter,
    Nat.compare_eq_eq]
  by_cases hq : source = q
  · subst hq
    cases n.edges[source]? with
    | none => simp [ExtTreeMap.getElem?_alter]
    | some out => by_cases hk : symbol = k <;> simp [ExtTreeMap.getElem?_alter, hk]
  · simp [hq]

theorem mem_targets_withEdge (n : NFA) (source target q r : StateId) (symbol k : Symbol) :
    r ∈ targets (withEdge n source target symbol) q k ↔
      (source = q ∧ symbol = k ∧ target = r) ∨ r ∈ targets n q k := by
  rw [targets, target?_withEdge, ← and_assoc]
  by_cases h : source = q ∧ symbol = k
  · simp [h]
  · simp [h, targets]

theorem mem_allHeads_of_mem_targets {n : NFA} {q r : StateId} {symbol : Symbol}
    (h : r ∈ targets n q symbol) : r ∈ n.allHeads := by
  unfold targets at h
  cases ht : n.target? q symbol with
  | none => simp [ht] at h
  | some t =>
      refine Automaton.mem_allHeads_of_mem_target ht ?_
      simpa [ht, Target.members] using h

end NFA

end RegexMachine
