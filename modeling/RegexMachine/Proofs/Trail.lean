import Mathlib.Order.Bounds.Defs
import Mathlib.Order.WellFounded
import RegexMachine.Proofs.Automaton.Renumber
import RegexMachine.Proofs.NFA.Simulation

/-!
# RegexMachine.Proofs.Trail

**Edge by edge.** A trail is a path with all its edges written down, each by its key and the state
it leads to. What a trail spells is read off the keys, where empty moves are passed over, and how
far it goes is the number of its edges.

So there are two things to say in terms of trails. A nondeterministic machine, which is run by
following sets of states, accepts exactly the words that trails from the start state to a final
state spell. And a state that can be reached has a distance from the start state: the least number
of edges that lead to it.
-/

namespace RegexMachine

open Std

namespace Automaton

variable {κ τ : Type} [Ord κ] [TransOrd κ] [Target τ]

/-! ### Trails -/

/-- `m.Trail p steps q`: the steps lead from `p` to `q`, one edge after the other. A step is the key
of an edge and the state that the edge leads to. -/
inductive Trail (m : Automaton κ τ) : StateId → List (κ × StateId) → StateId → Prop
  /-- No step. -/
  | nil (q : StateId) : Trail m q [] q
  /-- One step, and a trail behind it. -/
  | cons {p q r : StateId} {k : κ} {steps : List (κ × StateId)} :
      m.Edge p k q → Trail m q steps r → Trail m p ((k, q) :: steps) r

theorem Trail.snoc {m : Automaton κ τ} {p q r : StateId} {steps : List (κ × StateId)} {k : κ}
    (h : m.Trail p steps q) (hedge : m.Edge q k r) : m.Trail p (steps ++ [(k, r)]) r := by
  induction h with
  | nil => exact .cons hedge (.nil r)
  | cons hfirst _ ih => exact .cons hfirst (ih hedge)

variable [Lettered κ]

/-- What is read along the edges of a trail. -/
def spelled (steps : List (κ × StateId)) : Word :=
  steps.flatMap fun step => Lettered.letters step.1

variable {m : Automaton κ τ} {p q : StateId} {w : Word}

theorem Trail.path {steps : List (κ × StateId)} (h : m.Trail p steps q) :
    m.Path p (spelled steps) q := by
  induction h with
  | nil => exact .nil _
  | cons hedge _ ih => exact .cons hedge ih

/-- A path is a trail of which only the word is known. -/
theorem path_iff_exists_trail : m.Path p w q ↔ ∃ steps, m.Trail p steps q ∧ spelled steps = w := by
  constructor
  · intro h
    induction h with
    | nil => exact ⟨[], .nil _, rfl⟩
    | cons hedge _ ih =>
        obtain ⟨steps, htrail, rfl⟩ := ih
        exact ⟨_, .cons hedge htrail, rfl⟩
  · intro h
    obtain ⟨steps, htrail, rfl⟩ := h
    exact htrail.path

/-! ### Distance -/

/-- `i` edges lead from the start state to `q`, and fewer do not. -/
def AtDistance (m : Automaton κ τ) (q : StateId) (i : Nat) : Prop :=
  IsLeast {j | ∃ start steps, m.initial = some start ∧ m.Trail start steps q ∧ steps.length = j} i

end Automaton

namespace NFA

open Automaton

/-- **A word is accepted exactly if it is spelled by a trail** from the start state to a final
state. There may be any number of empty moves in it, before, between and behind the characters. -/
theorem accepts_iff_exists_trail (n : NFA) (w : Word) : accepts n w = true ↔
    ∃ start, n.initial = some start ∧
      ∃ steps, ∃ q ∈ n.finals, n.Trail start steps q ∧ spelled steps = w := by
  rw [accepts_iff, Accepts]
  refine exists_congr fun start => and_congr_right fun _ => ?_
  simp only [path_iff_exists_trail]
  constructor
  · intro h
    obtain ⟨q, hq, steps, htrail⟩ := h
    exact ⟨steps, q, hq, htrail⟩
  · intro h
    obtain ⟨steps, q, hq, htrail⟩ := h
    exact ⟨q, hq, steps, htrail⟩

end NFA

end RegexMachine
