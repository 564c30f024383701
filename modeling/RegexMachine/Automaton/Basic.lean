import Std.Data.ExtTreeMap
import Std.Data.ExtTreeSet
import Std.Data.TreeMap
import RegexMachine.StateSet
import RegexMachine.Target

/-!
# RegexMachine.Automaton.Basic

**Machines.** A machine holds a finite set of states, the characters on its edges, its edges, at
most one start state, and its final states. The edges are kept state by state: a state with outgoing
edges has a map from the key of an edge to its target. A deterministic machine has characters as
keys and single states as targets, a nondeterministic one has symbols as keys and sets of states as
targets. All that the two kinds share is written once, over the key `κ` and the target `τ`.

Maps and sets are ordered trees that are equal exactly when their contents are, so `=` compares two
machines by what they hold.
-/

namespace RegexMachine

open Std

/-- A finite state machine whose edges have a key in `κ` and lead to a target in `τ`. -/
@[ext] structure Automaton (κ τ : Type) [Ord κ] where
  /-- The states. -/
  states : StateSet
  /-- The characters on the edges. -/
  alphabet : ExtTreeSet Char
  /-- The outgoing edges of each state that has some. -/
  edges : ExtTreeMap StateId (ExtTreeMap κ τ)
  /-- The start state. -/
  initial : Option StateId
  /-- The final states. -/
  finals : StateSet

namespace Automaton

variable {κ τ : Type} [Ord κ]

instance [TransOrd κ] [LawfulEqOrd κ] [DecidableEq τ] : DecidableEq (Automaton κ τ) := fun m n =>
  decidable_of_iff (m.states = n.states ∧ m.alphabet = n.alphabet ∧ m.edges = n.edges ∧
      m.initial = n.initial ∧ m.finals = n.finals) (by cases m; cases n; simp)

/-- The machine without states. -/
def empty : Automaton κ τ where
  states := ∅
  alphabet := ∅
  edges := ∅
  initial := none
  finals := ∅

/-! ### Looking at a machine -/

/-- The number of states. -/
def stateCount (m : Automaton κ τ) : Nat := m.states.size

/-- Whether a state is final. -/
def isFinal (m : Automaton κ τ) (q : StateId) : Bool := m.finals.contains q

/-- The outgoing edges of a state, if the machine stores any for it. -/
def edgesFrom? (m : Automaton κ τ) (q : StateId) : Option (ExtTreeMap κ τ) := m.edges[q]?

variable [TransOrd κ]

/-- The target of the edge of `q` with the key `k`. -/
def target? (m : Automaton κ τ) (q : StateId) (k : κ) : Option τ :=
  (m.edgesFrom? q).bind (·[k]?)

variable [Target τ]

/-- The states that the edges of one state lead to, edge by edge in the order of their keys. -/
def headsOf (out : ExtTreeMap κ τ) : List StateId :=
  out.toList.flatMap fun edge => Target.members edge.2

/-- The states that the edges of `q` lead to, edge by edge in the order of their keys. -/
def successors (m : Automaton κ τ) (q : StateId) : List StateId :=
  (m.edgesFrom? q).elim [] headsOf

/-- The states that edges lead to. -/
def allHeads (m : Automaton κ τ) : List StateId :=
  m.edges.toList.flatMap fun entry => headsOf entry.2

theorem mem_headsOf [LawfulEqOrd κ] {out : ExtTreeMap κ τ} {r : StateId} :
    r ∈ headsOf out ↔ ∃ (k : κ) (t : τ), out[k]? = some t ∧ r ∈ Target.members t := by
  simp [headsOf]

theorem mem_allHeads {m : Automaton κ τ} {r : StateId} :
    r ∈ m.allHeads ↔
      ∃ (q : StateId) (out : ExtTreeMap κ τ), m.edges[q]? = some out ∧ r ∈ headsOf out := by
  simp [allHeads]

theorem mem_allHeads_of_mem_successors {m : Automaton κ τ} {q r : StateId}
    (h : r ∈ m.successors q) : r ∈ m.allHeads := by
  unfold successors edgesFrom? at h
  cases hout : m.edges[q]? with
  | none => simp [hout] at h
  | some out => exact mem_allHeads.2 ⟨q, out, hout, by simpa [hout] using h⟩

theorem mem_allHeads_of_mem_target [LawfulEqOrd κ] {m : Automaton κ τ} {q r : StateId} {k : κ}
    {t : τ} (ht : m.target? q k = some t) (hr : r ∈ Target.members t) : r ∈ m.allHeads := by
  obtain ⟨out, hout, hk⟩ := Option.bind_eq_some_iff.1 ht
  exact mem_allHeads.2 ⟨q, out, hout, mem_headsOf.2 ⟨k, t, hk, hr⟩⟩

end Automaton

end RegexMachine
