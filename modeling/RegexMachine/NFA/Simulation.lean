import RegexMachine.NFA.Basic
import RegexMachine.Search

/-!
# RegexMachine.NFA.Simulation

**Reading words in sets of states.** A nondeterministic machine is run by following the set of all
states it may be in. `closure` adds the states that empty moves lead to, and `move` reads one
character. A word is rejected as soon as the set is empty.
-/

namespace RegexMachine

open Std

namespace NFA

/-! ### Empty moves -/

/-- The states that the empty moves of a state lead to. -/
def emptyMoves (n : NFA) (q : StateId) : List StateId :=
  (targets n q .epsilon).toList

theorem confined_emptyMoves (n : NFA) : Confined (emptyMoves n) :=
  ⟨n.allHeads, fun _ _ h => mem_allHeads_of_mem_targets (ExtTreeSet.mem_toList.1 h)⟩

/-- The states that empty moves lead to from a set of states, those of the set included. -/
def closure (n : NFA) (s : StateSet) : StateSet :=
  ExtTreeSet.ofList (search (emptyMoves n) (confined_emptyMoves n) s.toList)

/-! ### Characters -/

/-- The states that edges for a symbol lead to from a set of states. -/
def follow (n : NFA) (s : StateSet) (symbol : Symbol) : StateSet :=
  ExtTreeSet.ofList (s.toList.flatMap fun q => (targets n q symbol).toList)

/-- The states reached by reading one character and making empty moves behind it. -/
def move (n : NFA) (s : StateSet) (c : Char) : StateSet :=
  closure n (follow n s (.literal c))

/-- The states reached by reading a word. -/
def moves (n : NFA) (s : StateSet) (w : Word) : StateSet :=
  w.foldl (move n) s

/-- The states the machine may be in before it reads anything, if it has a start state. -/
def opening (n : NFA) : Option StateSet :=
  n.initial.map fun q => closure n {q}

/-- Whether a set of states holds a final one. -/
def hasFinal (n : NFA) (s : StateSet) : Bool :=
  s.toList.any n.isFinal

/-- Whether reading a word from a set of states may end in a final state. -/
def acceptsFrom (n : NFA) (s : StateSet) : Word → Bool
  | [] => hasFinal n s
  | c :: w =>
      let reached := move n s c
      if reached = ∅ then false else acceptsFrom n reached w

/-- Whether the machine accepts a word. -/
def accepts (n : NFA) (w : Word) : Bool :=
  n.opening.any fun s => acceptsFrom n s w

/-! ### Where the machine can be -/

theorem mem_or_mem_allHeads_of_mem_closure {n : NFA} {s : StateSet} {q : StateId}
    (h : q ∈ closure n s) :
    q ∈ s ∨ q ∈ n.allHeads := by
  have h : q ∈ search (emptyMoves n) (confined_emptyMoves n) s.toList := by
    simpa [closure] using h
  rcases Search.mem_starts_or_next_of_mem_search h with h | ⟨p, h⟩
  · exact Or.inl (ExtTreeSet.mem_toList.1 h)
  · exact Or.inr (mem_allHeads_of_mem_targets (ExtTreeSet.mem_toList.1 h))

theorem mem_follow {n : NFA} {s : StateSet} {symbol : Symbol} {r : StateId} :
    r ∈ follow n s symbol ↔ ∃ q ∈ s, r ∈ targets n q symbol := by
  simp [follow]

/-- Whatever character is read, the machine is where some edge leads. -/
theorem mem_allHeads_of_mem_move {n : NFA} {s : StateSet} {c : Char} {q : StateId}
    (h : q ∈ move n s c) : q ∈ n.allHeads := by
  rcases mem_or_mem_allHeads_of_mem_closure h with h | h
  · obtain ⟨p, -, hp⟩ := mem_follow.1 h
    exact mem_allHeads_of_mem_targets hp
  · exact h

end NFA

end RegexMachine
