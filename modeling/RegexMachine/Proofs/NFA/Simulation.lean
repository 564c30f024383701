import RegexMachine.NFA.Simulation
import RegexMachine.Proofs.Automaton.Path
import RegexMachine.Proofs.Search

/-!
# RegexMachine.Proofs.NFA.Simulation

**Following sets of states is following paths.** The closure of a set holds the states that paths
without characters lead to, and reading a word from a closed set leads to the states at the ends of
the paths that spell the word. So a nondeterministic machine accepts a word by its procedure exactly
if a path from the start state to a final state spells it.
-/

namespace RegexMachine

open Std Relation

namespace NFA

open Automaton

variable {n : NFA} {s : StateSet} {p q r : StateId} {c : Char} {w : Word}

/-! ### Paths by their first character -/

/-- A path that spells a word makes empty moves, reads the first character, and goes on. -/
theorem path_cons_iff : n.Path p (c :: w) r ↔
    ∃ q q', n.Path p [] q ∧ n.Edge q (.literal c) q' ∧ n.Path q' w r := by
  constructor
  · intro h
    generalize hv : c :: w = v at h
    induction h with
    | nil => cases hv
    | @cons p q r k v hedge hpath ih =>
        cases k with
        | literal d =>
            obtain ⟨rfl, rfl⟩ := List.cons.inj hv
            exact ⟨p, q, .nil p, hedge, hpath⟩
        | epsilon =>
            obtain ⟨s, s', hempty, hs, hrest⟩ := ih hv
            exact ⟨s, s', .cons hedge hempty, hs, hrest⟩
  · intro h
    obtain ⟨q, q', hempty, hedge, hpath⟩ := h
    exact hempty.append (.cons hedge hpath)

/-! ### Empty moves -/

theorem mem_emptyMoves : q ∈ emptyMoves n p ↔ n.Edge p .epsilon q := by
  rw [emptyMoves, ExtTreeSet.mem_toList, edge_iff_mem_targets]

theorem leads_emptyMoves_iff : Leads (emptyMoves n) p q ↔ n.Path p [] q := by
  constructor
  · intro h
    induction h using ReflTransGen.head_induction_on with
    | refl => exact .nil q
    | head hmove _ ih => exact .cons (mem_emptyMoves.mp hmove) ih
  · intro h
    generalize hv : ([] : Word) = v at h
    induction h with
    | nil => exact .refl
    | @cons p q r k v hedge _ ih =>
        cases k with
        | literal d => cases hv
        | epsilon => exact .head (mem_emptyMoves.mpr hedge) (ih hv)

theorem mem_closure_iff_leads : q ∈ closure n s ↔ ∃ p ∈ s, Leads (emptyMoves n) p q := by
  rw [closure, ExtTreeSet.mem_ofList, List.contains_iff_mem, Search.mem_search]
  simp only [ExtTreeSet.mem_toList]

/-- **The closure holds what empty moves lead to**, whether the members of the set are states of
the machine or not. -/
theorem mem_closure : q ∈ closure n s ↔ ∃ p ∈ s, n.Path p [] q := by
  rw [mem_closure_iff_leads]
  simp only [leads_emptyMoves_iff]

/-- No empty move leads out of the set. -/
def Closed (n : NFA) (s : StateSet) : Prop :=
  ∀ p ∈ s, ∀ q, n.Path p [] q → q ∈ s

theorem closed_closure (n : NFA) (s : StateSet) : Closed n (closure n s) := by
  intro q hq r hr
  obtain ⟨p, hp, hpq⟩ := mem_closure.mp hq
  exact mem_closure.mpr ⟨p, hp, hpq.append hr⟩

/-! ### Words -/

theorem mem_move : r ∈ move n s c ↔
    ∃ p ∈ s, ∃ q, n.Edge p (.literal c) q ∧ n.Path q [] r := by
  rw [move, mem_closure]
  simp only [mem_follow, edge_iff_mem_targets]
  constructor
  · intro h
    obtain ⟨q, ⟨p, hp, hq⟩, hr⟩ := h
    exact ⟨p, hp, q, hq, hr⟩
  · intro h
    obtain ⟨p, hp, q, hq, hr⟩ := h
    exact ⟨q, ⟨p, hp, hq⟩, hr⟩

theorem closed_move (n : NFA) (s : StateSet) (c : Char) : Closed n (move n s c) :=
  closed_closure n _

theorem moves_cons (n : NFA) (s : StateSet) (c : Char) (w : Word) :
    moves n s (c :: w) = moves n (move n s c) w := rfl

/-- Reading a word from a closed set leads to the ends of the paths that spell it. -/
theorem mem_moves (hs : Closed n s) : r ∈ moves n s w ↔ ∃ p ∈ s, n.Path p w r := by
  induction w generalizing s with
  | nil =>
      constructor
      · intro h
        exact ⟨r, h, .nil r⟩
      · intro h
        obtain ⟨p, hp, hpath⟩ := h
        exact hs p hp r hpath
  | cons c w ih =>
      rw [moves_cons, ih (closed_move n s c)]
      constructor
      · intro h
        obtain ⟨q', hq', hpath⟩ := h
        obtain ⟨p, hp, q, hedge, hempty⟩ := mem_move.mp hq'
        exact ⟨p, hp, .cons hedge (hempty.append hpath)⟩
      · intro h
        obtain ⟨p, hp, hpath⟩ := h
        -- The empty moves before the character stay in the closed set.
        obtain ⟨q, q', hempty, hedge, hrest⟩ := path_cons_iff.mp hpath
        exact ⟨q', mem_move.mpr ⟨q, hs p hp q hempty, q', hedge, .nil q'⟩, hrest⟩

/-- Reading words from a state of the machine leads to states of the machine. -/
theorem mem_states_of_mem_moves (hn : n.WellFormed) (hp : p ∈ n.states)
    (h : q ∈ moves n (closure n {p}) w) : q ∈ n.states := by
  obtain ⟨r, hr, hpath⟩ := (mem_moves (closed_closure n {p})).mp h
  obtain ⟨p', hp', hempty⟩ := mem_closure.mp hr
  rw [StateSet.mem_singleton] at hp'
  subst hp'
  exact (hempty.append hpath).mem_states hn hp

theorem move_empty (n : NFA) (c : Char) : move n ∅ c = ∅ := by
  refine ExtTreeSet.eq_empty_iff_forall_not_mem.mpr fun r hr => ?_
  obtain ⟨p, hp, -⟩ := mem_move.mp hr
  exact ExtTreeSet.not_mem_empty hp

theorem moves_empty (n : NFA) (w : Word) : moves n ∅ w = ∅ := by
  induction w with
  | nil => rfl
  | cons c w ih => rw [moves_cons, move_empty, ih]

theorem hasFinal_iff : hasFinal n s = true ↔ ∃ q ∈ s, q ∈ n.finals := by
  simp only [hasFinal, List.any_eq_true, ExtTreeSet.mem_toList, isFinal_iff]

/-- That a word is rejected as soon as the set is empty changes nothing. -/
theorem acceptsFrom_eq (n : NFA) (s : StateSet) (w : Word) :
    acceptsFrom n s w = hasFinal n (moves n s w) := by
  induction w generalizing s with
  | nil => rfl
  | cons c w ih =>
      rw [acceptsFrom, moves_cons]
      by_cases hempty : move n s c = ∅
      · have hnone : ¬ ∃ q ∈ (∅ : StateSet), q ∈ n.finals := fun h => by
          obtain ⟨q, hq, -⟩ := h
          exact ExtTreeSet.not_mem_empty hq
        rw [if_pos hempty, hempty, moves_empty, eq_comm, Bool.eq_false_iff]
        exact mt hasFinal_iff.mp hnone
      · rw [if_neg hempty, ih]

theorem acceptsFrom_closure_iff :
    acceptsFrom n (closure n {p}) w = true ↔ ∃ q ∈ n.finals, n.Path p w q := by
  rw [acceptsFrom_eq, hasFinal_iff]
  simp only [mem_moves (closed_closure n {p}), mem_closure, StateSet.mem_singleton]
  constructor
  · intro h
    obtain ⟨q, ⟨r, ⟨_, rfl, hr⟩, hpath⟩, hfinal⟩ := h
    exact ⟨q, hfinal, hr.append hpath⟩
  · intro h
    obtain ⟨q, hfinal, hpath⟩ := h
    exact ⟨q, ⟨p, ⟨p, rfl, .nil p⟩, hpath⟩, hfinal⟩

/-- **A word is accepted exactly if a path from the start state to a final state spells it.** -/
theorem accepts_iff : accepts n w = true ↔ n.Accepts w := by
  rw [accepts, opening, Option.any_map, Option.any_eq_true]
  exact exists_congr fun p => and_congr Iff.rfl acceptsFrom_closure_iff

end NFA

end RegexMachine
