import RegexMachine.NFA.Combine
import RegexMachine.Proofs.Automaton.Path

/-!
# RegexMachine.Proofs.NFA.Simplest

**The simplest machines accept what they should.** They are well formed, and they accept no word,
the empty word, and one character.
-/

namespace RegexMachine

open Std

namespace NFA

open Automaton

variable {w : Word}

/-! ### Machines without edges -/

/-- Without edges a state leads to itself only. -/
theorem path_iff_of_edges_eq {n : NFA} (h : n.edges = ∅) {p q : StateId} :
    n.Path p w q ↔ w = [] ∧ p = q := by
  constructor
  · intro hpath
    cases hpath with
    | nil => exact ⟨rfl, rfl⟩
    | cons hedge _ =>
        have hempty := (edge_of_edges_eq (n := Automaton.empty) h _ _ _).mp hedge
        exact absurd hempty (not_edge_empty _ _ _)
  · intro hw
    obtain ⟨rfl, rfl⟩ := hw
    exact .nil p

theorem mem_states_ofEmpty {q : StateId} : q ∈ ofEmpty.states ↔ 0 = q ∨ 1 = q := by
  simp [ofEmpty, @eq_comm _ q]

theorem wellFormed_ofEmpty : ofEmpty.WellFormed := by
  refine wellFormed_empty.of_same_edges (fun q hq => absurd hq ExtTreeSet.not_mem_empty) rfl rfl
    (fun q hq => ?_) fun q hq => ?_
  · exact mem_states_ofEmpty.mpr (Or.inl (Option.some.inj hq))
  · exact mem_states_ofEmpty.mpr (Or.inr (StateSet.mem_singleton.mp hq))

theorem not_accepts_ofEmpty : ¬ ofEmpty.Accepts w := by
  intro h
  obtain ⟨p, hp, q, hq, hpath⟩ := h
  obtain ⟨-, rfl⟩ := (path_iff_of_edges_eq rfl).mp hpath
  have hzero : 0 = p := Option.some.inj hp
  have hone : 1 = p := StateSet.mem_singleton.mp hq
  exact absurd (hzero.trans hone.symm) (by decide)

theorem wellFormed_ofLambda : ofLambda.WellFormed := by
  refine wellFormed_empty.of_same_edges (fun q hq => absurd hq ExtTreeSet.not_mem_empty) rfl rfl
    (fun q hq => ?_) fun q hq => hq
  exact StateSet.mem_singleton.mpr (Option.some.inj hq)

theorem accepts_ofLambda_iff : ofLambda.Accepts w ↔ w = [] := by
  constructor
  · intro h
    obtain ⟨p, -, q, -, hpath⟩ := h
    exact ((path_iff_of_edges_eq rfl).mp hpath).1
  · intro h
    exact ⟨0, rfl, 0, StateSet.mem_singleton.mpr rfl, (path_iff_of_edges_eq rfl).mpr ⟨h, rfl⟩⟩

/-! ### One edge -/

/-- The machine for a character is the one that accepts nothing with an edge to the final state. -/
theorem ofChar_eq (c : Char) : ofChar c = withEdge ofEmpty 0 1 (.literal c) := by
  refine Automaton.ext rfl ?_ ?_ rfl rfl
  · simp [ofChar, withEdge, ofEmpty, Symbol.chars]
  · refine ExtTreeMap.ext_getElem? fun {p} => ?_
    simp only [ofChar, withEdge, ofEmpty, ExtTreeMap.ofList_singleton, ExtTreeMap.getElem?_insert,
      ExtTreeMap.getElem?_alter, ExtTreeMap.getElem?_empty, Option.getD_none]
    split
    · refine congrArg some (ExtTreeMap.ext_getElem? fun {k} => ?_)
      simp only [ExtTreeMap.getElem?_insert, ExtTreeMap.getElem?_alter, ExtTreeMap.getElem?_empty,
        Option.getD_none, ExtTreeSet.singleton_eq_insert]
    · rfl

theorem wellFormed_ofChar (c : Char) : (ofChar c).WellFormed := by
  rw [ofChar_eq]
  exact wellFormed_withEdge wellFormed_ofEmpty (mem_states_ofEmpty.mpr (Or.inl rfl))
    (mem_states_ofEmpty.mpr (Or.inr rfl)) _

theorem edge_ofChar {c : Char} {p q : StateId} {k : Symbol} :
    (ofChar c).Edge p k q ↔ 0 = p ∧ .literal c = k ∧ 1 = q := by
  have hnone : ¬ ofEmpty.Edge p k q := fun hedge =>
    not_edge_empty p k q ((edge_of_edges_eq rfl p k q).mp hedge)
  rw [ofChar_eq, edge_withEdge, or_iff_left hnone]

theorem accepts_ofChar_iff {c : Char} : (ofChar c).Accepts w ↔ w = [c] := by
  constructor
  · intro h
    obtain ⟨p, hp, q, hq, hpath⟩ := h
    have hone : 1 = q := StateSet.mem_singleton.mp hq
    cases hpath with
    | nil =>
        have hzero : 0 = p := Option.some.inj hp
        exact absurd (hzero.trans hone.symm) (by decide)
    | cons hedge hrest =>
        obtain ⟨rfl, rfl, rfl⟩ := edge_ofChar.mp hedge
        cases hrest with
        | nil => rfl
        | cons hedge _ => exact absurd (edge_ofChar.mp hedge).1 (by decide)
  · intro h
    rw [h]
    exact ⟨0, rfl, 1, StateSet.mem_singleton.mpr rfl, .single (edge_ofChar.mpr ⟨rfl, rfl, rfl⟩)⟩

end NFA

end RegexMachine
