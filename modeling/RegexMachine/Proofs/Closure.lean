import RegexMachine.Proofs.Determinization

/-!
# RegexMachine.Proofs.Closure

**What the closure under empty moves is.** The closure of a set holds what empty moves lead to from
the members of the set, any number of them one after the other. The moves may go in circles, and a
member of the set that is no state of the machine is in the closure as well, where it leads nowhere.

It follows that the closure holds the set, that closing it again adds nothing, that a greater set
has a greater closure, and that the closure of two sets together is the closures of both together.
The search for the closure ends, as it takes up every member of the closure once and nothing else.
-/

namespace RegexMachine

open Std Relation

namespace NFA

open Automaton

variable {n : NFA} {s t : StateSet} {q : StateId}

/-! ### Laws of the closure -/

theorem mem_closure_of_mem (h : q ∈ s) : q ∈ closure n s :=
  mem_closure.mpr ⟨q, h, .nil q⟩

theorem closure_closure (n : NFA) (s : StateSet) : closure n (closure n s) = closure n s := by
  refine ExtTreeSet.ext_mem fun q => ⟨fun h => ?_, mem_closure_of_mem⟩
  obtain ⟨p, hp, hpath⟩ := mem_closure.mp h
  exact closed_closure n s p hp q hpath

theorem closure_mono (hsub : ∀ q ∈ s, q ∈ t) (h : q ∈ closure n s) : q ∈ closure n t := by
  obtain ⟨p, hp, hpath⟩ := mem_closure.mp h
  exact mem_closure.mpr ⟨p, hsub p hp, hpath⟩

theorem closure_union (n : NFA) (s t : StateSet) :
    closure n (s ∪ t) = closure n s ∪ closure n t := by
  refine ExtTreeSet.ext_mem fun q => ?_
  simp only [mem_closure, ExtTreeSet.mem_union_iff, or_and_right, exists_or]

/-- The search for the closure takes up every member of the closure once. -/
theorem length_search_emptyMoves (n : NFA) (s : StateSet) :
    (search (emptyMoves n) (confined_emptyMoves n) s.toList).length = (closure n s).size := by
  refine (StateSet.size_eq_length (Search.nodup_search (StateSet.nodup_toList s)) fun q => ?_).symm
  rw [closure, ExtTreeSet.mem_ofList, List.contains_iff_mem]

/-! ### The closure of any set -/

/-- **The closure holds exactly what empty moves lead to.** The search for it has as many turns as
there are members, and what holds of reaching by any number of steps holds of the closure. -/
theorem closure_exact (n : NFA) :
    (∀ s q, q ∈ closure n s ↔ ∃ p ∈ s, ReflTransGen (fun p q => n.Edge p .epsilon q) p q) ∧
    (∀ s, (search (emptyMoves n) (confined_emptyMoves n) s.toList).length = (closure n s).size) ∧
    (∀ s, ∀ q ∈ s, q ∈ closure n s) ∧
    (∀ s, closure n (closure n s) = closure n s) ∧
    (∀ s t : StateSet, (∀ q ∈ s, q ∈ t) → ∀ q ∈ closure n s, q ∈ closure n t) ∧
    ∀ s t, closure n (s ∪ t) = closure n s ∪ closure n t := by
  refine ⟨fun s q => ?_, length_search_emptyMoves n, fun _ _ => mem_closure_of_mem,
    closure_closure n, fun _ _ hsub _ => closure_mono hsub, closure_union n⟩
  rw [mem_closure_iff_leads]
  simp only [Leads, mem_emptyMoves]

/-- The empty moves between `4` and `9` go in a circle, and `5` is no state. -/
theorem closure_exact_tangled : 5 ∉ tangled.states ∧
    (∀ q, q ∈ closure tangled {4} → q ∈ closure tangled ({4} ∪ {5})) ∧
      4 ∈ closure tangled {9} ∧ 5 ∈ closure tangled ({4} ∪ {5}) ∧
        9 ∈ closure tangled ({4} ∪ {5}) := by
  obtain ⟨hmem, -, hself, -, hmono, hunion⟩ := closure_exact tangled
  have hback : tangled.Edge 9 .epsilon 4 := edge_iff_mem_targets.mpr (by cbv)
  have hforth : tangled.Edge 4 .epsilon 9 := edge_iff_mem_targets.mpr (by cbv)
  have hsub : ∀ q ∈ ({4} : StateSet), q ∈ ({4} ∪ {5} : StateSet) := fun q hq =>
    ExtTreeSet.mem_union_iff.mpr (Or.inl hq)
  refine ⟨by cbv; exact Bool.false_ne_true, hmono {4} ({4} ∪ {5}) hsub, ?_, ?_, ?_⟩
  · exact (hmem {9} 4).mpr ⟨9, StateSet.mem_singleton.mpr rfl, .single hback⟩
  · rw [hunion]
    exact ExtTreeSet.mem_union_iff.mpr (Or.inr (hself {5} 5 (StateSet.mem_singleton.mpr rfl)))
  · exact hmono {4} ({4} ∪ {5}) hsub 9
      ((hmem {4} 9).mpr ⟨4, StateSet.mem_singleton.mpr rfl, .single hforth⟩)

end NFA

end RegexMachine
