import Mathlib.Data.List.Sort
import RegexMachine.Proofs.Automaton.Renumber

/-!
# RegexMachine.Proofs.Automaton.InStep

**Names in the order of the numbers.** Where an edge of a nondeterministic machine leads to several
states, the search takes them up in the order of their names. So names may make a difference to the
numbers, and numbering a machine gives it other names.

It makes no difference, though, to give names in the same order, nor to give every state its number.
Both are renamings in step with the numbers: of two states that stand in the order of their numbers
already, the new names stand in the same order. That is all the search needs. Of the states that it
comes upon in one target, those that are new have been listed in the order of their names, which is
the order of their numbers, and so their new names list them in this order again. States that have
been seen may change places among themselves, but they are passed over.
-/

namespace RegexMachine

open Std Search

/-! ### One target -/

namespace Target

variable {τ : Type} [Target τ] {f : StateId → StateId} {seen : List StateId} {t : τ}

/-- What is new in a renamed target, if what is new in the target keeps its order. -/
theorem unseen_members_relabel (hf : Set.InjOn f {q | q ∈ seen ++ members t})
    (h : (unseen seen (members t)).Pairwise fun p q => f p < f q) :
    unseen (seen.map f) (members (relabel f t)) = (unseen seen (members t)).map f := by
  have hleft : (unseen (seen.map f) (members (relabel f t))).Pairwise (· < ·) :=
    (pairwise_members _).sublist (unseen_sublist _ _)
  -- Two ascending lists are equal as soon as they have the same members.
  refine hleft.eq_of_mem_iff (List.pairwise_map.mpr h) fun r => ?_
  rw [mem_unseen, mem_members_relabel]
  constructor
  · intro hr
    obtain ⟨⟨q, hq, rfl⟩, hnot⟩ := hr
    exact List.mem_map_of_mem (mem_unseen.mpr ⟨hq, fun hs => hnot (List.mem_map_of_mem hs)⟩)
  · intro hr
    obtain ⟨q, hnew, rfl⟩ := List.mem_map.mp hr
    obtain ⟨hq, hnot⟩ := mem_unseen.mp hnew
    refine ⟨⟨q, hq, rfl⟩, fun hs => hnot ?_⟩
    obtain ⟨p, hp, hpq⟩ := List.mem_map.mp hs
    exact hf (List.mem_append_left _ hp) (List.mem_append_right _ hq) hpq ▸ hp

end Target

namespace Automaton

variable {κ τ : Type} [Ord κ] [TransOrd κ] [Target τ] {m : Automaton κ τ} {f : StateId → StateId}

/-! ### Names in step with the numbers -/

/-- `f` keeps the order of any two states that stand in the order of their numbers. -/
def InStep (f : StateId → StateId) (m : Automaton κ τ) : Prop :=
  ∀ p ∈ m.states, ∀ q ∈ m.states, p < q → m.number p < m.number q → f p < f q

theorem inStep_number (m : Automaton κ τ) : InStep m.number m := fun _ _ _ _ _ h => h

/-- The states stand in the order of their numbers. -/
theorem pairwise_number_order (m : Automaton κ τ) :
    m.order.Pairwise fun p q => m.number p < m.number q := by
  refine List.pairwise_iff_getElem.mpr fun i j hi hj hij => ?_
  rw [number, number, m.nodup_order.idxOf_getElem, m.nodup_order.idxOf_getElem]
  exact hij

variable [LawfulEqOrd κ] [Lettered κ]

namespace InStep

section Order

variable (h : InStep f m) (hm : m.WellFormed)

include h hm

/-- An ascending part of the order keeps its order. -/
theorem pairwise {xs : List StateId} (hxs : xs.Pairwise (· < ·)) (hsub : xs.Sublist m.order) :
    xs.Pairwise fun p q => f p < f q := by
  have hmem : ∀ q ∈ xs, q ∈ m.states := fun q hq => (mem_order hm).mp (hsub.subset hq)
  refine (hxs.and ((pairwise_number_order m).sublist hsub)).imp_of_mem fun hp hq hpq => ?_
  exact h _ (hmem _ hp) _ (hmem _ hq) hpq.1 hpq.2

variable (hf : Apart f m)

include hf

/-- One turn of the search: what is new behind the edges of a renamed state. -/
theorem unseen_heads_relabel {seen : List StateId} (entries : List (κ × τ))
    (hmem : ∀ entry ∈ entries, ∀ q ∈ Target.members entry.2, q ∈ m.states)
    (hbegin : seen ++ unseen seen (entries.flatMap fun entry => Target.members entry.2) <+:
      m.order) :
    unseen (seen.map f) (entries.flatMap fun entry => Target.members (Target.relabel f entry.2)) =
      (unseen seen (entries.flatMap fun entry => Target.members entry.2)).map f := by
  induction entries generalizing seen with
  | nil => rfl
  | cons entry entries ih =>
      rw [List.flatMap_cons, unseen_append, ← List.append_assoc] at hbegin
      -- What the first edge adds comes first, and the other edges are looked at behind it.
      have hfirst := (List.prefix_append _ _).trans hbegin
      have hstates : ∀ q ∈ seen ++ Target.members entry.2, q ∈ m.states := by
        intro q hq
        rcases List.mem_append.mp hq with hq | hq
        · exact (mem_order hm).mp (hfirst.subset (List.mem_append_left _ hq))
        · exact hmem entry List.mem_cons_self q hq
      have hnew := h.pairwise hm
        ((Target.pairwise_members entry.2).sublist (unseen_sublist seen (Target.members entry.2)))
        ((List.sublist_append_right _ _).trans hfirst.sublist)
      have hrest := ih (fun e he => hmem e (List.mem_cons_of_mem _ he)) hbegin
      rw [List.flatMap_cons, List.flatMap_cons, unseen_append, unseen_append,
        Target.unseen_members_relabel (hf.mono hstates) hnew, List.map_append, ← hrest,
        List.map_append]

/-- The search comes upon the renamed states in the same order. -/
theorem listing_relabel : (m.relabel f).reachable = m.reachable.map f := by
  have hstarts : (m.relabel f).initial.toList = m.initial.toList.map f := by
    rw [initial_relabel]
    cases m.initial <;> rfl
  rw [Automaton.reachable, hstarts]
  refine search_map_of_turns fun seen q hq hbegin => ?_
  have hq : q ∈ m.states := (mem_order hm).mp (List.mem_append_left _ hq)
  have hbegin : seen ++ unseen seen (m.successors q) <+: m.order :=
    hbegin.trans (List.prefix_append _ _)
  rw [successors] at hbegin
  rw [successors, successors, edgesFrom?_relabel hm hf hq]
  cases hout : m.edgesFrom? q with
  | none => rfl
  | some out =>
      rw [hout] at hbegin
      have hmem : ∀ entry ∈ out.toList, ∀ r ∈ Target.members entry.2, r ∈ m.states := by
        intro entry hentry r hr
        have hk : m.target? q entry.1 = some entry.2 := by
          rw [target?, hout, Option.bind_some]
          exact ExtTreeMap.mem_toList_iff_getElem?_eq_some.mp hentry
        exact hm.head_mem ⟨entry.2, hk, hr⟩
      show unseen (seen.map f) (headsOf (out.map fun _ t => Target.relabel f t)) =
        (unseen seen (headsOf out)).map f
      rw [headsOf, ExtTreeMap.toList_map, List.flatMap_map]
      exact h.unseen_heads_relabel hm hf out.toList hmem hbegin

/-- The states that cannot be reached follow in the same order as well. -/
theorem order_relabel : (m.relabel f).order = m.order.map f := by
  rw [order, order, List.map_append, h.listing_relabel hm hf]
  refine congrArg _ ?_
  have hleft := (StateSet.pairwise_lt_toList (m.relabel f).states).filter (· ∉ m.reachable.map f)
  have hright := h.pairwise hm ((StateSet.pairwise_lt_toList m.states).filter (· ∉ m.reachable))
    (List.sublist_append_right _ _)
  refine hleft.eq_of_mem_iff (List.pairwise_map.mpr hright) fun r => ?_
  simp only [List.mem_filter, List.mem_map, ExtTreeSet.mem_toList, mem_states_relabel,
    decide_eq_true_eq]
  constructor
  · intro hr
    obtain ⟨⟨q, hq, rfl⟩, hnot⟩ := hr
    exact ⟨q, ⟨hq, fun hfound => hnot ⟨q, hfound, rfl⟩⟩, rfl⟩
  · intro hr
    obtain ⟨q, ⟨hq, hnot⟩, rfl⟩ := hr
    refine ⟨⟨q, hq, rfl⟩, fun hfound => hnot ?_⟩
    obtain ⟨p, hp, hpq⟩ := hfound
    exact hf ((mem_reachable.mp hp).mem_states hm) hq hpq ▸ hp

theorem number_relabel {q : StateId} (hq : q ∈ m.states) :
    (m.relabel f).number (f q) = m.number q := by
  have hnodup := nodup_order (m.relabel f)
  rw [h.order_relabel hm hf] at hnodup
  rw [number, number, h.order_relabel hm hf, idxOf_map hnodup ((mem_order hm).mpr hq)]

/-- **Names in step with the numbers make no difference to the numbered machine.** -/
theorem renumber_relabel : (m.relabel f).renumber = m.renumber := by
  have hg := apart_number (hm.relabel hf)
  rw [renumber_eq_relabel, renumber_eq_relabel, relabel_relabel hm hf hg]
  exact relabel_congr hm (hf.comp hg) fun q hq => h.number_relabel hm hf hq

end Order

end InStep

/-! ### The numbered machine -/

/-- The states of a numbered machine are their own numbers. -/
theorem number_renumber (hm : m.WellFormed) {i : StateId} (hi : i ∈ m.renumber.states) :
    m.renumber.number i = i := by
  obtain ⟨q, hq, rfl⟩ := mem_states_relabel.mp hi
  exact (inStep_number m).number_relabel hm (apart_number hm) hq

theorem renumber_renumber (hm : m.WellFormed) : m.renumber.renumber = m.renumber :=
  (inStep_number m).renumber_relabel hm (apart_number hm)

end Automaton

end RegexMachine
