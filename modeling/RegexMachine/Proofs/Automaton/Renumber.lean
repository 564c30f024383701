import Mathlib.Data.List.Basic
import RegexMachine.Automaton.Renumber
import RegexMachine.Proofs.Automaton.Relabel
import RegexMachine.Proofs.Search

/-!
# RegexMachine.Proofs.Automaton.Renumber

**Numbering gives every state a name of its own.** The order in which the states of a well-formed
machine are numbered holds each state once and nothing else. So a state's place in it is a number
below the number of states, no number is given twice, and `renumber` is a renaming apart: it changes
no word and leaves the states `0, 1, 2, …` without a gap.
-/

namespace RegexMachine

open Std Relation

namespace Automaton

variable {κ τ : Type} [Ord κ] [TransOrd κ] [Target τ] {m : Automaton κ τ}

/-! ### What can be reached -/

/-- Some word leads from the start state to `q`. -/
def Reachable [Lettered κ] (m : Automaton κ τ) (q : StateId) : Prop :=
  ∃ p, m.initial = some p ∧ ∃ w, m.Path p w q

theorem Reachable.mem_states [Lettered κ] (hm : m.WellFormed) {q : StateId} (h : m.Reachable q) :
    q ∈ m.states := by
  obtain ⟨p, hp, w, hw⟩ := h
  exact hw.mem_states hm (hm.initial_mem hp)

theorem reachable_initial [Lettered κ] {q : StateId} (h : m.initial = some q) : m.Reachable q :=
  ⟨q, h, [], .nil q⟩

theorem Reachable.of_edge [Lettered κ] {q r : StateId} {k : κ} (h : m.Reachable q)
    (hedge : m.Edge q k r) : m.Reachable r := by
  obtain ⟨p, hp, w, hw⟩ := h
  exact ⟨p, hp, _, hw.append (.single hedge)⟩

theorem nodup_reachable (m : Automaton κ τ) : m.reachable.Nodup :=
  Search.nodup_search (by cases m.initial <;> simp)

theorem nodup_order (m : Automaton κ τ) : m.order.Nodup := by
  refine List.nodup_append.mpr ⟨m.nodup_reachable, (StateSet.nodup_toList _).filter _, ?_⟩
  intro p hp q hq hpq
  subst hpq
  simp [hp] at hq

variable [LawfulEqOrd κ]

theorem mem_successors {q r : StateId} : r ∈ m.successors q ↔ ∃ k, m.Edge q k r := by
  unfold successors Edge target?
  cases m.edgesFrom? q with
  | none => simp
  | some out => simpa using mem_headsOf

theorem leads_successors_iff [Lettered κ] {p q : StateId} :
    Leads m.successors p q ↔ ∃ w, m.Path p w q := by
  constructor
  · intro h
    induction h using ReflTransGen.head_induction_on with
    | refl => exact ⟨[], .nil _⟩
    | head hnext _ ih =>
        obtain ⟨w, hw⟩ := ih
        obtain ⟨k, hk⟩ := mem_successors.mp hnext
        exact ⟨_, .cons hk hw⟩
  · intro h
    obtain ⟨w, hw⟩ := h
    induction hw with
    | nil => exact .refl
    | cons hedge _ ih => exact .head (mem_successors.mpr ⟨_, hedge⟩) ih

theorem mem_reachable [Lettered κ] {q : StateId} : q ∈ m.reachable ↔ m.Reachable q := by
  rw [reachable, Search.mem_search]
  simp only [Option.mem_toList, leads_successors_iff]
  rfl

/-! ### The order -/

variable [Lettered κ]

theorem mem_order (hm : m.WellFormed) {q : StateId} : q ∈ m.order ↔ q ∈ m.states := by
  have hsub : q ∈ m.reachable → q ∈ m.states := fun h => (mem_reachable.mp h).mem_states hm
  simp only [order, List.mem_append, List.mem_filter, ExtTreeSet.mem_toList, decide_eq_true_eq]
  constructor
  · intro h
    exact h.elim hsub And.left
  · intro h
    by_cases hq : q ∈ m.reachable
    · exact Or.inl hq
    · exact Or.inr ⟨h, hq⟩

theorem length_order (hm : m.WellFormed) : m.order.length = m.stateCount :=
  (StateSet.size_eq_length m.nodup_order fun _ => (mem_order hm).symm).symm

/-! ### The numbers -/

omit [LawfulEqOrd κ] [Lettered κ] in
/-- The states that can be reached are numbered first. -/
theorem number_of_mem_reachable {q : StateId} (h : q ∈ m.reachable) :
    m.number q = m.reachable.idxOf q := by
  rw [number, order, List.idxOf_append_of_mem h]

omit [LawfulEqOrd κ] [Lettered κ] in
/-- The start state is the first of all. -/
theorem number_initial {q : StateId} (h : m.initial = some q) : m.number q = 0 := by
  obtain ⟨rest, hrest⟩ : ∃ rest, m.reachable = q :: rest := by
    rw [reachable, h]
    exact Search.exists_search_eq_cons q []
  rw [number_of_mem_reachable (hrest ▸ List.mem_cons_self), hrest, List.idxOf_cons_self]

theorem number_lt_iff (hm : m.WellFormed) {q : StateId} :
    m.number q < m.stateCount ↔ q ∈ m.states := by
  rw [← length_order hm, number, List.idxOf_lt_length_iff, mem_order hm]

theorem apart_number (hm : m.WellFormed) : Apart m.number m := fun _ hp _ _ h =>
  (List.idxOf_inj ((mem_order hm).mpr hp)).mp h

theorem exists_number_eq (hm : m.WellFormed) {i : Nat} (hi : i < m.stateCount) :
    ∃ q ∈ m.states, m.number q = i := by
  rw [← length_order hm] at hi
  exact ⟨m.order[i], (mem_order hm).mp (List.getElem_mem hi), m.nodup_order.idxOf_getElem i hi⟩

/-! ### The numbered machine -/

omit [LawfulEqOrd κ] [Lettered κ] in
theorem initial_renumber {q : StateId} (h : m.initial = some q) :
    m.renumber.initial = some (m.number q) := by
  rw [renumber_eq_relabel, initial_relabel, h, Option.map_some]

theorem wellFormed_renumber (hm : m.WellFormed) : m.renumber.WellFormed :=
  hm.relabel (apart_number hm)

theorem accepts_renumber (hm : m.WellFormed) {w : Word} : m.renumber.Accepts w ↔ m.Accepts w :=
  accepts_relabel hm (apart_number hm)

theorem stateCount_renumber (hm : m.WellFormed) : m.renumber.stateCount = m.stateCount :=
  stateCount_relabel (apart_number hm)

/-- The states of a numbered machine are the numbers below their number. -/
theorem mem_states_renumber (hm : m.WellFormed) {i : StateId} :
    i ∈ m.renumber.states ↔ i < m.renumber.stateCount := by
  rw [stateCount_renumber hm, renumber_eq_relabel, mem_states_relabel]
  constructor
  · intro h
    obtain ⟨q, hq, rfl⟩ := h
    exact (number_lt_iff hm).mpr hq
  · exact exists_number_eq hm

/-- A state can be reached in a renamed machine exactly if it could be reached before. -/
theorem reachable_relabel (hm : m.WellFormed) {f : StateId → StateId} (hf : Apart f m)
    {r : StateId} : (m.relabel f).Reachable r ↔ ∃ q, m.Reachable q ∧ f q = r := by
  constructor
  · intro h
    obtain ⟨_, hstart, w, hw⟩ := h
    obtain ⟨p, hp, rfl⟩ := Option.map_eq_some_iff.mp hstart
    obtain ⟨q, hq, rfl⟩ := (path_relabel hm hf (hm.initial_mem hp)).mp hw
    exact ⟨q, ⟨p, hp, w, hq⟩, rfl⟩
  · intro h
    obtain ⟨q, ⟨p, hp, w, hw⟩, rfl⟩ := h
    exact ⟨f p, Option.map_eq_some_iff.mpr ⟨p, hp, rfl⟩, w,
      (path_relabel hm hf (hm.initial_mem hp)).mpr ⟨q, hw, rfl⟩⟩

end Automaton

end RegexMachine
