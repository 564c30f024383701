import RegexMachine.Proofs.Search.Routes
import RegexMachine.Proofs.Trail

/-!
# RegexMachine.Proofs.Automaton.Numbering

**The numbers go breadth-first.** The states that can be reached have the first numbers, and among
them a state with a smaller number is no further from the start state. The others follow, and they
keep their order. `BreadthFirst` collects what a numbering of this kind does, and `number` is one.

How far a state is from the start state is read off the listing of the states: it goes by least
routes, where a step is labeled with its place among the successors of a state, and a least route
is as long as the state is far.
-/

namespace RegexMachine

open Std Search

namespace Automaton

variable {κ τ : Type} [Ord κ] [TransOrd κ] [Target τ] {m : Automaton κ τ}

variable [LawfulEqOrd κ]

/-! ### Trails and routes -/

section Routes

variable {p q start : StateId} {w : List Nat}

/-- A route has an edge for every place. -/
theorem exists_trail_of_route (h : Route (places m.successors) p w q) :
    ∃ steps, m.Trail p steps q ∧ steps.length = w.length := by
  induction h with
  | nil => exact ⟨[], .nil p, rfl⟩
  | snoc _ hc ih =>
      obtain ⟨steps, htrail, hlength⟩ := ih
      obtain ⟨k, hedge⟩ := mem_successors.mp ((labeled_places _).mem_next.mpr ⟨_, hc⟩)
      exact ⟨_, htrail.snoc hedge, by simp [hlength]⟩

/-- A trail has a place for every edge. -/
theorem exists_route_of_trail {steps : List (κ × StateId)} (h : m.Trail p steps q)
    (hw : Route (places m.successors) start w p) :
    ∃ u, Route (places m.successors) start u q ∧ u.length = w.length + steps.length := by
  induction h generalizing w with
  | nil => exact ⟨w, hw, rfl⟩
  | cons hedge _ ih =>
      obtain ⟨i, hi⟩ := (labeled_places _).mem_next.mp (mem_successors.mpr ⟨_, hedge⟩)
      obtain ⟨u, hu, hlength⟩ := ih (hw.snoc hi)
      refine ⟨u, hu, hlength.trans ?_⟩
      rw [List.length_append, List.length_singleton, List.length_cons, Nat.add_right_comm,
        Nat.add_assoc]

/-- A state is as far from the start state as its least route is long. -/
theorem atDistance_of_leastRoute (hstart : m.initial = some start)
    (h : LeastRoute (places m.successors) start w q) : m.AtDistance q w.length := by
  obtain ⟨steps, htrail, hlength⟩ := exists_trail_of_route h.route
  refine ⟨⟨start, steps, hstart, htrail, hlength⟩, fun j hj => ?_⟩
  obtain ⟨other, steps, hother, htrail, rfl⟩ := hj
  cases hstart.symm.trans hother
  obtain ⟨u, hu, hlength⟩ := exists_route_of_trail htrail .nil
  have hle := h.length_le hu
  rwa [hlength, List.length_nil, Nat.zero_add] at hle

end Routes

variable [Lettered κ]

/-! ### The states that cannot be reached -/

/-- What stands behind a state that cannot be reached cannot be either, and it is greater. -/
theorem pairwise_order (m : Automaton κ τ) :
    m.order.Pairwise fun p q => ¬ m.Reachable p → ¬ m.Reachable q ∧ p < q := by
  simp only [← mem_reachable]
  refine List.pairwise_append.mpr ⟨?_, ?_, fun p hp q _ hnot => absurd hp hnot⟩
  · exact List.pairwise_of_forall_mem_list fun p hp q _ hnot => absurd hp hnot
  · refine List.Pairwise.imp_of_mem ?_ ((StateSet.pairwise_lt_toList m.states).filter _)
    intro p q _ hq hlt _
    exact ⟨of_decide_eq_true (List.mem_filter.mp hq).2, hlt⟩

theorem number_lt_of_not_lt (hm : m.WellFormed) {p q : StateId} (hp : p ∈ m.states)
    (hq : q ∈ m.states) (hne : p ≠ q) (h : ¬ m.number q < m.number p) :
    m.number p < m.number q :=
  Nat.lt_of_le_of_ne (Nat.not_lt.mp h) fun heq => hne (apart_number hm hp hq heq)

/-- The states that can be reached come before the others. -/
theorem number_lt_of_reachable (hm : m.WellFormed) {p q : StateId} (hp : m.Reachable p)
    (hq : q ∈ m.states) (hnot : ¬ m.Reachable q) : m.number p < m.number q := by
  have hpm : p ∈ m.states := hp.mem_states hm
  refine number_lt_of_not_lt hm hpm hq (fun heq => hnot (heq ▸ hp)) fun hlt => ?_
  exact (rel_of_idxOf_lt m.pairwise_order ((mem_order hm).mpr hpm) hlt hnot).1 hp

/-- The states that can be reached take the first numbers. -/
theorem exists_reachable_of_lt_number (hm : m.WellFormed) {q : StateId} (hq : m.Reachable q)
    {i : Nat} (hi : i < m.number q) : ∃ p, m.Reachable p ∧ m.number p = i := by
  obtain ⟨p, hp, rfl⟩ :=
    exists_number_eq hm (hi.trans ((number_lt_iff hm).mpr (hq.mem_states hm)))
  refine ⟨p, Classical.byContradiction fun hnot => ?_, rfl⟩
  exact Nat.lt_asymm hi (number_lt_of_reachable hm hq hp hnot)

/-- The others keep their order. -/
theorem number_lt_of_lt (hm : m.WellFormed) {p q : StateId} (hp : p ∈ m.states)
    (hq : q ∈ m.states) (hnot : ¬ m.Reachable q) (hlt : p < q) : m.number p < m.number q := by
  refine number_lt_of_not_lt hm hp hq (Nat.ne_of_lt hlt) fun hback => ?_
  have hgt := (rel_of_idxOf_lt m.pairwise_order ((mem_order hm).mpr hp) hback hnot).2
  exact Nat.lt_asymm hlt hgt

/-! ### Distance -/

section Distance

variable {p q start : StateId}

theorem exists_leastRoute_of_reachable (hstart : m.initial = some start) (h : m.Reachable q) :
    ∃ w, LeastRoute (places m.successors) start w q := by
  obtain ⟨other, hother, w, hpath⟩ := h
  cases hstart.symm.trans hother
  obtain ⟨steps, htrail, -⟩ := path_iff_exists_trail.mp hpath
  obtain ⟨u, hu, -⟩ := exists_route_of_trail htrail .nil
  exact exists_leastRoute hu

/-- The numbers go by least routes, whatever the labels are. -/
theorem before_of_number_lt {L : Type} [LinearOrder L] [WellFoundedLT L]
    {arrows : StateId → List (L × StateId)} (hl : Labeled m.successors arrows)
    (hstart : m.initial = some start) (hp : m.Reachable p) (hq : m.Reachable q)
    (hlt : m.number p < m.number q) : Before arrows start p q := by
  have hlisting : m.reachable = search m.successors m.confined_successors [start] := by
    rw [reachable, hstart, Option.toList_some]
  rw [number_of_mem_reachable (mem_reachable.mpr hp),
    number_of_mem_reachable (mem_reachable.mpr hq), hlisting] at hlt
  exact rel_of_idxOf_lt (pairwise_search hl start) (hlisting ▸ mem_reachable.mpr hq) hlt

/-- Of two states the one with the smaller number is no further from the start state. -/
theorem exists_distances_of_number_lt (hp : m.Reachable p) (hq : m.Reachable q)
    (hlt : m.number p < m.number q) :
    ∃ i j, m.AtDistance p i ∧ m.AtDistance q j ∧ i ≤ j := by
  obtain ⟨start, hstart, -⟩ := id hp
  obtain ⟨u, hu⟩ := exists_leastRoute_of_reachable hstart hp
  obtain ⟨v, hv⟩ := exists_leastRoute_of_reachable hstart hq
  have hbefore := before_of_number_lt (labeled_places m.successors) hstart hp hq hlt u v hu hv
  exact ⟨u.length, v.length, atDistance_of_leastRoute hstart hu, atDistance_of_leastRoute hstart hv,
    length_le_of_shortlex hbefore⟩

end Distance

/-! ### Numbering breadth-first -/

/-- `f` numbers the states of `m` breadth-first. -/
structure BreadthFirst (f : StateId → Nat) (m : Automaton κ τ) : Prop where
  /-- Every number below the number of states is given to one state. -/
  bijOn : Set.BijOn f {q | q ∈ m.states} {i | i < m.stateCount}
  /-- The start state comes first. -/
  initial {q : StateId} : m.initial = some q → f q = 0
  /-- The states that can be reached come before the others. -/
  reachable {p q : StateId} : m.Reachable p → q ∈ m.states → ¬ m.Reachable q → f p < f q
  /-- Of the states that can be reached, one that comes before another is no further from the start
  state. -/
  distance {p q : StateId} : m.Reachable p → m.Reachable q → f p < f q →
    ∃ i j, m.AtDistance p i ∧ m.AtDistance q j ∧ i ≤ j
  /-- The others keep their order. -/
  unreachable {p q : StateId} : p ∈ m.states → q ∈ m.states → ¬ m.Reachable p → ¬ m.Reachable q →
    p < q → f p < f q

theorem breadthFirst_number (hm : m.WellFormed) : BreadthFirst m.number m where
  bijOn := by
    refine ⟨fun q hq => (number_lt_iff hm).mpr hq, apart_number hm, fun i hi => ?_⟩
    obtain ⟨q, hq, rfl⟩ := exists_number_eq hm hi
    exact ⟨q, hq, rfl⟩
  initial := number_initial
  reachable := number_lt_of_reachable hm
  distance := exists_distances_of_number_lt
  unreachable hp hq _ hnot := number_lt_of_lt hm hp hq hnot

/-- The numbered machine has the numbers of the states in their places. -/
theorem relabeled_renumber (hm : m.WellFormed) : Relabeled m.number m m.renumber :=
  relabeled_relabel hm (apart_number hm)

end Automaton

end RegexMachine
