import RegexMachine.Proofs.Automaton.InStep
import RegexMachine.Proofs.Built
import RegexMachine.Proofs.DFA.Canonical
import RegexMachine.Proofs.DFA.Renaming

/-!
# RegexMachine.Proofs.Repetition

**Minimizing a second time gives other names at most.** The result of minimizing is complete and no
two of its states are alike, so the second run ends with one state in every block, and what it
builds is the first result under other names. A state that can be reached keeps its name, for the
search comes upon these states in the same order. The other states are numbered in the order in
which their blocks were made, and that need not be the order that they had before: with two of them
the results may differ.

Names are all that differs, so the third run gives what the second one gave.

If all states of a machine can be reached, so can all states of the first result, provided that a
sink is a new state: one that takes the name of an old state cuts off what that state led to.
-/

namespace RegexMachine

open Std

namespace DFA

open Automaton Block

variable {d m t : DFA} {f : StateId → StateId} {blocks : List Block} {start : StateId}

/-! ### Blocks of one state -/

/-- If every block holds one state then the machine over the places is the machine itself, its
states named by their places. -/
theorem merged_relabel (hd : d.WellFormed) (h : Stable d blocks)
    (hapart : Apart (placeOf blocks) d) : Merged d blocks (d.relabel (placeOf blocks)) := by
  have hplace : ∀ {i q}, At blocks i q → q ∈ d.states ∧ placeOf blocks q = i := fun hq =>
    ⟨h.mem_states hq, (h.placeOf_eq_iff (h.mem_states hq)).mpr hq⟩
  refine ⟨hd.relabel hapart, fun {i} => ?_, fun {q} hq => ?_, fun {i q} hq => ?_,
    fun {i j p c} hp => ?_⟩
  · rw [mem_states_relabel]
    constructor
    · intro hex
      obtain ⟨q, hq, rfl⟩ := hex
      exact (h.at_placeOf hq).lt_length
    · intro hi
      obtain ⟨q, hq⟩ := h.exists_member hi
      exact ⟨q, hplace hq⟩
  · exact ⟨placeOf blocks q, by rw [initial_relabel, hq, Option.map_some],
      h.at_placeOf (hd.initial_mem hq)⟩
  · obtain ⟨hmem, rfl⟩ := hplace hq
    exact apply_mem_finals_relabel hd hapart hmem
  · obtain ⟨hmem, rfl⟩ := hplace hp
    rw [edge_relabel_apply hd hapart hmem]
    exact exists_congr fun q => and_congr_right fun hedge => h.placeOf_eq_iff (hd.head_mem hedge)

theorem apart_placeOf (hd : d.WellFormed) (htotal : Total d) (hreduced : Reduced d) :
    Apart (placeOf (refined d).blocks) d := by
  have h := stable_refined hd htotal
  intro p hp q hq heq
  have htogether : Together (refined d).blocks p q :=
    together_iff_at.mpr ⟨_, h.at_placeOf hp, (h.placeOf_eq_iff hq).mp heq.symm⟩
  exact hreduced p hp q hq (alike_of_together hd htotal htogether)

/-- Minimizing a complete machine no two of whose states are alike only gives names. -/
theorem Reduced.exists_minimize (hreduced : Reduced d) (hd : d.WellFormed) (htotal : Total d)
    (hstart : d.initial = some start) (ids : IdSpace) :
    ∃ g, Apart g d ∧ (minimize d ids).outcome = .ok (d.relabel g).renumber := by
  obtain ⟨total, m, hm, hok⟩ := DFA.exists_minimize hd hstart ids
  have hsame : total = d :=
    Except.ok.inj (hm.complete.symm.trans (complete_of_total htotal ids))
  subst hsame
  have hapart := apart_placeOf hd htotal hreduced
  refine ⟨_, hapart, ?_⟩
  rw [hok, hm.merged.unique (merged_relabel hd hm.stable hapart) hm.stable hstart]

/-! ### States that keep their names -/

/-- A renaming of the states among themselves that fixes those that can be reached fixes all of them
if there is no more than one other. -/
theorem relabel_eq_self_of_reachable (hm : m.WellFormed) (hf : Apart f m)
    (hmem : ∀ q ∈ m.states, f q ∈ m.states) (hfix : ∀ q, m.Reachable q → f q = q)
    (hone : ∀ p ∈ m.states, ∀ q ∈ m.states, ¬ m.Reachable p → ¬ m.Reachable q → p = q) :
    m.relabel f = m := by
  refine relabel_eq_self hm fun q hq => ?_
  by_cases hq' : m.Reachable q
  · exact hfix q hq'
  · by_cases hfq : m.Reachable (f q)
    · exact hf (hmem q hq) hq (hfix (f q) hfq)
    · exact hone (f q) (hmem q hq) q hq hfq hq'

/-- Minimizing the numbered machine gives it back, but for the names of states that cannot be
reached. -/
theorem Reduced.exists_again (hreduced : Reduced d) (hd : d.WellFormed) (htotal : Total d)
    (hstart : d.initial = some start) (ids : IdSpace) :
    ∃ f, Apart f d.renumber ∧ (∀ q, d.renumber.Reachable q → f q = q) ∧
      (d.renumber.relabel f).states = d.renumber.states ∧
      (minimize d.renumber ids).outcome = .ok (d.renumber.relabel f) := by
  have hm := wellFormed_renumber hd
  have htotal' : Total d.renumber := htotal.relabel hd (apart_number hd)
  have hreduced' : Reduced d.renumber := hreduced.relabel hd (apart_number hd)
  obtain ⟨g, hg, hok⟩ := hreduced'.exists_minimize hm htotal' (initial_renumber hstart) ids
  -- Merging gives the names `g`, and numbering what comes out gives names once more.
  have hg' := apart_number (hm.relabel hg)
  have hrenumber : (d.renumber.relabel g).renumber =
      d.renumber.relabel fun q => (d.renumber.relabel g).number (g q) :=
    (renumber_eq_relabel _).trans (relabel_relabel hm hg hg')
  refine ⟨_, hg.comp hg', fun q hq => ?_, ?_, hrenumber ▸ hok⟩
  · exact (number_relabel hm hg hq).trans (number_renumber hd (hq.mem_states hm))
  · rw [← hrenumber]
    refine ExtTreeSet.ext_mem fun i => ?_
    rw [mem_states_renumber (hm.relabel hg), mem_states_renumber hd,
      stateCount_renumber (hm.relabel hg), stateCount_relabel hg]

/-! ### The second run and the third -/

/-- **Minimizing a second time gives other names at most, and only to states that cannot be
reached.** If there is no more than one of these then the second result is the first one. The third
result is always the second one. -/
theorem minimize_again (hd : d.Built) (hstart : d.initial = some start) (ids : IdSpace) :
    ∃ m t, (minimize d ids).outcome = .ok m ∧ (minimize m ids).outcome = .ok t ∧
      t.states = m.states ∧
      (∃ f, Apart f m ∧ (∀ q, m.Reachable q → f q = q) ∧ t = m.relabel f) ∧
      ((∀ p ∈ m.states, ∀ q ∈ m.states, ¬ m.Reachable p → ¬ m.Reachable q → p = q) → t = m) ∧
      (Connected d → Completable d ids → t = m) ∧ (minimize t ids).outcome = .ok t := by
  obtain ⟨total, left, hleft, hok⟩ := exists_minimize hd.wellFormed hstart ids
  have hwf := wellFormed_renumber hleft.wellFormed
  have htotal : Total left.renumber :=
    (hleft.total_merged hstart).relabel hleft.wellFormed (apart_number hleft.wellFormed)
  obtain ⟨k, hk, -⟩ := hleft.merged.initial (hleft.filled.initial.trans hstart)
  obtain ⟨f, hf, hfix, hstates, hagain⟩ :=
    hleft.reduced.exists_again hleft.wellFormed (hleft.total_merged hstart) hk ids
  have hmem : ∀ q ∈ left.renumber.states, f q ∈ left.renumber.states := fun q hq =>
    hstates ▸ mem_states_relabel.mpr ⟨q, hq, rfl⟩
  refine ⟨left.renumber, left.renumber.relabel f, hok, hagain, hstates, ⟨f, hf, hfix, rfl⟩,
    relabel_eq_self_of_reachable hwf hf hmem hfix, fun hconnected hcompletable => ?_, ?_⟩
  · have hall := (hleft.smallest hd.wellFormed hcompletable hconnected hstart).connected.relabel
      hleft.wellFormed (apart_number hleft.wellFormed)
    exact relabel_eq_self hwf fun q hq => hfix q (hall q hq)
  -- The second result is the first one renamed, so minimizing it is minimizing the first one.
  · rw [minimize_relabel hwf hf (Or.inl htotal) (Or.inl (htotal.relabel hwf hf)), hagain]

/-- A machine with an edge missing, two of whose states cannot be reached. One of these is like a
state that can be reached. -/
def islands : DFA :=
  ((setInitial 0).on ((addEdge 3 1 'b').on ((addEdge 3 0 'a').on ((addEdge 2 3 'b').on
    ((addEdge 1 1 'b').on ((addEdge 1 0 'a').on ((addEdge 0 1 'b').on ((addEdge 0 1 'a').on
      ((newState false).on ((newState false).on ((newState false).on
        ((newState true).on Automaton.empty).2).2).2).2).2).2).2).2).2).2).2).2

theorem built_islands : Built islands :=
  .call (.addEdge 3 1 'b' (.addEdge 3 0 'a' (.addEdge 2 3 'b' (.addEdge 1 1 'b' (.addEdge 1 0 'a'
    (.addEdge 0 1 'b' (.addEdge 0 1 'a' (.call (.call (.call (.call .empty (.newState true _))
      (.newState false _)) (.newState false _)) (.newState false _))))))))) (.setInitial 0)

theorem minimize_again_islands : ∃ m t : DFA, (minimize islands).outcome = .ok m ∧
    (minimize m).outcome = .ok t ∧ t.states = m.states ∧ (minimize t).outcome = .ok t := by
  have hstart : islands.initial = some 0 := by cbv
  obtain ⟨m, t, hm, ht, hstates, -, -, -, hthird⟩ := minimize_again built_islands hstart .words
  exact ⟨m, t, hm, ht, hstates, hthird⟩

/-- The sink is the state `2` of the first result and the state `3` of the second one. -/
theorem minimize_again_ne_islands : Built islands ∧ islands.initial = some 0 ∧ ∃ m t : DFA,
    (minimize islands).outcome = .ok m ∧ (minimize m).outcome = .ok t ∧
      next? m 2 'a' = some 2 ∧ next? t 2 'a' = some 3 ∧ t ≠ m := by
  have hnext : ((minimize islands).outcome.toOption.bind fun m =>
      (minimize m).outcome.toOption.map fun t => (next? m 2 'a', next? t 2 'a')) =
        some (some 2, some 3) := by cbv
  have hok : ∀ {x : Except Fault DFA} {m : DFA}, x.toOption = some m → x = .ok m := by
    intro x m h
    cases x with
    | error fault => cases h
    | ok m' => exact congrArg Except.ok (Option.some.inj h)
  simp only [Option.bind_eq_some_iff, Option.map_eq_some_iff, Prod.mk.injEq] at hnext
  obtain ⟨m, hm, t, ht, hfirst, hsecond⟩ := hnext
  refine ⟨built_islands, by cbv, m, t, hok hm, hok ht, hfirst, hsecond, fun hsame => ?_⟩
  rw [hsame, hfirst] at hsecond
  cases hsecond

end DFA

end RegexMachine
