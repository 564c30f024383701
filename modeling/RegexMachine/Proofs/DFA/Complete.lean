import RegexMachine.Proofs.Automaton.Path
import RegexMachine.Proofs.Automaton.Build

/-!
# RegexMachine.Proofs.DFA.Complete

**Completing changes no word.** `complete` is never refused. Its result has the alphabet, the start
state and the final states of the machine it is made from, and every state has an edge for every
character of the alphabet. That is `Filled`, and it holds whatever state the sink comes to be.

If the name for the sink is free, or no sink is needed, the result is a `Completion`: every edge
that was there is kept as well. What is new leads to the sink, from where no final state can be
reached, so the same words lead from an old state to a final one.
-/

namespace RegexMachine

open Std

namespace DFA

open Automaton

variable {d : DFA}

/-! ### Complete machines -/

/-- Every state has an edge for every character of the alphabet. -/
def Total (d : DFA) : Prop :=
  ∀ q ∈ d.states, ∀ c ∈ d.alphabet, ∃ r, d.Edge q c r

theorem isComplete_iff : isComplete d = true ↔ Total d := by
  simp only [isComplete, List.all_eq_true, ExtTreeSet.mem_toList, Option.isSome_iff_exists,
    edge_iff_next?, Total]

theorem edge_unique {p q r : StateId} {c : Char} (hq : d.Edge p c q) (hr : d.Edge p c r) :
    q = r := by
  rw [edge_iff_next?] at hq hr
  exact Option.some.inj (hq.symm.trans hr)

theorem char_mem_alphabet (hd : d.WellFormed) {p q : StateId} {c : Char} (h : d.Edge p c q) :
    c ∈ d.alphabet :=
  hd.mem_alphabet.mpr ⟨p, c, q, h, List.mem_singleton_self c⟩

/-! ### Residual languages -/

theorem acceptsFrom_nil (d : DFA) (q : StateId) : acceptsFrom d q [] = d.isFinal q := rfl

theorem acceptsFrom_cons_of_edge {p q : StateId} {c : Char} (h : d.Edge p c q) (w : Word) :
    acceptsFrom d p (c :: w) = acceptsFrom d q w := by
  rw [acceptsFrom, run?_cons, edge_iff_next?.mp h, Option.bind_some, acceptsFrom]

theorem acceptsFrom_cons_of_no_edge {p : StateId} {c : Char} (h : ∀ q, ¬ d.Edge p c q) (w : Word) :
    acceptsFrom d p (c :: w) = false := by
  have hnone : next? d p c = none :=
    Option.eq_none_iff_forall_ne_some.mpr fun q hq => h q (edge_iff_next?.mpr hq)
  rw [acceptsFrom, run?_cons, hnone, Option.bind_none, Option.any_none]

/-- A state from which only itself is reached and which is not final accepts nothing. -/
theorem acceptsFrom_of_trap {q : StateId} (hfinal : q ∉ d.finals)
    (htrap : ∀ c r, d.Edge q c r → r = q) (w : Word) : acceptsFrom d q w = false := by
  induction w with
  | nil => rw [acceptsFrom_nil, Bool.eq_false_iff, ne_eq, isFinal_iff]; exact hfinal
  | cons c w ih =>
      by_cases h : ∃ r, d.Edge q c r
      · obtain ⟨r, hr⟩ := h
        rw [acceptsFrom_cons_of_edge hr, htrap c r hr, ih]
      · exact acceptsFrom_cons_of_no_edge (not_exists.mp h) w

/-! ### The sink -/

/-- `t` is `d` with every missing edge sent to the new state `sink`. -/
structure Sunk (d : DFA) (sink : StateId) (t : DFA) : Prop where
  fresh : sink ∉ d.states
  mem_states {q : StateId} : q ∈ t.states ↔ sink = q ∨ q ∈ d.states
  initial : t.initial = d.initial
  finals : t.finals = d.finals
  edge {p : StateId} {c : Char} {q : StateId} : t.Edge p c q ↔ d.Edge p c q ∨
    (c ∈ d.alphabet ∧ q = sink ∧ (p = sink ∨ (p ∈ d.states ∧ ∀ r, ¬ d.Edge p c r)))
  wellFormed : t.WellFormed

theorem mem_gaps {p : StateId} {c : Char} :
    (p, c) ∈ gaps d ↔ p ∈ d.states ∧ c ∈ d.alphabet ∧ ∀ r, ¬ d.Edge p c r := by
  simp only [gaps, List.mem_flatMap, List.mem_map, List.mem_filter, ExtTreeSet.mem_toList,
    decide_eq_true_eq, Prod.mk.injEq, edge_iff_next?]
  constructor
  · intro h
    obtain ⟨p', hp, c', ⟨hc, hnone⟩, rfl, rfl⟩ := h
    exact ⟨hp, hc, fun r hr => by rw [hnone] at hr; cases hr⟩
  · intro h
    obtain ⟨hp, hc, hnone⟩ := h
    exact ⟨p, hp, c, ⟨hc, Option.eq_none_iff_forall_ne_some.mpr hnone⟩, rfl, rfl⟩

theorem keeps_addSink (d : DFA) (ids : IdSpace) : (addSink d ids).Keeps WellFormed :=
  (keeps_newState false ids).bind fun _ =>
    (Edit.keeps_forM fun _ _ => keeps_addEdge _ _ _).bind fun _ =>
      Edit.keeps_forM fun _ _ => keeps_addEdge _ _ _

/-- `t` is `d` with an edge, whichever, wherever one was missing. -/
structure Filled (d t : DFA) : Prop where
  wellFormed : t.WellFormed
  total : Total t
  alphabet : t.alphabet = d.alphabet
  initial : t.initial = d.initial
  finals : t.finals = d.finals
  mem_states {q : StateId} : q ∈ d.states → q ∈ t.states

/-- Adding a sink is never refused. Its edges come last, so if the sink was a state before, they
replace the edges that it had. -/
theorem on_addSink (d : DFA) (ids : IdSpace) :
    ∃ t, (addSink d ids).on d = (.ok ⟨⟩, t) ∧ SameStates (d.withState (d.nextFree ids) false) t ∧
      ∀ p c, next? t p c =
        if (d.nextFree ids = p ∧ c ∈ d.alphabet) ∨ (p, c) ∈ gaps d then some (d.nextFree ids)
        else next? d p c := by
  generalize hname : d.nextFree ids = sink
  have hsink : sink ∈ (d.withState sink false).states := mem_states_withState.mpr (Or.inl rfl)
  obtain ⟨m, hm, hsame, hnext⟩ := on_forM_addEdge_to (gaps d) Prod.fst Prod.snd sink
    (f := fun x => addEdge x.1 sink x.2) (d := d.withState sink false) (fun _ _ => rfl)
    (fun x hx => mem_states_withState.mpr (Or.inr (mem_gaps.mp hx).1)) hsink
  rw [← hsame.states] at hsink
  obtain ⟨t, ht, hsame', hnext'⟩ := on_forM_addEdge_to d.alphabet.toList (fun _ => sink) id sink
    (f := fun c => addEdge sink sink c) (d := m) (fun _ _ => rfl) (fun _ _ => hsink) hsink
  refine ⟨t, ?_, hsame.trans hsame', fun p c => ?_⟩
  · rw [addSink, Edit.on_bind_of_ok (on_newState false ids d), hname, Edit.on_bind_of_ok hm]
    exact ht
  · have hloop : (∃ k ∈ d.alphabet.toList, sink = p ∧ id k = c) ↔ sink = p ∧ c ∈ d.alphabet :=
      ⟨fun ⟨_, hk, hp, hc⟩ => ⟨hp, hc ▸ ExtTreeSet.mem_toList.mp hk⟩,
        fun h => ⟨c, ExtTreeSet.mem_toList.mpr h.2, h.1, rfl⟩⟩
    have hgap : (∃ x ∈ gaps d, x.1 = p ∧ x.2 = c) ↔ (p, c) ∈ gaps d :=
      ⟨fun ⟨_, hx, hp, hc⟩ => hp ▸ hc ▸ hx, fun h => ⟨_, h, rfl, rfl⟩⟩
    rw [hnext', hnext]
    by_cases hsinks : sink = p ∧ c ∈ d.alphabet
    · rw [if_pos (hloop.mpr hsinks), if_pos (Or.inl hsinks)]
    · rw [if_neg (mt hloop.mp hsinks)]
      by_cases hgaps : (p, c) ∈ gaps d
      · rw [if_pos (hgap.mpr hgaps), if_pos (Or.inr hgaps)]
      · rw [if_neg (mt hgap.mp hgaps), if_neg (not_or.mpr ⟨hsinks, hgaps⟩)]
        rfl

theorem wellFormed_addSink (hd : d.WellFormed) {ids : IdSpace} {t : DFA}
    (hon : (addSink d ids).on d = (.ok ⟨⟩, t)) : t.WellFormed := by
  have hkeep := keeps_addSink d ids d hd
  rw [hon] at hkeep
  exact hkeep

section Filling

variable {sink : StateId} {t : DFA} (hnext : ∀ p c, next? t p c =
  if (sink = p ∧ c ∈ d.alphabet) ∨ (p, c) ∈ gaps d then some sink else next? d p c)

include hnext in
/-- There is an edge where one leads to the sink and where there was one before. -/
theorem exists_edge_iff_of_sink {p : StateId} {c : Char} : (∃ q, t.Edge p c q) ↔
    ((sink = p ∧ c ∈ d.alphabet) ∨ (p, c) ∈ gaps d) ∨ ∃ q, d.Edge p c q := by
  simp only [edge_iff_next?, hnext]
  split
  · next hkey => simp [hkey]
  · next hkey => simp [hkey]

include hnext in
/-- The sink is left by every character of the alphabet and by no other one. -/
theorem alphabet_eq_of_sink (hd : d.WellFormed) (ht : t.WellFormed) :
    t.alphabet = d.alphabet := by
  refine ExtTreeSet.ext_mem fun c => ?_
  constructor
  · intro hc
    obtain ⟨p, k, q, hpq, hk⟩ := ht.mem_alphabet.mp hc
    rw [letters_char, List.mem_singleton] at hk
    subst hk
    rcases (exists_edge_iff_of_sink hnext).mp ⟨q, hpq⟩ with (hsink | hgap) | ⟨r, hr⟩
    · exact hsink.2
    · exact (mem_gaps.mp hgap).2.1
    · exact char_mem_alphabet hd hr
  · intro hc
    obtain ⟨q, hq⟩ := (exists_edge_iff_of_sink hnext).mpr (Or.inl (Or.inl ⟨rfl, hc⟩))
    exact char_mem_alphabet ht hq

end Filling

/-- Every gap is filled, even if the sink was a state before. -/
theorem exists_filled (hd : d.WellFormed) (ids : IdSpace) :
    ∃ t, (addSink d ids).on d = (.ok ⟨⟩, t) ∧ Filled d t := by
  obtain ⟨t, hon, hsame, hnext⟩ := on_addSink d ids
  have hwf := wellFormed_addSink hd hon
  have hstates : ∀ {q}, q ∈ t.states ↔ d.nextFree ids = q ∨ q ∈ d.states := fun {q} => by
    rw [hsame.states, mem_states_withState]
  have halphabet := alphabet_eq_of_sink hnext hd hwf
  refine ⟨t, hon, hwf, fun q hq c hc => (exists_edge_iff_of_sink hnext).mpr ?_, halphabet,
    hsame.initial, hsame.finals, fun hq => hstates.mpr (Or.inr hq)⟩
  rw [halphabet] at hc
  rcases hstates.mp hq with rfl | hq
  · exact Or.inl (Or.inl ⟨rfl, hc⟩)
  · by_cases hold : ∃ r, d.Edge q c r
    · exact Or.inr hold
    · exact Or.inl (Or.inr (mem_gaps.mpr ⟨hq, hc, not_exists.mp hold⟩))

/-- Under a free name the sink is new, and no edge is replaced. -/
theorem exists_sunk (hd : d.WellFormed) {ids : IdSpace} (hfree : d.HasFree ids) :
    ∃ t, (addSink d ids).on d = (.ok ⟨⟩, t) ∧ Sunk d (d.nextFree ids) t := by
  obtain ⟨t, hon, hsame, hnext⟩ := on_addSink d ids
  refine ⟨t, hon, hfree, fun {q} => ?_, hsame.initial, hsame.finals, fun {p c q} => ?_,
    wellFormed_addSink hd hon⟩
  · rw [hsame.states, mem_states_withState]
  have hkey : (d.nextFree ids = p ∧ c ∈ d.alphabet) ∨ (p, c) ∈ gaps d ↔
      c ∈ d.alphabet ∧ (p = d.nextFree ids ∨ (p ∈ d.states ∧ ∀ r, ¬ d.Edge p c r)) := by
    rw [mem_gaps, eq_comm (b := p), and_left_comm, and_comm (b := c ∈ d.alphabet), ← and_or_left]
  rw [edge_iff_next?, hnext]
  split
  · next h =>
      have hold : ¬ d.Edge p c q := fun hedge => by
        rcases h with ⟨rfl, -⟩ | hgap
        · exact hfree (hd.tail_mem hedge)
        · exact (mem_gaps.mp hgap).2.2 q hedge
      rw [or_iff_right hold, Option.some.injEq, eq_comm, and_left_comm, and_iff_left (hkey.mp h)]
  · next h =>
      rw [← edge_iff_next?, or_iff_left fun hnew => h (hkey.mpr ⟨hnew.1, hnew.2.2⟩)]

namespace Sunk

variable {sink : StateId} {t : DFA}

theorem not_mem_finals (h : Sunk d sink t) (hd : d.WellFormed) : sink ∉ t.finals := fun hfinal =>
  h.fresh (hd.finals_mem (h.finals ▸ hfinal))

/-- Every edge out of the sink leads back into it. -/
theorem eq_of_edge_sink (h : Sunk d sink t) (hd : d.WellFormed) {c : Char} {q : StateId}
    (hedge : t.Edge sink c q) : q = sink := by
  rcases h.edge.mp hedge with hold | ⟨-, hq, -⟩
  · exact absurd (hd.tail_mem hold) h.fresh
  · exact hq

theorem acceptsFrom_sink (h : Sunk d sink t) (hd : d.WellFormed) (w : Word) :
    acceptsFrom t sink w = false :=
  acceptsFrom_of_trap (h.not_mem_finals hd) (fun _ _ hr => h.eq_of_edge_sink hd hr) w

/-- From an old state the same words lead to a final state. -/
theorem acceptsFrom_eq (h : Sunk d sink t) (hd : d.WellFormed) {q : StateId} (hq : q ∈ d.states)
    (w : Word) : acceptsFrom t q w = acceptsFrom d q w := by
  induction w generalizing q with
  | nil => rw [acceptsFrom_nil, acceptsFrom_nil, isFinal, isFinal, h.finals]
  | cons c w ih =>
      by_cases hold : ∃ r, d.Edge q c r
      · obtain ⟨r, hr⟩ := hold
        rw [acceptsFrom_cons_of_edge hr, acceptsFrom_cons_of_edge (h.edge.mpr (Or.inl hr)),
          ih (hd.head_mem hr)]
      -- The word falls off the old machine: in the new one it ends in the sink, if at all anywhere.
      · rw [acceptsFrom_cons_of_no_edge (not_exists.mp hold)]
        by_cases hnew : ∃ r, t.Edge q c r
        · obtain ⟨r, hr⟩ := hnew
          rcases h.edge.mp hr with hr' | ⟨-, rfl, -⟩
          · exact absurd ⟨r, hr'⟩ hold
          · rw [acceptsFrom_cons_of_edge hr, h.acceptsFrom_sink hd]
        · exact acceptsFrom_cons_of_no_edge (not_exists.mp hnew) w

end Sunk

/-! ### Completing -/

/-- `t` is `d` with an edge wherever one was missing, and the same words lead from the states of `d`
to final states. -/
structure Completion (d t : DFA) : Prop extends Filled d t where
  edge {p : StateId} {c : Char} {q : StateId} : d.Edge p c q → t.Edge p c q
  acceptsFrom {q : StateId} : q ∈ d.states → ∀ w, acceptsFrom t q w = acceptsFrom d q w

theorem complete_of_total (hd : Total d) (ids : IdSpace) : complete d ids = .ok d := by
  rw [complete, if_pos (isComplete_iff.mpr hd)]

theorem complete_of_not_total {ids : IdSpace} {t : DFA} (h : ¬ Total d)
    (hon : (addSink d ids).on d = (.ok ⟨⟩, t)) : complete d ids = .ok t := by
  rw [complete, if_neg (mt isComplete_iff.mp h)]
  exact Edit.result_of_ok hon

/-- Completing is never refused. -/
theorem exists_complete (hd : d.WellFormed) (ids : IdSpace) :
    ∃ t, complete d ids = .ok t ∧ Filled d t := by
  by_cases htotal : Total d
  · exact ⟨d, complete_of_total htotal ids, hd, htotal, rfl, rfl, rfl, id⟩
  · obtain ⟨t, hon, ht⟩ := exists_filled hd ids
    exact ⟨t, complete_of_not_total htotal hon, ht⟩

/-- No sink is needed, or there is a free name for it. -/
def Completable (d : DFA) (ids : IdSpace) : Prop :=
  Total d ∨ d.HasFree ids

instance (d : DFA) (ids : IdSpace) : Decidable (Completable d ids) :=
  decidable_of_iff (isComplete d = true ∨ d.HasFree ids) (or_congr_left isComplete_iff)

/-- Where an edge is missing a new sink is added. -/
theorem Completable.exists_sunk {ids : IdSpace} (h : Completable d ids) (hd : d.WellFormed)
    (htotal : ¬ Total d) : ∃ t, complete d ids = .ok t ∧ Sunk d (d.nextFree ids) t := by
  obtain ⟨t, hon, ht⟩ := DFA.exists_sunk hd (h.resolve_left htotal)
  exact ⟨t, complete_of_not_total htotal hon, ht⟩

theorem Completable.completion {ids : IdSpace} {t : DFA} (h : Completable d ids)
    (hd : d.WellFormed) (hok : complete d ids = .ok t) : Completion d t := by
  obtain ⟨t', hok', hfilled⟩ := exists_complete hd ids
  cases hok'.symm.trans hok
  by_cases htotal : Total d
  · cases (complete_of_total htotal ids).symm.trans hok
    exact ⟨hfilled, id, fun _ _ => rfl⟩
  · obtain ⟨t', hok', ht⟩ := h.exists_sunk hd htotal
    cases hok'.symm.trans hok
    exact ⟨hfilled, fun hedge => ht.edge.mpr (Or.inl hedge),
      fun hq w => ht.acceptsFrom_eq hd hq w⟩

theorem Completion.accepts {t : DFA} (h : Completion d t) (hd : d.WellFormed) (w : Word) :
    accepts t w = accepts d w := by
  rw [DFA.accepts, DFA.accepts, h.initial]
  cases hinit : d.initial with
  | none => rfl
  | some q => exact h.acceptsFrom (hd.initial_mem hinit) w

end DFA

end RegexMachine
