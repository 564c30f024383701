import RegexMachine.Proofs.DFA.Minimal

/-!
# RegexMachine.Proofs.DFA.Canonical

**A smallest machine is settled by its words.** Two complete machines over the same alphabet, all of
whose states can be reached and no two of whose states are alike, accept the same words only if one
is a renaming of the other. Numbering in breadth-first order undoes a renaming: where the search
goes next depends on the characters on the edges and not on the names of the states. So the numbered
machines are equal.

Compared with any complete machine for the same words, a smallest machine has no more states: what
leads to one of its states leads in the other machine to a state with the same residual language,
its twin. If the numbers of states are equal, then the other machine has no states but twins.
-/

namespace RegexMachine

open Std

namespace DFA

open Automaton

variable {d t : DFA} {f : StateId → StateId}

/-! ### Numbering does not depend on names -/

theorem successors_relabel (hd : d.WellFormed) (hf : Apart f d) {q : StateId} (hq : q ∈ d.states) :
    (d.relabel f).successors (f q) = (d.successors q).map f := by
  rw [successors, edgesFrom?_relabel hd hf hq, successors]
  cases d.edgesFrom? q with
  | none => rfl
  | some out =>
      show headsOf (out.map fun _ t => f t) = (headsOf out).map f
      rw [headsOf, ExtTreeMap.toList_map, List.flatMap_map, headsOf, List.map_flatMap]
      rfl

theorem listing_relabel (hd : d.WellFormed) (hf : Apart f d) :
    (d.relabel f).reachable = d.reachable.map f := by
  have hstarts : (d.relabel f).initial.toList = d.initial.toList.map f := by
    rw [initial_relabel]
    cases d.initial <;> rfl
  have hclosed : ∀ q, q ∈ d.states → ∀ r ∈ d.successors q, r ∈ d.states := by
    intro q _ r hr
    obtain ⟨k, hedge⟩ := mem_successors.mp hr
    exact hd.head_mem hedge
  rw [Automaton.reachable, hstarts]
  refine Search.search_map hf hclosed (fun q hq => successors_relabel hd hf hq) fun q hq => ?_
  exact hd.initial_mem (Option.mem_toList.mp hq)

/-- All states can be reached. -/
def Connected (d : DFA) : Prop :=
  ∀ q ∈ d.states, d.Reachable q

theorem Connected.relabel (h : Connected d) (hd : d.WellFormed) (hf : Apart f d) :
    Connected (d.relabel f) := by
  intro r hr
  obtain ⟨q, hq, rfl⟩ := mem_states_relabel.mp hr
  exact (reachable_relabel hd hf).mpr ⟨q, h q hq, rfl⟩

/-- A state that can be reached keeps its number under any name. -/
theorem number_relabel (hd : d.WellFormed) (hf : Apart f d) {q : StateId} (h : d.Reachable q) :
    (d.relabel f).number (f q) = d.number q := by
  have hq : q ∈ d.reachable := mem_reachable.mpr h
  have hnodup := nodup_reachable (d.relabel f)
  rw [number_of_mem_reachable hq, number_of_mem_reachable]
  · rw [listing_relabel hd hf] at hnodup ⊢
    exact Search.idxOf_map hnodup hq
  · rw [listing_relabel hd hf]
    exact List.mem_map_of_mem hq

/-- **Renaming the states of a machine changes nothing about the numbered machine.** -/
theorem renumber_relabel (hconnected : Connected d) (hd : d.WellFormed) (hf : Apart f d) :
    (d.relabel f).renumber = d.renumber := by
  rw [renumber_eq_relabel, renumber_eq_relabel,
    relabel_relabel hd hf (apart_number (hd.relabel hf))]
  refine (relabel_congr hd (apart_number hd) fun q hq => ?_).symm
  exact (number_relabel hd hf (hconnected q hq)).symm

/-! ### Complete machines with a start state -/

/-- A complete machine with a start state: every word over its alphabet leads somewhere. -/
structure Acceptor (d : DFA) : Prop where
  wellFormed : d.WellFormed
  total : Total d
  initial : ∃ q, d.initial = some q

/-- A complete machine with a start state, all of whose states can be reached and no two of whose
states are alike. -/
structure Smallest (d : DFA) : Prop extends Acceptor d where
  reduced : Reduced d
  connected : Connected d

/-! ### Twins -/

/-- The same words lead from `p` in `d` and from `q` in `t` to a final state. -/
structure Twin (d t : DFA) (p q : StateId) : Prop where
  left : p ∈ d.states
  right : q ∈ t.states
  acceptsFrom (w : Word) : acceptsFrom d p w = acceptsFrom t q w

namespace Twin

variable {p q p' q' : StateId} {c : Char}

theorem symm (h : Twin d t p q) : Twin t d q p :=
  ⟨h.right, h.left, fun w => (h.acceptsFrom w).symm⟩

theorem mem_finals_iff (h : Twin d t p q) : p ∈ d.finals ↔ q ∈ t.finals := by
  rw [← isFinal_iff, ← isFinal_iff, ← acceptsFrom_nil, ← acceptsFrom_nil, h.acceptsFrom]

/-- One character takes twins to twins. -/
theorem of_edge (h : Twin d t p q) (hd : d.WellFormed) (ht : t.WellFormed) (hp : d.Edge p c p')
    (hq : t.Edge q c q') : Twin d t p' q' := by
  refine ⟨hd.head_mem hp, ht.head_mem hq, fun w => ?_⟩
  rw [← acceptsFrom_cons_of_edge hp, ← acceptsFrom_cons_of_edge hq, h.acceptsFrom]

/-- A state has one twin at most. -/
theorem unique (h : Twin d t p q) (h' : Twin d t p q') (ht : Reduced t) : q = q' :=
  ht q h.right q' h'.right fun w => by rw [← h.acceptsFrom, h'.acceptsFrom]

end Twin

section Twins

variable (hd : d.WellFormed) (ht : Acceptor t) (halphabet : d.alphabet = t.alphabet)
  (haccepts : ∀ w, accepts d w = accepts t w)

include hd ht haccepts in
theorem twin_initial {p q : StateId} (hp : d.initial = some p) (hq : t.initial = some q) :
    Twin d t p q := by
  refine ⟨hd.initial_mem hp, ht.wellFormed.initial_mem hq, fun w => ?_⟩
  have hw := haccepts w
  rw [accepts, accepts, hp, hq] at hw
  exact hw

include hd ht halphabet in
/-- What one machine does, the other one does as well. -/
theorem Twin.exists_edge {p q p' : StateId} {c : Char} (h : Twin d t p q) (hedge : d.Edge p c p') :
    ∃ q', t.Edge q c q' ∧ Twin d t p' q' := by
  have hc := char_mem_alphabet hd hedge
  obtain ⟨q', hedge'⟩ := ht.total q h.right c (halphabet ▸ hc)
  exact ⟨q', hedge', h.of_edge hd ht.wellFormed hedge hedge'⟩

include hd ht halphabet haccepts in
/-- Every state that can be reached has a twin that can be reached: what leads to the state leads to
its twin. -/
theorem exists_twin {p : StateId} (hp : d.Reachable p) : ∃ q, t.Reachable q ∧ Twin d t p q := by
  obtain ⟨start, hstart, w, hpath⟩ := hp
  obtain ⟨start', hstart'⟩ := ht.initial
  have htwin := twin_initial hd ht haccepts hstart hstart'
  have hreachable := reachable_initial hstart'
  clear hstart hstart'
  induction hpath generalizing start' with
  | nil => exact ⟨start', hreachable, htwin⟩
  | cons hedge _ ih =>
      obtain ⟨q', hedge', htwin'⟩ := htwin.exists_edge hd ht halphabet hedge
      exact ih q' htwin' (hreachable.of_edge hedge')

end Twins

section Embedding

variable (hd : Smallest d) (ht : Acceptor t) (halphabet : d.alphabet = t.alphabet)
  (haccepts : ∀ w, accepts d w = accepts t w)

include hd ht halphabet haccepts in
/-- The states of a smallest machine have twins in any other machine for the same words, and no two
of them share one. -/
theorem exists_embedding :
    ∃ f, Apart f d ∧ ∀ p ∈ d.states, t.Reachable (f p) ∧ Twin d t p (f p) := by
  have htwins : ∀ p ∈ d.states, ∃ q, t.Reachable q ∧ Twin d t p q := fun p hp =>
    exists_twin hd.wellFormed ht halphabet haccepts (hd.connected p hp)
  choose! f hf using htwins
  refine ⟨f, fun p hp q hq heq => ?_, hf⟩
  exact (hf p hp).2.symm.unique (heq ▸ (hf q hq).2.symm) hd.reduced

include hd ht halphabet haccepts in
/-- **No other machine has fewer states.** -/
theorem Smallest.stateCount_le : d.stateCount ≤ t.stateCount := by
  obtain ⟨f, hapart, hf⟩ := exists_embedding hd ht halphabet haccepts
  exact stateCount_le_of_apart hapart fun p hp => (hf p hp).2.right

include hd ht halphabet haccepts in
/-- A machine that has no more states than a smallest one consists of twins only, so it is a
smallest machine as well. -/
theorem Smallest.of_stateCount_le (hle : t.stateCount ≤ d.stateCount) : Smallest t := by
  obtain ⟨f, hapart, hf⟩ := exists_embedding hd ht halphabet haccepts
  have hback : ∀ q ∈ t.states, ∃ p ∈ d.states, f p = q := fun q hq =>
    exists_eq_of_stateCount_le hapart (fun p hp => (hf p hp).2.right) hle hq
  refine ⟨ht, fun q hq q' hq' halike => ?_, fun q hq => ?_⟩
  · obtain ⟨p, hp, rfl⟩ := hback q hq
    obtain ⟨p', hp', rfl⟩ := hback q' hq'
    refine congrArg f (hd.reduced p hp p' hp' fun w => ?_)
    rw [(hf p hp).2.acceptsFrom, (hf p' hp').2.acceptsFrom]
    exact halike w
  · obtain ⟨p, hp, rfl⟩ := hback q hq
    exact (hf p hp).1

end Embedding

section Uniqueness

variable (hd : Smallest d) (ht : Smallest t) (halphabet : d.alphabet = t.alphabet)
  (haccepts : ∀ w, accepts d w = accepts t w)

include hd ht halphabet in
/-- A renaming of states to their twins takes the edges of the one machine to those of the other. -/
theorem exists_edge_iff_of_twins {f : StateId → StateId} (hf : ∀ p ∈ d.states, Twin d t p (f p))
    (hback : ∀ q ∈ t.states, ∃ p ∈ d.states, f p = q) {r s : StateId} {c : Char} :
    (∃ p q, d.Edge p c q ∧ f p = r ∧ f q = s) ↔ t.Edge r c s := by
  constructor
  · rintro ⟨p, q, hedge, rfl, rfl⟩
    obtain ⟨q', hedge', hq'⟩ :=
      (hf p (hd.wellFormed.tail_mem hedge)).exists_edge hd.wellFormed ht.toAcceptor halphabet hedge
    exact (hf q (hd.wellFormed.head_mem hedge)).unique hq' ht.reduced ▸ hedge'
  · intro h
    obtain ⟨p, hp, rfl⟩ := hback r (ht.wellFormed.tail_mem h)
    obtain ⟨q, hedge, hq⟩ :=
      (hf p hp).symm.exists_edge ht.wellFormed hd.toAcceptor halphabet.symm h
    exact ⟨p, q, hedge, rfl, (hf q hq.right).unique hq.symm ht.reduced⟩

include hd ht halphabet haccepts in
/-- The one machine is a renaming of the other. -/
theorem exists_relabel : ∃ f, Apart f d ∧ d.relabel f = t := by
  -- Twins are unique both ways, so the renaming to twins misses none.
  obtain ⟨f, hapart, hf⟩ := exists_embedding hd ht.toAcceptor halphabet haccepts
  have hf : ∀ p ∈ d.states, Twin d t p (f p) := fun p hp => (hf p hp).2
  have hback : ∀ q ∈ t.states, ∃ p ∈ d.states, f p = q := by
    intro q hq
    obtain ⟨p, -, hp⟩ := exists_twin ht.wellFormed hd.toAcceptor halphabet.symm
      (fun w => (haccepts w).symm) (ht.connected q hq)
    exact ⟨p, hp.right, (hf p hp.right).unique hp.symm ht.reduced⟩
  refine ⟨f, hapart, (hd.wellFormed.relabel hapart).eq_of_edge_iff ht.wellFormed ?_ ?_ ?_ ?_⟩
  · refine ExtTreeSet.ext_mem fun q => ?_
    rw [mem_states_relabel]
    constructor
    · intro h
      obtain ⟨p, hp, rfl⟩ := h
      exact (hf p hp).right
    · exact hback q
  · obtain ⟨p, hp⟩ := hd.initial
    obtain ⟨q, hq⟩ := ht.initial
    rw [initial_relabel, hp, hq]
    exact congrArg some ((hf p (hd.wellFormed.initial_mem hp)).unique
      (twin_initial hd.wellFormed ht.toAcceptor haccepts hp hq) ht.reduced)
  · refine ExtTreeSet.ext_mem fun q => ?_
    rw [mem_finals_relabel]
    constructor
    · intro h
      obtain ⟨p, hp, rfl⟩ := h
      exact (hf p (hd.wellFormed.finals_mem hp)).mem_finals_iff.mp hp
    · intro h
      obtain ⟨p, hp, rfl⟩ := hback q (ht.wellFormed.finals_mem h)
      exact ⟨p, (hf p hp).mem_finals_iff.mpr h, rfl⟩
  · intro r c s
    rw [edge_relabel hd.wellFormed hapart]
    exact exists_edge_iff_of_twins hd ht halphabet hf hback

include hd ht halphabet haccepts in
/-- **Smallest machines for the same words are equal once they are numbered.** -/
theorem renumber_eq_of_accepts_eq : d.renumber = t.renumber := by
  obtain ⟨f, hf, rfl⟩ := exists_relabel hd ht halphabet haccepts
  exact (renumber_relabel hd.connected hd.wellFormed hf).symm

end Uniqueness

/-! ### Minimizing a connected machine -/

/-- What leads to a state leads to the place of its block. -/
theorem Merged.path {m : DFA} {blocks : List Block} (hm : Merged d blocks m) (hd : d.WellFormed)
    (h : Stable d blocks) {i : Nat} {p q : StateId} {w : Word} (hp : Block.At blocks i p)
    (hpath : d.Path p w q) : ∃ j, m.Path i w j ∧ Block.At blocks j q := by
  induction hpath generalizing i with
  | nil => exact ⟨i, .nil i, hp⟩
  | @cons p r q c w hedge _ ih =>
      obtain ⟨j, hj⟩ := h.exists_at (hd.head_mem hedge)
      obtain ⟨k, hpath, hk⟩ := ih hj
      exact ⟨k, .cons ((hm.edge hp).mpr ⟨r, hedge, hj⟩) hpath, hk⟩

theorem Merged.connected {m : DFA} {blocks : List Block} (hm : Merged d blocks m)
    (hd : d.WellFormed) (h : Stable d blocks) (hconnected : Connected d) : Connected m := by
  intro i hi
  obtain ⟨q, hq⟩ := h.exists_member (hm.mem_states.mp hi)
  obtain ⟨start, hstart, w, hpath⟩ := hconnected q (h.mem_states hq)
  obtain ⟨k, hk, hat⟩ := hm.initial hstart
  obtain ⟨j, hj, hjq⟩ := hm.path hd h hat hpath
  exact ⟨k, hk, w, hq.unique h.nodup_flatten hjq ▸ hj⟩

/-- The sink is added only where an edge is missing, and there an edge leads to it. -/
theorem Sunk.connected {sink : StateId} (h : Sunk d sink t) (hgap : ¬ Total d)
    (hconnected : Connected d) : Connected t := by
  have hold : ∀ q ∈ d.states, t.Reachable q := by
    intro q hq
    obtain ⟨start, hstart, w, hpath⟩ := hconnected q hq
    have hpath : t.Path start w q := hpath.mono fun _ _ _ hedge => h.edge.mpr (Or.inl hedge)
    exact ⟨start, h.initial.trans hstart, w, hpath⟩
  intro q hq
  rcases h.mem_states.mp hq with rfl | hq
  · obtain ⟨p, hp, c, hc, hnone⟩ : ∃ p ∈ d.states, ∃ c ∈ d.alphabet, ∀ r, ¬ d.Edge p c r := by
      simpa only [Total, not_forall, not_exists, exists_prop] using hgap
    exact (hold p hp).of_edge (h.edge.mpr (Or.inr ⟨hc, rfl, Or.inr ⟨hp, hnone⟩⟩))
  · exact hold q hq

theorem Connected.complete (hconnected : Connected d) (hd : d.WellFormed) {ids : IdSpace}
    (hcompletable : Completable d ids) (hok : complete d ids = .ok t) : Connected t := by
  by_cases htotal : Total d
  · exact Except.ok.inj ((complete_of_total htotal ids).symm.trans hok) ▸ hconnected
  · obtain ⟨left, hleft, hsunk⟩ := hcompletable.exists_sunk hd htotal
    exact Except.ok.inj (hleft.symm.trans hok) ▸ hsunk.connected htotal hconnected

/-- Minimizing a machine all of whose states can be reached leaves a smallest machine. -/
theorem Minimizing.smallest {ids : IdSpace} {m total : DFA} (h : Minimizing ids d total m)
    (hd : d.WellFormed) (hcompletable : Completable d ids) (hconnected : Connected d)
    {start : StateId} (hstart : d.initial = some start) : Smallest m where
  wellFormed := h.wellFormed
  total := h.total_merged hstart
  reduced := h.reduced
  connected :=
    h.merged.connected h.filled.wellFormed h.stable
      (hconnected.complete hd hcompletable h.complete)
  initial := by
    obtain ⟨k, hk, -⟩ := h.merged.initial (h.filled.initial.trans hstart)
    exact ⟨k, hk⟩

end DFA

end RegexMachine
