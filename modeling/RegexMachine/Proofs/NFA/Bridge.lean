import RegexMachine.NFA.Combine
import RegexMachine.Proofs.Automaton.Build
import RegexMachine.Proofs.Automaton.Renumber

/-!
# RegexMachine.Proofs.NFA.Bridge

**Putting machines side by side and connecting them.** A second machine is moved up behind the
states of the first one, so that the two share no state unless the names go round. The machine that
holds both has the edges of both and is well formed. Then empty moves are added, which change
nothing but the edges.

`Bridged m bridge n` says that `n` is `m` with an empty move for each pair that `bridge` relates.
Seen from outside, a machine so built in is a `Part`: the paths inside it are its own, and it is
left from its final states only.
-/

namespace RegexMachine

open Std

namespace Automaton

variable {κ τ : Type} [Ord κ]

/-! ### Moving a machine up -/

theorem apart_add (m : Automaton κ τ) (ids : IdSpace) (offset : Nat) :
    Apart (ids.add · offset) m :=
  fun _ _ _ _ h => IdSpace.add_inj h

section Shift

variable [Target τ] {m : Automaton κ τ}

theorem stateCount_shift (m : Automaton κ τ) (ids : IdSpace) (offset : Nat) :
    (m.shift offset ids).stateCount = m.stateCount :=
  stateCount_relabel (apart_add m ids offset)

variable [TransOrd κ] [LawfulEqOrd κ] [Lettered κ]

theorem WellFormed.shift (hm : m.WellFormed) (ids : IdSpace) (offset : Nat) :
    (m.shift offset ids).WellFormed :=
  hm.relabel (apart_add m ids offset)

theorem accepts_shift (hm : m.WellFormed) (ids : IdSpace) (offset : Nat) {w : Word} :
    (m.shift offset ids).Accepts w ↔ m.Accepts w :=
  accepts_relabel hm (apart_add m ids offset)

end Shift

/-- `other` moved up behind the states of `m`. -/
def behind [TransOrd κ] [Target τ] (other m : Automaton κ τ) (ids : IdSpace) : Automaton κ τ :=
  other.shift (m.nextFree ids) ids

theorem initial_behind [TransOrd κ] [Target τ] {other : Automaton κ τ} {q : StateId}
    (h : other.initial = some q) (m : Automaton κ τ) (ids : IdSpace) :
    (other.behind m ids).initial = some (ids.add q (m.nextFree ids)) := by
  rw [behind, shift, initial_relabel, h, Option.map_some]

theorem initial_behind_of_none [TransOrd κ] [Target τ] {other : Automaton κ τ}
    (h : other.initial = none) (m : Automaton κ τ) (ids : IdSpace) :
    (other.behind m ids).initial = none := by
  rw [behind, shift, initial_relabel, h, Option.map_none]

/-! ### Side by side -/

/-- No state belongs to both machines. -/
def Disjoint (m other : Automaton κ τ) : Prop :=
  ∀ q ∈ m.states, q ∉ other.states

/-- There is room for `other` behind the last state of `m`: moved up there it takes no name that is
taken. -/
def HasRoom [TransOrd κ] [Target τ] (m other : Automaton κ τ) (ids : IdSpace) : Prop :=
  Disjoint m (other.behind m ids)

/-- The name after the last is above all the names taken, and moving up keeps it so. -/
theorem hasRoom_naturals [TransOrd κ] [Target τ] (m other : Automaton κ τ) :
    m.HasRoom other .naturals := by
  intro q hq hmoved
  obtain ⟨p, -, rfl⟩ := mem_states_relabel.mp hmoved
  exact absurd (StateSet.lt_nextFree hq (Or.inl rfl)) (Nat.not_lt.mpr (Nat.le_add_left _ _))

variable [TransOrd κ] {m other : Automaton κ τ}

/-- The least name that would be used twice if `other` were moved up behind the states of `m`. -/
def clash? [Target τ] (m other : Automaton κ τ) (ids : IdSpace) : Option StateId :=
  (m.states ∩ (other.behind m ids).states).min?

theorem clash?_eq_none_iff [Target τ] {ids : IdSpace} :
    m.clash? other ids = none ↔ m.HasRoom other ids := by
  rw [clash?, ExtTreeSet.min?_eq_none_iff, ExtTreeSet.eq_empty_iff_forall_not_mem]
  simp only [ExtTreeSet.mem_inter_iff, not_and, HasRoom, Disjoint]

instance [Target τ] (ids : IdSpace) : Decidable (m.HasRoom other ids) :=
  decidable_of_iff _ clash?_eq_none_iff

/-- A machine that shares a state is not taken in. -/
theorem on_absorb_of_clash {clash : StateId}
    (h : (m.states ∩ other.states).min? = some clash) :
    (absorb other).on m = (.error (.duplicateState clash), m) := by
  rw [absorb, Edit.on_look_bind, h]
  rfl

theorem on_absorb (h : Disjoint m other) :
    (absorb other).on m = (.ok ⟨⟩, m.merge other) := by
  have hnone : (m.states ∩ other.states).min? = none := by
    rw [ExtTreeSet.min?_eq_none_iff, ExtTreeSet.eq_empty_iff_forall_not_mem]
    intro q hq
    rw [ExtTreeSet.mem_inter_iff] at hq
    exact h q hq.1 hq.2
  rw [absorb, Edit.on_look_bind, hnone]
  rfl

section Merge

variable [Target τ] [Lettered κ]

theorem edge_merge (hm : m.WellFormed) (hother : other.WellFormed) (h : Disjoint m other)
    {p q : StateId} {k : κ} : (m.merge other).Edge p k q ↔ m.Edge p k q ∨ other.Edge p k q := by
  have hnone : ∀ {a : Automaton κ τ}, a.WellFormed → p ∉ a.states → a.edgesFrom? p = none :=
    fun ha hp => Option.eq_none_iff_forall_ne_some.mpr fun _ hout => hp (ha.source_mem hout)
  have htarget : (m.merge other).target? p k =
      ((other.edgesFrom? p).or (m.edgesFrom? p)).bind (·[k]?) := by
    rw [target?, edgesFrom?_merge]
  unfold Edge
  rw [htarget]
  by_cases hp : p ∈ other.states
  · have hleft : m.edgesFrom? p = none := hnone hm fun hp' => h p hp' hp
    simp [target?, hleft]
  · simp [target?, hnone hother hp]

omit [Target τ] [Lettered κ] in
theorem edgesFrom?_merge_cases {p : StateId} {out : ExtTreeMap κ τ}
    (h : (m.merge other).edgesFrom? p = some out) :
    other.edgesFrom? p = some out ∨ m.edgesFrom? p = some out := by
  rw [edgesFrom?_merge] at h
  exact (Option.or_eq_some_iff.mp h).imp id And.right

theorem WellFormed.merge (hm : m.WellFormed) (hother : other.WellFormed) (h : Disjoint m other) :
    (m.merge other).WellFormed where
  initial_mem hq := mem_states_merge.mpr (Or.inl (hm.initial_mem hq))
  finals_mem hq :=
    mem_states_merge.mpr ((mem_finals_merge.mp hq).imp hm.finals_mem hother.finals_mem)
  source_mem hout := by
    rcases edgesFrom?_merge_cases hout with hout | hout
    · exact mem_states_merge.mpr (Or.inr (hother.source_mem hout))
    · exact mem_states_merge.mpr (Or.inl (hm.source_mem hout))
  head_mem hedge :=
    mem_states_merge.mpr (((edge_merge hm hother h).mp hedge).imp hm.head_mem hother.head_mem)
  out_ne hout := by
    rcases edgesFrom?_merge_cases hout with hout | hout
    · exact hother.out_ne hout
    · exact hm.out_ne hout
  members_ne {q k t} ht := by
    obtain ⟨out, hout, hk⟩ := Option.bind_eq_some_iff.mp ht
    rcases edgesFrom?_merge_cases hout with hout | hout
    · exact hother.members_ne (Option.bind_eq_some_iff.mpr ⟨out, hout, hk⟩)
    · exact hm.members_ne (Option.bind_eq_some_iff.mpr ⟨out, hout, hk⟩)
  mem_alphabet {c} := by
    have halphabet : c ∈ (m.merge other).alphabet ↔ c ∈ m.alphabet ∨ c ∈ other.alphabet :=
      ExtTreeSet.mem_union_iff
    rw [halphabet, hm.mem_alphabet, hother.mem_alphabet]
    simp only [edge_merge hm hother h, or_and_right, exists_or]

end Merge

end Automaton

namespace NFA

open Automaton

variable {m n : NFA}

/-! ### Taking a machine in -/

section TakeIn

variable {other : NFA} {ids : IdSpace} {q : StateId}

theorem on_takeIn_of_start {n : NFA} {start : Except Fault StateId}
    (hstart : (other.behind n ids).start = start) :
    (takeIn other ids).on n = (do
      let q ← Edit.answer start
      absorb (other.behind n ids)
      return (q, (other.behind n ids).finals) :
        Edit Symbol StateSet (StateId × StateSet)).on n := by
  rw [← hstart]
  rfl

/-- Where there is room the machine is taken in. -/
theorem on_takeIn {n : NFA} (hq : (other.behind n ids).initial = some q)
    (hroom : n.HasRoom other ids) :
    (takeIn other ids).on n =
      (.ok (q, (other.behind n ids).finals), n.merge (other.behind n ids)) := by
  rw [on_takeIn_of_start (start_of_initial hq), Edit.on_bind_of_ok (Edit.on_answer _ n),
    Edit.on_bind_of_ok (on_absorb hroom)]
  rfl

/-- Where there is none the least name that would be used twice is named in the refusal. -/
theorem on_takeIn_of_clash {n : NFA} {clash : StateId}
    (hq : (other.behind n ids).initial = some q) (h : n.clash? other ids = some clash) :
    (takeIn other ids).on n = (.error (.duplicateState clash), n) := by
  rw [on_takeIn_of_start (start_of_initial hq), Edit.on_bind_of_ok (Edit.on_answer _ n),
    Edit.on_bind_of_error (on_absorb_of_clash h)]

theorem on_takeIn_of_no_start {n : NFA} (h : (other.behind n ids).initial = none) :
    (takeIn other ids).on n = (.error .missingInitialState, n) := by
  rw [on_takeIn_of_start (start_of_no_initial h), Edit.on_bind_of_error (Edit.on_answer _ n)]

end TakeIn

/-! ### Empty moves -/

/-- `n` is `m` with an empty move for each pair of states that `bridge` relates. -/
structure Bridged (m : NFA) (bridge : StateId → StateId → Prop) (n : NFA) : Prop where
  wellFormed : n.WellFormed
  same : SameStates m n
  edge {p : StateId} {k : Symbol} {q : StateId} :
    n.Edge p k q ↔ m.Edge p k q ∨ (k = .epsilon ∧ bridge p q)

theorem Bridged.refl (hm : m.WellFormed) : Bridged m (fun _ _ => False) m :=
  ⟨hm, ⟨rfl, rfl, rfl⟩, by simp⟩

theorem Bridged.trans {l : NFA} {b b' : StateId → StateId → Prop} (h : Bridged l b m)
    (h' : Bridged m b' n) : Bridged l (fun p q => b p q ∨ b' p q) n where
  wellFormed := h'.wellFormed
  same := h.same.trans h'.same
  edge {p k q} := by rw [h'.edge, h.edge, or_assoc, and_or_left]

theorem Bridged.of_iff {b b' : StateId → StateId → Prop} (h : Bridged m b n)
    (hb : ∀ p q, b p q ↔ b' p q) : Bridged m b' n :=
  ⟨h.wellFormed, h.same, fun {p k q} => by rw [h.edge, hb]⟩

/-- One empty move between two states. -/
theorem exists_bridged (hm : m.WellFormed) (source target : StateId) (hs : source ∈ m.states)
    (ht : target ∈ m.states) : ∃ n, (addEdge source target .epsilon).on m = (.ok ⟨⟩, n) ∧
      Bridged m (fun p q => source = p ∧ target = q) n := by
  refine ⟨withEdge m source target .epsilon, ?_, wellFormed_withEdge hm hs ht _,
    ⟨rfl, rfl, rfl⟩, ?_⟩
  · rw [on_addEdge, if_pos hs, if_pos ht]
  · intro p k q
    rw [edge_withEdge, or_comm]
    refine or_congr_right ⟨fun h => ⟨h.2.1.symm, h.1, h.2.2⟩, fun h => ⟨h.2.1, h.1.symm, h.2.2⟩⟩

/-- A loop that makes empty moves for each member of a list. -/
theorem exists_bridged_forM {α : Type} {f : α → Edit Symbol StateSet PUnit} (hm : m.WellFormed)
    (xs : List α) (bridge : α → StateId → StateId → Prop)
    (hstep : ∀ a ∈ xs, ∀ n : NFA, n.WellFormed → n.states = m.states →
      ∃ n', (f a).on n = (.ok ⟨⟩, n') ∧ Bridged n (bridge a) n') :
    ∃ n, (xs.forM f).on m = (.ok ⟨⟩, n) ∧ Bridged m (fun p q => ∃ a ∈ xs, bridge a p q) n := by
  refine Edit.on_forM (fun done n => Bridged m (fun p q => ∃ a ∈ done, bridge a p q) n)
    ((Bridged.refl hm).of_iff (by simp)) ?_
  intro done a todo n hxs hn
  obtain ⟨n', hon, hn'⟩ := hstep a (by rw [hxs]; simp) n hn.wellFormed hn.same.states
  refine ⟨n', hon, (hn.trans hn').of_iff fun p q => ?_⟩
  simp [or_and_right, exists_or]

/-- A loop that makes an empty move from each of some states to one state. -/
theorem exists_bridged_each (hm : m.WellFormed) {sources : StateSet} {target : StateId}
    (hs : ∀ q ∈ sources, q ∈ m.states) (ht : target ∈ m.states) :
    ∃ n, (sources.toList.forM fun q => addEdge q target .epsilon).on m = (.ok ⟨⟩, n) ∧
      Bridged m (fun p q => p ∈ sources ∧ target = q) n := by
  obtain ⟨n, hon, hn⟩ := exists_bridged_forM hm sources.toList
    (fun r p q => r = p ∧ target = q) (f := fun r => addEdge r target .epsilon) (by
      intro r hr l hl hstates
      exact exists_bridged hl r target (hstates ▸ hs r (ExtTreeSet.mem_toList.mp hr))
        (hstates ▸ ht))
  refine ⟨n, hon, hn.of_iff fun p q => ?_⟩
  simp [ExtTreeSet.mem_toList]

/-- Empty moves read nothing. -/
theorem alphabet_eq_of_edge_iff (hm : m.WellFormed) (hn : n.WellFormed)
    {bridge : StateId → StateId → Prop}
    (h : ∀ p k q, n.Edge p k q ↔ m.Edge p k q ∨ (k = .epsilon ∧ bridge p q)) :
    n.alphabet = m.alphabet := by
  refine ExtTreeSet.ext_mem fun c => ?_
  rw [hn.mem_alphabet, hm.mem_alphabet]
  constructor
  · intro hc
    obtain ⟨p, k, q, hedge, hk⟩ := hc
    rcases (h p k q).mp hedge with hedge | ⟨rfl, -⟩
    · exact ⟨p, k, q, hedge, hk⟩
    · exact absurd hk List.not_mem_nil
  · intro hc
    obtain ⟨p, k, q, hedge, hk⟩ := hc
    exact ⟨p, k, q, (h p k q).mpr (Or.inl hedge), hk⟩

/-! ### Parts of a machine -/

/-- `part` is built into `m`: edges out of its states are its own, or empty moves from its final
states to one of the states `exits`. -/
def Part (part : NFA) (exits : StateId → Prop) (m : NFA) : Prop :=
  ∀ p ∈ part.states, ∀ k q,
    m.Edge p k q ↔ part.Edge p k q ∨ (p ∈ part.finals ∧ k = .epsilon ∧ exits q)

namespace Part

variable {part : NFA} {exits : StateId → Prop} {p q r : StateId} {w : Word}

theorem path (h : Part part exits m) (hpart : part.WellFormed) (hpath : part.Path p w q) :
    m.Path p w q :=
  hpath.mono fun p k q hedge => (h p (hpart.tail_mem hedge) k q).mpr (Or.inl hedge)

/-- An empty move out of a final state. -/
theorem path_exit (h : Part part exits m) (hpart : part.WellFormed) (hp : p ∈ part.finals)
    (hq : exits q) : m.Path p [] q :=
  .single ((h p (hpart.finals_mem hp) .epsilon q).mpr (Or.inr ⟨hp, rfl, hq⟩))

/-- A path that starts inside stays inside, or it leaves through a final state. -/
theorem path_cases (h : Part part exits m) (hpart : part.WellFormed) (hp : p ∈ part.states)
    (hpath : m.Path p w r) : part.Path p w r ∨
      ∃ u v, w = u ++ v ∧ ∃ q ∈ part.finals, part.Path p u q ∧ ∃ s, exits s ∧ m.Path s v r := by
  induction hpath with
  | nil => exact Or.inl (.nil _)
  | @cons p q r k w hedge hpath ih =>
      rcases (h p hp k q).mp hedge with hedge | ⟨hfinal, rfl, hexit⟩
      · rcases ih (hpart.head_mem hedge) with hinside | ⟨u, v, rfl, s, hs, hu, hexit⟩
        · exact Or.inl (.cons hedge hinside)
        · exact Or.inr ⟨_, v, (List.append_assoc _ _ _).symm, s, hs, .cons hedge hu, hexit⟩
      · exact Or.inr ⟨[], w, rfl, p, hfinal, .nil p, q, hexit, hpath⟩

/-- A part without exits is never left. -/
theorem path_iff (h : Part part (fun _ => False) m) (hpart : part.WellFormed)
    (hp : p ∈ part.states) : m.Path p w r ↔ part.Path p w r := by
  constructor
  · intro hpath
    rcases h.path_cases hpart hp hpath with hinside | ⟨_, _, -, _, -, -, _, hexit, -⟩
    · exact hinside
    · exact hexit.elim
  · exact h.path hpart

end Part

end NFA

end RegexMachine
