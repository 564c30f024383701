import Mathlib.Logic.Basic
import RegexMachine.DFA.Basic
import RegexMachine.NFA.Basic

/-!
# RegexMachine.Proofs.Automaton.WellFormed

**Well-formed machines.** The fields of a machine are linked: the start state, the final states and
both ends of every edge are states, nothing empty is stored, and the alphabet holds the characters
on the edges and no others. `WellFormed` says so of both kinds of machines at once, and two
well-formed machines are equal as soon as they have the same states and the same edges.

Edges are looked at one by one: `m.Edge p k q` says that an edge with the key `k` leads from `p` to
`q`, whether the target of `k` is one state or a set of states. What the checked edits do to the
edges is stated in these terms, and from it that they keep a machine well formed.
-/

namespace RegexMachine

open Std

/-- Keys of edges that carry characters. -/
class Lettered (κ : Type) where
  /-- What is read along an edge with this key. -/
  letters : κ → Word

instance : Lettered Char := ⟨fun c => [c]⟩

instance : Lettered Symbol := ⟨Symbol.chars⟩

@[simp] theorem letters_char (c : Char) : Lettered.letters c = [c] := rfl

@[simp] theorem letters_literal (c : Char) : Lettered.letters (Symbol.literal c) = [c] := rfl

@[simp] theorem letters_epsilon : Lettered.letters Symbol.epsilon = [] := rfl

namespace Automaton

variable {κ τ : Type} [Ord κ] [TransOrd κ] [Target τ]

/-! ### Edges one by one -/

/-- An edge with the key `k` leads from `p` to `q`. -/
def Edge (m : Automaton κ τ) (p : StateId) (k : κ) (q : StateId) : Prop :=
  ∃ t, m.target? p k = some t ∧ q ∈ Target.members t

theorem edge_of_edges_eq {m n : Automaton κ τ} (h : m.edges = n.edges) (p : StateId) (k : κ)
    (q : StateId) : m.Edge p k q ↔ n.Edge p k q := by
  unfold Edge target? edgesFrom?
  rw [h]

/-- A machine with nothing missing and nothing left over. -/
structure WellFormed [Lettered κ] (m : Automaton κ τ) : Prop where
  /-- The start state is a state. -/
  initial_mem {q : StateId} : m.initial = some q → q ∈ m.states
  /-- The final states are states. -/
  finals_mem {q : StateId} : q ∈ m.finals → q ∈ m.states
  /-- Edges are stored for states only. -/
  source_mem {q : StateId} {out : ExtTreeMap κ τ} : m.edges[q]? = some out → q ∈ m.states
  /-- Edges lead to states. -/
  head_mem {p q : StateId} {k : κ} : m.Edge p k q → q ∈ m.states
  /-- No empty map of edges is stored. -/
  out_ne {q : StateId} {out : ExtTreeMap κ τ} : m.edges[q]? = some out → out ≠ ∅
  /-- No empty target is stored. -/
  members_ne {q : StateId} {k : κ} {t : τ} : m.target? q k = some t → Target.members t ≠ []
  /-- The alphabet holds the characters on the edges. -/
  mem_alphabet {c : Char} :
    c ∈ m.alphabet ↔ ∃ p k q, m.Edge p k q ∧ c ∈ Lettered.letters k

namespace WellFormed

variable [Lettered κ] {m n : Automaton κ τ}

theorem tail_mem (hm : m.WellFormed) {p q : StateId} {k : κ} (h : m.Edge p k q) :
    p ∈ m.states := by
  obtain ⟨t, ht, -⟩ := h
  obtain ⟨out, hout, -⟩ := Option.bind_eq_some_iff.mp ht
  exact hm.source_mem hout

theorem exists_edge (hm : m.WellFormed) {p : StateId} {k : κ} {t : τ}
    (h : m.target? p k = some t) : ∃ q, m.Edge p k q := by
  obtain ⟨q, hq⟩ := List.exists_mem_of_ne_nil _ (hm.members_ne h)
  exact ⟨q, t, h, hq⟩

/-- The edges of a state settle its targets. -/
theorem target?_eq (hm : m.WellFormed) (hn : n.WellFormed)
    (h : ∀ p k q, m.Edge p k q ↔ n.Edge p k q) (p : StateId) (k : κ) :
    m.target? p k = n.target? p k := by
  have aux : ∀ {m n : Automaton κ τ}, m.WellFormed → (∀ p k q, m.Edge p k q ↔ n.Edge p k q) →
      ∀ t, m.target? p k = some t → n.target? p k = some t := by
    intro m n hm h t ht
    obtain ⟨q, hq⟩ := hm.exists_edge ht
    obtain ⟨u, hu, -⟩ := (h p k q).mp hq
    have htu : t = u := Target.ext fun r => by
      have hr := h p k r
      unfold Edge at hr
      rw [ht, hu] at hr
      simpa using hr
    rw [hu, htu]
  refine Option.ext fun t => ⟨aux hm h t, aux hn (fun p k q => (h p k q).symm) t⟩

/-- The targets of all states settle what is stored. -/
theorem edges_eq (hm : m.WellFormed) (hn : n.WellFormed) [LawfulEqOrd κ]
    (h : ∀ p k, m.target? p k = n.target? p k) : m.edges = n.edges := by
  have aux : ∀ {m n : Automaton κ τ}, m.WellFormed → (∀ p k, m.target? p k = n.target? p k) →
      ∀ {p : StateId} {out : ExtTreeMap κ τ}, m.edges[p]? = some out →
        n.edges[p]? = some out := by
    intro m n hm h p out hout
    have htarget : ∀ k, n.target? p k = out[k]? := by
      intro k
      rw [← h p k]
      simp [target?, edgesFrom?, hout]
    -- Some key is stored in `out`, so the other machine stores a map as well.
    obtain ⟨k, hk⟩ : ∃ k, k ∈ out :=
      Classical.byContradiction fun hnone =>
        hm.out_ne hout (ExtTreeMap.eq_empty_iff_forall_not_mem.mpr (not_exists.mp hnone))
    cases hn : n.edges[p]? with
    | none =>
        have hkn := htarget k
        rw [target?, edgesFrom?, hn, Option.bind_none] at hkn
        exact absurd hkn.symm (by simpa using hk)
    | some out' =>
        refine congrArg some (ExtTreeMap.ext_getElem? fun k => ?_)
        rw [← htarget k, target?, edgesFrom?, hn, Option.bind_some]
  exact ExtTreeMap.ext_getElem? fun {p} =>
    Option.ext fun out => ⟨aux hm h, aux hn fun p k => (h p k).symm⟩

/-- Machines with the same states and the same edges are equal. -/
theorem eq_of_edge_iff [LawfulEqOrd κ] (hm : m.WellFormed) (hn : n.WellFormed)
    (hstates : m.states = n.states) (hinitial : m.initial = n.initial)
    (hfinals : m.finals = n.finals) (hedge : ∀ p k q, m.Edge p k q ↔ n.Edge p k q) : m = n := by
  refine Automaton.ext hstates (ExtTreeSet.ext_mem fun c => ?_)
    (hm.edges_eq hn (hm.target?_eq hn hedge)) hinitial hfinals
  rw [hm.mem_alphabet, hn.mem_alphabet]
  simp only [hedge]

/-- It is enough to know what is final and which edges there are at the states. -/
theorem eq_of_forall_mem [LawfulEqOrd κ] (hm : m.WellFormed) (hn : n.WellFormed)
    (hstates : ∀ q, q ∈ m.states ↔ q ∈ n.states) (hinitial : m.initial = n.initial)
    (hfinals : ∀ q ∈ m.states, (q ∈ m.finals ↔ q ∈ n.finals))
    (hedge : ∀ p ∈ m.states, ∀ k q, m.Edge p k q ↔ n.Edge p k q) : m = n := by
  refine hm.eq_of_edge_iff hn (ExtTreeSet.ext_mem hstates) hinitial
    (ExtTreeSet.ext_mem fun q => ?_) fun p k q => ?_
  · by_cases hq : q ∈ m.states
    · exact hfinals q hq
    · exact iff_of_false (mt hm.finals_mem hq) (mt hn.finals_mem (mt (hstates q).mpr hq))
  · by_cases hp : p ∈ m.states
    · exact hedge p hp k q
    · exact iff_of_false (mt hm.tail_mem hp) (mt hn.tail_mem (mt (hstates p).mpr hp))

end WellFormed

/-! ### The machine without states -/

theorem not_edge_empty (p : StateId) (k : κ) (q : StateId) :
    ¬ (empty : Automaton κ τ).Edge p k q := by
  simp [Edge, target?, edgesFrom?, empty]

theorem wellFormed_empty [Lettered κ] : (empty : Automaton κ τ).WellFormed where
  initial_mem h := by simp [empty] at h
  finals_mem h := by simp [empty] at h
  source_mem h := by simp [empty] at h
  head_mem h := absurd h (not_edge_empty _ _ _)
  out_ne h := by simp [empty] at h
  members_ne h := by simp [target?, edgesFrom?, empty] at h
  mem_alphabet {c} := by
    constructor
    · intro h
      exact absurd h ExtTreeSet.not_mem_empty
    · intro h
      obtain ⟨p, k, q, hpq, -⟩ := h
      exact absurd hpq (not_edge_empty p k q)

/-! ### States, start state and final states

What stores the same edges and the same alphabet is well formed as soon as the states still cover
everything. -/

theorem WellFormed.of_same_edges [Lettered κ] {m n : Automaton κ τ} (hm : m.WellFormed)
    (hstates : ∀ q ∈ m.states, q ∈ n.states) (hedges : n.edges = m.edges)
    (halphabet : n.alphabet = m.alphabet) (hinitial : ∀ q, n.initial = some q → q ∈ n.states)
    (hfinals : ∀ q ∈ n.finals, q ∈ n.states) : n.WellFormed where
  initial_mem h := hinitial _ h
  finals_mem h := hfinals _ h
  source_mem h := hstates _ (hm.source_mem (hedges ▸ h))
  head_mem h := hstates _ (hm.head_mem ((edge_of_edges_eq hedges _ _ _).mp h))
  out_ne h := hm.out_ne (hedges ▸ h)
  members_ne {q k t} h := by
    refine hm.members_ne (q := q) (k := k) ?_
    rw [← h, target?, target?, edgesFrom?, edgesFrom?, hedges]
  mem_alphabet {c} := by
    rw [halphabet, hm.mem_alphabet]
    simp only [edge_of_edges_eq hedges]

theorem WellFormed.withState [Lettered κ] {m : Automaton κ τ} (hm : m.WellFormed) (q : StateId)
    (accepting : Bool) : (m.withState q accepting).WellFormed := by
  refine hm.of_same_edges (fun p hp => mem_states_withState.mpr (Or.inr hp)) rfl rfl
    (fun p hp => mem_states_withState.mpr (Or.inr (hm.initial_mem hp))) fun p hp => ?_
  rcases mem_finals_withState.mp hp with h | h
  · exact mem_states_withState.mpr (Or.inl h.2)
  · exact mem_states_withState.mpr (Or.inr (hm.finals_mem h))

theorem WellFormed.withInitial [Lettered κ] {m : Automaton κ τ} (hm : m.WellFormed) {q : StateId}
    (hq : q ∈ m.states) : WellFormed { m with initial := some q } :=
  hm.of_same_edges (fun _ hp => hp) rfl rfl
    (fun _ hp => Option.some.inj hp ▸ hq) fun _ hp => hm.finals_mem hp

theorem WellFormed.withFinals [Lettered κ] {m : Automaton κ τ} (hm : m.WellFormed)
    {finals : StateSet} (h : ∀ q ∈ finals, q ∈ m.states) :
    WellFormed { m with finals := finals } :=
  hm.of_same_edges (fun _ hp => hp) rfl rfl (fun _ hp => hm.initial_mem hp) h

/-! ### Adding edges -/

omit [TransOrd κ] [Target τ] in
/-- Where the edges of one state are changed, those of another state are the old ones. -/
theorem getElem?_alter_cases {edges : ExtTreeMap StateId (ExtTreeMap κ τ)} {source q : StateId}
    {f : Option (ExtTreeMap κ τ) → ExtTreeMap κ τ} {out : ExtTreeMap κ τ}
    (h : (edges.alter source fun old => some (f old))[q]? = some out) :
    (source = q ∧ f edges[source]? = out) ∨ edges[q]? = some out := by
  rw [ExtTreeMap.getElem?_alter] at h
  split at h
  · next hq => exact Or.inl ⟨Nat.compare_eq_eq.mp hq, Option.some.inj h⟩
  · exact Or.inr h

end Automaton

namespace DFA

open Automaton

theorem edge_iff_next? {d : DFA} {p q : StateId} {c : Char} :
    d.Edge p c q ↔ next? d p c = some q := by
  simp [Edge, next?, Target.members, eq_comm]

theorem edge_withEdge (d : DFA) (source target : StateId) (c : Char) (p : StateId) (k : Char)
    (q : StateId) : (withEdge d source target c).Edge p k q ↔
      if source = p ∧ c = k then target = q else d.Edge p k q := by
  rw [edge_iff_next?, next?_withEdge]
  split
  · exact Option.some_inj
  · exact edge_iff_next?.symm

theorem wellFormed_withEdge {d : DFA} (hd : d.WellFormed) {source target : StateId}
    (hs : source ∈ d.states) (ht : target ∈ d.states) (c : Char) :
    (withEdge d source target c).WellFormed where
  initial_mem h := hd.initial_mem h
  finals_mem h := hd.finals_mem h
  source_mem {q out} h := by
    rcases getElem?_alter_cases h with ⟨rfl, -⟩ | h
    · exact hs
    · exact hd.source_mem h
  head_mem h := by
    rw [edge_withEdge] at h
    split at h
    · exact h ▸ ht
    · exact hd.head_mem h
  out_ne {q out} h := by
    rcases getElem?_alter_cases h with ⟨-, rfl⟩ | h
    · exact ExtTreeMap.insert_ne_empty
    · exact hd.out_ne h
  members_ne _ := List.cons_ne_nil _ _
  mem_alphabet {b} := by
    have hb : b ∈ (withEdge d source target c).alphabet ↔ c = b ∨ b ∈ d.alphabet := by
      simp [withEdge]
    rw [hb, hd.mem_alphabet]
    simp only [edge_withEdge, letters_char, List.mem_singleton]
    constructor
    · intro h
      by_cases hcb : c = b
      · exact ⟨source, c, target, by simp, hcb.symm⟩
      · obtain ⟨p, k, q, hpq, hk⟩ := h.resolve_left hcb
        exact ⟨p, k, q, by rw [if_neg fun h => hcb (h.2.trans hk.symm)]; exact hpq, hk⟩
    · intro h
      obtain ⟨p, k, q, hpq, hk⟩ := h
      split at hpq
      · next heq => exact Or.inl (heq.2.trans hk.symm)
      · exact Or.inr ⟨p, k, q, hpq, hk⟩

end DFA

namespace NFA

open Automaton

theorem edge_iff_mem_targets {n : NFA} {p q : StateId} {k : Symbol} :
    n.Edge p k q ↔ q ∈ targets n p k := by
  unfold Edge targets
  cases h : n.target? p k with
  | none => simp
  | some t => simp [Target.members]

theorem edge_withEdge (n : NFA) (source target : StateId) (symbol : Symbol) (p : StateId)
    (k : Symbol) (q : StateId) : (withEdge n source target symbol).Edge p k q ↔
      (source = p ∧ symbol = k ∧ target = q) ∨ n.Edge p k q := by
  rw [edge_iff_mem_targets, edge_iff_mem_targets, mem_targets_withEdge]

theorem wellFormed_withEdge {n : NFA} (hn : n.WellFormed) {source target : StateId}
    (hs : source ∈ n.states) (ht : target ∈ n.states) (symbol : Symbol) :
    (withEdge n source target symbol).WellFormed where
  initial_mem h := hn.initial_mem h
  finals_mem h := hn.finals_mem h
  source_mem {q out} h := by
    rcases getElem?_alter_cases h with ⟨rfl, -⟩ | h
    · exact hs
    · exact hn.source_mem h
  head_mem h := by
    rcases (edge_withEdge ..).mp h with h | h
    · exact h.2.2 ▸ ht
    · exact hn.head_mem h
  out_ne {q out} h := by
    rcases getElem?_alter_cases h with ⟨-, rfl⟩ | h
    · refine ExtTreeMap.ne_empty_of_mem (a := symbol) ?_
      simp
    · exact hn.out_ne h
  members_ne {q k t} h := by
    rw [target?_withEdge] at h
    split at h
    · rw [← Option.some.inj h]
      exact fun hnil => ExtTreeSet.insert_ne_empty (ExtTreeSet.toList_eq_nil_iff.mp hnil)
    · exact hn.members_ne h
  mem_alphabet {b} := by
    have hb : b ∈ (withEdge n source target symbol).alphabet ↔
        b ∈ Lettered.letters symbol ∨ b ∈ n.alphabet := by
      simp [withEdge, Lettered.letters, or_comm]
    rw [hb, hn.mem_alphabet]
    simp only [edge_withEdge]
    constructor
    · intro h
      rcases h with h | ⟨p, k, q, hpq, hk⟩
      · exact ⟨source, symbol, target, Or.inl ⟨rfl, rfl, rfl⟩, h⟩
      · exact ⟨p, k, q, Or.inr hpq, hk⟩
    · intro h
      obtain ⟨p, k, q, hpq, hk⟩ := h
      rcases hpq with ⟨-, rfl, -⟩ | hpq
      · exact Or.inl hk
      · exact Or.inr ⟨p, k, q, hpq, hk⟩

end NFA

end RegexMachine
