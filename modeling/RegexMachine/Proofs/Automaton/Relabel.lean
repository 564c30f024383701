import RegexMachine.Automaton.Renumber
import RegexMachine.Proofs.Automaton.Path
import RegexMachine.Proofs.StateSet

/-!
# RegexMachine.Proofs.Automaton.Relabel

**Renaming apart.** A renaming that gives different states of a machine different names changes
nothing but names: edges and paths are carried over one to one, the machine stays well formed, and
it accepts the same words. Renaming twice is renaming by the composition, and renamings that agree
on the states give the same machine.

`Apart f m` says that `f` is such a renaming. It is needed because a renaming that merges states may
drop edges.
`Relabeled f m n` says what a renamed machine holds, field by field, and for a renaming apart there
is one such machine.
-/

namespace RegexMachine

open Std

namespace Automaton

variable {κ τ : Type} [Ord κ]

/-- `f` gives different states of the machine different names. -/
def Apart (f : StateId → StateId) (m : Automaton κ τ) : Prop :=
  Set.InjOn f {q | q ∈ m.states}

/-! ### Counting states

A renaming apart that leads into the states of another machine shows that there are at least as many
of them, and if there are no more then it meets them all. -/

section Counting

variable {κ' τ' : Type} [Ord κ'] {m : Automaton κ τ} {n : Automaton κ' τ'} {f : StateId → StateId}

theorem stateCount_le_of_apart (hf : Apart f m) (hmem : ∀ q ∈ m.states, f q ∈ n.states) :
    m.stateCount ≤ n.stateCount := by
  have hle := (StateSet.subperm_toList (StateSet.forall_mem_image.mpr hmem)).length_le
  rwa [ExtTreeSet.length_toList, ExtTreeSet.length_toList, StateSet.size_image hf] at hle

theorem exists_eq_of_stateCount_le (hf : Apart f m) (hmem : ∀ q ∈ m.states, f q ∈ n.states)
    (hle : n.stateCount ≤ m.stateCount) {r : StateId} (hr : r ∈ n.states) :
    ∃ q ∈ m.states, f q = r := by
  refine StateSet.mem_image.mp
    (StateSet.mem_of_size_le (StateSet.forall_mem_image.mpr hmem) ?_ hr)
  rw [StateSet.size_image hf]
  exact hle

end Counting

/-! ### Everything but the edges -/

section Fields

variable [Target τ] {m : Automaton κ τ} {f : StateId → StateId}

@[simp] theorem mem_states_relabel {q : StateId} :
    q ∈ (m.relabel f).states ↔ ∃ p ∈ m.states, f p = q :=
  StateSet.mem_image

@[simp] theorem mem_finals_relabel {q : StateId} :
    q ∈ (m.relabel f).finals ↔ ∃ p ∈ m.finals, f p = q :=
  StateSet.mem_image

@[simp] theorem initial_relabel (m : Automaton κ τ) (f : StateId → StateId) :
    (m.relabel f).initial = m.initial.map f := rfl

@[simp] theorem alphabet_relabel (m : Automaton κ τ) (f : StateId → StateId) :
    (m.relabel f).alphabet = m.alphabet := rfl

theorem stateCount_relabel (hf : Apart f m) : (m.relabel f).stateCount = m.stateCount :=
  StateSet.size_image hf

end Fields

variable [TransOrd κ] [Target τ]

/-! ### Edges -/

section Edges

variable [Lettered κ] {m : Automaton κ τ} {f : StateId → StateId}

/-- No two of the renamed entries are stored for one state. -/
theorem pairwise_entries_relabel (hm : m.WellFormed) (hf : Apart f m) :
    (m.edges.toList.map fun x => (f x.1, x.2.map fun _ t => Target.relabel f t)).Pairwise
      fun a b => ¬ compare a.1 b.1 = .eq := by
  rw [List.pairwise_map]
  refine List.Pairwise.imp_of_mem ?_ m.edges.distinct_keys_toList
  intro a b ha hb hab heq
  rw [Nat.compare_eq_eq] at hab heq
  rw [ExtTreeMap.mem_toList_iff_getElem?_eq_some] at ha hb
  exact hab (hf (hm.source_mem ha) (hm.source_mem hb) heq)

theorem getElem?_edges_relabel (hm : m.WellFormed) (hf : Apart f m) {r : StateId}
    {out : ExtTreeMap κ τ} : (m.relabel f).edges[r]? = some out ↔
      ∃ q old, m.edges[q]? = some old ∧ f q = r ∧
        old.map (fun _ t => Target.relabel f t) = out := by
  have key : ∀ {q : StateId} {old : ExtTreeMap κ τ}, m.edges[q]? = some old →
      (m.relabel f).edges[f q]? = some (old.map fun _ t => Target.relabel f t) := by
    intro q old hold
    refine ExtTreeMap.getElem?_ofList_of_mem (Nat.compare_eq_eq.mpr rfl)
      (pairwise_entries_relabel hm hf) ?_
    exact List.mem_map.mpr ⟨(q, old), ExtTreeMap.mem_toList_iff_getElem?_eq_some.mpr hold, rfl⟩
  constructor
  · intro h
    -- A key of the new map comes from a pair of the list, hence from an old key.
    have hmem : r ∈ (m.relabel f).edges := ExtTreeMap.mem_iff_isSome_getElem?.mpr (by rw [h]; rfl)
    simp only [relabel, ExtTreeMap.mem_ofList, List.map_map, List.contains_iff_mem,
      List.mem_map, Prod.exists, Function.comp] at hmem
    obtain ⟨q, old, hold, rfl⟩ := hmem
    rw [ExtTreeMap.mem_toList_iff_getElem?_eq_some] at hold
    rw [key hold] at h
    exact ⟨q, old, hold, rfl, Option.some.inj h⟩
  · intro h
    obtain ⟨q, old, hold, rfl, rfl⟩ := h
    exact key hold

/-- What is stored for a renamed state. -/
theorem edgesFrom?_relabel (hm : m.WellFormed) (hf : Apart f m) {q : StateId} (hq : q ∈ m.states) :
    (m.relabel f).edgesFrom? (f q) =
      (m.edgesFrom? q).map fun out => out.map fun _ t => Target.relabel f t := by
  refine Option.ext fun out => ?_
  rw [Option.map_eq_some_iff]
  refine (getElem?_edges_relabel hm hf).trans ⟨fun h => ?_, fun h => ?_⟩
  · obtain ⟨p, old, hold, hpq, rfl⟩ := h
    have hpq : p = q := hf (hm.source_mem hold) hq hpq
    exact ⟨old, hpq ▸ hold, rfl⟩
  · obtain ⟨old, hold, rfl⟩ := h
    exact ⟨q, old, hold, rfl, rfl⟩

theorem target?_relabel [LawfulEqOrd κ] (hm : m.WellFormed) (hf : Apart f m) {r : StateId} {k : κ}
    {u : τ} : (m.relabel f).target? r k = some u ↔
      ∃ q t, m.target? q k = some t ∧ f q = r ∧ Target.relabel f t = u := by
  unfold target? edgesFrom?
  rw [Option.bind_eq_some_iff]
  constructor
  · intro h
    obtain ⟨out, hout, hu⟩ := h
    obtain ⟨q, old, hold, rfl, rfl⟩ := (getElem?_edges_relabel hm hf).mp hout
    rw [ExtTreeMap.getElem?_map, Option.map_eq_some_iff] at hu
    obtain ⟨t, ht, rfl⟩ := hu
    exact ⟨q, t, by rw [hold, Option.bind_some, ht], rfl, rfl⟩
  · intro h
    obtain ⟨q, t, ht, rfl, rfl⟩ := h
    obtain ⟨old, hold, ht⟩ := Option.bind_eq_some_iff.mp ht
    refine ⟨_, (getElem?_edges_relabel hm hf).mpr ⟨q, old, hold, rfl, rfl⟩, ?_⟩
    rw [ExtTreeMap.getElem?_map, ht, Option.map_some]

/-- The targets of a renamed state. -/
theorem target?_relabel_apply [LawfulEqOrd κ] (hm : m.WellFormed) (hf : Apart f m) {q : StateId}
    (hq : q ∈ m.states) (k : κ) :
    (m.relabel f).target? (f q) k = (m.target? q k).map (Target.relabel f) := by
  rw [target?, edgesFrom?_relabel hm hf hq, target?]
  cases m.edgesFrom? q with
  | none => rfl
  | some out => exact ExtTreeMap.getElem?_map

/-- The edges of a renamed machine are the renamed edges. -/
theorem edge_relabel [LawfulEqOrd κ] (hm : m.WellFormed) (hf : Apart f m) {r s : StateId}
    {k : κ} : (m.relabel f).Edge r k s ↔ ∃ p q, m.Edge p k q ∧ f p = r ∧ f q = s := by
  unfold Edge
  constructor
  · intro h
    obtain ⟨u, hu, hs⟩ := h
    obtain ⟨p, t, ht, hp, rfl⟩ := (target?_relabel hm hf).mp hu
    obtain ⟨q, hq, hqs⟩ := Target.mem_members_relabel.mp hs
    exact ⟨p, q, ⟨t, ht, hq⟩, hp, hqs⟩
  · intro h
    obtain ⟨p, q, ⟨t, ht, hq⟩, hp, hqs⟩ := h
    exact ⟨_, (target?_relabel hm hf).mpr ⟨p, t, ht, hp, rfl⟩,
      Target.mem_members_relabel.mpr ⟨q, hq, hqs⟩⟩

/-- The edges of a renamed state. -/
theorem edge_relabel_apply [LawfulEqOrd κ] (hm : m.WellFormed) (hf : Apart f m) {p s : StateId}
    (hp : p ∈ m.states) {k : κ} :
    (m.relabel f).Edge (f p) k s ↔ ∃ q, m.Edge p k q ∧ f q = s := by
  rw [edge_relabel hm hf]
  constructor
  · intro h
    obtain ⟨p', q, hedge, heq, hq⟩ := h
    have hpp : p' = p := hf (hm.tail_mem hedge) hp heq
    exact ⟨q, hpp ▸ hedge, hq⟩
  · intro h
    obtain ⟨q, hedge, hq⟩ := h
    exact ⟨p, q, hedge, rfl, hq⟩

theorem apply_mem_finals_relabel (hm : m.WellFormed) (hf : Apart f m) {q : StateId}
    (hq : q ∈ m.states) : f q ∈ (m.relabel f).finals ↔ q ∈ m.finals :=
  StateSet.apply_mem_image hf (fun _ h => hm.finals_mem h) hq

theorem size_finals_relabel (hm : m.WellFormed) (hf : Apart f m) :
    (m.relabel f).finals.size = m.finals.size :=
  StateSet.size_image (hf.mono fun _ h => hm.finals_mem h)

theorem WellFormed.relabel [LawfulEqOrd κ] (hm : m.WellFormed) (hf : Apart f m) :
    (m.relabel f).WellFormed where
  initial_mem h := by
    obtain ⟨p, hp, rfl⟩ := Option.map_eq_some_iff.mp h
    exact StateSet.mem_image.mpr ⟨p, hm.initial_mem hp, rfl⟩
  finals_mem h := by
    obtain ⟨p, hp, rfl⟩ := StateSet.mem_image.mp h
    exact StateSet.mem_image.mpr ⟨p, hm.finals_mem hp, rfl⟩
  source_mem h := by
    obtain ⟨p, out, hout, rfl, -⟩ := (getElem?_edges_relabel hm hf).mp h
    exact StateSet.mem_image.mpr ⟨p, hm.source_mem hout, rfl⟩
  head_mem h := by
    obtain ⟨p, q, hedge, -, rfl⟩ := (edge_relabel hm hf).mp h
    exact StateSet.mem_image.mpr ⟨q, hm.head_mem hedge, rfl⟩
  out_ne h := by
    obtain ⟨p, out, hout, -, rfl⟩ := (getElem?_edges_relabel hm hf).mp h
    rw [ne_eq, ExtTreeMap.map_eq_empty_iff]
    exact hm.out_ne hout
  members_ne h := by
    obtain ⟨p, t, ht, -, rfl⟩ := (target?_relabel hm hf).mp h
    obtain ⟨q, hq⟩ := List.exists_mem_of_ne_nil _ (hm.members_ne ht)
    exact List.ne_nil_of_mem (Target.mem_members_relabel.mpr ⟨q, hq, rfl⟩)
  mem_alphabet {c} := by
    have halphabet : (m.relabel f).alphabet = m.alphabet := rfl
    rw [halphabet, hm.mem_alphabet]
    constructor
    · intro h
      obtain ⟨p, k, q, hedge, hk⟩ := h
      exact ⟨f p, k, f q, (edge_relabel hm hf).mpr ⟨p, q, hedge, rfl, rfl⟩, hk⟩
    · intro h
      obtain ⟨_, k, _, hedge, hk⟩ := h
      obtain ⟨p, q, hedge, -, -⟩ := (edge_relabel hm hf).mp hedge
      exact ⟨p, k, q, hedge, hk⟩

end Edges

/-! ### Field by field -/

/-- `n` is `m` with every state replaced by its image under `f`: among the states, as the start
state, among the final states, as the source of edges, and inside their targets. -/
structure Relabeled (f : StateId → StateId) (m n : Automaton κ τ) : Prop where
  mem_states {r : StateId} : r ∈ n.states ↔ ∃ q ∈ m.states, f q = r
  alphabet : n.alphabet = m.alphabet
  edges {r : StateId} {out : ExtTreeMap κ τ} : n.edges[r]? = some out ↔
    ∃ q old, m.edges[q]? = some old ∧ f q = r ∧ old.map (fun _ t => Target.relabel f t) = out
  initial : n.initial = m.initial.map f
  mem_finals {r : StateId} : r ∈ n.finals ↔ ∃ q ∈ m.finals, f q = r

theorem relabeled_relabel [Lettered κ] {m : Automaton κ τ} {f : StateId → StateId}
    (hm : m.WellFormed) (hf : Apart f m) : Relabeled f m (m.relabel f) :=
  ⟨mem_states_relabel, rfl, getElem?_edges_relabel hm hf, rfl, mem_finals_relabel⟩

/-- One machine only has the images in all these places. -/
theorem Relabeled.eq_relabel [Lettered κ] {m n : Automaton κ τ} {f : StateId → StateId}
    (h : Relabeled f m n) (hm : m.WellFormed) (hf : Apart f m) : n = m.relabel f := by
  refine Automaton.ext (ExtTreeSet.ext_mem fun r => ?_) h.alphabet
    (ExtTreeMap.ext_getElem? fun {r} => Option.ext fun out => ?_) h.initial
    (ExtTreeSet.ext_mem fun r => ?_)
  · rw [h.mem_states, mem_states_relabel]
  · rw [h.edges, getElem?_edges_relabel hm hf]
  · rw [h.mem_finals, mem_finals_relabel]

/-! ### Paths and words -/

section Words

variable [LawfulEqOrd κ] [Lettered κ] {m : Automaton κ τ} {f : StateId → StateId}

theorem path_relabel (hm : m.WellFormed) (hf : Apart f m) {p : StateId} (hp : p ∈ m.states)
    {w : Word} {s : StateId} :
    (m.relabel f).Path (f p) w s ↔ ∃ q, m.Path p w q ∧ f q = s := by
  constructor
  · intro h
    generalize hr : f p = r at h
    induction h generalizing p with
    | nil => exact ⟨p, .nil p, hr⟩
    | cons hedge _ ih =>
        obtain ⟨q, hedge, hq⟩ := (edge_relabel_apply hm hf hp).mp (hr ▸ hedge)
        obtain ⟨q', hpath, hs⟩ := ih (hm.head_mem hedge) hq
        exact ⟨q', .cons hedge hpath, hs⟩
  · intro h
    obtain ⟨q, hpath, rfl⟩ := h
    clear hp
    induction hpath with
    | nil => exact .nil _
    | cons hedge _ ih => exact .cons ((edge_relabel hm hf).mpr ⟨_, _, hedge, rfl, rfl⟩) ih

theorem accepts_relabel (hm : m.WellFormed) (hf : Apart f m) {w : Word} :
    (m.relabel f).Accepts w ↔ m.Accepts w := by
  constructor
  · intro h
    obtain ⟨r, hr, s, hs, hpath⟩ := h
    obtain ⟨p, hp, rfl⟩ := Option.map_eq_some_iff.mp hr
    obtain ⟨q, hold, rfl⟩ := (path_relabel hm hf (hm.initial_mem hp)).mp hpath
    have hq := hold.mem_states hm (hm.initial_mem hp)
    exact ⟨p, hp, q, (apply_mem_finals_relabel hm hf hq).mp hs, hold⟩
  · intro h
    obtain ⟨p, hp, q, hq, hpath⟩ := h
    exact ⟨f p, Option.map_eq_some_iff.mpr ⟨p, hp, rfl⟩, f q, mem_finals_relabel.mpr ⟨q, hq, rfl⟩,
      (path_relabel hm hf (hm.initial_mem hp)).mpr ⟨q, hpath, rfl⟩⟩

end Words

/-! ### Renaming again -/

section Again

variable [LawfulEqOrd κ] [Lettered κ] {m : Automaton κ τ} {f g : StateId → StateId}

/-- Only the names given to states matter. -/
theorem relabel_congr (hm : m.WellFormed) (hf : Apart f m) (h : ∀ q ∈ m.states, f q = g q) :
    m.relabel f = m.relabel g := by
  have hg : Apart g m := fun p hp q hq heq => hf hp hq (by rw [h p hp, h q hq, heq])
  refine (hm.relabel hf).eq_of_edge_iff (hm.relabel hg) (StateSet.image_congr h) ?_
    (StateSet.image_congr fun q hq => h q (hm.finals_mem hq)) fun r k s => ?_
  · refine Option.ext fun r => ?_
    simp only [initial_relabel, Option.map_eq_some_iff]
    exact exists_congr fun p => and_congr_right fun hp => by rw [h p (hm.initial_mem hp)]
  · rw [edge_relabel hm hf, edge_relabel hm hg]
    refine exists_congr fun p => exists_congr fun q => and_congr_right fun hedge => ?_
    rw [h p (hm.tail_mem hedge), h q (hm.head_mem hedge)]

theorem relabel_self (hm : m.WellFormed) : m.relabel (fun q => q) = m := by
  have hf : Apart (fun q => q) m := fun _ _ _ _ heq => heq
  refine (hm.relabel hf).eq_of_edge_iff hm (StateSet.image_self m.states)
    (Option.map_id_apply ..) (StateSet.image_self m.finals) fun p k q => ?_
  simp [edge_relabel hm hf]

/-- A renaming that leaves every state its name leaves the machine as it is. -/
theorem relabel_eq_self (hm : m.WellFormed) (h : ∀ q ∈ m.states, f q = q) : m.relabel f = m := by
  have hf : Apart f m := fun p hp q hq heq => by rwa [h p hp, h q hq] at heq
  rw [relabel_congr hm hf h, relabel_self hm]

omit [TransOrd κ] [LawfulEqOrd κ] [Lettered κ] in
theorem Apart.comp (hf : Apart f m) (hg : Apart g (m.relabel f)) :
    Apart (fun q => g (f q)) m := fun p hp q hq heq =>
  hf hp hq (hg (mem_states_relabel.mpr ⟨p, hp, rfl⟩) (mem_states_relabel.mpr ⟨q, hq, rfl⟩) heq)

theorem relabel_relabel (hm : m.WellFormed) (hf : Apart f m) (hg : Apart g (m.relabel f)) :
    (m.relabel f).relabel g = m.relabel fun q => g (f q) := by
  have hgf := hf.comp hg
  refine ((hm.relabel hf).relabel hg).eq_of_edge_iff (hm.relabel hgf)
    (StateSet.image_image f g m.states) (Option.map_map g f m.initial)
    (StateSet.image_image f g m.finals) fun r k s => ?_
  rw [edge_relabel (hm.relabel hf) hg, edge_relabel hm hgf]
  constructor
  · intro h
    obtain ⟨_, _, hedge, rfl, rfl⟩ := h
    obtain ⟨p, q, hold, rfl, rfl⟩ := (edge_relabel hm hf).mp hedge
    exact ⟨p, q, hold, rfl, rfl⟩
  · intro h
    obtain ⟨p, q, hedge, rfl, rfl⟩ := h
    exact ⟨f p, f q, (edge_relabel hm hf).mpr ⟨p, q, hedge, rfl, rfl⟩, rfl, rfl⟩

end Again

end Automaton

end RegexMachine
