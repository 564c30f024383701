import RegexMachine.Proofs.Numbering

/-!
# RegexMachine.Proofs.Undo

**Giving a state another name can be undone.** A call that gives a state another name and is not
refused puts the new name in the place of the old one, wherever the machine mentions it, and changes
nothing else. No two states, edges or targets fall together, as the name is given to no other state:
all the numbers of them stay. So the same words are accepted, and giving the state its old name back
is not refused and leaves the machine as it was.
-/

namespace RegexMachine

open Std

/-! ### Counting targets and edges -/

/-- A target has as many states as before if different ones are given different names. -/
theorem Target.length_members_relabel {τ : Type} [Target τ] {f : StateId → StateId} {t : τ}
    (hf : Set.InjOn f {q | q ∈ members t}) :
    (members (relabel f t)).length = (members t).length := by
  have hnodup : (members (relabel f t)).Nodup := (pairwise_members _).imp Nat.ne_of_lt
  have hnodup' : ((members t).map f).Nodup :=
    List.Nodup.map_on (fun p hp q hq => hf hp hq) ((pairwise_members t).imp Nat.ne_of_lt)
  have hperm := (List.perm_ext_iff_of_nodup hnodup hnodup').mpr fun q => by
    rw [mem_members_relabel, List.mem_map]
  rw [hperm.length_eq, List.length_map]

namespace Automaton

variable {κ τ : Type} [Ord κ]

/-- The number of edges, those for all the states together. An edge may have several targets. -/
def edgeCount [TransOrd κ] (m : Automaton κ τ) : Nat :=
  (m.edges.toList.map fun entry => entry.2.size).sum

variable [TransOrd κ] [Target τ] [Lettered κ] {m n : Automaton κ τ} {f : StateId → StateId}

/-- The renamed machine stores the renamed edges. -/
theorem toList_edges_relabel_perm (hm : m.WellFormed) (hf : Apart f m) :
    (m.relabel f).edges.toList.Perm
      (m.edges.toList.map fun entry => (f entry.1, entry.2.map fun _ t => Target.relabel f t)) := by
  have hne : ∀ {a b : StateId × ExtTreeMap κ τ}, ¬ compare a.1 b.1 = .eq → a ≠ b :=
    fun hkey heq => hkey (heq ▸ Nat.compare_eq_eq.mpr rfl)
  have hnodup := (m.relabel f).edges.distinct_keys_toList.imp hne
  have hnodup' := (pairwise_entries_relabel hm hf).imp hne
  refine (List.perm_ext_iff_of_nodup hnodup hnodup').mpr fun entry => ?_
  rw [ExtTreeMap.mem_toList_iff_getElem?_eq_some, getElem?_edges_relabel hm hf, List.mem_map]
  constructor
  · intro h
    obtain ⟨q, old, hold, hq, hout⟩ := h
    exact ⟨(q, old), ExtTreeMap.mem_toList_iff_getElem?_eq_some.mpr hold, Prod.ext hq hout⟩
  · intro h
    obtain ⟨⟨q, old⟩, hold, rfl⟩ := h
    exact ⟨q, old, ExtTreeMap.mem_toList_iff_getElem?_eq_some.mp hold, rfl, rfl⟩

theorem edgeCount_relabel (hm : m.WellFormed) (hf : Apart f m) :
    (m.relabel f).edgeCount = m.edgeCount := by
  have hsum := ((toList_edges_relabel_perm hm hf).map fun entry => entry.2.size).sum_eq
  rw [List.map_map] at hsum
  rw [edgeCount, hsum, edgeCount]
  refine congrArg List.sum (List.map_congr_left fun entry _ => ?_)
  exact ExtTreeMap.size_map

theorem size_edgesFrom?_relabel (hm : m.WellFormed) (hf : Apart f m) {q : StateId}
    (hq : q ∈ m.states) : ((m.relabel f).edgesFrom? (f q)).map (·.size) =
      (m.edgesFrom? q).map (·.size) := by
  rw [edgesFrom?_relabel hm hf hq, Option.map_map]
  exact congrArg (Option.map · _) (funext fun _ => ExtTreeMap.size_map)

theorem length_target?_relabel [LawfulEqOrd κ] (hm : m.WellFormed) (hf : Apart f m) {q : StateId}
    (hq : q ∈ m.states) (k : κ) :
    ((m.relabel f).target? (f q) k).map (fun t => (Target.members t).length) =
      (m.target? q k).map fun t => (Target.members t).length := by
  rw [target?_relabel_apply hm hf hq]
  cases ht : m.target? q k with
  | none => rfl
  | some t =>
      have hinj := hf.mono fun r (hr : r ∈ Target.members t) => hm.head_mem ⟨t, ht, hr⟩
      exact congrArg some (Target.length_members_relabel hinj)

/-! ### One state under another name -/

/-- `n` is `m` with the state `old` under the name `new`. -/
structure NameChanged (old new : StateId) (m n : Automaton κ τ) : Prop where
  /-- The new name stands in every place of the old one, and nothing else is changed. -/
  relabeled : Relabeled (newName old new) m n
  states : n.states = (m.states.erase old).insert new
  alphabet : n.alphabet = m.alphabet
  stateCount : n.stateCount = m.stateCount
  size_finals : n.finals.size = m.finals.size
  edgeCount : n.edgeCount = m.edgeCount
  /-- Every state has as many edges as before. -/
  size_edgesFrom? {q : StateId} : q ∈ m.states →
    (n.edgesFrom? (newName old new q)).map (·.size) = (m.edgesFrom? q).map (·.size)
  /-- Every edge has as many targets as before. -/
  length_target? {q : StateId} (k : κ) : q ∈ m.states →
    (n.target? (newName old new q) k).map (fun t => (Target.members t).length) =
      (m.target? q k).map fun t => (Target.members t).length
  /-- The old name can be given back. -/
  undone : (rename new old).on n = (.ok (), m)

variable {old new : StateId}

omit [TransOrd κ] [Lettered κ] in
theorem states_relabel_newName (hold : old ∈ m.states) :
    (m.relabel (newName old new)).states = (m.states.erase old).insert new := by
  refine ExtTreeSet.ext_mem fun r => ?_
  rw [mem_states_relabel, ExtTreeSet.mem_insert, ExtTreeSet.mem_erase, Nat.compare_eq_eq, ne_eq,
    Nat.compare_eq_eq]
  constructor
  · intro h
    obtain ⟨q, hq, rfl⟩ := h
    by_cases hqo : q = old
    · exact Or.inl (hqo ▸ (newName_self old new).symm)
    · rw [newName_of_ne hqo]
      exact Or.inr ⟨fun heq => hqo heq.symm, hq⟩
  · intro h
    rcases h with rfl | ⟨hne, hr⟩
    · exact ⟨old, hold, newName_self old new⟩
    · exact ⟨r, hr, newName_of_ne fun heq => hne heq.symm⟩

theorem rename_back [LawfulEqOrd κ] (hm : m.WellFormed) (hold : old ∈ m.states)
    (hnew : new ∈ m.states → old = new) :
    (rename new old).on (m.relabel (newName old new)) = (.ok (), m) := by
  have hf : Apart (newName old new) m := apart_newName hnew
  have hmem : new ∈ (m.relabel (newName old new)).states :=
    mem_states_relabel.mpr ⟨old, hold, newName_self old new⟩
  -- The old name is free now, unless it is the new one.
  have hfree : old ∈ (m.relabel (newName old new)).states → new = old := by
    intro h
    obtain ⟨q, -, hq⟩ := mem_states_relabel.mp h
    by_cases hqo : q = old
    · rwa [hqo, newName_self] at hq
    · exact absurd ((newName_of_ne hqo).symm.trans hq) hqo
  refine (on_rename_eq_ok_iff (hm.relabel hf)).mpr ⟨hmem, hfree, ?_⟩
  rw [relabel_relabel hm hf (apart_newName hfree)]
  exact relabel_eq_self hm fun q hq => newName_newName fun heq => hnew (heq ▸ hq)

theorem accepts_of_rename [LawfulEqOrd κ] (hm : m.WellFormed)
    (h : (rename old new).on m = (.ok (), n)) {w : Word} : n.Accepts w ↔ m.Accepts w := by
  obtain ⟨-, hnew, rfl⟩ := (on_rename_eq_ok_iff hm).mp h
  exact accepts_relabel hm (apart_newName hnew)

theorem WellFormed.nameChanged [LawfulEqOrd κ] (hm : m.WellFormed)
    (h : (rename old new).on m = (.ok (), n)) : NameChanged old new m n := by
  obtain ⟨hold, hnew, rfl⟩ := (on_rename_eq_ok_iff hm).mp h
  have hf : Apart (newName old new) m := apart_newName hnew
  exact {
    relabeled := relabeled_relabel hm hf
    states := states_relabel_newName hold
    alphabet := rfl
    stateCount := stateCount_relabel hf
    size_finals := size_finals_relabel hm hf
    edgeCount := edgeCount_relabel hm hf
    size_edgesFrom? := size_edgesFrom?_relabel hm hf
    length_target? := fun k hq => length_target?_relabel hm hf hq k
    undone := rename_back hm hold hnew }

end Automaton

open Automaton

/-- **Giving a state another name changes nothing but the name, and it can be undone.** -/
theorem rename_undone :
    (∀ (n left : NFA) (old new : StateId), n.Built → (rename old new).on n = (.ok (), left) →
      NameChanged old new n left ∧ ∀ w, NFA.accepts left w = NFA.accepts n w) ∧
    ∀ (d left : DFA) (old new : StateId), d.Built → (rename old new).on d = (.ok (), left) →
      NameChanged old new d left ∧ ∀ w, DFA.accepts left w = DFA.accepts d w := by
  constructor
  · intro n left old new hn h
    refine ⟨hn.wellFormed.nameChanged h, fun w => ?_⟩
    rw [Bool.eq_iff_iff, NFA.accepts_iff, NFA.accepts_iff, accepts_of_rename hn.wellFormed h]
  · intro d left old new hd h
    refine ⟨hd.wellFormed.nameChanged h, fun w => ?_⟩
    rw [Bool.eq_iff_iff, DFA.accepts_iff, DFA.accepts_iff, accepts_of_rename hd.wellFormed h]

/-- The new name comes before the others, so the two states that `b` leads to change places; there
are still two of them. -/
theorem rename_undone_fan :
    (∃ left : NFA, (rename 5 0).on NFA.fan = (.ok (), left) ∧ left.states.toList = [0, 1, 2, 8] ∧
      (left.target? 8 (.literal 'b')).map (fun t => (Target.members t).length) = some 2 ∧
      NFA.accepts left ['b'] = true ∧ (rename 0 5).on left = (.ok (), NFA.fan)) ∧
    ∃ left : DFA, (rename 0 9).on DFA.sparse = (.ok (), left) ∧ DFA.accepts left ['a'] = true ∧
      (rename 9 0).on left = (.ok (), DFA.sparse) := by
  have hfan : NFA.fan.states.toList = [1, 2, 5, 8] := by cbv
  have hsparse : DFA.sparse.states.toList = [0, 1, 2] := by cbv
  have htwo : (NFA.fan.target? 8 (.literal 'b')).map (fun t => (Target.members t).length) =
      some 2 := by cbv
  have hmem : ∀ {s : StateSet} {q : StateId}, q ∈ s ↔ q ∈ s.toList := ExtTreeSet.mem_toList.symm
  have hdone : (rename 5 0).on NFA.fan = (.ok (), NFA.fan.relabel (newName 5 0)) :=
    (on_rename_eq_ok_iff NFA.built_fan.wellFormed).mpr
      ⟨hmem.mpr (by simp [hfan]), fun h => absurd (hmem.mp h) (by simp [hfan]), rfl⟩
  have hdone' : (rename 0 9).on DFA.sparse = (.ok (), DFA.sparse.relabel (newName 0 9)) :=
    (on_rename_eq_ok_iff DFA.built_sparse.wellFormed).mpr
      ⟨hmem.mpr (by simp [hsparse]), fun h => absurd (hmem.mp h) (by simp [hsparse]), rfl⟩
  obtain ⟨hchanged, haccepts⟩ := rename_undone.1 _ _ 5 0 NFA.built_fan hdone
  obtain ⟨hchanged', haccepts'⟩ := rename_undone.2 _ _ 0 9 DFA.built_sparse hdone'
  refine ⟨⟨_, hdone, ?_, ?_, ?_, hchanged.undone⟩, _, hdone', ?_, hchanged'.undone⟩
  · rw [hchanged.states]
    cbv
  · exact (hchanged.length_target? (.literal 'b') (hmem.mpr (by simp [hfan]))).trans htwo
  · rw [haccepts]
    cbv
  · rw [haccepts']
    cbv

end RegexMachine
