import Mathlib.Data.Finset.Powerset
import Mathlib.Data.List.Nodup
import Mathlib.Data.List.Perm.Subperm
import Mathlib.Data.List.Permutation
import Mathlib.Data.Set.Card
import Mathlib.Data.Set.Function
import RegexMachine.StateSet

/-!
# RegexMachine.Proofs.StateSet

**Counting and renaming the members of a set.** A set has as many members as any list of them
without repeats. So the members of two sets that share none add up, a set of all numbers below a
bound has the bound for its size, and a renaming keeps the size if it gives different members
different names. A set of `k` states has no more than `2 ^ k` subsets.
-/

namespace RegexMachine.StateSet

open Std

/-! ### Counting -/

/-- The size of a set is the length of any list of its members without repeats. -/
theorem size_eq_length {s : StateSet} {xs : List StateId} (hnodup : xs.Nodup)
    (h : ∀ q, q ∈ s ↔ q ∈ xs) : s.size = xs.length := by
  have hperm : s.toList.Perm xs :=
    (List.perm_ext_iff_of_nodup (nodup_toList s) hnodup).mpr fun q => by
      rw [ExtTreeSet.mem_toList, h]
  rw [← ExtTreeSet.length_toList, hperm.length_eq]

theorem size_singleton (q : StateId) : ({q} : StateSet).size = 1 :=
  size_eq_length (List.nodup_singleton q) fun r => by
    rw [mem_singleton, List.mem_singleton, eq_comm]

/-- The size of a set of all numbers below a bound. -/
theorem size_of_mem_iff_lt {s : StateSet} {k : Nat} (h : ∀ q, q ∈ s ↔ q < k) : s.size = k := by
  rw [size_eq_length List.nodup_range fun q => (h q).trans List.mem_range.symm, List.length_range]

/-- Sets that share no member add up. -/
theorem size_eq_add {s t u : StateSet} (hdisjoint : ∀ q ∈ s, q ∉ t)
    (h : ∀ q, q ∈ u ↔ q ∈ s ∨ q ∈ t) : u.size = s.size + t.size := by
  have hnodup : (s.toList ++ t.toList).Nodup := by
    refine List.nodup_append.mpr ⟨nodup_toList s, nodup_toList t, fun p hp q hq hpq => ?_⟩
    rw [ExtTreeSet.mem_toList] at hp hq
    exact hdisjoint p hp (hpq ▸ hq)
  have hmem : ∀ q, q ∈ u ↔ q ∈ s.toList ++ t.toList := fun q => by
    rw [h, List.mem_append, ExtTreeSet.mem_toList, ExtTreeSet.mem_toList]
  rw [size_eq_length hnodup hmem, List.length_append, ExtTreeSet.length_toList,
    ExtTreeSet.length_toList]

theorem eq_insert {s t : StateSet} {q : StateId} (h : ∀ r, r ∈ t ↔ q = r ∨ r ∈ s) :
    t = s.insert q :=
  ExtTreeSet.ext_mem fun r => by simp [h]

/-- A set to which a state is added grows exactly if the state is new. -/
theorem size_eq_add_one_iff {s t : StateSet} {q : StateId} (h : ∀ r, r ∈ t ↔ q = r ∨ r ∈ s) :
    t.size = s.size + 1 ↔ q ∉ s := by
  rw [eq_insert h, ExtTreeSet.size_insert, ExtTreeSet.mem_iff_contains]
  split
  · next hq => simp [hq]
  · next hq => simp [hq]

/-- To which two are added, it grows by two exactly if both are new and are not the same. -/
theorem size_eq_add_two_iff {s t : StateSet} {p q : StateId}
    (h : ∀ r, r ∈ t ↔ p = r ∨ q = r ∨ r ∈ s) : t.size = s.size + 2 ↔ q ∉ s ∧ p ∉ s ∧ q ≠ p := by
  have hone : ∀ r, r ∈ s.insert q ↔ q = r ∨ r ∈ s := fun r => by simp
  have htwo : ∀ r, r ∈ t ↔ p = r ∨ r ∈ s.insert q := fun r =>
    (h r).trans (or_congr_right (hone r).symm)
  have hle : (s.insert q).size ≤ s.size + 1 := ExtTreeSet.size_insert_le
  have hle' : t.size ≤ (s.insert q).size + 1 := eq_insert htwo ▸ ExtTreeSet.size_insert_le
  calc t.size = s.size + 2
      ↔ (s.insert q).size = s.size + 1 ∧ t.size = (s.insert q).size + 1 := by omega
    _ ↔ q ∉ s ∧ p ∉ s.insert q := and_congr (size_eq_add_one_iff hone) (size_eq_add_one_iff htwo)
    _ ↔ q ∉ s ∧ p ∉ s ∧ q ≠ p := by rw [hone, not_or, and_comm (a := p ∉ s)]

theorem subperm_toList {s t : StateSet} (h : ∀ q ∈ s, q ∈ t) : s.toList.Subperm t.toList :=
  List.subperm_of_subset (nodup_toList s) fun q hq =>
    ExtTreeSet.mem_toList.mpr (h q (ExtTreeSet.mem_toList.mp hq))

/-- A set that lies in another one and is no smaller is all of it. -/
theorem mem_of_size_le {s t : StateSet} (h : ∀ q ∈ s, q ∈ t) (hle : t.size ≤ s.size) {q : StateId}
    (hq : q ∈ t) : q ∈ s := by
  rw [← ExtTreeSet.length_toList, ← ExtTreeSet.length_toList] at hle
  have hperm := (subperm_toList h).perm_of_length_le hle
  exact ExtTreeSet.mem_toList.mp (hperm.mem_iff.mpr (ExtTreeSet.mem_toList.mpr hq))

/-- The members of a set as a `Finset`. -/
def toFinset (s : StateSet) : Finset StateId := s.toList.toFinset

theorem mem_toFinset {s : StateSet} {q : StateId} : q ∈ s.toFinset ↔ q ∈ s := by
  rw [toFinset, List.mem_toFinset, ExtTreeSet.mem_toList]

theorem toFinset_injective : Function.Injective toFinset := fun s t h =>
  ExtTreeSet.ext_mem fun q => by rw [← mem_toFinset, h, mem_toFinset]

theorem card_toFinset (s : StateSet) : s.toFinset.card = s.size := by
  rw [toFinset, List.toFinset_card_of_nodup (nodup_toList s), ExtTreeSet.length_toList]

theorem ncard_mem (s : StateSet) : {q | q ∈ s}.ncard = s.size := by
  have hmem : {q | q ∈ s} = (s.toFinset : Set StateId) := by
    ext q
    rw [Set.mem_ofPred_eq, Finset.mem_coe, mem_toFinset]
  rw [hmem, Set.ncard_coe_finset, card_toFinset]

/-- There are `2 ^ k` sets of states drawn from `k` states, so no list of them without repeats is
longer. -/
theorem length_le_two_pow {sets : List StateSet} {base : StateSet} (hnodup : sets.Nodup)
    (h : ∀ s ∈ sets, ∀ q ∈ s, q ∈ base) : sets.length ≤ 2 ^ base.size := by
  have hsub : (sets.map toFinset).toFinset ⊆ base.toFinset.powerset := by
    intro members hmembers
    obtain ⟨s, hs, rfl⟩ := List.mem_map.mp (List.mem_toFinset.mp hmembers)
    exact Finset.mem_powerset.mpr fun q hq => mem_toFinset.mpr (h s hs q (mem_toFinset.mp hq))
  calc sets.length = (sets.map toFinset).toFinset.card := by
        rw [List.toFinset_card_of_nodup (hnodup.map toFinset_injective), List.length_map]
    _ ≤ base.toFinset.powerset.card := Finset.card_le_card hsub
    _ = 2 ^ base.size := by rw [Finset.card_powerset, card_toFinset]

/-! ### Renaming -/

theorem size_image {f : StateId → StateId} {s : StateSet} (hf : Set.InjOn f {q | q ∈ s}) :
    (image f s).size = s.size := by
  have hnodup : (s.toList.map f).Nodup :=
    List.Nodup.map_on (fun p hp q hq h => hf (ExtTreeSet.mem_toList.mp hp)
      (ExtTreeSet.mem_toList.mp hq) h) (nodup_toList s)
  rw [size_eq_length hnodup fun q => by simp, List.length_map, ExtTreeSet.length_toList]

theorem forall_mem_image {f : StateId → StateId} {s : StateSet} {p : StateId → Prop} :
    (∀ r ∈ image f s, p r) ↔ ∀ q ∈ s, p (f q) := by
  constructor
  · intro h q hq
    exact h (f q) (mem_image.mpr ⟨q, hq, rfl⟩)
  · intro h r hr
    obtain ⟨q, hq, rfl⟩ := mem_image.mp hr
    exact h q hq

/-- A renaming apart takes nothing but members of a set into its image. -/
theorem apply_mem_image {f : StateId → StateId} {s t : StateSet} (hf : Set.InjOn f {q | q ∈ s})
    (ht : ∀ q ∈ t, q ∈ s) {q : StateId} (hq : q ∈ s) : f q ∈ image f t ↔ q ∈ t := by
  rw [mem_image]
  constructor
  · intro h
    obtain ⟨p, hp, heq⟩ := h
    exact hf (ht p hp) hq heq ▸ hp
  · intro h
    exact ⟨q, h, rfl⟩

theorem image_congr {f g : StateId → StateId} {s : StateSet} (h : ∀ q ∈ s, f q = g q) :
    image f s = image g s := by
  refine ExtTreeSet.ext_mem fun q => ?_
  rw [mem_image, mem_image]
  exact exists_congr fun p => and_congr_right fun hp => by rw [h p hp]

theorem image_self (s : StateSet) : image (fun q => q) s = s :=
  ExtTreeSet.ext_mem fun q => by simp

theorem image_image (f g : StateId → StateId) (s : StateSet) :
    image g (image f s) = image (fun q => g (f q)) s := by
  refine ExtTreeSet.ext_mem fun q => ?_
  simp only [mem_image]
  constructor
  · intro h
    obtain ⟨_, ⟨p, hp, rfl⟩, rfl⟩ := h
    exact ⟨p, hp, rfl⟩
  · intro h
    obtain ⟨p, hp, rfl⟩ := h
    exact ⟨_, ⟨p, hp, rfl⟩, rfl⟩

end RegexMachine.StateSet
