import Std.Data.ExtTreeSet

/-!
# RegexMachine.StateSet

**Finite sets of states.** A state is named by a natural number, and a set of states is an ordered
tree that is equal to another exactly when both hold the same states. So machines built in
different ways can be compared with `=`, and a set always lists its states in ascending order.

The operations added here are the image under a renaming and the name after the greatest member,
which is how a machine hands out new states.

Names that are made by adding live in an `IdSpace`. Those a machine hands out are machine words:
past the last word they start over from zero, and a name handed out may then be one that is taken.
-/

namespace RegexMachine

open Std

/-- The name of a state. It means something only inside the machine that holds it. A caller names
states by machine words, the numbers below `UInt64.size`. -/
abbrev StateId := Nat

/-- Where the names made by adding to a name come from. -/
inductive IdSpace where
  /-- The natural numbers, which have a name above every other. -/
  | naturals
  /-- The machine words, which start over from zero past the last one. -/
  | words
  deriving DecidableEq, Repr

namespace IdSpace

/-- The name `k` steps above `q`. Among the words the steps go round, so that different names stay
different; a number that is no word does not come up there and is left alone. -/
def add : IdSpace → Nat → Nat → Nat
  | naturals, q, k => q + k
  | words, q, k => if q < UInt64.size then (q + k) % UInt64.size else q

@[simp] theorem add_naturals (q k : Nat) : naturals.add q k = q + k := rfl

/-- Below the last word nothing goes round. -/
theorem add_eq {ids : IdSpace} {q k : Nat} (h : q + k < UInt64.size) :
    ids.add q k = q + k := by
  cases ids with
  | naturals => rfl
  | words => rw [add, if_pos (Nat.lt_of_le_of_lt (Nat.le_add_right q k) h), Nat.mod_eq_of_lt h]

theorem add_inj {ids : IdSpace} {p q k : Nat} (h : ids.add p k = ids.add q k) : p = q := by
  cases ids with
  | naturals => exact Nat.add_right_cancel h
  | words =>
      simp only [add, UInt64.size] at h
      split at h <;> split at h <;> omega

end IdSpace

/-- A finite set of states, listed in ascending order. -/
abbrev StateSet := ExtTreeSet StateId

namespace StateSet

/-! ### Listing -/

/-- A set lists its states strictly ascending. -/
theorem pairwise_lt_toList (s : StateSet) : s.toList.Pairwise (· < ·) :=
  (ExtTreeSet.ordered_toList (t := s)).imp Nat.compare_eq_lt.1

/-- A set lists every state once. -/
theorem nodup_toList (s : StateSet) : s.toList.Nodup :=
  (pairwise_lt_toList s).imp Nat.ne_of_lt

@[simp] theorem mem_singleton {p q : StateId} : q ∈ ({p} : StateSet) ↔ p = q := by
  rw [ExtTreeSet.singleton_eq_insert]
  simp

/-! ### Images -/

/-- The states that `f` gives to the members of `s`. -/
def image (f : StateId → StateId) (s : StateSet) : StateSet :=
  ExtTreeSet.ofList (s.toList.map f)

@[simp] theorem mem_image {f : StateId → StateId} {s : StateSet} {q : StateId} :
    q ∈ image f s ↔ ∃ p ∈ s, f p = q := by
  simp [image]

/-! ### The name after the last -/

/-- The name after the greatest member; `0` if there is none. -/
def nextFree (s : StateSet) (ids : IdSpace := .words) : StateId :=
  match s.max? with
  | none => 0
  | some last => ids.add last 1

/-- Below the last word the name is above every member. -/
theorem lt_nextFree {ids : IdSpace} {s : StateSet} {q : StateId} (hq : q ∈ s)
    (h : ids = .naturals ∨ ∀ p ∈ s, p + 1 < UInt64.size) : q < nextFree s ids := by
  unfold nextFree
  split
  · next hmax =>
      rw [ExtTreeSet.max?_eq_none_iff] at hmax
      simp [hmax] at hq
  · next last hmax =>
      obtain ⟨hlast, hle⟩ := ExtTreeSet.max?_eq_some_iff_mem_and_forall.1 hmax
      have hadd : ids.add last 1 = last + 1 := by
        rcases h with rfl | h
        · rfl
        · exact IdSpace.add_eq (h last hlast)
      rw [hadd]
      exact Nat.lt_succ_of_le (Nat.isLE_compare.1 (hle q hq))

theorem nextFree_not_mem {ids : IdSpace} {s : StateSet}
    (h : ids = .naturals ∨ ∀ p ∈ s, p + 1 < UInt64.size) : nextFree s ids ∉ s :=
  fun hmem => Nat.lt_irrefl _ (lt_nextFree hmem h)

/-! ### Finitely many subsets -/

/-- The sets of states drawn from one finite list can themselves be listed. -/
theorem exists_list_of_subsets (base : List StateId) :
    ∃ sets : List StateSet, ∀ s : StateSet, (∀ q ∈ s, q ∈ base) → s ∈ sets := by
  induction base with
  | nil =>
      refine ⟨[∅], fun s hs => List.mem_singleton.2 (ExtTreeSet.ext_mem fun q => ?_)⟩
      exact ⟨fun h => absurd (hs q h) List.not_mem_nil, fun h => absurd h ExtTreeSet.not_mem_empty⟩
  | cons a base ih =>
      obtain ⟨sets, hsets⟩ := ih
      refine ⟨sets ++ sets.map (·.insert a), fun s hs => ?_⟩
      by_cases ha : a ∈ s
      · refine List.mem_append_right _ (List.mem_map.2 ⟨s.erase a, hsets _ fun q hq => ?_, ?_⟩)
        · rw [ExtTreeSet.mem_erase] at hq
          rcases List.mem_cons.1 (hs q hq.2) with rfl | h
          · exact absurd compare_self hq.1
          · exact h
        · refine ExtTreeSet.ext_mem fun q => ?_
          rw [ExtTreeSet.mem_insert, ExtTreeSet.mem_erase]
          by_cases hq : compare a q = .eq
          · simp [hq, LawfulEqCmp.eq_of_compare hq ▸ ha]
          · simp [hq]
      · refine List.mem_append_left _ (hsets s fun q hq => ?_)
        rcases List.mem_cons.1 (hs q hq) with rfl | h
        · exact absurd hq ha
        · exact h

end StateSet

end RegexMachine
