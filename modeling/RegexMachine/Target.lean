import RegexMachine.StateSet

/-!
# RegexMachine.Target

**Where an edge leads.** An edge of a deterministic machine leads to one state, an edge of a
nondeterministic one to a set of states. Whatever only follows or renames edges is written once,
over the class `Target`: it lists the states of a target in ascending order and renames them.

The laws say that a target is settled by the states it lists and that renaming acts state by state.
They determine `relabel`, so renaming by the identity or by a composition needs no law of its own.
-/

namespace RegexMachine

open Std

/-- The end of an edge: one state, or a set of states. -/
class Target (τ : Type) where
  /-- The states of a target. -/
  members : τ → List StateId
  /-- The target with every state renamed. -/
  relabel : (StateId → StateId) → τ → τ
  /-- The states are listed strictly ascending. -/
  pairwise_members (t : τ) : (members t).Pairwise (· < ·)
  /-- A target is settled by its states. -/
  ext {t u : τ} : (∀ q, q ∈ members t ↔ q ∈ members u) → t = u
  /-- Renaming acts on each state. -/
  mem_members_relabel {f : StateId → StateId} {t : τ} {q : StateId} :
    q ∈ members (relabel f t) ↔ ∃ p ∈ members t, f p = q

namespace Target

/-- One state. -/
instance : Target StateId where
  members q := [q]
  relabel f q := f q
  pairwise_members := List.pairwise_singleton _
  ext h := by simpa using (h _).1 (List.mem_singleton_self _)
  mem_members_relabel := by simp [eq_comm]

/-- A set of states. -/
instance : Target StateSet where
  members := ExtTreeSet.toList
  relabel := StateSet.image
  pairwise_members := StateSet.pairwise_lt_toList
  ext h := ExtTreeSet.ext_mem fun q => by simpa using h q
  mem_members_relabel := by simp

variable {τ : Type} [Target τ]

/-- Renaming by functions that agree on the states of a target gives the same target. -/
theorem relabel_congr {f g : StateId → StateId} {t : τ} (h : ∀ q ∈ members t, f q = g q) :
    relabel f t = relabel g t := by
  refine ext fun q => ?_
  simp only [mem_members_relabel]
  exact exists_congr fun p => and_congr_right fun hp => by rw [h p hp]

@[simp] theorem relabel_id (t : τ) : relabel (fun q => q) t = t :=
  ext fun q => by simp [mem_members_relabel]

@[simp] theorem relabel_relabel (f g : StateId → StateId) (t : τ) :
    relabel g (relabel f t) = relabel (fun q => g (f q)) t := by
  refine ext fun q => ?_
  simp only [mem_members_relabel]
  constructor
  · rintro ⟨_, ⟨p, hp, rfl⟩, rfl⟩
    exact ⟨p, hp, rfl⟩
  · rintro ⟨p, hp, rfl⟩
    exact ⟨_, ⟨p, hp, rfl⟩, rfl⟩

end Target

end RegexMachine
