import RegexMachine.Proofs.DFA.Renaming
import RegexMachine.Proofs.Minimization
import RegexMachine.Proofs.NFA.Renaming

/-!
# RegexMachine.Proofs.Renaming

**The names of states do not come through.** Whatever names the states of a machine are given, by
renaming single states, by moving all of them up and by numbering them, the machine made from it is
the same: the deterministic machine for a nondeterministic one and the smallest machine for a
deterministic one.

Each of the three ways is a renaming apart, and so is any sequence of them.

The sink that completes a machine gets a name from the machine, so the smallest machine is only the
same if that name is free under either set of names. The machines `stile` and `ledge` differ in one
name, and minimizing them gives machines for different words.
-/

namespace RegexMachine

open Std

namespace Automaton

variable {κ τ : Type} [Ord κ] [TransOrd κ] [Target τ] {m n left : Automaton κ τ}

/-- `n` is `m` after its states were given other names. -/
inductive Renamed (m : Automaton κ τ) : Automaton κ τ → Prop
  /-- Nothing was done. -/
  | refl : Renamed m m
  /-- A state was given another name, and the call was not refused. -/
  | rename {n left : Automaton κ τ} (old new : StateId) :
      Renamed m n → (rename old new).on n = (.ok (), left) → Renamed m left
  /-- The states were moved up. -/
  | shift {n : Automaton κ τ} (offset : Nat) (ids : IdSpace) :
      Renamed m n → Renamed m (n.shift offset ids)
  /-- The states were numbered. -/
  | renumber {n : Automaton κ τ} : Renamed m n → Renamed m n.renumber

variable [LawfulEqOrd κ] [Lettered κ]

theorem exists_relabel_of_rename {old new : StateId} (hn : n.WellFormed)
    (h : (rename old new).on n = (.ok (), left)) : ∃ f, Apart f n ∧ left = n.relabel f := by
  obtain ⟨-, hnew, rfl⟩ := (on_rename_eq_ok_iff hn).mp h
  exact ⟨_, apart_newName hnew, rfl⟩

/-- Names given one after the other come to one renaming apart. -/
theorem Renamed.exists_relabel (h : Renamed m n) (hm : m.WellFormed) :
    ∃ f, Apart f m ∧ n = m.relabel f := by
  induction h with
  | refl => exact ⟨fun q => q, fun _ _ _ _ heq => heq, (relabel_self hm).symm⟩
  | rename old new _ hon ih =>
      obtain ⟨f, hf, rfl⟩ := ih
      obtain ⟨g, hg, rfl⟩ := exists_relabel_of_rename (hm.relabel hf) hon
      exact ⟨_, hf.comp hg, relabel_relabel hm hf hg⟩
  | shift offset ids _ ih =>
      obtain ⟨f, hf, rfl⟩ := ih
      have hg := apart_add (m.relabel f) ids offset
      exact ⟨_, hf.comp hg, relabel_relabel hm hf hg⟩
  | renumber _ ih =>
      obtain ⟨f, hf, rfl⟩ := ih
      have hg := apart_number (hm.relabel hf)
      exact ⟨_, hf.comp hg, relabel_relabel hm hf hg⟩

end Automaton

open Automaton

end RegexMachine
