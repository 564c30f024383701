import RegexMachine.Proofs.DFA.Minimal
import RegexMachine.Proofs.NFA.Combine
import RegexMachine.Proofs.NFA.Simplest
import RegexMachine.Proofs.NFA.Subset

/-!
# RegexMachine.Proofs.Built

**Every machine that can be built is well formed.** A machine is built by any number of calls in any
order, refused ones included: a refused call leaves a machine behind as well, and the next call is
made on it. `Called` is one such call of those that both kinds of machines have, and the two
predicates `Built` add the calls that only one kind has. Calls that make names may take them from
either space. No call breaks what `WellFormed` says, so it holds of every machine that is built.
-/

namespace RegexMachine

open Std

namespace Automaton

variable {κ τ : Type} [Ord κ] [TransOrd κ] [Target τ] {m n : Automaton κ τ}

/-! ### Giving one state another name -/

omit [TransOrd κ] in
theorem on_rename (old new : StateId) (m : Automaton κ τ) :
    (rename old new).on m =
      if old ∈ m.states then
        if old = new then (.ok (), m)
        else if new ∈ m.states then (.error (.duplicateState new), m)
        else (.ok (), m.relabel fun q => if q = old then new else q)
      else (.error (.unknownState old), m) := by
  rw [rename, on_requireState_bind]
  by_cases hsame : old = new
  · rw [if_pos hsame, if_pos hsame]
    rfl
  · rw [if_neg hsame, if_neg hsame, Edit.on_look_bind]
    by_cases h : new ∈ m.states
    · rw [if_pos h, if_pos (ExtTreeSet.contains_iff_mem.mpr h)]
      rfl
    · rw [if_neg h, if_neg (mt ExtTreeSet.contains_iff_mem.mp h)]
      rfl

omit [TransOrd κ] [Target τ] in
theorem apart_rename {old new : StateId} (h : new ∉ m.states) :
    Apart (fun q => if q = old then new else q) m := by
  intro p hp q hq heq
  simp only at heq
  split at heq
  · next hpo =>
      split at heq
      · next hqo => rw [hpo, hqo]
      · exact absurd (heq ▸ hq) h
  · split at heq
    · exact absurd (heq ▸ hp) h
    · exact heq

/-- The name of `q` after the state `old` was given the name `new`. -/
def newName (old new q : StateId) : StateId := if q = old then new else q

@[simp] theorem newName_self (old new : StateId) : newName old new old = new := if_pos rfl

theorem newName_of_ne {old new q : StateId} (h : q ≠ old) : newName old new q = q := if_neg h

@[simp] theorem newName_same (old q : StateId) : newName old old q = q := by
  by_cases h : q = old
  · rw [h, newName_self]
  · exact newName_of_ne h

/-- The old name given back. -/
theorem newName_newName {old new q : StateId} (h : q = new → old = new) :
    newName new old (newName old new q) = q := by
  by_cases hold : q = old
  · rw [hold, newName_self, newName_self]
  · rw [newName_of_ne hold, newName_of_ne fun hnew => hold (hnew.trans (h hnew).symm)]

omit [TransOrd κ] [Target τ] in
theorem apart_newName {old new : StateId} (h : new ∈ m.states → old = new) :
    Apart (newName old new) m := by
  by_cases hnew : new ∈ m.states
  · intro p _ q _ heq
    rwa [h hnew, newName_same, newName_same] at heq
  · exact apart_rename hnew

/-- A name is given exactly if it belongs to no other state. -/
theorem on_rename_eq_ok_iff [LawfulEqOrd κ] [Lettered κ] {old new : StateId} (hm : m.WellFormed) :
    (rename old new).on m = (.ok (), n) ↔
      old ∈ m.states ∧ (new ∈ m.states → old = new) ∧ m.relabel (newName old new) = n := by
  rw [on_rename]
  by_cases hold : old ∈ m.states
  · rw [if_pos hold]
    by_cases hsame : old = new
    · subst hsame
      rw [if_pos rfl, relabel_eq_self hm fun q _ => newName_same old q]
      simp [hold]
    · rw [if_neg hsame]
      by_cases hnew : new ∈ m.states
      · simp [hnew, hsame]
      · rw [if_neg hnew]
        simp only [Prod.mk.injEq, true_and, hold, hnew, false_imp_iff]
        exact Iff.rfl
  · simp [hold]

/-! ### Calls that both kinds of machines have -/

/-- One call made on `m` leaves `n`. -/
inductive Called (m : Automaton κ τ) : Automaton κ τ → Prop
  /-- A state is added under a name of the caller's choice. -/
  | addState (q : StateId) (accepting : Bool) : Called m ((addState q accepting).on m).2
  /-- A state is added under the name after the last. -/
  | newState (accepting : Bool) (ids : IdSpace) : Called m ((newState accepting ids).on m).2
  /-- A state is made the start state. -/
  | setInitial (q : StateId) : Called m ((setInitial q).on m).2
  /-- A state is given another name. -/
  | rename (old new : StateId) : Called m ((rename old new).on m).2
  /-- The states are numbered. -/
  | renumber : Called m m.renumber
  /-- The states are moved up. -/
  | shift (offset : Nat) (ids : IdSpace) : Called m (m.shift offset ids)

variable [LawfulEqOrd κ] [Lettered κ]

theorem keeps_rename (old new : StateId) : (rename old new : Edit κ τ Unit).Keeps WellFormed := by
  intro m hm
  rw [on_rename]
  split
  · split
    · exact hm
    · split
      · exact hm
      · next hnew => exact hm.relabel (apart_rename hnew)
  · exact hm

theorem WellFormed.called (hm : m.WellFormed) (h : Called m n) : n.WellFormed := by
  cases h with
  | addState q accepting => exact keeps_addState q accepting m hm
  | newState accepting ids => exact keeps_newState accepting ids m hm
  | setInitial q => exact keeps_setInitial q m hm
  | rename old new => exact keeps_rename old new m hm
  | renumber => exact wellFormed_renumber hm
  | shift offset ids => exact hm.shift ids offset

end Automaton

/-! ### Nondeterministic machines -/

namespace NFA

open Automaton

/-- The nondeterministic machines that calls lead to. -/
inductive Built : NFA → Prop
  /-- No state at all. -/
  | empty : Built .empty
  /-- The machine for no word. -/
  | ofEmpty : Built ofEmpty
  /-- The machine for the empty word. -/
  | ofLambda : Built ofLambda
  /-- The machine for one character. -/
  | ofChar (c : Char) : Built (ofChar c)
  /-- A call that deterministic machines have too. -/
  | call {m n : NFA} : Built m → Called m n → Built n
  /-- An edge is added. -/
  | addEdge {n : NFA} (source target : StateId) (symbol : Symbol) :
      Built n → Built ((addEdge source target symbol).on n).2
  /-- Another machine is appended. -/
  | concat {n other : NFA} (ids : IdSpace) :
      Built n → Built other → Built ((concat other ids).on n).2
  /-- Another machine is added as an alternative. -/
  | union {n other : NFA} (ids : IdSpace) :
      Built n → Built other → Built ((union other ids).on n).2
  /-- The machine is repeated any number of times. -/
  | star {n : NFA} (ids : IdSpace) : Built n → Built ((star ids).on n).2
  /-- The machine is repeated one or more times. -/
  | plus {n : NFA} (ids : IdSpace) : Built n → Built ((plus ids).on n).2

theorem Built.wellFormed {n : NFA} (h : n.Built) : n.WellFormed := by
  induction h with
  | empty => exact wellFormed_empty
  | ofEmpty => exact wellFormed_ofEmpty
  | ofLambda => exact wellFormed_ofLambda
  | ofChar c => exact wellFormed_ofChar c
  | call _ hcall ih => exact ih.called hcall
  | addEdge source target symbol _ ih => exact keeps_addEdge source target symbol _ ih
  | concat ids _ _ ih ih' => exact keeps_concat ih' ids _ ih
  | union ids _ _ ih ih' => exact keeps_union ih' ids _ ih
  | star ids _ ih => exact keeps_loop true ids _ ih
  | plus ids _ ih => exact keeps_loop false ids _ ih

/-- What an edit makes of a machine is what is left of it. -/
theorem Built.of_result {x : Edit Symbol StateSet Unit} {m n : NFA}
    (hx : Built (x.on m).2) (h : x.result m = .ok n) : Built n := by
  obtain ⟨a, hon⟩ := Edit.result_eq_ok_iff.mp h
  rw [hon] at hx
  exact hx

end NFA

/-! ### Deterministic machines -/

namespace DFA

open Automaton

/-- The deterministic machines that calls lead to. -/
inductive Built : DFA → Prop
  /-- No state at all. -/
  | empty : Built .empty
  /-- A call that nondeterministic machines have too. -/
  | call {d t : DFA} : Built d → Called d t → Built t
  /-- An edge is added or redirected. -/
  | addEdge {d : DFA} (source target : StateId) (c : Char) :
      Built d → Built ((addEdge source target c).on d).2
  /-- A nondeterministic machine is made deterministic. -/
  | determinize {n : NFA} {d : DFA} :
      n.Built → (NFA.determinize n).outcome = .ok d → Built d
  /-- A machine is completed. -/
  | complete {d t : DFA} {ids : IdSpace} : Built d → complete d ids = .ok t → Built t
  /-- A machine is minimized. -/
  | minimize {d t : DFA} {ids : IdSpace} :
      Built d → (minimize d ids).outcome = .ok t → Built t

theorem wellFormed_of_determinize {n : NFA} {d : DFA}
    (h : (NFA.determinize n).outcome = .ok d) : d.WellFormed := by
  cases hstart : n.initial with
  | none =>
      rw [NFA.determinize_refused hstart] at h
      cases h
  | some start =>
      obtain ⟨t, hok, ht⟩ := NFA.exists_determinize hstart
      rw [hok] at h
      exact Except.ok.inj h ▸ wellFormed_renumber ht.wellFormed

theorem wellFormed_of_minimize {d t : DFA} {ids : IdSpace} (hd : d.WellFormed)
    (h : (minimize d ids).outcome = .ok t) : t.WellFormed := by
  cases hstart : d.initial with
  | none =>
      rw [minimize_refused hd hstart] at h
      cases h
  | some start =>
      obtain ⟨_, m, hm, hok⟩ := exists_minimize hd hstart ids
      rw [hok] at h
      exact Except.ok.inj h ▸ wellFormed_renumber hm.wellFormed

theorem Built.wellFormed {d : DFA} (h : d.Built) : d.WellFormed := by
  induction h with
  | empty => exact wellFormed_empty
  | call _ hcall ih => exact ih.called hcall
  | addEdge source target c _ ih => exact keeps_addEdge source target c _ ih
  | determinize _ hok => exact wellFormed_of_determinize hok
  | complete _ hok ih =>
      obtain ⟨_, hcomplete, ht⟩ := exists_complete ih _
      exact Except.ok.inj (hcomplete.symm.trans hok) ▸ ht.wellFormed
  | minimize _ hok ih => exact wellFormed_of_minimize ih hok

end DFA

end RegexMachine
