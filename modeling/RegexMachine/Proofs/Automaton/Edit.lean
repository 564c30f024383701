import RegexMachine.Automaton.Renumber
import RegexMachine.Proofs.Automaton.WellFormed

/-!
# RegexMachine.Proofs.Automaton.Edit

**What the checked edits do.** For every edit of one state or one edge there is an equation that
says what it answers and what it leaves, refusals included; later proofs use the equation and not
the steps. From the equations it follows that no such edit ever leaves an ill-formed machine.

Two ways of following longer edits are provided. `Keeps` is for a property that survives every step,
refused or not. `on_forM` is for a loop none of whose steps is refused: an invariant says what has
been done after each part of the list.
-/

namespace RegexMachine

open Std

namespace Edit

variable {κ τ : Type} [Ord κ] {α β : Type}

/-! ### Properties that survive -/

/-- A property of machines survives the edit, whether it is refused or not. -/
def Keeps (p : Automaton κ τ → Prop) (x : Edit κ τ α) : Prop :=
  ∀ m, p m → p (x.on m).2

section Keeps

variable {p : Automaton κ τ → Prop}

theorem keeps_pure (a : α) : (pure a : Edit κ τ α).Keeps p := fun _ h => h

theorem keeps_answer (x : Except Fault α) : (answer x : Edit κ τ α).Keeps p := fun _ h => h

theorem Keeps.bind {x : Edit κ τ α} {f : α → Edit κ τ β} (hx : x.Keeps p)
    (hf : ∀ a, (f a).Keeps p) : (x >>= f).Keeps p := by
  intro m hm
  have hleft := hx m hm
  rcases h : x.on m with ⟨fault | a, left⟩
  · rw [h] at hleft
    rw [on_bind_of_error h]
    exact hleft
  · rw [h] at hleft
    rw [on_bind_of_ok h]
    exact hf a left hleft

theorem keeps_forM {xs : List α} {f : α → Edit κ τ PUnit} (h : ∀ a ∈ xs, (f a).Keeps p) :
    (xs.forM f).Keeps p := by
  induction xs with
  | nil => exact keeps_pure _
  | cons a xs ih =>
      rw [List.forM_eq_forM, List.forM_cons]
      exact (h a List.mem_cons_self).bind fun _ => ih fun b hb => h b (List.mem_cons_of_mem _ hb)

/-- What an edit makes of a machine with a surviving property has the property. -/
theorem Keeps.of_result {x : Edit κ τ α} (hx : x.Keeps p) {m n : Automaton κ τ} (hm : p m)
    (h : x.result m = .ok n) : p n := by
  have hleft := hx m hm
  unfold result at h
  split at h
  · next heq => exact Except.ok.inj h ▸ (heq ▸ hleft :)
  · exact absurd h (by simp)

end Keeps

/-! ### Loops without a refusal -/

/-- A loop none of whose steps is refused, followed by an invariant: `inv done m` says what the
machine is like after the steps for `done`. -/
theorem on_forM {xs : List α} {f : α → Edit κ τ PUnit} (inv : List α → Automaton κ τ → Prop)
    {m : Automaton κ τ} (hstart : inv [] m)
    (hstep : ∀ done a todo left, xs = done ++ a :: todo → inv done left →
      ∃ left', (f a).on left = (.ok ⟨⟩, left') ∧ inv (done ++ [a]) left') :
    ∃ left, (xs.forM f).on m = (.ok ⟨⟩, left) ∧ inv xs left := by
  have main : ∀ todo done m, xs = done ++ todo → inv done m →
      ∃ left, (todo.forM f).on m = (.ok ⟨⟩, left) ∧ inv xs left := by
    intro todo
    induction todo with
    | nil =>
        intro done m hxs hm
        rw [List.append_nil] at hxs
        exact ⟨m, rfl, hxs ▸ hm⟩
    | cons a todo ih =>
        intro done m hxs hm
        obtain ⟨mid, hmid, hinv⟩ := hstep done a todo m hxs hm
        obtain ⟨left, hleft, hdone⟩ := ih (done ++ [a]) mid (by rw [hxs]; simp) hinv
        refine ⟨left, ?_, hdone⟩
        rw [List.forM_eq_forM, List.forM_cons, on_bind_of_ok hmid]
        exact hleft
  exact main xs [] m rfl hstart

theorem result_eq_ok_iff {x : Edit κ τ α} {m n : Automaton κ τ} :
    x.result m = .ok n ↔ ∃ a, x.on m = (.ok a, n) := by
  unfold result
  split
  · next a left h => rw [h]; simp
  · next fault left h => rw [h]; simp

end Edit

namespace Automaton

variable {κ τ : Type} [Ord κ]

/-! ### The equations -/

theorem on_requireState (q : StateId) (m : Automaton κ τ) :
    (requireState q).on m =
      (if q ∈ m.states then .ok () else .error (.unknownState q), m) := by
  rw [requireState, Edit.on_look_bind]
  by_cases h : q ∈ m.states
  · rw [if_pos h, if_pos (ExtTreeSet.contains_iff_mem.mpr h)]
    rfl
  · rw [if_neg h, if_neg (mt ExtTreeSet.contains_iff_mem.mp h)]
    rfl

theorem on_requireState_bind {α : Type} (q : StateId) (f : Unit → Edit κ τ α)
    (m : Automaton κ τ) : (requireState q >>= f).on m =
      if q ∈ m.states then (f ()).on m else (.error (.unknownState q), m) := by
  rw [Edit.on_bind, on_requireState]
  by_cases h : q ∈ m.states
  · rw [if_pos h, if_pos h]
  · rw [if_neg h, if_neg h]

theorem on_addState (q : StateId) (accepting : Bool) (m : Automaton κ τ) :
    (addState q accepting).on m =
      if q ∈ m.states then (.error (.duplicateState q), m)
      else (.ok (), m.withState q accepting) := by
  rw [addState, Edit.on_look_bind]
  by_cases h : q ∈ m.states
  · rw [if_pos h, if_pos (ExtTreeSet.contains_iff_mem.mpr h)]
    rfl
  · rw [if_neg h, if_neg (mt ExtTreeSet.contains_iff_mem.mp h)]
    rfl

theorem on_newState (accepting : Bool) (ids : IdSpace) (m : Automaton κ τ) :
    (newState accepting ids).on m =
      (.ok (m.nextFree ids), m.withState (m.nextFree ids) accepting) := rfl

/-- The name after the greatest state is no state, so what `newState` adds is new. -/
def HasFree (m : Automaton κ τ) (ids : IdSpace) : Prop :=
  m.nextFree ids ∉ m.states

instance (m : Automaton κ τ) (ids : IdSpace) : Decidable (m.HasFree ids) :=
  inferInstanceAs (Decidable (m.nextFree ids ∉ m.states))

theorem hasFree_naturals (m : Automaton κ τ) : m.HasFree .naturals :=
  StateSet.nextFree_not_mem (Or.inl rfl)

theorem on_setInitial (q : StateId) (m : Automaton κ τ) :
    (setInitial q).on m =
      if q ∈ m.states then (.ok (), { m with initial := some q })
      else (.error (.unknownState q), m) := by
  rw [setInitial, on_requireState_bind]
  rfl

theorem on_setInitial_of_mem {m : Automaton κ τ} {q : StateId} (h : q ∈ m.states) :
    (setInitial q).on m = (.ok (), { m with initial := some q }) := by
  rw [on_setInitial, if_pos h]

theorem on_requireInitial (m : Automaton κ τ) : requireInitial.on m = (m.start, m) := rfl

theorem start_eq_ok_iff {m : Automaton κ τ} {q : StateId} :
    m.start = .ok q ↔ m.initial = some q := by
  unfold start
  split
  · next p h => rw [h, Except.ok.injEq, Option.some.injEq]
  · next h => simp [h]

theorem start_of_initial {m : Automaton κ τ} {q : StateId} (h : m.initial = some q) :
    m.start = .ok q :=
  start_eq_ok_iff.mpr h

theorem start_of_no_initial {m : Automaton κ τ} (h : m.initial = none) :
    m.start = .error .missingInitialState := by
  rw [start, h]

theorem on_requireInitial_of_initial {m : Automaton κ τ} {q : StateId} (h : m.initial = some q) :
    requireInitial.on m = (.ok q, m) := by
  rw [on_requireInitial, start_of_initial h]

theorem on_requireInitial_of_no_initial {m : Automaton κ τ} (h : m.initial = none) :
    requireInitial.on m = (.error .missingInitialState, m) := by
  rw [on_requireInitial, start_of_no_initial h]

/-! ### Well-formedness survives -/

section

variable [TransOrd κ] [Target τ] [Lettered κ]

theorem keeps_addState (q : StateId) (accepting : Bool) :
    (addState q accepting : Edit κ τ Unit).Keeps WellFormed := by
  intro m hm
  rw [on_addState]
  split
  · exact hm
  · exact hm.withState q accepting

theorem keeps_newState (accepting : Bool) (ids : IdSpace) :
    (newState accepting ids : Edit κ τ StateId).Keeps WellFormed :=
  fun m hm => hm.withState (m.nextFree ids) accepting

theorem keeps_setInitial (q : StateId) : (setInitial q : Edit κ τ Unit).Keeps WellFormed := by
  intro m hm
  rw [on_setInitial]
  split
  · next hq => exact hm.withInitial hq
  · exact hm

end

end Automaton

namespace DFA

open Automaton

theorem on_addEdge (source target : StateId) (c : Char) (d : DFA) :
    (addEdge source target c).on d =
      if source ∈ d.states then
        if target ∈ d.states then (.ok (), withEdge d source target c)
        else (.error (.unknownState target), d)
      else (.error (.unknownState source), d) := by
  rw [addEdge, on_requireState_bind, on_requireState_bind]
  rfl

theorem keeps_addEdge (source target : StateId) (c : Char) :
    (addEdge source target c).Keeps WellFormed := by
  intro d hd
  rw [on_addEdge]
  split
  · next hs =>
      split
      · next ht => exact wellFormed_withEdge hd hs ht c
      · exact hd
  · exact hd

end DFA

namespace NFA

open Automaton

theorem on_addEdge (source target : StateId) (symbol : Symbol) (n : NFA) :
    (addEdge source target symbol).on n =
      if source ∈ n.states then
        if target ∈ n.states then (.ok (), withEdge n source target symbol)
        else (.error (.unknownState target), n)
      else (.error (.unknownState source), n) := by
  rw [addEdge, on_requireState_bind, on_requireState_bind]
  rfl

theorem keeps_addEdge (source target : StateId) (symbol : Symbol) :
    (addEdge source target symbol).Keeps WellFormed := by
  intro n hn
  rw [on_addEdge]
  split
  · next hs =>
      split
      · next ht => exact wellFormed_withEdge hn hs ht symbol
      · exact hn
  · exact hn

end NFA

end RegexMachine
