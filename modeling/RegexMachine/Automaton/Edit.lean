import RegexMachine.Automaton.Basic

/-!
# RegexMachine.Automaton.Edit

**Checked changes of a machine.** An `Edit` runs on a machine and leaves a machine behind. It either
answers or is refused with a fault, and a refused edit leaves a machine too: what the steps before
the refusal made of it. That a refusal leaves the machine as it was is therefore something to prove
of each edit, and not built into the type. There are three causes of a refusal: a call names a state
that is not there, it names a state that is there already, or it needs a start state and none is
set.

Edits are put together with `do`. The steps they are made of are `look`, which reads the machine,
`change`, which replaces it, and `answer` and `refuse`, which leave it alone.
-/

namespace RegexMachine

open Std

/-- The cause of a refused call. -/
inductive Fault where
  /-- The call names a state that the machine does not hold. -/
  | unknownState (state : StateId)
  /-- The call would add a state that the machine holds already. -/
  | duplicateState (state : StateId)
  /-- The call needs a start state and none is set. -/
  | missingInitialState
  deriving DecidableEq, Repr

/-- The sentence that tells a user the cause. -/
def Fault.message : Fault → String
  | .unknownState state => "state " ++ toString state ++ " does not belong to the automaton"
  | .duplicateState state => "state " ++ toString state ++ " already belongs to the automaton"
  | .missingInitialState => "the automaton has no initial state"

/-- A change of a machine that answers in `α` or is refused. -/
structure Edit (κ τ : Type) [Ord κ] (α : Type) where
  /-- The answer to the edit run on a machine, and the machine it leaves. -/
  on : Automaton κ τ → Except Fault α × Automaton κ τ

namespace Edit

variable {κ τ : Type} [Ord κ] {α β : Type}

/-! ### Putting edits together -/

instance : Monad (Edit κ τ) where
  pure a := ⟨fun m => (.ok a, m)⟩
  bind x f := ⟨fun m =>
    match x.on m with
    | (.ok a, left) => (f a).on left
    | (.error fault, left) => (.error fault, left)⟩

@[simp] theorem on_pure (a : α) (m : Automaton κ τ) :
    (pure a : Edit κ τ α).on m = (.ok a, m) := rfl

theorem on_bind (x : Edit κ τ α) (f : α → Edit κ τ β) (m : Automaton κ τ) :
    (x >>= f).on m =
      match x.on m with
      | (.ok a, left) => (f a).on left
      | (.error fault, left) => (.error fault, left) := rfl

theorem on_bind_of_ok {x : Edit κ τ α} {m left : Automaton κ τ} {a : α}
    (h : x.on m = (.ok a, left)) (f : α → Edit κ τ β) : (x >>= f).on m = (f a).on left := by
  simp [on_bind, h]

theorem on_bind_of_error {x : Edit κ τ α} {m left : Automaton κ τ} {fault : Fault}
    (h : x.on m = (.error fault, left)) (f : α → Edit κ τ β) :
    (x >>= f).on m = (.error fault, left) := by
  simp [on_bind, h]

@[ext] theorem ext {x y : Edit κ τ α} (h : ∀ m, x.on m = y.on m) : x = y := by
  cases x
  cases y
  congr
  exact funext h

instance : LawfulMonad (Edit κ τ) :=
  LawfulMonad.mk' _
    (fun x => by
      ext m : 1
      show (match x.on m with
        | (.ok a, left) => (.ok a, left)
        | (.error fault, left) => (.error fault, left)) = x.on m
      rcases x.on m with ⟨_ | _, _⟩ <;> rfl)
    (fun _ _ => rfl)
    (fun x f g => by
      ext m : 1
      simp only [on_bind]
      rcases x.on m with ⟨_ | _, _⟩ <;> rfl)

/-- What an edit makes of a machine, if it is not refused. -/
def result (x : Edit κ τ α) (m : Automaton κ τ) : Except Fault (Automaton κ τ) :=
  match x.on m with
  | (.ok _, left) => .ok left
  | (.error fault, _) => .error fault

theorem result_of_ok {x : Edit κ τ α} {m left : Automaton κ τ} {a : α}
    (h : x.on m = (.ok a, left)) : x.result m = .ok left := by
  simp [result, h]

/-! ### Steps -/

/-- Reads something off the machine. -/
def look (f : Automaton κ τ → α) : Edit κ τ α := ⟨fun m => (.ok (f m), m)⟩

/-- Replaces the machine. -/
def change (f : Automaton κ τ → Automaton κ τ) : Edit κ τ Unit := ⟨fun m => (.ok (), f m)⟩

/-- Answers what is already known, or is refused with it. -/
def answer (x : Except Fault α) : Edit κ τ α := ⟨fun m => (x, m)⟩

/-- Refuses. -/
def refuse (fault : Fault) : Edit κ τ α := ⟨fun m => (.error fault, m)⟩

@[simp] theorem on_look (f : Automaton κ τ → α) (m : Automaton κ τ) :
    (look f).on m = (.ok (f m), m) := rfl

@[simp] theorem on_change (f : Automaton κ τ → Automaton κ τ) (m : Automaton κ τ) :
    (change f).on m = (.ok (), f m) := rfl

@[simp] theorem on_answer (x : Except Fault α) (m : Automaton κ τ) :
    (answer x).on m = (x, m) := rfl

@[simp] theorem on_refuse (fault : Fault) (m : Automaton κ τ) :
    (refuse fault : Edit κ τ α).on m = (.error fault, m) := rfl

@[simp] theorem on_look_bind (f : Automaton κ τ → α) (g : α → Edit κ τ β) (m : Automaton κ τ) :
    (look f >>= g).on m = (g (f m)).on m := rfl

@[simp] theorem on_change_bind (f : Automaton κ τ → Automaton κ τ) (g : Unit → Edit κ τ β)
    (m : Automaton κ τ) : (change f >>= g).on m = (g ()).on (f m) := rfl

@[simp] theorem on_refuse_bind (fault : Fault) (g : α → Edit κ τ β) (m : Automaton κ τ) :
    (refuse fault >>= g).on m = (.error fault, m) := rfl

end Edit

namespace Automaton

variable {κ τ : Type} [Ord κ]

/-! ### States -/

/-- The machine with the state `q` added, final or not. -/
def withState (m : Automaton κ τ) (q : StateId) (accepting : Bool) : Automaton κ τ :=
  { m with
    states := m.states.insert q
    finals := if accepting then m.finals.insert q else m.finals }

@[simp] theorem mem_states_withState {m : Automaton κ τ} {p q : StateId} {accepting : Bool} :
    p ∈ (m.withState q accepting).states ↔ q = p ∨ p ∈ m.states := by
  simp [withState]

@[simp] theorem mem_finals_withState {m : Automaton κ τ} {p q : StateId} {accepting : Bool} :
    p ∈ (m.withState q accepting).finals ↔ (accepting = true ∧ q = p) ∨ p ∈ m.finals := by
  cases accepting <;> simp [withState]

/-- Adds a state under a name of the caller's choice. -/
def addState (q : StateId) (accepting : Bool) : Edit κ τ Unit := do
  if ← Edit.look (·.states.contains q) then
    Edit.refuse (.duplicateState q)
  else
    Edit.change (·.withState q accepting)

/-- The name after the greatest state. -/
def nextFree (m : Automaton κ τ) (ids : IdSpace := .words) : StateId :=
  StateSet.nextFree m.states ids

/-- Adds a state under the name after the greatest one, and answers the name. Nothing is checked: if
the names have gone round and the name is taken, no state comes in. -/
def newState (accepting : Bool) (ids : IdSpace := .words) : Edit κ τ StateId := do
  let q ← Edit.look (·.nextFree ids)
  Edit.change (·.withState q accepting)
  return q

/-! ### Checks -/

/-- Refuses a name that is no state. -/
def requireState (q : StateId) : Edit κ τ Unit := do
  if ← Edit.look (·.states.contains q) then
    pure ()
  else
    Edit.refuse (.unknownState q)

/-- The start state, or the fault that there is none. -/
def start (m : Automaton κ τ) : Except Fault StateId :=
  match m.initial with
  | some q => .ok q
  | none => .error .missingInitialState

/-- Answers the start state, and refuses if there is none. -/
def requireInitial : Edit κ τ StateId := do
  Edit.answer (← Edit.look start)

/-! ### The start state and the final states -/

/-- Makes a state the start state. -/
def setInitial (q : StateId) : Edit κ τ Unit := do
  requireState q
  Edit.change ({ · with initial := some q })

/-- Makes the given states the final ones. -/
def setFinals (finals : StateSet) : Edit κ τ Unit :=
  Edit.change ({ · with finals := finals })

/-! ### Merging -/

/-- The machine with all of `other` added but its start state. -/
def merge [TransOrd κ] (m other : Automaton κ τ) : Automaton κ τ :=
  { m with
    states := m.states ∪ other.states
    alphabet := m.alphabet ∪ other.alphabet
    edges := m.edges ∪ other.edges
    finals := m.finals ∪ other.finals }

@[simp] theorem mem_states_merge [TransOrd κ] {m other : Automaton κ τ} {q : StateId} :
    q ∈ (m.merge other).states ↔ q ∈ m.states ∨ q ∈ other.states :=
  ExtTreeSet.mem_union_iff

@[simp] theorem mem_finals_merge [TransOrd κ] {m other : Automaton κ τ} {q : StateId} :
    q ∈ (m.merge other).finals ↔ q ∈ m.finals ∨ q ∈ other.finals :=
  ExtTreeSet.mem_union_iff

/-- Where both machines have edges for a state, those of the machine taken in are kept. -/
@[simp] theorem edgesFrom?_merge [TransOrd κ] {m other : Automaton κ τ} {q : StateId} :
    (m.merge other).edgesFrom? q = (other.edgesFrom? q).or (m.edgesFrom? q) :=
  ExtTreeMap.getElem?_union

/-- Takes in a machine with other states. Of states that both machines hold, the least one is named
in the refusal. -/
def absorb [TransOrd κ] (other : Automaton κ τ) : Edit κ τ Unit := do
  match ← Edit.look fun m => (m.states ∩ other.states).min? with
  | some clash => Edit.refuse (.duplicateState clash)
  | none => Edit.change (·.merge other)

end Automaton

end RegexMachine
