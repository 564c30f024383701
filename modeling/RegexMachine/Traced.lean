import RegexMachine.Automaton.Edit
import RegexMachine.Record

/-!
# RegexMachine.Traced

**Computations that report.** A `Traced` computation leaves a list of records and either a value or
a fault. One computation after another leaves the records of the first and then those of the second;
after a fault nothing more is done, and the records made before it are kept.
-/

namespace RegexMachine

/-- A value or a fault, and the records made on the way. -/
structure Traced (α : Type) where
  outcome : Except Fault α
  records : List Record

namespace Traced

variable {α β : Type}

instance : Monad Traced where
  pure a := ⟨.ok a, []⟩
  bind x f :=
    match x.outcome with
    | .ok a => ⟨(f a).outcome, x.records ++ (f a).records⟩
    | .error fault => ⟨.error fault, x.records⟩

@[ext] theorem ext {x y : Traced α} (outcome : x.outcome = y.outcome)
    (records : x.records = y.records) : x = y := by
  cases x
  cases y
  simp_all

/-- Makes records and does nothing else. -/
def report (records : List Record) : Traced Unit := ⟨.ok (), records⟩

/-- A computation that makes no record. -/
def silent (outcome : Except Fault α) : Traced α := ⟨outcome, []⟩

@[simp] theorem outcome_pure (a : α) : (pure a : Traced α).outcome = .ok a := rfl

@[simp] theorem records_pure (a : α) : (pure a : Traced α).records = [] := rfl

@[simp] theorem outcome_report (records : List Record) : (report records).outcome = .ok () := rfl

@[simp] theorem records_report (records : List Record) : (report records).records = records := rfl

@[simp] theorem outcome_silent (x : Except Fault α) : (silent x).outcome = x := rfl

@[simp] theorem records_silent (x : Except Fault α) : (silent x).records = [] := rfl

theorem outcome_bind (x : Traced α) (f : α → Traced β) :
    (x >>= f).outcome = x.outcome.bind fun a => (f a).outcome := by
  obtain ⟨_ | _, _⟩ := x <;> rfl

theorem bind_of_ok {x : Traced α} {a : α} (h : x.outcome = .ok a) (f : α → Traced β) :
    x >>= f = ⟨(f a).outcome, x.records ++ (f a).records⟩ := by
  obtain ⟨outcome, records⟩ := x
  subst h
  rfl

theorem bind_of_error {x : Traced α} {fault : Fault} (h : x.outcome = .error fault)
    (f : α → Traced β) : x >>= f = ⟨.error fault, x.records⟩ := by
  obtain ⟨outcome, records⟩ := x
  subst h
  rfl

instance : LawfulMonad Traced :=
  LawfulMonad.mk' _
    (fun x => by
      obtain ⟨_ | _, _⟩ := x
      · rfl
      · exact ext rfl (List.append_nil _))
    (fun _ _ => rfl)
    (fun x f g => by
      obtain ⟨_ | a, records⟩ := x
      · rfl
      · rcases h : f a with ⟨_ | b, more⟩
        · simp [bind, h]
        · simp [bind, h])

end Traced

end RegexMachine
