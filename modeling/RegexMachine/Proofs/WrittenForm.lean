import RegexMachine.Proofs.Compilation
import RegexMachine.Proofs.Expr.Reading

/-!
# RegexMachine.Proofs.WrittenForm

**The written form of an expression tells all but the grouping.** There is no escaping, so a
character that the written form uses itself is mistaken for a mark. Expressions without such
characters are written alike exactly if they are equal up to the grouping of nested concatenations
and of nested unions. So what is written alike has the same words and compiles to the same machine.
-/

namespace RegexMachine

open Std

namespace Expr

variable {e₁ e₂ : Expr}

theorem toString_eq_iff : toString e₁ = toString e₂ ↔ e₁.text = e₂.text :=
  String.ofList_inj

/-- Regrouped expressions compile to one and the same machine. -/
theorem Regrouped.exists_compile_eq (h : Regrouped e₁ e₂) :
    ∃ m, e₁.compile.outcome = .ok m ∧ e₂.compile.outcome = .ok m := by
  obtain ⟨n₁, m₁, -, hrep₁, hok₁, hm₁⟩ := exists_compile e₁
  obtain ⟨n₂, m₂, -, hrep₂, hok₂, hm₂⟩ := exists_compile e₂
  have heq : m₁.renumber = m₂.renumber := by
    refine (hm₁.renumber_eq_iff hm₂).mpr ⟨?_, fun w => ?_⟩
    · rw [hrep₁.alphabet, hrep₂.alphabet, h.chars_eq]
    · rw [Bool.eq_iff_iff, hrep₁.accepts_eq_true_iff, hrep₂.accepts_eq_true_iff, h.matches_iff]
  exact ⟨m₁.renumber, hok₁, heq ▸ hok₂⟩

/-- **The written form is faithful.** Two expressions whose characters are no marks are written
alike exactly if they differ in their grouping only, and then they have the same words and compile
to the same machine. -/
theorem toString_faithful (h₁ : Unmarked e₁) (h₂ : Unmarked e₂) :
    (toString e₁ = toString e₂ ↔ Regrouped e₁ e₂) ∧
      (toString e₁ = toString e₂ → (∀ w, Matches e₁ w ↔ Matches e₂ w) ∧
        ∃ m, e₁.compile.outcome = .ok m ∧ e₂.compile.outcome = .ok m) := by
  have hiff : toString e₁ = toString e₂ ↔ Regrouped e₁ e₂ :=
    toString_eq_iff.trans (text_eq_iff h₁ h₂)
  refine ⟨hiff, fun htext => ?_⟩
  have hgroup := hiff.mp htext
  exact ⟨hgroup.matches_iff, hgroup.exists_compile_eq⟩

/-- `a(b|c)(a*)*`, grouped from the left. -/
def fromLeft : Expr :=
  .concat (.concat (.char 'a') (.union (.char 'b') (.char 'c'))) (.star (.star (.char 'a')))

/-- `a(b|c)(a*)*`, grouped from the right. -/
def fromRight : Expr :=
  .concat (.char 'a') (.concat (.union (.char 'b') (.char 'c')) (.star (.star (.char 'a'))))

/-- `ab|c(a*)*`, which is `fromLeft` with its brackets in another place. -/
def unbracketed : Expr :=
  .union (.concat (.char 'a') (.char 'b')) (.concat (.char 'c') (.star (.star (.char 'a'))))

theorem toString_faithful_fromLeft :
    (∃ m, fromLeft.compile.outcome = .ok m ∧ fromRight.compile.outcome = .ok m) ∧
      ¬ Regrouped fromLeft unbracketed := by
  have hleft : Unmarked fromLeft := by simp [fromLeft, marks]
  have hright : Unmarked fromRight := by simp [fromRight, marks]
  have hunbracketed : Unmarked unbracketed := by simp [unbracketed, marks]
  have hsame : toString fromLeft = toString fromRight := rfl
  have hdiffer : toString fromLeft ≠ toString unbracketed := mt toString_eq_iff.mp (by decide)
  exact ⟨((toString_faithful hleft hright).2 hsame).2,
    mt (toString_faithful hleft hunbracketed).1.mpr hdiffer⟩

/-- A character that is a mark is taken for the mark. -/
example : toString (Expr.char '∅') = toString Expr.empty := rfl

end Expr

end RegexMachine
