import RegexMachine.Proofs.Expr.Language

/-!
# RegexMachine.Proofs.Expr.Grouping

**Expressions that differ in their grouping only.** Three expressions joined one after the other can
be grouped from the left or from the right, and so can three alternatives. `Regrouped` relates the
expressions that such steps lead to, made anywhere in the tree and any number of times.

Grouping is what the written form leaves out: regrouped expressions are written alike. They have the
same characters and the same words as well, since products and unions of languages are associative.
-/

namespace RegexMachine.Expr

open Std

/-- The two expressions are equal up to the grouping of nested concatenations and of nested
unions. -/
inductive Regrouped : Expr → Expr → Prop
  /-- No step at all. -/
  | refl (e : Expr) : Regrouped e e
  /-- Every step can be taken back. -/
  | symm {e₁ e₂ : Expr} : Regrouped e₁ e₂ → Regrouped e₂ e₁
  /-- One step after the other. -/
  | trans {e₁ e₂ e₃ : Expr} : Regrouped e₁ e₂ → Regrouped e₂ e₃ → Regrouped e₁ e₃
  /-- Concatenations are grouped from the right instead of from the left. -/
  | concatAssoc (a b c : Expr) :
      Regrouped (.concat (.concat a b) c) (.concat a (.concat b c))
  /-- Unions are grouped from the right instead of from the left. -/
  | unionAssoc (a b c : Expr) : Regrouped (.union (.union a b) c) (.union a (.union b c))
  /-- Steps inside a concatenation. -/
  | concat {l l' r r' : Expr} :
      Regrouped l l' → Regrouped r r' → Regrouped (.concat l r) (.concat l' r')
  /-- Steps inside a union. -/
  | union {l l' r r' : Expr} :
      Regrouped l l' → Regrouped r r' → Regrouped (.union l r) (.union l' r')
  /-- Steps inside a repetition. -/
  | star {e e' : Expr} : Regrouped e e' → Regrouped (.star e) (.star e')
  /-- Steps inside a repetition. -/
  | plus {e e' : Expr} : Regrouped e e' → Regrouped (.plus e) (.plus e')

/-! ### Brackets -/

/-- An operand that binds tightly enough is written without brackets. -/
theorem bracket_of_le {least : Nat} {e : Expr} (h : least ≤ e.precedence) (written : List Char) :
    bracket least e written = written :=
  if_neg (Nat.not_lt.mpr h)

/-- An operand that binds too loosely is written in brackets. -/
theorem bracket_of_lt {least : Nat} {e : Expr} (h : e.precedence < least) (written : List Char) :
    bracket least e written = '(' :: written ++ [')'] :=
  if_pos h

/-- The sides of a union need no brackets. -/
theorem bracket_zero (e : Expr) (written : List Char) : bracket 0 e written = written :=
  bracket_of_le (Nat.zero_le _) written

/-- A concatenation inside another one needs no brackets. -/
theorem bracket_one_concat (l r : Expr) (written : List Char) :
    bracket 1 (.concat l r) written = written :=
  bracket_of_le (Nat.le_refl _) written

namespace Regrouped

variable {e₁ e₂ : Expr}

theorem precedence_eq (h : Regrouped e₁ e₂) : e₁.precedence = e₂.precedence := by
  induction h with
  | refl => rfl
  | symm _ ih => exact ih.symm
  | trans _ _ ih ih' => exact ih.trans ih'
  | concatAssoc | unionAssoc | concat | union | star | plus => rfl

/-- Regrouped operands are put in brackets in the same places. -/
theorem bracket_eq (h : Regrouped e₁ e₂) {t₁ t₂ : List Char} (ht : t₁ = t₂) (least : Nat) :
    bracket least e₁ t₁ = bracket least e₂ t₂ := by
  rw [bracket, bracket, h.precedence_eq, ht]

/-- **Regrouped expressions are written alike.** -/
theorem text_eq (h : Regrouped e₁ e₂) : e₁.text = e₂.text := by
  induction h with
  | refl => rfl
  | symm _ ih => exact ih.symm
  | trans _ _ ih ih' => exact ih.trans ih'
  | concatAssoc a b c => simp only [text, bracket_one_concat, List.append_assoc]
  | unionAssoc a b c => simp only [text, bracket_zero, List.append_assoc, List.cons_append]
  | concat hl hr ihl ihr => rw [text, text, hl.bracket_eq ihl, hr.bracket_eq ihr]
  | union hl hr ihl ihr => rw [text, text, hl.bracket_eq ihl, hr.bracket_eq ihr]
  | star h ih => rw [text, text, h.bracket_eq ih]
  | plus h ih => rw [text, text, h.bracket_eq ih]

theorem chars_eq (h : Regrouped e₁ e₂) : e₁.chars = e₂.chars := by
  have assoc : ∀ s t u : ExtTreeSet Char, s ∪ t ∪ u = s ∪ (t ∪ u) := fun s t u =>
    ExtTreeSet.ext_mem fun c => by simp only [ExtTreeSet.mem_union_iff, or_assoc]
  induction h with
  | refl => rfl
  | symm _ ih => exact ih.symm
  | trans _ _ ih ih' => exact ih.trans ih'
  | concatAssoc a b c => exact assoc a.chars b.chars c.chars
  | unionAssoc a b c => exact assoc a.chars b.chars c.chars
  | concat _ _ ihl ihr => rw [chars, chars, ihl, ihr]
  | union _ _ ihl ihr => rw [chars, chars, ihl, ihr]
  | star _ ih => exact ih
  | plus _ ih => exact ih

theorem language_eq (h : Regrouped e₁ e₂) : e₁.language = e₂.language := by
  induction h with
  | refl => rfl
  | symm _ ih => exact ih.symm
  | trans _ _ ih ih' => exact ih.trans ih'
  | concatAssoc a b c => exact mul_assoc a.language b.language c.language
  | unionAssoc a b c => exact add_assoc a.language b.language c.language
  | concat _ _ ihl ihr => rw [language, language, ihl, ihr]
  | union _ _ ihl ihr => rw [language, language, ihl, ihr]
  | star _ ih => rw [language, language, ih]
  | plus _ ih => rw [language, language, ih]

theorem matches_iff (h : Regrouped e₁ e₂) (w : Word) : Matches e₁ w ↔ Matches e₂ w := by
  rw [← mem_language_iff, ← mem_language_iff, h.language_eq]

end Regrouped

end RegexMachine.Expr
