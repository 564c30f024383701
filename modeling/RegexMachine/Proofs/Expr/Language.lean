import Mathlib.Computability.Language
import RegexMachine.Expr.Basic

/-!
# RegexMachine.Proofs.Expr.Language

**How a word matches, read off the form of the expression.** A repetition is matched by the words
that fall into a list of words of the inner expression. Said in this way, what machines and spans do
can be compared with it without going through the rules one by one.

The rules are themselves compared with the algebra of languages: `language` reads every form of
expression as the operation on sets of words that it stands for.
-/

namespace RegexMachine.Expr

open Computability

variable {e : Expr} {w : Word}

theorem matches_lambda_iff : Matches .lambda w ↔ w = [] := by
  constructor
  · intro h
    cases h
    rfl
  · rintro rfl
    exact .lambda

theorem matches_char_iff {c : Char} : Matches (.char c) w ↔ w = [c] := by
  constructor
  · intro h
    cases h
    rfl
  · rintro rfl
    exact .char c

theorem matches_concat_iff {l r : Expr} :
    Matches (.concat l r) w ↔ ∃ u v, w = u ++ v ∧ Matches l u ∧ Matches r v := by
  constructor
  · intro h
    cases h with
    | concat hu hv => exact ⟨_, _, rfl, hu, hv⟩
  · intro h
    obtain ⟨u, v, rfl, hu, hv⟩ := h
    exact .concat hu hv

theorem matches_union_iff {l r : Expr} : Matches (.union l r) w ↔ Matches l w ∨ Matches r w := by
  constructor
  · intro h
    cases h with
    | unionLeft h => exact Or.inl h
    | unionRight h => exact Or.inr h
  · intro h
    exact h.elim .unionLeft .unionRight

theorem matches_star_iff :
    Matches (.star e) w ↔ ∃ ws : List Word, (∀ v ∈ ws, Matches e v) ∧ ws.flatten = w := by
  constructor
  · intro h
    generalize hs : Expr.star e = s at h
    induction h with
    | starNil => exact ⟨[], by simp, rfl⟩
    | @starCons _ u _ hu _ _ ih =>
        cases hs
        obtain ⟨ws, hws, rfl⟩ := ih rfl
        exact ⟨u :: ws, List.forall_mem_cons.mpr ⟨hu, hws⟩, rfl⟩
    | _ => cases hs
  · intro h
    obtain ⟨ws, hws, rfl⟩ := h
    induction ws with
    | nil => exact .starNil
    | cons u ws ih =>
        obtain ⟨hu, hws⟩ := List.forall_mem_cons.mp hws
        exact .starCons hu (ih hws)

theorem matches_plus_iff : Matches (.plus e) w ↔
    ∃ ws : List Word, (∀ v ∈ ws, Matches e v) ∧ ws ≠ [] ∧ ws.flatten = w := by
  constructor
  · intro h
    generalize hp : Expr.plus e = p at h
    induction h with
    | @plusOnce _ w hw _ =>
        cases hp
        exact ⟨[w], by simpa using hw, List.cons_ne_nil _ _, List.append_nil w⟩
    | @plusCons _ u _ hu _ _ ih =>
        cases hp
        obtain ⟨ws, hws, -, rfl⟩ := ih rfl
        exact ⟨u :: ws, List.forall_mem_cons.mpr ⟨hu, hws⟩, List.cons_ne_nil _ _, rfl⟩
    | _ => cases hp
  · intro h
    obtain ⟨ws, hws, hne, rfl⟩ := h
    induction ws with
    | nil => exact absurd rfl hne
    | cons u ws ih =>
        obtain ⟨hu, hws⟩ := List.forall_mem_cons.mp hws
        cases ws with
        | nil =>
            rw [List.flatten_cons, List.flatten_nil, List.append_nil]
            exact .plusOnce hu
        | cons v ws => exact .plusCons hu (ih hws (List.cons_ne_nil _ _))

/-- One or more repetitions are one, followed by any number of them. -/
theorem matches_plus_iff_concat_star :
    Matches (.plus e) w ↔ Matches (.concat e (.star e)) w := by
  rw [matches_plus_iff, matches_concat_iff]
  constructor
  · intro h
    obtain ⟨ws, hws, hne, rfl⟩ := h
    obtain ⟨u, ws, rfl⟩ := List.exists_cons_of_ne_nil hne
    obtain ⟨hu, hws⟩ := List.forall_mem_cons.mp hws
    exact ⟨u, ws.flatten, List.flatten_cons, hu, matches_star_iff.mpr ⟨ws, hws, rfl⟩⟩
  · intro h
    obtain ⟨u, v, rfl, hu, hv⟩ := h
    obtain ⟨ws, hws, rfl⟩ := matches_star_iff.mp hv
    exact ⟨u :: ws, List.forall_mem_cons.mpr ⟨hu, hws⟩, List.cons_ne_nil _ _, List.flatten_cons⟩

/-! ### The algebra of languages -/

/-- The language of an expression: nothing, the empty word, one character, products, unions, and the
products of any number of words or of at least one word. -/
def language : Expr → Language Char
  | .empty => 0
  | .lambda => 1
  | .char c => {[c]}
  | .concat l r => language l * language r
  | .union l r => language l + language r
  | .star e => (language e)∗
  | .plus e => language e * (language e)∗

section Operations

variable {l r : Expr} {L R : Language Char} (hl : ∀ {u : Word}, u ∈ L ↔ Matches l u)
  (hr : ∀ {v : Word}, v ∈ R ↔ Matches r v)

include hl hr in
theorem mem_mul_iff : w ∈ L * R ↔ Matches (.concat l r) w := by
  rw [Language.mem_mul, matches_concat_iff]
  constructor
  · rintro ⟨u, hu, v, hv, rfl⟩
    exact ⟨u, v, rfl, hl.mp hu, hr.mp hv⟩
  · rintro ⟨u, v, rfl, hu, hv⟩
    exact ⟨u, hl.mpr hu, v, hr.mpr hv, rfl⟩

include hl in
theorem mem_kstar_iff : w ∈ L∗ ↔ Matches (.star l) w := by
  rw [Language.mem_kstar, matches_star_iff]
  constructor
  · rintro ⟨ws, rfl, hws⟩
    exact ⟨ws, fun v hv => hl.mp (hws v hv), rfl⟩
  · rintro ⟨ws, hws, rfl⟩
    exact ⟨ws, rfl, fun v hv => hl.mpr (hws v hv)⟩

end Operations

/-- **The rules derive exactly the words of the language.** -/
theorem mem_language_iff : w ∈ language e ↔ Matches e w := by
  induction e generalizing w with
  | empty =>
      constructor
      · intro h
        exact absurd h (Language.notMem_zero w)
      · intro h
        cases h
  | lambda => rw [language, Language.mem_one, matches_lambda_iff]
  | char c => exact matches_char_iff.symm
  | concat l r ihl ihr => exact mem_mul_iff ihl ihr
  | union l r ihl ihr => rw [language, Language.mem_add, ihl, ihr, matches_union_iff]
  | star e ih => exact mem_kstar_iff ih
  | plus e ih =>
      rw [matches_plus_iff_concat_star]
      exact mem_mul_iff ih (mem_kstar_iff ih)

end RegexMachine.Expr
