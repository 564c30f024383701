import Mathlib.Order.Interval.Set.Nat
import RegexMachine.Proofs.Compilation
import RegexMachine.Proofs.DFA.Residual
import RegexMachine.Proofs.Expr.Grouping

/-!
# RegexMachine.Proofs.Literal

**The expression that spells out a text.** The text is its only word, and it is written as the text.

A word over the characters of the text may be a beginning of it, and then nothing but the rest of
the text leads on. Otherwise nothing does. So the compiled machine has a state for every rest of the
text and, as soon as there are characters at all, one more that cannot be left.
-/

namespace RegexMachine

open Std

/-! ### The left quotients of a single word -/

section Quotients

variable {t u : Word}

theorem leftQuotient_singleton_append (u v : Word) :
    ({u ++ v} : Language Char).leftQuotient u = {v} := by
  ext w
  exact List.append_right_inj u

theorem leftQuotient_singleton_eq_zero (h : ¬ u <+: t) :
    ({t} : Language Char).leftQuotient u = 0 := by
  ext w
  exact iff_of_false (fun hw => h ⟨w, hw⟩) (Language.notMem_zero w)

/-- What leads on from a beginning of the word is a rest of it, and all else leads nowhere. -/
theorem image_leftQuotient_singleton (hne : t ≠ []) :
    ({t} : Language Char).leftQuotient '' {u | ∀ c ∈ u, c ∈ t} =
      insert 0 ((fun i => ({t.drop i} : Language Char)) '' Set.Iic t.length) := by
  ext K
  constructor
  · intro hK
    obtain ⟨u, -, rfl⟩ := hK
    by_cases hprefix : u <+: t
    · obtain ⟨v, rfl⟩ := hprefix
      refine Or.inr ⟨u.length, ?_, ?_⟩
      · simp
      · simp only [List.drop_left, leftQuotient_singleton_append]
    · exact Or.inl (leftQuotient_singleton_eq_zero hprefix)
  · intro hK
    rcases hK with rfl | ⟨i, -, rfl⟩
    · obtain ⟨c, hc⟩ := List.exists_mem_of_ne_nil t hne
      refine ⟨t ++ [c], fun b hb => ?_, leftQuotient_singleton_eq_zero fun h => ?_⟩
      · rcases List.mem_append.mp hb with hb | hb
        · exact hb
        · exact List.mem_singleton.mp hb ▸ hc
      · have hlength := h.length_le
        simp at hlength
    · refine ⟨t.take i, fun c hc => List.mem_of_mem_take hc, ?_⟩
      have hsplit := leftQuotient_singleton_append (t.take i) (t.drop i)
      rwa [List.take_append_drop] at hsplit

theorem ncard_leftQuotient_singleton (t : Word) :
    (({t} : Language Char).leftQuotient '' {u | ∀ c ∈ u, c ∈ t}).ncard =
      if t = [] then 1 else t.length + 2 := by
  split
  · next hnil =>
      subst hnil
      have honly : {u : Word | ∀ c ∈ u, c ∈ ([] : Word)} = {[]} := by
        ext u
        simp [List.eq_nil_iff_forall_not_mem]
      rw [honly, Set.image_singleton, Set.ncard_singleton]
  · next hne =>
      have hinj : Set.InjOn (fun i => ({t.drop i} : Language Char)) (Set.Iic t.length) := by
        intro i hi j hj heq
        have hdrop : t.drop i = t.drop j := Set.singleton_injective heq
        have hlength := congrArg List.length hdrop
        rw [List.length_drop, List.length_drop] at hlength
        rw [Set.mem_Iic] at hi hj
        omega
      have hzero : (0 : Language Char) ∉
          (fun i => ({t.drop i} : Language Char)) '' Set.Iic t.length := by
        rintro ⟨i, -, heq⟩
        exact Set.singleton_ne_empty _ heq
      rw [image_leftQuotient_singleton hne,
        Set.ncard_insert_of_notMem hzero ((Set.finite_Iic _).image _), hinj.ncard_image,
        Set.ncard_Iic_nat]

/-- Only what is left after the whole word holds the empty word. -/
theorem ncard_leftQuotient_singleton_final (t : Word) :
    {K ∈ ({t} : Language Char).leftQuotient '' {u | ∀ c ∈ u, c ∈ t} | [] ∈ K}.ncard = 1 := by
  rw [Set.ncard_eq_one]
  refine ⟨({t} : Language Char).leftQuotient t, ?_⟩
  ext K
  constructor
  · intro hK
    obtain ⟨⟨u, -, rfl⟩, hnil⟩ := hK
    have hu : u ++ [] = t := hnil
    rw [List.append_nil] at hu
    rw [hu]
    rfl
  · rintro rfl
    exact ⟨⟨t, fun _ hc => hc, rfl⟩, List.append_nil t⟩

end Quotients

/-! ### Spelling out a text -/

namespace Expr

variable {t w : Word}

theorem matches_literal_iff : Matches (literal t) w ↔ w = t := by
  fun_induction literal t generalizing w with
  | case1 => exact matches_lambda_iff
  | case2 c => exact matches_char_iff
  | case3 c rest _ ih =>
      rw [matches_concat_iff]
      simp only [matches_char_iff, ih]
      constructor
      · rintro ⟨_, _, rfl, rfl, rfl⟩
        rfl
      · rintro rfl
        exact ⟨[c], rest, rfl, rfl, rfl⟩

theorem mem_chars_literal {c : Char} : c ∈ (literal t).chars ↔ c ∈ t := by
  fun_induction literal t with
  | case1 => simp [chars]
  | case2 b => simp [chars, @eq_comm _ c]
  | case3 b rest _ ih => simp [chars, ih, @eq_comm _ c]

/-- No brackets are needed where a text goes on. -/
theorem one_le_precedence_literal (t : Word) : 1 ≤ (literal t).precedence := by
  fun_induction literal t <;> simp [precedence]

theorem text_literal (t : Word) : (literal t).text = if t = [] then ['λ'] else t := by
  fun_induction literal t with
  | case1 => rfl
  | case2 c => rfl
  | case3 c rest hne ih =>
      rw [text, bracket_of_le (one_le_precedence_literal rest), ih, if_neg hne]
      rfl

end Expr

/-- **A text compiles to the machine that follows it.** The text alone is accepted, whatever
characters it has, and the expression is written as the text. There is one state for every rest of
the text and one for everything else, or just one for the empty text. -/
theorem Regex.ofExpr_literal (t : Word) : ∃ r, (ofExpr (.literal t)).outcome = .ok r ∧
    (∀ w, r.isMatch w = true ↔ w = t) ∧
    toString r = String.ofList (if t = [] then ['λ'] else t) ∧
    r.machine.stateCount = (if t = [] then 1 else t.length + 2) ∧ r.machine.finals.size = 1 := by
  obtain ⟨n, m, -, hrep, hok, hm⟩ := Expr.exists_compile (.literal t)
  have hwf := hm.smallest.wellFormed
  have haccepts : ∀ w, DFA.accepts m w = true ↔ w ∈ ({t} : Language Char) := fun w => by
    rw [hm.accepts, hrep.accepts_eq_true_iff, Expr.matches_literal_iff]
    rfl
  have halphabet : {u : Word | ∀ c ∈ u, c ∈ m.alphabet} = {u | ∀ c ∈ u, c ∈ t} := by
    simp only [hm.alphabet, hrep.alphabet, Expr.mem_chars_literal]
  refine ⟨⟨.literal t, m.renumber⟩, ?_, fun w => ?_, ?_, ?_, ?_⟩
  · rw [ofExpr, Traced.bind_of_ok hok]
    rfl
  · rw [isMatch, DFA.accepts_renumber hwf, haccepts]
    rfl
  · exact congrArg String.ofList (Expr.text_literal t)
  · rw [Automaton.stateCount_renumber hwf, hm.smallest.stateCount_eq haccepts, halphabet,
      ncard_leftQuotient_singleton]
  · rw [Automaton.renumber_eq_relabel, Automaton.size_finals_relabel hwf
      (Automaton.apart_number hwf), hm.smallest.size_finals haccepts, halphabet,
      ncard_leftQuotient_singleton_final]

/-- A character that comes twice does not save a state. -/
example : (Expr.literal ['*', '*']).compile.outcome.toOption.map Automaton.stateCount = some 4 := by
  cbv

end RegexMachine
