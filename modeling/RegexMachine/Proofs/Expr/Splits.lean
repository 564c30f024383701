import RegexMachine.Proofs.Expr.Walk

/-!
# RegexMachine.Proofs.Expr.Splits

**Matching a word by cutting it in two.** `MatchesBySplits` says without rules and without positions
how a word is matched: the word is cut in two, and the parts are matched. A repetition is matched as
a whole, or by cutting off a part in front that is not empty and matching the rest. The rest is
shorter, so an inner expression that matches the empty word does not keep this from ending.

The rules of `Matches` may repeat the empty word as well, and so may the spans of a repetition. That
adds no word: the empty parts can be left out.
-/

namespace RegexMachine.Expr

variable {e : Expr} {w : Word}

/-! ### Cutting words -/

theorem length_lt_of_append {u v w : Word} (hne : u ≠ []) (hw : u ++ v = w) :
    v.length < w.length := by
  have hpos := List.length_pos_iff.mpr hne
  rw [← hw, List.length_append]
  omega

/-- Whether the expression matches a word, by cutting the word in two. -/
def MatchesBySplits : Expr → Word → Prop
  | .empty, _ => False
  | .lambda, w => w = []
  | .char c, w => w = [c]
  | .concat l r, w => ∃ u v, u ++ v = w ∧ MatchesBySplits l u ∧ MatchesBySplits r v
  | .union l r, w => MatchesBySplits l w ∨ MatchesBySplits r w
  | .star e, w => w = [] ∨ MatchesBySplits e w ∨
      ∃ u v, ∃ _ : u ≠ [], ∃ _ : u ++ v = w, MatchesBySplits e u ∧ MatchesBySplits (.star e) v
  | .plus e, w => MatchesBySplits e w ∨
      ∃ u v, ∃ _ : u ≠ [], ∃ _ : u ++ v = w, MatchesBySplits e u ∧ MatchesBySplits (.plus e) v
termination_by e w => (e, w.length)
decreasing_by
  any_goals decreasing_tactic
  -- What is left are the repetitions, matched against the rest of the word.
  all_goals exact .right _ (length_lt_of_append ‹_› ‹_›)

/-! ### The same words as by the rules -/

/-- What is matched by cutting is matched by the rules. -/
theorem matches_of_matchesBySplits (h : MatchesBySplits e w) : Matches e w := by
  fun_induction MatchesBySplits e w with
  | case1 => exact h.elim
  | case2 => exact matches_lambda_iff.mpr h
  | case3 => exact matches_char_iff.mpr h
  | case4 l r w ihl ihr =>
      obtain ⟨u, v, hw, hu, hv⟩ := h
      exact matches_concat_iff.mpr ⟨u, v, hw.symm, ihl u hu, ihr v hv⟩
  | case5 l r w ihl ihr => exact matches_union_iff.mpr (h.imp ihl ihr)
  | case6 e w ihwhole ihfront ihrest =>
      rcases h with rfl | hwhole | ⟨u, v, hne, hw, hu, hv⟩
      · exact .starNil
      · have hone : Matches (.star e) (w ++ []) := .starCons (ihwhole hwhole) .starNil
        rwa [List.append_nil] at hone
      · exact hw ▸ .starCons (ihfront u hu) (ihrest u v hne hw hv)
  | case7 e w ihwhole ihfront ihrest =>
      rcases h with hwhole | ⟨u, v, hne, hw, hu, hv⟩
      · exact .plusOnce (ihwhole hwhole)
      · exact hw ▸ .plusCons (ihfront u hu) (ihrest u v hne hw hv)

/-- What is matched by the rules is matched by cutting. Where a rule repeats the empty word, the
word is matched without it already. -/
theorem matchesBySplits_of_matches (h : Matches e w) : MatchesBySplits e w := by
  induction h with
  | lambda => rw [MatchesBySplits]
  | char c => rw [MatchesBySplits]
  | @concat l r u v _ _ ihu ihv =>
      rw [MatchesBySplits]
      exact ⟨u, v, rfl, ihu, ihv⟩
  | unionLeft _ ih =>
      rw [MatchesBySplits]
      exact Or.inl ih
  | unionRight _ ih =>
      rw [MatchesBySplits]
      exact Or.inr ih
  | starNil =>
      rw [MatchesBySplits]
      exact Or.inl rfl
  | @starCons e u v _ _ ihu ihv =>
      by_cases hne : u = []
      · exact hne ▸ ihv
      · rw [MatchesBySplits]
        exact Or.inr (Or.inr ⟨u, v, hne, rfl, ihu, ihv⟩)
  | plusOnce _ ih =>
      rw [MatchesBySplits]
      exact Or.inl ih
  | @plusCons e u v _ _ ihu ihv =>
      by_cases hne : u = []
      · exact hne ▸ ihv
      · rw [MatchesBySplits]
        exact Or.inr ⟨u, v, hne, rfl, ihu, ihv⟩

theorem matchesBySplits_iff : MatchesBySplits e w ↔ Matches e w :=
  ⟨matches_of_matchesBySplits, matchesBySplits_of_matches⟩

/-! ### Spans -/

/-- **The walk finds exactly the spans whose part of the word is matched by cutting.** So the whole
word is decided as it is by cutting. -/
theorem walkSpans_meets_splits (e : Expr) (word : Word) :
    (∀ i j, ⟨i, j⟩ ∈ walkSpans word e ↔
      i ≤ j ∧ j ≤ word.length ∧ MatchesBySplits e (slice word i j)) ∧
    (e.matchesWord word = true ↔ MatchesBySplits e word) := by
  constructor
  · intro i j
    rw [walkSpans_eq, mem_spans, matchesBySplits_iff]
  · rw [matchesWord_iff, matchesBySplits_iff]

end RegexMachine.Expr
