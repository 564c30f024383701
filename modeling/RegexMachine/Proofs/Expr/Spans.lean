import Mathlib.Logic.Relation
import RegexMachine.Expr.Walk
import RegexMachine.Proofs.Expr.Language

/-!
# RegexMachine.Proofs.Expr.Spans

**The spans of an expression are the places where it matches.** A span is among those of an
expression exactly if it lies inside the word and the part of the word that it marks matches the
expression.

For repetitions this rests on what the rounds of `grow` come to. A round continues only what the
round before it has found, and still everything is found that arises by joining spans any number of
times: what was found earlier has been continued earlier. `Continued` is this invariant.
-/

namespace RegexMachine

open Std Relation

namespace Spans

/-! ### Growing in rounds -/

/-- Some span of `spans` leads from one position to the other. -/
def Step (spans : Spans) (i j : Nat) : Prop :=
  (⟨i, j⟩ : Span) ∈ spans

variable {inner found frontier seed : Spans}

theorem mem_grow_of_mem {hsub : ∀ s ∈ frontier, s ∈ found} {s : Span} (h : s ∈ found) :
    s ∈ grow inner found frontier hsub := by
  fun_induction grow inner found frontier hsub with
  | case1 => exact h
  | case2 _ _ _ _ _ _ ih => exact ih (ExtTreeSet.mem_union_iff.mpr (Or.inl h))

/-- What is grown starts with a span that was there and goes on with spans of `inner`. -/
theorem exists_chain_of_mem_grow {hsub : ∀ s ∈ frontier, s ∈ found} {i k : Nat}
    (h : ⟨i, k⟩ ∈ grow inner found frontier hsub) :
    ∃ j, ⟨i, j⟩ ∈ found ∧ ReflTransGen (Step inner) j k := by
  fun_induction grow inner found frontier hsub with
  | case1 => exact ⟨k, h, .refl⟩
  | case2 found frontier hsub new _ _ ih =>
      obtain ⟨j, hj, hjk⟩ := ih h
      rcases ExtTreeSet.mem_union_iff.mp hj with hj | hj
      · exact ⟨j, hj, hjk⟩
      · obtain ⟨m, hm, hmj⟩ := mem_join.mp (mem_fresh.mp hj).1
        exact ⟨m, hsub _ hm, .head hmj hjk⟩

/-- Continues every span found so far. -/
def extend (inner found : Spans) : Spans :=
  found ∪ join found inner

theorem mem_extend {i k : Nat} : ⟨i, k⟩ ∈ extend inner found ↔
    ⟨i, k⟩ ∈ found ∨ ∃ j, ⟨i, j⟩ ∈ found ∧ Step inner j k := by
  rw [extend, ExtTreeSet.mem_union_iff, mem_join]
  rfl

theorem union_none (found : Spans) : found ∪ ∅ = found :=
  ExtTreeSet.ext_mem fun s => by simp

/-- All that continues a span found so far has been found, but for what continues the frontier. -/
structure Continued (inner found frontier : Spans) : Prop where
  sub : ∀ s ∈ frontier, s ∈ found
  old {i j k : Nat} : ⟨i, j⟩ ∈ found → (⟨i, j⟩ : Span) ∉ frontier → Step inner j k → ⟨i, k⟩ ∈ found

theorem continued_self (inner seed : Spans) : Continued inner seed seed :=
  ⟨fun _ hs => hs, fun hj hnot => absurd hj hnot⟩

/-- What continues the frontier is all that continuing every span would add. -/
theorem Continued.union_fresh (h : Continued inner found frontier) :
    found ∪ fresh inner found frontier = extend inner found := by
  refine ExtTreeSet.ext_mem fun ⟨i, k⟩ => ?_
  rw [ExtTreeSet.mem_union_iff, mem_fresh, mem_join, mem_extend]
  constructor
  · rintro (hfound | ⟨⟨j, hj, hstep⟩, -⟩)
    · exact Or.inl hfound
    · exact Or.inr ⟨j, h.sub _ hj, hstep⟩
  · rintro (hfound | ⟨j, hj, hstep⟩)
    · exact Or.inl hfound
    · by_cases hknown : (⟨i, k⟩ : Span) ∈ found
      · exact Or.inl hknown
      · by_cases hfrontier : (⟨i, j⟩ : Span) ∈ frontier
        · exact Or.inr ⟨⟨j, hfrontier, hstep⟩, hknown⟩
        · exact Or.inl (h.old hj hfrontier hstep)

/-- The spans that a round finds newly are the next frontier. -/
theorem Continued.next (h : Continued inner found frontier) :
    Continued inner (found ∪ fresh inner found frontier) (fresh inner found frontier) where
  sub _ hs := ExtTreeSet.mem_union_iff.mpr (Or.inr hs)
  old {i j k} hj hnot hstep := by
    have hfound := (ExtTreeSet.mem_union_iff.mp hj).resolve_right hnot
    rw [h.union_fresh]
    exact mem_extend.mpr (Or.inr ⟨j, hfound, hstep⟩)

/-- What is grown is closed under continuing. -/
theorem Continued.extend_grow {hsub : ∀ s ∈ frontier, s ∈ found}
    (h : Continued inner found frontier) :
    extend inner (grow inner found frontier hsub) = grow inner found frontier hsub := by
  fun_induction grow inner found frontier hsub with
  | case1 found frontier hsub new hempty =>
      rw [← h.union_fresh]
      show found ∪ new = found
      rw [hempty, union_none]
  | case2 found frontier hsub new _ _ ih => exact ih h.next

theorem extend_chains (seed inner : Spans) :
    extend inner (chains seed inner) = chains seed inner :=
  (continued_self inner seed).extend_grow

/-- **Chains are found without exception.** -/
theorem mem_chains {i k : Nat} : ⟨i, k⟩ ∈ chains seed inner ↔
    ∃ j, ⟨i, j⟩ ∈ seed ∧ ReflTransGen (Step inner) j k := by
  constructor
  · exact exists_chain_of_mem_grow
  · intro h
    obtain ⟨j, hj, hjk⟩ := h
    induction hjk with
    | refl => exact mem_grow_of_mem hj
    | tail _ hstep ih =>
        rw [← extend_chains]
        exact mem_extend.mpr (Or.inr ⟨_, ih, hstep⟩)

theorem mem_plus {i k : Nat} :
    ⟨i, k⟩ ∈ plus inner ↔ TransGen (Step inner) i k := by
  rw [plus, mem_chains, TransGen.head'_iff]
  rfl

theorem mem_star {length i k : Nat} :
    ⟨i, k⟩ ∈ star length inner ↔ (i = k ∧ k ≤ length) ∨ TransGen (Step inner) i k := by
  rw [star, mem_chains]
  simp only [ExtTreeSet.mem_union_iff, mem_empties]
  constructor
  · intro h
    obtain ⟨j, ⟨rfl, hlength⟩ | hij, hjk⟩ := h
    · rcases reflTransGen_iff_eq_or_transGen.mp hjk with rfl | hik
      · exact Or.inl ⟨rfl, hlength⟩
      · exact Or.inr hik
    · exact Or.inr (TransGen.head' hij hjk)
  · intro h
    rcases h with ⟨rfl, hlength⟩ | hik
    · exact ⟨i, Or.inl ⟨rfl, hlength⟩, .refl⟩
    · obtain ⟨j, hij, hjk⟩ := TransGen.head'_iff.mp hik
      exact ⟨j, Or.inr hij, hjk⟩

end Spans

/-! ### Parts of a word -/

/-- The part of a word from one position up to, and not including, another one. -/
def slice (word : Word) (i j : Nat) : Word := (word.drop i).take (j - i)

section Slice

variable {word u v : Word} {i j m : Nat}

theorem slice_whole (word : Word) : slice word 0 word.length = word := by
  rw [slice, List.drop_zero, Nat.sub_zero, List.take_length]

theorem length_slice (hij : i ≤ j) (hj : j ≤ word.length) : (slice word i j).length = j - i := by
  rw [slice, List.length_take, List.length_drop]
  omega

theorem slice_append (him : i ≤ m) (hmj : m ≤ j) :
    slice word i m ++ slice word m j = slice word i j := by
  have hsum : j - i = (m - i) + (j - m) := by omega
  have hdrop : (word.drop i).drop (m - i) = word.drop m := by
    rw [List.drop_drop, Nat.add_sub_cancel' him]
  rw [slice, slice, slice, hsum, List.take_add, hdrop]

/-- Where a part of a word falls into two, there is a position between them. -/
theorem exists_slice_of_eq_append (hij : i ≤ j) (hj : j ≤ word.length)
    (h : slice word i j = u ++ v) :
    ∃ m, i ≤ m ∧ m ≤ j ∧ slice word i m = u ∧ slice word m j = v := by
  have hlength : u.length + v.length = j - i := by
    rw [← List.length_append, ← h, length_slice hij hj]
  have hsplit : slice word i (i + u.length) ++ slice word (i + u.length) j = u ++ v := by
    rw [slice_append (Nat.le_add_right _ _) (by omega), h]
  have hu : (slice word i (i + u.length)).length = u.length := by
    rw [length_slice (Nat.le_add_right _ _) (by omega), Nat.add_sub_cancel_left]
  obtain ⟨hu, hv⟩ := List.append_inj hsplit hu
  exact ⟨i + u.length, Nat.le_add_right _ _, by omega, hu, hv⟩

theorem slice_eq_nil_iff (hij : i ≤ j) (hj : j ≤ word.length) : slice word i j = [] ↔ i = j := by
  rw [← List.length_eq_zero_iff, length_slice hij hj]
  omega

theorem slice_eq_singleton_iff {c : Char} (hij : i ≤ j) (hj : j ≤ word.length) :
    slice word i j = [c] ↔ word[i]? = some c ∧ j = i + 1 := by
  constructor
  · intro h
    have hlength := length_slice hij hj
    rw [h, List.length_singleton] at hlength
    have hi : i < word.length := by omega
    refine ⟨?_, by omega⟩
    rw [slice, ← hlength, List.drop_eq_getElem_cons hi, List.take_one, List.head?_cons] at h
    rw [List.getElem?_eq_getElem hi]
    exact congrArg some (List.singleton_inj.mp h)
  · intro h
    obtain ⟨hget, rfl⟩ := h
    obtain ⟨hi, rfl⟩ := List.getElem?_eq_some_iff.mp hget
    rw [slice, Nat.add_sub_cancel_left, List.drop_eq_getElem_cons hi, List.take_one,
      List.head?_cons, Option.toList_some]

end Slice

/-! ### Where an expression matches -/

namespace Expr

variable {word : Word} {e : Expr} {inner : Spans}

/-- The spans in `inner` are those at which the expression matches. -/
def Located (word : Word) (e : Expr) (inner : Spans) : Prop :=
  ∀ i j, ⟨i, j⟩ ∈ inner ↔ i ≤ j ∧ j ≤ word.length ∧ Matches e (slice word i j)

/-- Spans joined end to start mark words of the expression in a row. -/
theorem Located.transGen_iff (h : Located word e inner) {i k : Nat} :
    TransGen (Spans.Step inner) i k ↔ i ≤ k ∧ k ≤ word.length ∧
      ∃ ws : List Word, (∀ v ∈ ws, Matches e v) ∧ ws ≠ [] ∧ ws.flatten = slice word i k := by
  constructor
  · intro hchain
    induction hchain using TransGen.head_induction_on with
    | single hstep =>
        obtain ⟨hik, hk, hmatch⟩ := (h _ _).mp hstep
        exact ⟨hik, hk, [_], by simpa using hmatch, List.cons_ne_nil _ _, List.append_nil _⟩
    | head hstep _ ih =>
        obtain ⟨hij, _, hmatch⟩ := (h _ _).mp hstep
        obtain ⟨hjk, hk, ws, hws, -, heq⟩ := ih
        refine ⟨Nat.le_trans hij hjk, hk, _ :: ws, List.forall_mem_cons.mpr ⟨hmatch, hws⟩,
          List.cons_ne_nil _ _, ?_⟩
        rw [List.flatten_cons, heq, slice_append hij hjk]
  · intro hwords
    obtain ⟨hik, hk, ws, hws, hne, heq⟩ := hwords
    induction ws generalizing i with
    | nil => exact absurd rfl hne
    | cons u ws ih =>
        obtain ⟨hu, hothers⟩ := List.forall_mem_cons.mp hws
        rw [List.flatten_cons] at heq
        obtain ⟨m, him, hmk, rfl, hrest⟩ := exists_slice_of_eq_append hik hk heq.symm
        have hstep : Spans.Step inner i m := (h i m).mpr ⟨him, Nat.le_trans hmk hk, hu⟩
        by_cases hnil : ws = []
        · -- The last word ends where the part ends.
          subst hnil
          have hmk : m = k := (slice_eq_nil_iff hmk hk).mp hrest
          exact .single (hmk ▸ hstep)
        · exact .head hstep (ih hmk hothers hnil hrest.symm)

/-! One lemma for each form of expression says that its operation on spans keeps them located; the
induction over the expression then only picks the lemma. -/

theorem located_empty (word : Word) : Located word .empty ∅ := by
  intro i j
  constructor
  · intro h
    exact absurd h ExtTreeSet.not_mem_empty
  · rintro ⟨-, -, hmatch⟩
    cases hmatch

theorem located_lambda (word : Word) : Located word .lambda (Spans.empties word.length) := by
  intro i j
  rw [Spans.mem_empties, matches_lambda_iff]
  show i = j ∧ j ≤ word.length ↔ _
  constructor
  · rintro ⟨rfl, hlength⟩
    exact ⟨Nat.le_refl i, hlength, (slice_eq_nil_iff (Nat.le_refl i) hlength).mpr rfl⟩
  · rintro ⟨hij, hj, hnil⟩
    exact ⟨(slice_eq_nil_iff hij hj).mp hnil, hj⟩

theorem located_char (word : Word) (c : Char) : Located word (.char c) (Spans.ofChar word c) := by
  intro i j
  rw [Spans.mem_ofChar, matches_char_iff]
  show word[i]? = some c ∧ j = i + 1 ↔ _
  constructor
  · rintro ⟨hget, rfl⟩
    have hi : i < word.length := (List.getElem?_eq_some_iff.mp hget).1
    exact ⟨Nat.le_succ i, hi, (slice_eq_singleton_iff (Nat.le_succ i) hi).mpr ⟨hget, rfl⟩⟩
  · rintro ⟨hij, hj, hone⟩
    exact (slice_eq_singleton_iff hij hj).mp hone

theorem Located.join {l r : Expr} {left right : Spans} (hl : Located word l left)
    (hr : Located word r right) : Located word (.concat l r) (Spans.join left right) := by
  intro i j
  rw [Spans.mem_join, matches_concat_iff]
  constructor
  · rintro ⟨m, hleft, hright⟩
    obtain ⟨him, _, hu⟩ := (hl i m).mp hleft
    obtain ⟨hmj, hj, hv⟩ := (hr m j).mp hright
    exact ⟨Nat.le_trans him hmj, hj, _, _, (slice_append him hmj).symm, hu, hv⟩
  · rintro ⟨hij, hj, u, v, heq, hu, hv⟩
    obtain ⟨m, him, hmj, rfl, rfl⟩ := exists_slice_of_eq_append hij hj heq
    exact ⟨m, (hl i m).mpr ⟨him, Nat.le_trans hmj hj, hu⟩, (hr m j).mpr ⟨hmj, hj, hv⟩⟩

theorem Located.union {l r : Expr} {left right : Spans} (hl : Located word l left)
    (hr : Located word r right) : Located word (.union l r) (left ∪ right) := by
  intro i j
  rw [ExtTreeSet.mem_union_iff, hl, hr, matches_union_iff, ← and_or_left, ← and_or_left]

theorem Located.plus (h : Located word e inner) : Located word (.plus e) (Spans.plus inner) := by
  intro i k
  rw [Spans.mem_plus, h.transGen_iff, matches_plus_iff]

theorem Located.star (h : Located word e inner) :
    Located word (.star e) (Spans.star word.length inner) := by
  intro i k
  rw [Spans.mem_star, h.transGen_iff, matches_star_iff]
  constructor
  · rintro (⟨rfl, hlength⟩ | ⟨hik, hk, ws, hws, -, heq⟩)
    · refine ⟨Nat.le_refl i, hlength, [], by simp, ?_⟩
      rw [(slice_eq_nil_iff (Nat.le_refl i) hlength).mpr rfl, List.flatten_nil]
    · exact ⟨hik, hk, ws, hws, heq⟩
  · rintro ⟨hik, hk, ws, hws, heq⟩
    by_cases hnil : ws = []
    · subst hnil
      exact Or.inl ⟨(slice_eq_nil_iff hik hk).mp heq.symm, hk⟩
    · exact Or.inr ⟨hik, hk, ws, hws, hnil, heq⟩

theorem located_spans (word : Word) (e : Expr) : Located word e (spans word e) := by
  induction e with
  | empty => exact located_empty word
  | lambda => exact located_lambda word
  | char c => exact located_char word c
  | concat l r ihl ihr => exact ihl.join ihr
  | union l r ihl ihr => exact ihl.union ihr
  | star e ih => exact ih.star
  | plus e ih => exact ih.plus

/-- **A span is found exactly if the part of the word that it marks matches.** -/
theorem mem_spans {i j : Nat} :
    ⟨i, j⟩ ∈ spans word e ↔ i ≤ j ∧ j ≤ word.length ∧ Matches e (slice word i j) :=
  located_spans word e i j

end Expr

end RegexMachine
