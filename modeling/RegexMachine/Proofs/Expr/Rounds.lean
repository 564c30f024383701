import Mathlib.Logic.Function.Iterate
import RegexMachine.Proofs.Expr.Spans

/-!
# RegexMachine.Proofs.Expr.Rounds

**Continuing only what is new loses nothing.** `chains` grows a set of spans in rounds, and a round
continues only the spans that the round before it has found. Compared with rounds that continue
every span found so far, nothing is lost: after the same number of rounds the same spans are found,
because what was found earlier has been continued earlier. So both come to the same set, which is
closed under continuing.

The rounds come to an end. Every round but the last finds a span that was not found before, which
starts where one of the seed starts and stops where one of `inner` stops.
-/

namespace RegexMachine

open Std Relation

namespace Spans

variable {inner found frontier seed : Spans}

/-! ### A round -/

/-- Takes spans up one after another: all that is found then, and those that were new. -/
def takeUp (found : Spans) : List Span → Spans × Spans
  | [] => (found, ∅)
  | s :: rest =>
      if s ∈ found then takeUp found rest
      else
        let (all, new) := takeUp (found.insert s) rest
        (all, new.insert s)

/-- What has been found so far, and the spans to be continued: continues them by `inner`. -/
def round (inner : Spans) : Spans × Spans → Spans × Spans
  | (found, frontier) => takeUp found (join frontier inner).toList

theorem mem_takeUp_fst {xs : List Span} {t : Span} :
    t ∈ (takeUp found xs).1 ↔ t ∈ found ∨ t ∈ xs := by
  induction xs generalizing found with
  | nil => simp [takeUp]
  | cons s xs ih =>
      rw [takeUp]
      split
      · next hs =>
          rw [ih, List.mem_cons]
          constructor
          · exact Or.imp_right Or.inr
          · rintro (ht | rfl | ht)
            · exact Or.inl ht
            · exact Or.inl hs
            · exact Or.inr ht
      · show t ∈ (takeUp (found.insert s) xs).1 ↔ _
        rw [ih, List.mem_cons, ExtTreeSet.mem_insert, LawfulEqCmp.compare_eq_iff_eq, eq_comm,
          or_assoc, or_left_comm]

theorem mem_takeUp_snd {xs : List Span} {t : Span} :
    t ∈ (takeUp found xs).2 ↔ t ∈ xs ∧ t ∉ found := by
  induction xs generalizing found with
  | nil => simp [takeUp]
  | cons s xs ih =>
      rw [takeUp]
      split
      · next hs =>
          rw [ih, List.mem_cons]
          constructor
          · exact fun h => ⟨Or.inr h.1, h.2⟩
          · rintro ⟨rfl | ht, hnot⟩
            · exact absurd hs hnot
            · exact ⟨ht, hnot⟩
      · next hs =>
          show t ∈ (takeUp (found.insert s) xs).2.insert s ↔ _
          rw [ExtTreeSet.mem_insert, ih, List.mem_cons, ExtTreeSet.mem_insert,
            LawfulEqCmp.compare_eq_iff_eq]
          by_cases hst : s = t
          · subst hst
            simp [hs]
          · simp [hst, Ne.symm hst]

theorem round_eq (inner found frontier : Spans) : round inner (found, frontier) =
    (found ∪ fresh inner found frontier, fresh inner found frontier) := by
  refine Prod.ext (ExtTreeSet.ext_mem fun s => ?_) (ExtTreeSet.ext_mem fun s => ?_)
  · show s ∈ (takeUp found _).1 ↔ _
    rw [mem_takeUp_fst, ExtTreeSet.mem_toList, ExtTreeSet.mem_union_iff, mem_fresh]
    by_cases hs : s ∈ found
    · simp [hs]
    · simp [hs]
  · show s ∈ (takeUp found _).2 ↔ _
    rw [mem_takeUp_snd, ExtTreeSet.mem_toList, mem_fresh]

/-! ### Round by round -/

/-- After the same number of rounds the same spans have been found. -/
theorem Continued.iterate_round (h : Continued inner found frontier) (k : Nat) :
    ((round inner)^[k] (found, frontier)).1 = (extend inner)^[k] found := by
  induction k generalizing found frontier with
  | zero => rfl
  | succ k ih =>
      rw [Function.iterate_succ_apply, round_eq, ih h.next, h.union_fresh,
        Function.iterate_succ_apply]

/-! ### The last round -/

theorem missing_le (inner found : Spans) :
    missing inner found ≤ (starts found).size * inner.size := by
  refine List.countP_le_length.trans (Nat.le_of_eq ?_)
  simp

/-- The rounds end, and what has been found in the end is what is grown. -/
theorem exists_rounds (hsub : ∀ s ∈ frontier, s ∈ found) (hfrontier : frontier ≠ ∅) :
    ∃ count ≤ missing inner found + 1,
      (round inner)^[count] (found, frontier) = (grow inner found frontier hsub, ∅) ∧
      ∀ k < count, ((round inner)^[k] (found, frontier)).2 ≠ ∅ := by
  fun_induction grow inner found frontier hsub with
  | case1 found frontier hsub new hempty =>
      -- The round finds nothing new, and it is the last one.
      refine ⟨1, Nat.le_add_left 1 _, ?_, fun k hk => ?_⟩
      · rw [Function.iterate_one, round_eq]
        show (found ∪ new, new) = (found, ∅)
        rw [hempty, union_none]
      · obtain rfl : k = 0 := Nat.lt_one_iff.mp hk
        exact hfrontier
  | case2 found frontier hsub new hne hlt ih =>
      obtain ⟨count, hcount, hend, hbefore⟩ := ih hne
      refine ⟨count + 1, Nat.succ_le_succ (Nat.le_trans hcount hlt), ?_, fun k hk => ?_⟩
      · rw [Function.iterate_succ_apply, round_eq]
        exact hend
      · cases k with
        | zero => exact hfrontier
        | succ k =>
            rw [Function.iterate_succ_apply, round_eq]
            exact hbefore k (Nat.lt_of_succ_lt_succ hk)

/-- The rounds from a seed end, and the first is made only if there is something to continue. -/
theorem rounds_end (seed inner : Spans) :
    ∃ count ≤ (starts seed).size * inner.size + 1,
      (round inner)^[count] (seed, seed) = (chains seed inner, ∅) ∧
      ∀ k < count, ((round inner)^[k] (seed, seed)).2 ≠ ∅ := by
  by_cases hseed : seed = ∅
  · subst hseed
    refine ⟨0, Nat.zero_le _, Prod.ext (ExtTreeSet.ext_mem fun ⟨i, k⟩ => ?_) rfl, fun k hk => ?_⟩
    · show ⟨i, k⟩ ∈ (∅ : Spans) ↔ _
      simp [mem_chains]
    · exact absurd hk (Nat.not_lt_zero k)
  · obtain ⟨count, hcount, hrounds⟩ := exists_rounds (fun _ hs => hs) hseed
    exact ⟨count, hcount.trans (Nat.succ_le_succ (missing_le inner seed)), hrounds⟩

/-! ### Continuing everything until nothing changes -/

theorem extend_eq (inner found : Spans) : extend inner found = found ∪ fresh inner found found :=
  (continued_self inner found).union_fresh.symm

theorem missing_extend_lt (h : extend inner found ≠ found) :
    missing inner (extend inner found) < missing inner found := by
  rw [extend_eq] at h ⊢
  refine missing_lt (fun _ hs => hs) fun hempty => h ?_
  rw [hempty, union_none]

/-- Continues every span found so far, round after round, until nothing changes. -/
def saturate (inner found : Spans) : Spans :=
  if h : extend inner found = found then found
  else
    have _ := missing_extend_lt h
    saturate inner (extend inner found)
termination_by missing inner found

theorem exists_iterate_saturate (inner found : Spans) :
    ∃ k, (extend inner)^[k] found = saturate inner found ∧
      extend inner (saturate inner found) = saturate inner found := by
  fun_induction saturate inner found with
  | case1 found h => exact ⟨0, rfl, h⟩
  | case2 found h hlt ih =>
      obtain ⟨k, hk, hfixed⟩ := ih
      exact ⟨k + 1, hk, hfixed⟩

/-- Continuing comes to one end only. -/
theorem iterate_extend_unique {m n : Nat}
    (hm : extend inner ((extend inner)^[m] seed) = (extend inner)^[m] seed)
    (hn : extend inner ((extend inner)^[n] seed) = (extend inner)^[n] seed) :
    (extend inner)^[m] seed = (extend inner)^[n] seed := by
  wlog hle : m ≤ n with H
  · exact (H hn hm (Nat.le_of_not_le hle)).symm
  · obtain ⟨k, rfl⟩ := Nat.exists_eq_add_of_le hle
    rw [Nat.add_comm, Function.iterate_add_apply, Function.iterate_fixed hm]

/-- Continuing only what is new comes to the same set as continuing everything. -/
theorem saturate_eq_chains (seed inner : Spans) : saturate inner seed = chains seed inner := by
  obtain ⟨m, hm, hsaturate⟩ := exists_iterate_saturate inner seed
  obtain ⟨n, -, hend, -⟩ := rounds_end seed inner
  have hn : (extend inner)^[n] seed = chains seed inner := by
    rw [← (continued_self inner seed).iterate_round, hend]
  rw [← hm, ← hn]
  refine iterate_extend_unique ?_ ?_
  · rw [hm, hsaturate]
  · rw [hn, extend_chains]

/-! ### Chains -/

/-- At the positions of the word, repeating any number of times leads wherever chains lead. -/
theorem mem_star_of_le {length i k : Nat} (hi : i ≤ length) :
    ⟨i, k⟩ ∈ star length inner ↔ ReflTransGen (Step inner) i k := by
  rw [mem_star, reflTransGen_iff_eq_or_transGen]
  refine or_congr_left ⟨fun h => h.1.symm, ?_⟩
  rintro rfl
  exact ⟨rfl, hi⟩

/-- A chain of spans inside a word stays inside it. -/
theorem le_of_transGen {length i k : Nat}
    (hinside : ∀ s ∈ inner, s.start ≤ length ∧ s.stop ≤ length) (h : TransGen (Step inner) i k) :
    i ≤ length ∧ k ≤ length := by
  obtain ⟨j, hij, -⟩ := TransGen.head'_iff.mp h
  obtain ⟨l, -, hlk⟩ := TransGen.tail'_iff.mp h
  exact ⟨(hinside _ hij).1, (hinside _ hlk).2⟩

/-- **Continuing only what is new finds all chains.** The rounds end, at the latest one round after
there is nothing left that starts where a span of the seed starts and stops where one of `inner`
stops. What has been found then are the spans of the seed continued by chains of any length. So a
set grown by itself is its transitive closure, and grown out of the empty spans and itself it is its
reflexive and transitive closure at the positions of the word. Round by round, and so in the end,
continuing every span found so far finds the same spans. -/
theorem chains_closure (seed inner : Spans) :
    (∃ count ≤ (starts seed).size * inner.size + 1,
      (round inner)^[count] (seed, seed) = (chains seed inner, ∅) ∧
      ∀ k < count, ((round inner)^[k] (seed, seed)).2 ≠ ∅) ∧
    (∀ i k, ⟨i, k⟩ ∈ chains seed inner ↔
      ∃ j, ⟨i, j⟩ ∈ seed ∧ ReflTransGen (Step inner) j k) ∧
    (∀ i k, ⟨i, k⟩ ∈ chains inner inner ↔ TransGen (Step inner) i k) ∧
    (∀ length i k, i ≤ length →
      (⟨i, k⟩ ∈ chains (empties length ∪ inner) inner ↔ ReflTransGen (Step inner) i k)) ∧
    (∀ length, (∀ s ∈ inner, s.start ≤ length ∧ s.stop ≤ length) → ∀ i k,
      ⟨i, k⟩ ∈ chains (empties length ∪ inner) inner → i ≤ length ∧ k ≤ length) ∧
    (∀ k, ((round inner)^[k] (seed, seed)).1 = (extend inner)^[k] seed) ∧
    saturate inner seed = chains seed inner := by
  refine ⟨rounds_end seed inner, fun _ _ => mem_chains, fun _ _ => mem_plus,
    fun _ _ _ => mem_star_of_le, fun length hinside i k h => ?_,
    (continued_self inner seed).iterate_round, saturate_eq_chains seed inner⟩
  rcases mem_star.mp h with ⟨rfl, hlength⟩ | hchain
  · exact ⟨hlength, hlength⟩
  · exact le_of_transGen hinside hchain

/-- An empty span between two others. -/
def looping : Spans := ExtTreeSet.ofList [Span.mk 0 1, Span.mk 1 1, Span.mk 1 2]

/-- Chains may go through the empty span any number of times, and none leads back or out of the
word. -/
theorem chains_closure_looping : ⟨0, 2⟩ ∈ chains looping looping ∧
    ⟨2, 2⟩ ∉ chains looping looping ∧ ⟨2, 2⟩ ∈ chains (empties 2 ∪ looping) looping ∧
    ∀ i k, ⟨i, k⟩ ∈ chains (empties 2 ∪ looping) looping → i ≤ 2 ∧ k ≤ 2 := by
  have hstep : ∀ i j, Step looping i j ↔ (i = 0 ∧ j = 1) ∨ (i = 1 ∧ j = 1) ∨ (i = 1 ∧ j = 2) := by
    intro i j
    simp [Step, looping]
  obtain ⟨-, -, hplus, hstar, hinside, -, -⟩ := chains_closure looping looping
  refine ⟨?_, ?_, ?_, hinside 2 ?_⟩
  · exact (hplus 0 2).mpr (.tail (.single ((hstep 0 1).mpr (by simp))) ((hstep 1 2).mpr (by simp)))
  · rw [hplus, TransGen.head'_iff]
    rintro ⟨j, hj, -⟩
    exact absurd ((hstep 2 j).mp hj) (by simp)
  · exact (hstar 2 2 2 (Nat.le_refl 2)).mpr .refl
  · intro s hs
    have hends := (hstep s.start s.stop).mp hs
    omega

end Spans

end RegexMachine
