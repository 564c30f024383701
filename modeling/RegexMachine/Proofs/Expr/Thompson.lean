import RegexMachine.Proofs.Built
import RegexMachine.Proofs.Expr.Language
import RegexMachine.Regex

/-!
# RegexMachine.Proofs.Expr.Thompson

**The machine for an expression accepts the words of the expression.** Building it is never refused,
since every machine that comes up on the way has a start state. Its alphabet is the set of
characters in the expression.

The induction is on the expression. `Represents` is what holds of the machine at every node, and for
each way of combining expressions there is a lemma that it holds of the combined machines.
-/

namespace RegexMachine

open Std

namespace Expr

open Automaton

/-! ### One machine for each node -/

/-- `n` is a machine for the expression. -/
structure Represents (n : NFA) (e : Expr) : Prop where
  built : n.Built
  initial : ∃ q, n.initial = some q
  alphabet : n.alphabet = e.chars
  accepts {w : Word} : n.Accepts w ↔ Matches e w

theorem Represents.wellFormed {n : NFA} {e : Expr} (h : Represents n e) : n.WellFormed :=
  h.built.wellFormed

/-- Following sets of states decides which words match. -/
theorem Represents.accepts_eq_true_iff {n : NFA} {e : Expr} (h : Represents n e) {w : Word} :
    NFA.accepts n w = true ↔ Matches e w :=
  NFA.accepts_iff.trans h.accepts

theorem represents_ofEmpty : Represents NFA.ofEmpty .empty where
  built := .ofEmpty
  initial := ⟨0, rfl⟩
  alphabet := rfl
  accepts {w} := by
    constructor
    · intro h
      exact absurd h NFA.not_accepts_ofEmpty
    · intro h
      cases h

theorem represents_ofLambda : Represents NFA.ofLambda .lambda where
  built := .ofLambda
  initial := ⟨0, rfl⟩
  alphabet := rfl
  accepts {w} := by
    rw [NFA.accepts_ofLambda_iff, matches_lambda_iff]

theorem represents_ofChar (c : Char) : Represents (NFA.ofChar c) (.char c) where
  built := .ofChar c
  initial := ⟨0, rfl⟩
  alphabet := rfl
  accepts {w} := by
    rw [NFA.accepts_ofChar_iff, matches_char_iff]

/-- What a combination leaves is a machine for an expression, if it was one before its states were
numbered. -/
theorem exists_represents {x : Edit Symbol StateSet Unit} {a m : NFA} {e : Expr}
    (hon : x.on a = (.ok ⟨⟩, m.renumber)) (hbuilt : NFA.Built (x.on a).2) (hm : m.WellFormed)
    (hinitial : ∃ q, m.initial = some q) (halphabet : m.alphabet = e.chars)
    (haccepts : ∀ w, m.Accepts w ↔ Matches e w) :
    ∃ n, x.result a = .ok n ∧ Represents n e := by
  have hresult : x.result a = .ok m.renumber := Edit.result_of_ok hon
  refine ⟨m.renumber, hresult, hbuilt.of_result hresult, ?_, halphabet, fun {w} => ?_⟩
  · obtain ⟨q, hq⟩ := hinitial
    exact ⟨m.number q, initial_renumber hq⟩
  · rw [accepts_renumber hm, haccepts]

theorem Represents.concat {a b : NFA} {l r : Expr} (ha : Represents a l) (hb : Represents b r) :
    ∃ n, (NFA.concat b .naturals).result a = .ok n ∧ Represents n (.concat l r) := by
  obtain ⟨p, hp⟩ := ha.initial
  obtain ⟨q, hq⟩ := hb.initial
  obtain ⟨m, hon, hm⟩ :=
    NFA.exists_concat ha.wellFormed hb.wellFormed hp hq (hasRoom_naturals a b)
  refine exists_represents hon (.concat _ ha.built hb.built) hm.wellFormed
    ⟨p, hm.initial.trans hp⟩ ?_ fun w => ?_
  · exact hm.alphabet_eq.trans (by rw [ha.alphabet]; exact congrArg _ hb.alphabet)
  · rw [hm.accepts_iff, matches_concat_iff]
    simp only [behind, accepts_shift hb.wellFormed, ha.accepts, hb.accepts]

theorem Represents.union {a b : NFA} {l r : Expr} (ha : Represents a l) (hb : Represents b r) :
    ∃ n, (NFA.union b .naturals).result a = .ok n ∧ Represents n (.union l r) := by
  obtain ⟨p, hp⟩ := ha.initial
  obtain ⟨q, hq⟩ := hb.initial
  obtain ⟨m, fork, hon, hforked, hfresh⟩ :=
    NFA.exists_union ha.wellFormed hb.wellFormed hp hq (hasRoom_naturals a b)
  have hm : NFA.United a _ fork m := ⟨hforked, hfresh.mpr (hasFree_naturals _)⟩
  refine exists_represents hon (.union _ ha.built hb.built) hm.wellFormed
    ⟨fork, hm.initial⟩ ?_ fun w => ?_
  · exact hm.alphabet_eq.trans (by rw [ha.alphabet]; exact congrArg _ hb.alphabet)
  · rw [hm.accepts_iff, matches_union_iff]
    simp only [behind, accepts_shift hb.wellFormed, ha.accepts, hb.accepts]

theorem Represents.star {a : NFA} {e : Expr} (ha : Represents a e) :
    ∃ n, (NFA.star .naturals).result a = .ok n ∧ Represents n (.star e) := by
  obtain ⟨p, hp⟩ := ha.initial
  obtain ⟨m, entry, exit, hon, hwrapped, hfresh⟩ := NFA.exists_loop ha.wellFormed true .naturals hp
  have hm : NFA.Looped true a entry exit m := ⟨hwrapped, hfresh.mpr (NFA.hasTwoFree_naturals a)⟩
  refine exists_represents hon (.star _ ha.built) hm.wellFormed ⟨entry, hm.initial⟩
    (hm.alphabet_eq.trans ha.alphabet) fun w => ?_
  rw [hm.accepts_iff, matches_star_iff]
  simp [ha.accepts]

theorem Represents.plus {a : NFA} {e : Expr} (ha : Represents a e) :
    ∃ n, (NFA.plus .naturals).result a = .ok n ∧ Represents n (.plus e) := by
  obtain ⟨p, hp⟩ := ha.initial
  obtain ⟨m, entry, exit, hon, hwrapped, hfresh⟩ := NFA.exists_loop ha.wellFormed false .naturals hp
  have hm : NFA.Looped false a entry exit m := ⟨hwrapped, hfresh.mpr (NFA.hasTwoFree_naturals a)⟩
  refine exists_represents hon (.plus _ ha.built) hm.wellFormed ⟨entry, hm.initial⟩
    (hm.alphabet_eq.trans ha.alphabet) fun w => ?_
  rw [hm.accepts_iff, matches_plus_iff]
  simp [ha.accepts]

/-- **There is a machine for every expression.** -/
theorem exists_toNFA (e : Expr) : ∃ n, e.toNFA = .ok n ∧ Represents n e := by
  induction e with
  | empty => exact ⟨_, rfl, represents_ofEmpty⟩
  | lambda => exact ⟨_, rfl, represents_ofLambda⟩
  | char c => exact ⟨_, rfl, represents_ofChar c⟩
  | concat l r ihl ihr =>
      obtain ⟨a, hl, ha⟩ := ihl
      obtain ⟨b, hr, hb⟩ := ihr
      obtain ⟨n, hn, h⟩ := ha.concat hb
      exact ⟨n, by rw [toNFA, hl, hr]; exact hn, h⟩
  | union l r ihl ihr =>
      obtain ⟨a, hl, ha⟩ := ihl
      obtain ⟨b, hr, hb⟩ := ihr
      obtain ⟨n, hn, h⟩ := ha.union hb
      exact ⟨n, by rw [toNFA, hl, hr]; exact hn, h⟩
  | star e ih =>
      obtain ⟨a, he, ha⟩ := ih
      obtain ⟨n, hn, h⟩ := ha.star
      exact ⟨n, by rw [toNFA, he]; exact hn, h⟩
  | plus e ih =>
      obtain ⟨a, he, ha⟩ := ih
      obtain ⟨n, hn, h⟩ := ha.plus
      exact ⟨n, by rw [toNFA, he]; exact hn, h⟩

/-- **The machine for an expression accepts the language of the expression.** -/
theorem toNFA_accepts_language (e : Expr) :
    ∃ n, e.toNFA = .ok n ∧ ∀ w, NFA.accepts n w = true ↔ w ∈ e.language := by
  obtain ⟨n, hn, hrep⟩ := exists_toNFA e
  exact ⟨n, hn, fun w => hrep.accepts_eq_true_iff.trans mem_language_iff.symm⟩

end Expr

end RegexMachine
