import RegexMachine.Proofs.DFA.Canonical
import RegexMachine.Proofs.Expr.Thompson
import RegexMachine.Proofs.Expr.Walk

/-!
# RegexMachine.Proofs.Compilation

**What compiling gives.** Every expression compiles, and the machine decides every word as the
expression alone does. The machine is a canonical form: making two nondeterministic machines
deterministic and minimizing them gives equal machines exactly if the two have the same alphabet and
the same words.

Both rest on `exists_smallest`, which follows a nondeterministic machine through the two steps. The
deterministic machine that comes up in between is complete and connected, so nothing is added when
it is minimized, and what is left is a smallest machine.
-/

namespace RegexMachine

open Std

/-! ### From nondeterministic to smallest machines -/

namespace NFA

open Automaton

variable {n : NFA}

/-- What is left of `n` once it is deterministic and minimized, before its states are numbered. -/
structure Condensed (n : NFA) (m : DFA) : Prop where
  smallest : DFA.Smallest m
  alphabet : m.alphabet = n.alphabet
  accepts (w : Word) : DFA.accepts m w = accepts n w

theorem exists_smallest (hn : n.WellFormed) {start : StateId} (hstart : n.initial = some start)
    (ids : IdSpace) :
    ∃ m, (determinize n >>= (DFA.minimize · ids)).outcome = .ok m.renumber ∧ Condensed n m := by
  obtain ⟨d, hok, hd⟩ := exists_determinize hstart
  have h := explored_subsets n start
  have hnumber := apart_number hd.wellFormed
  have hwf : d.renumber.WellFormed := wellFormed_renumber hd.wellFormed
  have hconnected : DFA.Connected d := fun _ hi => hd.reachable h hi
  have hinitial := initial_renumber hd.initial
  -- No edge is missing, so there is no need of a sink.
  have hcompletable : DFA.Completable d.renumber ids :=
    Or.inl ((hd.total h).relabel hd.wellFormed hnumber)
  obtain ⟨total, m, hm, hmin⟩ := DFA.exists_minimize hwf hinitial ids
  refine ⟨m, ?_, hm.smallest hwf hcompletable (hconnected.relabel hd.wellFormed hnumber) hinitial,
    ?_, fun w => ?_⟩
  · rw [Traced.outcome_bind, hok]
    exact hmin
  · rw [hm.alphabet_eq hinitial]
    exact hd.alphabet_eq h
  · rw [hm.accepts_eq hwf hcompletable hinitial, hd.accepts_renumber h hn hstart]

/-- Smallest machines are equal once they are numbered exactly if the machines they are made from
have the same alphabet and the same words. -/
theorem Condensed.renumber_eq_iff {n₁ n₂ : NFA} {m₁ m₂ : DFA} (h₁ : Condensed n₁ m₁)
    (h₂ : Condensed n₂ m₂) : m₁.renumber = m₂.renumber ↔
      n₁.alphabet = n₂.alphabet ∧ ∀ w, NFA.accepts n₁ w = NFA.accepts n₂ w := by
  constructor
  · intro heq
    refine ⟨?_, fun w => ?_⟩
    · have halphabet : m₁.renumber.alphabet = m₂.renumber.alphabet := by rw [heq]
      rw [← h₁.alphabet, ← h₂.alphabet]
      exact halphabet
    · rw [← h₁.accepts, ← h₂.accepts, ← DFA.accepts_renumber h₁.smallest.wellFormed, heq,
        DFA.accepts_renumber h₂.smallest.wellFormed]
  · intro h
    obtain ⟨halphabet, haccepts⟩ := h
    refine DFA.renumber_eq_of_accepts_eq h₁.smallest h₂.smallest ?_ fun w => ?_
    · rw [h₁.alphabet, h₂.alphabet, halphabet]
    · rw [h₁.accepts, h₂.accepts, haccepts]

end NFA

/-! ### Expressions -/

namespace Expr

/-- Every expression compiles, and what comes out is the smallest machine for it, numbered. -/
theorem exists_compile (e : Expr) : ∃ n m, e.toNFA = .ok n ∧ Represents n e ∧
    e.compile.outcome = .ok m.renumber ∧ NFA.Condensed n m := by
  obtain ⟨n, hn, hrep⟩ := exists_toNFA e
  obtain ⟨start, hstart⟩ := hrep.initial
  obtain ⟨m, hok, hm⟩ := NFA.exists_smallest hrep.wellFormed hstart .words
  refine ⟨n, m, hn, hrep, ?_, hm⟩
  rw [compile, hn, Traced.bind_of_ok rfl, Traced.bind_of_ok rfl]
  exact hok

end Expr

namespace Regex

/-- **The machine of an expression and the expression alone agree on every word.** -/
theorem isMatch_eq_isMatchByExpr (e : Expr) : ∃ r, (ofExpr e).outcome = .ok r ∧ r.expr = e ∧
    ∀ w, r.isMatch w = r.isMatchByExpr w := by
  obtain ⟨n, m, -, hrep, hok, hm⟩ := Expr.exists_compile e
  refine ⟨⟨e, m.renumber⟩, ?_, rfl, fun w => ?_⟩
  · rw [ofExpr, Traced.bind_of_ok hok]
    rfl
  · show DFA.accepts m.renumber w = e.matchesWord w
    rw [DFA.accepts_renumber hm.smallest.wellFormed, hm.accepts, Bool.eq_iff_iff,
      hrep.accepts_eq_true_iff, Expr.matchesWord_iff]

end Regex

/-- **The compiled machine is a canonical form.** Two nondeterministic machines have the same
alphabet and the same words exactly if they lead to one and the same machine, and two expressions
have the same characters and the same words exactly if they compile to one and the same machine. -/
theorem canonical_form :
    (∀ n₁ n₂ : NFA, n₁.Built → n₂.Built → ∀ q₁ q₂ : StateId, n₁.initial = some q₁ →
      n₂.initial = some q₂ → ∀ ids : IdSpace,
      ∃ m₁ m₂, (NFA.determinize n₁ >>= (DFA.minimize · ids)).outcome = .ok m₁ ∧
        (NFA.determinize n₂ >>= (DFA.minimize · ids)).outcome = .ok m₂ ∧
        (m₁ = m₂ ↔ n₁.alphabet = n₂.alphabet ∧ ∀ w, NFA.accepts n₁ w = NFA.accepts n₂ w)) ∧
    ∀ e₁ e₂ : Expr, ∃ m₁ m₂, e₁.compile.outcome = .ok m₁ ∧ e₂.compile.outcome = .ok m₂ ∧
      (m₁ = m₂ ↔ e₁.chars = e₂.chars ∧ ∀ w, Expr.Matches e₁ w ↔ Expr.Matches e₂ w) := by
  constructor
  · intro n₁ n₂ hn₁ hn₂ q₁ q₂ hq₁ hq₂ ids
    obtain ⟨m₁, hok₁, hm₁⟩ := NFA.exists_smallest hn₁.wellFormed hq₁ ids
    obtain ⟨m₂, hok₂, hm₂⟩ := NFA.exists_smallest hn₂.wellFormed hq₂ ids
    exact ⟨m₁.renumber, m₂.renumber, hok₁, hok₂, hm₁.renumber_eq_iff hm₂⟩
  · intro e₁ e₂
    obtain ⟨n₁, m₁, -, hrep₁, hok₁, hm₁⟩ := Expr.exists_compile e₁
    obtain ⟨n₂, m₂, -, hrep₂, hok₂, hm₂⟩ := Expr.exists_compile e₂
    refine ⟨m₁.renumber, m₂.renumber, hok₁, hok₂, (hm₁.renumber_eq_iff hm₂).trans ?_⟩
    rw [hrep₁.alphabet, hrep₂.alphabet]
    refine and_congr_right fun _ => forall_congr' fun w => ?_
    rw [Bool.eq_iff_iff, hrep₁.accepts_eq_true_iff, hrep₂.accepts_eq_true_iff]

theorem determinize_plus_ofLambda :
    (NFA.determinize ((NFA.plus .words).on NFA.ofLambda).2 >>=
        (DFA.minimize · .words)).outcome.toOption =
      (NFA.determinize NFA.ofLambda >>= (DFA.minimize · .words)).outcome.toOption := by
  cbv

theorem compile_plus_star : (Expr.plus (.star (.char 'a'))).compile.outcome.toOption =
    (Expr.star (.char 'a')).compile.outcome.toOption := by
  cbv

/-- Repeating the empty word changes no word, and neither does repeating a repetition: the machines
are equal. -/
theorem canonical_form_plus :
    (∀ w, NFA.accepts ((NFA.plus .words).on NFA.ofLambda).2 w = NFA.accepts NFA.ofLambda w) ∧
    ∀ w, Expr.Matches (.plus (.star (.char 'a'))) w ↔ Expr.Matches (.star (.char 'a')) w := by
  have hmachines := determinize_plus_ofLambda
  have hexprs := compile_plus_star
  constructor
  · have hstart : ((NFA.plus .words).on NFA.ofLambda).2.initial = some 0 := by cbv
    obtain ⟨m₁, m₂, hm₁, hm₂, hiff⟩ :=
      canonical_form.1 _ _ (.plus .words .ofLambda) .ofLambda 0 0 hstart rfl .words
    rw [hm₁, hm₂] at hmachines
    exact (hiff.mp (Option.some.inj hmachines)).2
  · obtain ⟨m₁, m₂, hm₁, hm₂, hiff⟩ := canonical_form.2 (.plus (.star (.char 'a')))
      (.star (.char 'a'))
    rw [hm₁, hm₂] at hexprs
    exact (hiff.mp (Option.some.inj hexprs)).2

end RegexMachine
