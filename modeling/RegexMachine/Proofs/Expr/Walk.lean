import Mathlib.Algebra.GroupWithZero.Nat
import Mathlib.Logic.Function.Iterate
import RegexMachine.Proofs.Expr.Spans

/-!
# RegexMachine.Proofs.Expr.Walk

**Visit by visit, the walk does what the recursion does.** Entering an expression and making all
visits that this leads to takes two visits for every node. On the way the visits that were pending
before stay where they are, and so do the sets that were found before: every exit finds the sets of
its operands on top of them, the one of the last operand in front, and puts its own set in their
place. In the end there is one set more, the spans of the expression. So deciding a word on the
expression alone is deciding whether it matches.

The argument does not go by the forms of expressions. An entry schedules the entries of the operands
and the exit, and an exit makes the spans of the expression out of those of the operands; what lies
between is the same for any number of operands.
-/

namespace RegexMachine

open Std

/-! ### Operands -/

namespace Expr

/-- The expressions that an expression is made of, the left one first. -/
def operands : Expr → List Expr
  | .empty | .lambda | .char _ => []
  | .concat l r | .union l r => [l, r]
  | .star e | .plus e => [e]

/-- Every expression has a property that passes from operands to the expression made of them. -/
theorem operands_induction {P : Expr → Prop} (h : ∀ e, (∀ o ∈ e.operands, P o) → P e) (e : Expr) :
    P e := by
  induction e with
  | empty | lambda | char c => exact h _ (List.forall_mem_nil P)
  | concat l r ihl ihr | union l r ihl ihr =>
      exact h _ (List.forall_mem_cons.mpr ⟨ihl, List.forall_mem_singleton.mpr ihr⟩)
  | star e ih | plus e ih => exact h _ (List.forall_mem_singleton.mpr ih)

theorem nodeCount_eq (e : Expr) : e.nodeCount = (e.operands.map nodeCount).sum + 1 := by
  cases e <;> simp [operands, nodeCount]

end Expr

namespace Visit

theorem schedule_eq (e : Expr) : schedule e = e.operands.map enter ++ [exit e] := by
  cases e <;> rfl

/-- The sets of the operands are replaced by the one of the expression. -/
theorem combine_operands (word : Word) (e : Expr) (found : List Spans) :
    combine word e ((e.operands.map (Expr.spans word)).reverse ++ found) =
      Expr.spans word e :: found := by
  cases e <;> rfl

end Visit

namespace Walk

variable {word : Word} {P Q : Walk → Prop} {m n : Nat} {w v u : Walk} {e : Expr}
variable {rest : List Visit} {found : List Spans}

/-! ### Counting visits -/

theorem run_nil (word : Word) (found : List Spans) : run word ⟨[], found⟩ = ⟨[], found⟩ := by
  rw [run, dif_pos rfl]

theorem run_step (word : Word) (w : Walk) : run word (step word w) = run word w := by
  obtain ⟨pending, found⟩ := w
  cases pending with
  | nil => rfl
  | cons v rest => rw [run.eq_def word ⟨v :: rest, found⟩, dif_neg (List.cons_ne_nil v rest)]

theorem run_iterate (word : Word) (count : Nat) (w : Walk) :
    run word ((step word)^[count] w) = run word w := by
  induction count generalizing w with
  | zero => rfl
  | succ count ih => rw [Function.iterate_succ_apply, ih, run_step]

/-- `count` visits lead from one walk to another, and `P` holds whenever one of them is made. -/
structure Takes (word : Word) (P : Walk → Prop) (count : Nat) (w after : Walk) : Prop where
  arrives : (step word)^[count] w = after
  holds : ∀ k < count, P ((step word)^[k] w)

namespace Takes

theorem refl (w : Walk) : Takes word P 0 w w :=
  ⟨rfl, fun _ hk => absurd hk (Nat.not_lt_zero _)⟩

theorem single (h : P w) (hstep : w.step word = v) : Takes word P 1 w v where
  arrives := hstep
  holds k hk := by
    obtain rfl : k = 0 := Nat.lt_one_iff.mp hk
    exact h

theorem mono (h : Takes word P n w v) (hPQ : ∀ x, P x → Q x) : Takes word Q n w v :=
  ⟨h.arrives, fun k hk => hPQ _ (h.holds k hk)⟩

theorem trans (h : Takes word P m w v) (h' : Takes word P n v u) : Takes word P (m + n) w u where
  arrives := by rw [Nat.add_comm, Function.iterate_add_apply, h.arrives, h'.arrives]
  holds k hk := by
    rcases Nat.lt_or_ge k m with hlt | hge
    · exact h.holds k hlt
    · obtain ⟨j, rfl⟩ := Nat.exists_eq_add_of_le hge
      rw [Nat.add_comm, Function.iterate_add_apply, h.arrives]
      exact h'.holds j (Nat.lt_of_add_lt_add_left hk)

/-- The visits made are part of any run. -/
theorem run_eq (h : Takes word P n w v) : run word w = run word v := by
  rw [← h.arrives, run_iterate]

end Takes

/-! ### What stays as it is -/

/-- The next visit comes before `rest`, and it needs no set that is in `found`: if it is an exit,
then the sets of all operands lie above them, the one of the last operand in front. -/
def Above (word : Word) (rest : List Visit) (found : List Spans) (w : Walk) : Prop :=
  ∃ v more top, w = ⟨v :: more ++ rest, top ++ found⟩ ∧
    ∀ e, v = .exit e → (e.operands.map (Expr.spans word)).reverse <+: top

theorem above_enter (word : Word) (e : Expr) (rest : List Visit) (found : List Spans) :
    Above word rest found ⟨.enter e :: rest, found⟩ :=
  ⟨.enter e, [], [], rfl, fun _ hexit => by cases hexit⟩

theorem above_exit (word : Word) (e : Expr) (rest : List Visit) (found : List Spans) :
    Above word rest found
      ⟨.exit e :: rest, (e.operands.map (Expr.spans word)).reverse ++ found⟩ := by
  refine ⟨.exit e, [], (e.operands.map (Expr.spans word)).reverse, rfl, fun x hx => ?_⟩
  obtain rfl : e = x := Visit.exit.inj hx
  exact List.prefix_rfl

/-- What comes before more visits and above more sets comes before and above the lower ones. -/
theorem Above.lower (more : List Visit) (top : List Spans)
    (h : Above word (more ++ rest) (top ++ found) w) : Above word rest found w := by
  obtain ⟨v, front, above, rfl, hexit⟩ := h
  refine ⟨v, front ++ more, above ++ top, by simp, fun e hv => ?_⟩
  exact (hexit e hv).trans (List.prefix_append above top)

/-! ### Entering -/

theorem step_enter (word : Word) (e : Expr) (rest : List Visit) (found : List Spans) :
    step word ⟨.enter e :: rest, found⟩ = ⟨e.operands.map .enter ++ .exit e :: rest, found⟩ := by
  show Walk.mk (Visit.schedule e ++ rest) found = _
  rw [Visit.schedule_eq, List.append_assoc, List.singleton_append]

theorem step_exit (word : Word) (e : Expr) (rest : List Visit) (found : List Spans) :
    step word ⟨.exit e :: rest, (e.operands.map (Expr.spans word)).reverse ++ found⟩ =
      ⟨rest, Expr.spans word e :: found⟩ :=
  congrArg (Walk.mk rest) (Visit.combine_operands word e found)

/-- Expressions entered one after another add their sets one after another. -/
theorem takes_enter_each {es : List Expr}
    (h : ∀ e ∈ es, ∀ rest found, Takes word (Above word rest found) (2 * e.nodeCount)
      ⟨.enter e :: rest, found⟩ ⟨rest, Expr.spans word e :: found⟩)
    (rest : List Visit) (found : List Spans) :
    Takes word (Above word rest found) (2 * (es.map Expr.nodeCount).sum)
      ⟨es.map .enter ++ rest, found⟩ ⟨rest, (es.map (Expr.spans word)).reverse ++ found⟩ := by
  induction es generalizing found with
  | nil => exact Takes.refl _
  | cons e es ih =>
      obtain ⟨he, hes⟩ := List.forall_mem_cons.mp h
      have hfirst := (he (es.map .enter ++ rest) found).mono fun x hx =>
        hx.lower (es.map .enter) []
      have hothers := (ih hes (Expr.spans word e :: found)).mono fun x hx =>
        hx.lower [] [Expr.spans word e]
      have hboth := hfirst.trans hothers
      rw [← Nat.mul_add] at hboth
      simpa using hboth

/-- An expression entered takes two visits for every node, none of which touches what lies below. -/
theorem takes_enter (word : Word) (e : Expr) (rest : List Visit) (found : List Spans) :
    Takes word (Above word rest found) (2 * e.nodeCount) ⟨.enter e :: rest, found⟩
      ⟨rest, Expr.spans word e :: found⟩ := by
  induction e using Expr.operands_induction generalizing rest found with
  | h e ih =>
      have hentry := Takes.single (above_enter word e rest found) (step_enter word e rest found)
      have hoperands := (takes_enter_each ih (.exit e :: rest) found).mono fun x hx =>
        hx.lower [.exit e] []
      have hexit := Takes.single (above_exit word e rest found) (step_exit word e rest found)
      have hcount : 2 * e.nodeCount = 1 + 2 * (e.operands.map Expr.nodeCount).sum + 1 := by
        rw [e.nodeCount_eq]
        omega
      rw [hcount]
      exact (hentry.trans hoperands).trans hexit

/-- An expression entered adds its spans to the sets found, whatever else there is to visit and
whatever was found before. -/
theorem run_enter (word : Word) (e : Expr) (rest : List Visit) (found : List Spans) :
    run word ⟨.enter e :: rest, found⟩ = run word ⟨rest, Expr.spans word e :: found⟩ :=
  (takes_enter word e rest found).run_eq

end Walk

namespace Expr

/-- The walk over an expression finds its spans. -/
theorem walkSpans_eq (word : Word) (e : Expr) : walkSpans word e = spans word e := by
  rw [walkSpans, Walk.start, Walk.run_enter, Walk.run_nil]
  rfl

/-- **The expression alone decides whether a word matches.** -/
theorem matchesWord_iff {e : Expr} {w : Word} : e.matchesWord w = true ↔ Matches e w := by
  rw [matchesWord, walkSpans_eq, ExtTreeSet.contains_iff_mem, mem_spans, slice_whole]
  simp

end Expr

namespace Walk

/-- **Visit by visit, the walk does what the recursion does.** Whatever else there is to visit and
whatever was found before, an expression entered adds its spans to the sets found and leaves all
else as it is; on the way every exit finds the sets of its operands, so none is ever missing. The
walk over an expression ends after two visits for every node, with one set found, and answers it. -/
theorem enter_adds_spans (word : Word) (e : Expr) (rest : List Visit) (found : List Spans) :
    Takes word (Above word rest found) (2 * e.nodeCount) ⟨.enter e :: rest, found⟩
      ⟨rest, Expr.spans word e :: found⟩ ∧
    run word ⟨.enter e :: rest, found⟩ = run word ⟨rest, Expr.spans word e :: found⟩ ∧
    Takes word (Above word [] []) (2 * e.nodeCount) (start e) ⟨[], [Expr.spans word e]⟩ ∧
    run word (start e) = ⟨[], [Expr.spans word e]⟩ ∧
    Expr.walkSpans word e = Expr.spans word e := by
  refine ⟨takes_enter word e rest found, run_enter word e rest found, takes_enter word e [] [], ?_,
    Expr.walkSpans_eq word e⟩
  rw [start, run_enter, run_nil]

end Walk

end RegexMachine
