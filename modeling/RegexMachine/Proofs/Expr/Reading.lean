import RegexMachine.Proofs.Expr.Grouping

/-!
# RegexMachine.Proofs.Expr.Reading

**A written expression can be read back.** `read` goes through a text once, from left to right, and
keeps a stack of levels: one for the whole text and one for every bracket that is open. A level
holds the alternatives that bars have closed and the factors that have come up behind the last bar.
A character of the text is a new factor, a bar closes the factors, a bracket opens a level or makes
a factor of one, and a star or a plus repeats the last factor.

If the characters of an expression are none of the marks that the written form uses itself, then
reading its text gives the expression back, up to grouping. So no two expressions but regrouped ones
are written alike.

The induction is on the expression, over levels of any content. How much reading an operand does to
the level depends on how tightly the operand binds: an operand of a repetition adds one factor
(`AsFactor`), an operand of a concatenation some factors (`AsFactors`), and a side of a union closes
alternatives and begins a new one (`AsAlternatives`).
-/

namespace RegexMachine.Expr

open Std

/-- The characters that the written form uses itself. -/
def marks : List Char := ['∅', 'λ', '|', '*', '+', '(', ')']

/-! ### Levels -/

/-- What has been read since a bracket was opened. -/
structure Level where
  /-- The alternatives closed by a bar, the last one first. -/
  alternatives : List Expr
  /-- The factors behind the last bar, the last one first. -/
  factors : List Expr

/-- The expressions of a list joined by an operation, the last one first. -/
def joined (op : Expr → Expr → Expr) : List Expr → Option Expr
  | [] => none
  | x :: xs => some ((joined op xs).elim x (op · x))

namespace Level

/-- The level on which nothing has been read. -/
def fresh : Level := ⟨[], []⟩

/-- Adds a factor. -/
def add (x : Expr) (level : Level) : Level := { level with factors := x :: level.factors }

/-- Closes the factors, unless there are none. -/
def bar (level : Level) : Option Level :=
  (joined .concat level.factors).map fun x => ⟨x :: level.alternatives, []⟩

/-- Repeats the last factor. -/
def repeated (op : Expr → Expr) : Level → Option Level
  | ⟨_, []⟩ => none
  | ⟨as, x :: xs⟩ => some ⟨as, op x :: xs⟩

/-- The expression read on the level. -/
def expr? (level : Level) : Option Expr :=
  level.bar.bind fun closed => joined .union closed.alternatives

end Level

/-! ### Reading -/

/-- Reads one character. The level of the innermost open bracket is on top. -/
def readChar : List Level → Char → Option (List Level)
  | [], _ => none
  | level :: outer, '(' => some (.fresh :: level :: outer)
  | [_], ')' => none
  | level :: below :: outer, ')' => level.expr?.map fun x => below.add x :: outer
  | level :: outer, '|' => level.bar.map (· :: outer)
  | level :: outer, '*' => (level.repeated .star).map (· :: outer)
  | level :: outer, '+' => (level.repeated .plus).map (· :: outer)
  | level :: outer, '∅' => some (level.add .empty :: outer)
  | level :: outer, 'λ' => some (level.add .lambda :: outer)
  | level :: outer, c => some (level.add (.char c) :: outer)

/-- Reads a text with the levels already there. -/
def readOn (levels : List Level) (t : List Char) : Option (List Level) :=
  t.foldlM readChar levels

/-- Reads a text, which may leave no bracket open. -/
def read (t : List Char) : Option Expr :=
  match readOn [.fresh] t with
  | some [level] => level.expr?
  | _ => none

theorem readOn_append (levels : List Level) (t u : List Char) :
    readOn levels (t ++ u) = (readOn levels t).bind (readOn · u) :=
  List.foldlM_append

theorem readOn_cons (levels : List Level) (c : Char) (t : List Char) :
    readOn levels (c :: t) = (readChar levels c).bind (readOn · t) := rfl

theorem readOn_singleton (levels : List Level) (c : Char) :
    readOn levels [c] = readChar levels c :=
  Option.bind_fun_some _

/-- A character that is no mark stands for itself. -/
theorem readChar_of_not_mem_marks {c : Char} (h : c ∉ marks) (level : Level) (outer : List Level) :
    readChar (level :: outer) c = some (level.add (.char c) :: outer) := by
  unfold readChar
  split <;> simp_all [marks]

/-! ### What has been joined -/

/-- The list joins to the expression, up to grouping. -/
def Joins (op : Expr → Expr → Expr) (xs : List Expr) (e : Expr) : Prop :=
  ∃ x, joined op xs = some x ∧ Regrouped x e

theorem joins_singleton (op : Expr → Expr → Expr) {x e : Expr} (h : Regrouped x e) :
    Joins op [x] e :=
  ⟨x, rfl, h⟩

section Append

variable {op : Expr → Expr → Expr}
  (hassoc : ∀ a b c, Regrouped (op (op a b) c) (op a (op b c)))
  (hop : ∀ {l l' r r'}, Regrouped l l' → Regrouped r r' → Regrouped (op l r) (op l' r'))

include hassoc hop

/-- Joining one list behind another is joining the two results. -/
theorem joined_append {xs ys : List Expr} {l r : Expr} (hxs : joined op xs = some l)
    (hys : joined op ys = some r) : Joins op (ys ++ xs) (op l r) := by
  -- The last expression is taken off until the two lists meet, and there the grouping changes.
  induction ys generalizing r with
  | nil => cases hys
  | cons y ys ih =>
      cases hrest : joined op ys with
      | none =>
          have hnil : ys = [] := by
            cases ys with
            | nil => rfl
            | cons => cases hrest
          subst hnil
          cases hys
          exact ⟨op l y, by simp [joined, hxs], .refl _⟩
      | some r' =>
          obtain ⟨x, hx, hxlr⟩ := ih hrest
          have hr : r = op r' y := by simpa [joined, hrest] using hys.symm
          refine ⟨op x y, by simp [joined, hx], ?_⟩
          rw [hr]
          exact (hop hxlr (.refl y)).trans (hassoc l r' y)

theorem Joins.append {xs ys : List Expr} {l r : Expr} (hxs : Joins op xs l) (hys : Joins op ys r) :
    Joins op (ys ++ xs) (op l r) := by
  obtain ⟨x, hx, hxl⟩ := hxs
  obtain ⟨y, hy, hyr⟩ := hys
  obtain ⟨z, hz, hzxy⟩ := joined_append hassoc hop hx hy
  exact ⟨z, hz, hzxy.trans (hop hxl hyr)⟩

end Append

/-! ### What reading does to a level -/

/-- Reading the text adds the factors to a level and changes nothing else. -/
def Adds (t : List Char) (xs : List Expr) : Prop :=
  ∀ as fs outer, readOn (⟨as, fs⟩ :: outer) t = some (⟨as, xs ++ fs⟩ :: outer)

/-- Reading the text right behind a bar adds closed alternatives and leaves open factors. -/
def Fills (t : List Char) (alternatives factors : List Expr) : Prop :=
  ∀ as outer, readOn (⟨as, []⟩ :: outer) t = some (⟨alternatives ++ as, factors⟩ :: outer)

theorem Adds.append {t u : List Char} {xs ys : List Expr} (ht : Adds t xs) (hu : Adds u ys) :
    Adds (t ++ u) (ys ++ xs) := by
  intro as fs outer
  rw [readOn_append, ht, Option.bind_some, hu, List.append_assoc]

theorem Adds.fills {t : List Char} {xs : List Expr} (h : Adds t xs) : Fills t [] xs := by
  intro as outer
  rw [h, List.append_nil, List.nil_append]

theorem Fills.bar {t u : List Char} {as bs xs ys : List Expr} {x : Expr} (ht : Fills t as xs)
    (hx : joined .concat xs = some x) (hu : Fills u bs ys) :
    Fills (t ++ '|' :: u) (bs ++ x :: as) ys := by
  intro cs outer
  have hbar : readChar (⟨as ++ cs, xs⟩ :: outer) '|' = some (⟨x :: (as ++ cs), []⟩ :: outer) := by
    simp [readChar, Level.bar, hx]
  rw [readOn_append, ht, Option.bind_some, readOn_cons, hbar, Option.bind_some, hu,
    List.append_assoc, List.cons_append]

/-- What has been read inside brackets becomes one factor. -/
theorem Fills.bracketed {t : List Char} {as xs : List Expr} {x z : Expr} (h : Fills t as xs)
    (hx : joined .concat xs = some x) (hz : joined .union (x :: as) = some z) :
    Adds ('(' :: t ++ [')']) [z] := by
  intro bs fs outer
  have hopen : readChar (⟨bs, fs⟩ :: outer) '(' = some (⟨[], []⟩ :: ⟨bs, fs⟩ :: outer) := rfl
  have hclose : readChar (⟨as, xs⟩ :: ⟨bs, fs⟩ :: outer) ')' = some (⟨bs, z :: fs⟩ :: outer) := by
    simp [readChar, Level.expr?, Level.bar, Level.add, hx, hz]
  rw [List.cons_append, readOn_cons, hopen, Option.bind_some, readOn_append, h, Option.bind_some,
    List.append_nil, readOn_singleton, hclose, List.singleton_append]

/-! ### Written operands

The three ways in which a written expression can be taken, from the tightest to the loosest. Each is
a case of the next one. -/

/-- Reading the text adds the expression as one factor. -/
def AsFactor (t : List Char) (e : Expr) : Prop :=
  ∃ x, Regrouped x e ∧ Adds t [x]

/-- Reading the text adds the expression as one or more factors. -/
def AsFactors (t : List Char) (e : Expr) : Prop :=
  ∃ xs, Joins .concat xs e ∧ Adds t xs

/-- Reading the text right behind a bar leaves the alternatives of the expression, the last one
still open. -/
def AsAlternatives (t : List Char) (e : Expr) : Prop :=
  ∃ as xs x, joined .concat xs = some x ∧ Joins .union (x :: as) e ∧ Fills t as xs

variable {t u : List Char} {e l r : Expr}

theorem AsFactor.asFactors (h : AsFactor t e) : AsFactors t e := by
  obtain ⟨x, hx, ht⟩ := h
  exact ⟨[x], joins_singleton _ hx, ht⟩

theorem AsFactors.asAlternatives (h : AsFactors t e) : AsAlternatives t e := by
  obtain ⟨xs, ⟨x, hx, hxe⟩, ht⟩ := h
  exact ⟨[], xs, x, hx, joins_singleton _ hxe, ht.fills⟩

theorem AsFactors.append (hl : AsFactors t l) (hr : AsFactors u r) :
    AsFactors (t ++ u) (.concat l r) := by
  obtain ⟨xs, hxs, ht⟩ := hl
  obtain ⟨ys, hys, hu⟩ := hr
  exact ⟨ys ++ xs, hxs.append .concatAssoc .concat hys, ht.append hu⟩

theorem AsAlternatives.bar (hl : AsAlternatives t l) (hr : AsAlternatives u r) :
    AsAlternatives (t ++ '|' :: u) (.union l r) := by
  obtain ⟨as, xs, x, hx, has, ht⟩ := hl
  obtain ⟨bs, ys, y, hy, hbs, hu⟩ := hr
  exact ⟨bs ++ x :: as, ys, y, hy, has.append .unionAssoc .union hbs, ht.bar hx hu⟩

theorem AsAlternatives.bracketed (h : AsAlternatives t e) : AsFactor ('(' :: t ++ [')']) e := by
  obtain ⟨as, xs, x, hx, ⟨z, hz, hze⟩, ht⟩ := h
  exact ⟨z, hze, ht.bracketed hx hz⟩

/-- The mark of a repetition behind a factor. -/
theorem AsFactor.repeated {op : Expr → Expr} {mark : Char} (h : AsFactor t e)
    (hmark : ∀ level outer, readChar (level :: outer) mark =
      (level.repeated op).map (· :: outer))
    (hop : ∀ {a b}, Regrouped a b → Regrouped (op a) (op b)) : AsFactor (t ++ [mark]) (op e) := by
  obtain ⟨x, hx, ht⟩ := h
  refine ⟨op x, hop hx, fun as fs outer => ?_⟩
  rw [readOn_append, ht, Option.bind_some, readOn_singleton, hmark]
  rfl

/-- A character that adds a constant or itself. -/
theorem asFactor_singleton {c : Char}
    (h : ∀ level outer, readChar (level :: outer) c = some (level.add e :: outer)) :
    AsFactor [c] e :=
  ⟨e, .refl e, fun as fs outer => by rw [readOn_singleton, h]; rfl⟩

/-- How a written expression can be taken depends on how tightly it binds. -/
structure Readable (e : Expr) : Prop where
  asAlternatives : AsAlternatives e.text e
  asFactors : 1 ≤ e.precedence → AsFactors e.text e
  asFactor : 3 ≤ e.precedence → AsFactor e.text e

namespace Readable

theorem of_asFactor (h : AsFactor e.text e) : Readable e :=
  ⟨h.asFactors.asAlternatives, fun _ => h.asFactors, fun _ => h⟩

theorem of_asFactors (h : AsFactors e.text e) (hlt : e.precedence < 3) : Readable e :=
  ⟨h.asAlternatives, fun _ => h, fun hle => absurd hle (Nat.not_le.mpr hlt)⟩

theorem of_asAlternatives (h : AsAlternatives e.text e) (hlt : e.precedence < 1) : Readable e :=
  ⟨h, fun hle => absurd hle (Nat.not_le.mpr hlt),
    fun hle => absurd (Nat.le_trans (by decide) hle) (Nat.not_le.mpr hlt)⟩

/-- A side of a union. -/
theorem bracket_zero (h : Readable e) : AsAlternatives (bracket 0 e e.text) e := by
  rw [Expr.bracket_zero]
  exact h.asAlternatives

/-- An operand of a concatenation. -/
theorem bracket_one (h : Readable e) : AsFactors (bracket 1 e e.text) e := by
  by_cases hle : 1 ≤ e.precedence
  · rw [bracket_of_le hle]
    exact h.asFactors hle
  · rw [bracket_of_lt (Nat.not_le.mp hle)]
    exact h.asAlternatives.bracketed.asFactors

/-- The operand of a repetition. -/
theorem bracket_three (h : Readable e) : AsFactor (bracket 3 e e.text) e := by
  by_cases hle : 3 ≤ e.precedence
  · rw [bracket_of_le hle]
    exact h.asFactor hle
  · rw [bracket_of_lt (Nat.not_le.mp hle)]
    exact h.asAlternatives.bracketed

end Readable

/-! ### Reading back -/

/-- No character of the expression is one that the written form uses itself. -/
def Unmarked (e : Expr) : Prop :=
  ∀ c ∈ e.chars, c ∉ marks

@[simp] theorem unmarked_char {c : Char} : Unmarked (.char c) ↔ c ∉ marks := by
  simp [Unmarked, chars]

@[simp] theorem unmarked_concat : Unmarked (.concat l r) ↔ Unmarked l ∧ Unmarked r := by
  simp [Unmarked, chars, or_imp, forall_and]

@[simp] theorem unmarked_union : Unmarked (.union l r) ↔ Unmarked l ∧ Unmarked r := by
  simp [Unmarked, chars, or_imp, forall_and]

@[simp] theorem unmarked_star : Unmarked (.star e) ↔ Unmarked e := Iff.rfl

@[simp] theorem unmarked_plus : Unmarked (.plus e) ↔ Unmarked e := Iff.rfl

theorem readable_of_unmarked (e : Expr) (h : Unmarked e) : Readable e := by
  induction e with
  | empty => exact .of_asFactor (asFactor_singleton fun _ _ => rfl)
  | lambda => exact .of_asFactor (asFactor_singleton fun _ _ => rfl)
  | char c =>
      have hc : c ∉ marks := unmarked_char.mp h
      exact .of_asFactor (asFactor_singleton (readChar_of_not_mem_marks hc))
  | concat l r ihl ihr =>
      obtain ⟨hl, hr⟩ := unmarked_concat.mp h
      exact .of_asFactors ((ihl hl).bracket_one.append (ihr hr).bracket_one) (by simp [precedence])
  | union l r ihl ihr =>
      obtain ⟨hl, hr⟩ := unmarked_union.mp h
      exact .of_asAlternatives ((ihl hl).bracket_zero.bar (ihr hr).bracket_zero)
        (by simp [precedence])
  | star e ih =>
      have hfactor : AsFactor (star e).text (star e) :=
        (ih (unmarked_star.mp h)).bracket_three.repeated (fun _ _ => rfl) .star
      exact .of_asFactor hfactor
  | plus e ih =>
      have hfactor : AsFactor (plus e).text (plus e) :=
        (ih (unmarked_plus.mp h)).bracket_three.repeated (fun _ _ => rfl) .plus
      exact .of_asFactor hfactor

/-- **Reading a written expression gives it back, up to grouping.** -/
theorem exists_read_text (h : Unmarked e) : ∃ x, read e.text = some x ∧ Regrouped x e := by
  obtain ⟨as, xs, x, hx, ⟨z, hz, hze⟩, ht⟩ := (readable_of_unmarked e h).asAlternatives
  refine ⟨z, ?_, hze⟩
  rw [read, Level.fresh, ht]
  simp [Level.expr?, Level.bar, hx, hz]

/-- **Only regrouped expressions are written alike.** -/
theorem text_eq_iff {e₁ e₂ : Expr} (h₁ : Unmarked e₁) (h₂ : Unmarked e₂) :
    e₁.text = e₂.text ↔ Regrouped e₁ e₂ := by
  constructor
  · intro htext
    obtain ⟨x₁, hx₁, he₁⟩ := exists_read_text h₁
    obtain ⟨x₂, hx₂, he₂⟩ := exists_read_text h₂
    rw [htext] at hx₁
    cases hx₁.symm.trans hx₂
    exact he₁.symm.trans he₂
  · exact Regrouped.text_eq

end RegexMachine.Expr
