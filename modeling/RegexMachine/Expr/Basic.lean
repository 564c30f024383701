import Std.Data.ExtTreeSet

/-!
# RegexMachine.Expr.Basic

**Expressions.** A regular expression is a tree over single characters. A word is a list of
characters; a text stands for the expression that matches it and nothing else.

`Matches e w` is the meaning of an expression, stated without machines and without positions: a rule
for each way in which a word can match. Everything that decides membership is judged by it.

In the written form, `∅` and `λ` stand for the two constants and a character for itself. A union is
written with a bar between its sides, a concatenation by writing its sides one after the other, and
a repetition by a star or a plus behind its operand. Repetition binds tighter than concatenation,
and concatenation tighter than union. An operand is put in brackets exactly when it binds looser
than its place asks for. Both sides of a union or of a concatenation may be of the same kind without
brackets, so nested unions are written flat, and nested concatenations too.
-/

namespace RegexMachine

open Std

/-- A word over the Unicode characters. -/
abbrev Word := List Char

/-- A regular expression. -/
inductive Expr where
  /-- Matches no word. -/
  | empty
  /-- Matches the empty word only. -/
  | lambda
  /-- Matches one character. -/
  | char (c : Char)
  /-- Matches a word of `left` followed by a word of `right`. -/
  | concat (left right : Expr)
  /-- Matches the words of either side. -/
  | union (left right : Expr)
  /-- Matches any number of words of `inner` in a row. -/
  | star (inner : Expr)
  /-- Matches one or more words of `inner` in a row. -/
  | plus (inner : Expr)
  deriving DecidableEq, Repr, Inhabited

namespace Expr

/-- The expression that spells out a text: its characters joined from the right, or `lambda` if
there are none. -/
def literal : Word → Expr
  | [] => .lambda
  | [c] => .char c
  | c :: rest => .concat (.char c) (literal rest)

@[simp] theorem literal_nil : literal [] = .lambda := rfl

@[simp] theorem literal_singleton (c : Char) : literal [c] = .char c := rfl

@[simp] theorem literal_cons_cons (c d : Char) (rest : Word) :
    literal (c :: d :: rest) = .concat (.char c) (literal (d :: rest)) := rfl

/-- The number of nodes of the tree. -/
def nodeCount : Expr → Nat
  | .empty | .lambda | .char _ => 1
  | .concat l r | .union l r => nodeCount l + nodeCount r + 1
  | .star e | .plus e => nodeCount e + 1

/-- The characters that occur in the tree. -/
def chars : Expr → ExtTreeSet Char
  | .empty | .lambda => ∅
  | .char c => {c}
  | .concat l r | .union l r => chars l ∪ chars r
  | .star e | .plus e => chars e

/-! ### The words of an expression -/

/-- `Matches e w`: the word `w` belongs to the language of `e`. -/
inductive Matches : Expr → Word → Prop
  /-- The empty word matches `lambda`. -/
  | lambda : Matches .lambda []
  /-- A character matches itself. -/
  | char (c : Char) : Matches (.char c) [c]
  /-- A word of the left side followed by one of the right side. -/
  | concat {l r : Expr} {u v : Word} : Matches l u → Matches r v → Matches (.concat l r) (u ++ v)
  /-- A word of the left side. -/
  | unionLeft {l r : Expr} {w : Word} : Matches l w → Matches (.union l r) w
  /-- A word of the right side. -/
  | unionRight {l r : Expr} {w : Word} : Matches r w → Matches (.union l r) w
  /-- No repetition at all. -/
  | starNil {e : Expr} : Matches (.star e) []
  /-- One more repetition in front. -/
  | starCons {e : Expr} {u v : Word} :
      Matches e u → Matches (.star e) v → Matches (.star e) (u ++ v)
  /-- A single repetition. -/
  | plusOnce {e : Expr} {w : Word} : Matches e w → Matches (.plus e) w
  /-- One more repetition in front. -/
  | plusCons {e : Expr} {u v : Word} :
      Matches e u → Matches (.plus e) v → Matches (.plus e) (u ++ v)

/-! ### The written form -/

/-- How tightly an expression binds; constants and characters bind tightest. -/
def precedence : Expr → Nat
  | .union _ _ => 0
  | .concat _ _ => 1
  | .star _ | .plus _ => 2
  | .empty | .lambda | .char _ => 3

/-- Puts a written operand in brackets if it binds looser than `least`. -/
def bracket (least : Nat) (operand : Expr) (written : List Char) : List Char :=
  if operand.precedence < least then '(' :: written ++ [')'] else written

/-- The written form, as characters. -/
def text : Expr → List Char
  | .empty => ['∅']
  | .lambda => ['λ']
  | .char c => [c]
  | .concat l r => bracket 1 l (text l) ++ bracket 1 r (text r)
  | .union l r => bracket 0 l (text l) ++ '|' :: bracket 0 r (text r)
  | .star e => bracket 3 e (text e) ++ ['*']
  | .plus e => bracket 3 e (text e) ++ ['+']

instance : ToString Expr where
  toString e := String.ofList e.text

end Expr

end RegexMachine
