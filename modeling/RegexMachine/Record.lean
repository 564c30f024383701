import RegexMachine.Expr.Basic
import RegexMachine.StateSet

/-!
# RegexMachine.Record

**What a compilation reports.** A record is something worth knowing about a step of a compilation:
how large a machine came out, which set of states a state stands for, how a block of states was
split. A record is kept as data; its level and its sentence are functions of it.
-/

namespace RegexMachine

open Std

/-- How closely a record follows the work. -/
inductive Level where
  /-- One record for a stage. -/
  | debug
  /-- One record for a turn within a stage. -/
  | trace
  deriving DecidableEq, Repr

/-- The name of a level. -/
def Level.name : Level → String
  | .debug => "DEBUG"
  | .trace => "TRACE"

/-- A report of one step of a compilation. -/
inductive Record where
  /-- A nondeterministic machine was built for an expression. -/
  | built (states : Nat) (expr : Expr)
  /-- A set of states came up for the first time and was given a state. -/
  | discovered (subset : StateSet) (state : StateId)
  /-- A nondeterministic machine was made deterministic. -/
  | determinized (before after : Nat)
  /-- A block was split by where a character leads. -/
  | split (size : Nat) (c : Char) (inside outside : Nat)
  /-- A deterministic machine was minimized. -/
  | minimized (before after : Nat)
  /-- An expression was compiled. -/
  | compiled (expr : Expr) (states : Nat)
  deriving DecidableEq

namespace Record

/-- Stages are reported for debugging, turns within a stage for tracing. -/
def level : Record → Level
  | .discovered _ _ | .split _ _ _ _ => .trace
  | .built _ _ | .determinized _ _ | .minimized _ _ | .compiled _ _ => .debug

/-! ### Sentences -/

/-- A set of states in braces, ascending. -/
def setText (s : StateSet) : String :=
  "\x7b" ++ ", ".intercalate (s.toList.map toString) ++ "\x7d"

/-- What stands between the quotes for a character. Quote and backslash are escaped, the usual
control characters have a letter, and the other control characters of ASCII are given by their
hexadecimal number. All other ASCII characters stand for themselves. Beyond ASCII a character that
is `printable` stands for itself and any other is given by its number; which ones are printable is
for the tables of Unicode to say. -/
def escaped (printable : Char → Bool) (c : Char) : List Char :=
  if c = '\x27' then ['\\', '\x27']
  else if c = '\\' then ['\\', '\\']
  else if c = '\n' then ['\\', 'n']
  else if c = '\t' then ['\\', 't']
  else if c = '\r' then ['\\', 'r']
  else if c.toNat = 0 then ['\\', '0']
  else if c.toNat < 32 ∨ c.toNat = 127 ∨ (127 < c.toNat ∧ printable c = false) then
    ['\\', 'u', '\x7b'] ++ Nat.toDigits 16 c.toNat ++ ['\x7d']
  else [c]

/-- A character in single quotes. -/
def quoted (printable : Char → Bool) (c : Char) : String :=
  String.ofList ('\x27' :: escaped printable c ++ ['\x27'])

/-- The sentence of a record. -/
def message (record : Record) (printable : Char → Bool := fun _ => true) : String :=
  match record with
  | .built states expr => s!"built nfa of {states} states for {expr}"
  | .discovered subset state => s!"discovered subset {setText subset} as dfa state {state}"
  | .determinized before after =>
      s!"determinized nfa of {before} states into dfa of {after} states"
  | .split size c inside outside =>
      s!"splitting block of {size} on {quoted printable c} into {inside} + {outside}"
  | .minimized before after => s!"minimized dfa from {before} to {after} states"
  | .compiled expr states => s!"compiled {expr} into dfa of {states} states"

end Record

end RegexMachine
