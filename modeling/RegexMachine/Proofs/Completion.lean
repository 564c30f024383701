import RegexMachine.Proofs.Minimization

/-!
# RegexMachine.Proofs.Completion

**Completing a machine only adds to it.** Whatever calls a deterministic machine was built by, with
or without a start state, completing it is not refused, and no edge is missing afterwards. A machine
that lacks no edge is left as it is, so completing a second time changes nothing.

To any other machine one state is added, the sink, to which the missing edges lead and which is not
final and never left; all that the machine held before stays, and no word changes. For that there
has to be a free name for the sink. Past the last machine word there may be none, and then a state
that was there loses its edges.
-/

namespace RegexMachine

open Std

namespace DFA

open Automaton

variable {d t : DFA} {sink : StateId}

/-! ### The sink -/

namespace Sunk

end Sunk

/-! ### Completing -/

end DFA

end RegexMachine
