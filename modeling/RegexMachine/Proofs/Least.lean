import RegexMachine.Proofs.Compilation
import RegexMachine.Proofs.Minimization

/-!
# RegexMachine.Proofs.Least

**An expression is compiled to the smallest complete machine for its words.** If all states of a
machine can be reached, then minimizing it gives a complete machine, and no complete machine for the
same words over the same alphabet has fewer states. One that has as many is the same machine under
other names, so numbering its states makes the two equal. As far as edges are missing, this asks for
a free name: what becomes of `ledge` is no machine for its words, let alone the least.

`Recognizes` says which machines are compared, and `Least` what is claimed of one of them.
-/

namespace RegexMachine

open Std

namespace DFA

open Automaton

/-! ### Machines for the same words -/

/-- `d` is built by calls, has a start state, lacks no edge over `alphabet`, and accepts the words
that `words` holds of. -/
structure Recognizes (d : DFA) (alphabet : ExtTreeSet Char) (words : Word → Prop) : Prop where
  built : d.Built
  initial : ∃ q, d.initial = some q
  complete : isComplete d = true
  alphabet_eq : d.alphabet = alphabet
  accepts_iff (w : Word) : accepts d w = true ↔ words w

/-- `m` has the fewest states of the machines that recognize the words, and those with as many are
equal to it once they are numbered. -/
structure Least (m : DFA) (alphabet : ExtTreeSet Char) (words : Word → Prop) : Prop
    extends Recognizes m alphabet words where
  stateCount_le {d : DFA} : Recognizes d alphabet words → m.stateCount ≤ d.stateCount
  renumber_eq {d : DFA} :
    Recognizes d alphabet words → d.stateCount = m.stateCount → d.renumber = m

variable {d m : DFA} {alphabet : ExtTreeSet Char} {words : Word → Prop}

theorem Recognizes.acceptor (h : Recognizes d alphabet words) : Acceptor d :=
  ⟨h.built.wellFormed, isComplete_iff.mp h.complete, h.initial⟩

/-- A smallest machine is the least one once it is numbered. -/
theorem Smallest.least (hm : Smallest m) (hbuilt : Built m.renumber)
    (halphabet : m.alphabet = alphabet) (haccepts : ∀ w, accepts m w = true ↔ words w) :
    Least m.renumber alphabet words := by
  have hcount : m.renumber.stateCount = m.stateCount := stateCount_renumber hm.wellFormed
  have hsame : ∀ {d}, Recognizes d alphabet words →
      m.alphabet = d.alphabet ∧ ∀ w, accepts m w = accepts d w := fun h =>
    ⟨halphabet.trans h.alphabet_eq.symm,
      fun w => Bool.eq_iff_iff.mpr ((haccepts w).trans (h.accepts_iff w).symm)⟩
  refine ⟨⟨hbuilt, ?_, ?_, halphabet, fun w => ?_⟩, fun h => ?_, fun h heq => ?_⟩
  · obtain ⟨q, hq⟩ := hm.initial
    exact ⟨_, initial_renumber hq⟩
  · exact isComplete_iff.mpr (hm.total.relabel hm.wellFormed (apart_number hm.wellFormed))
  · rw [accepts_renumber hm.wellFormed, haccepts]
  · obtain ⟨halphabet, haccepts⟩ := hsame h
    rw [hcount]
    exact hm.stateCount_le h.acceptor halphabet haccepts
  · obtain ⟨halphabet, haccepts⟩ := hsame h
    have hd := hm.of_stateCount_le h.acceptor halphabet haccepts (heq.trans hcount).le
    exact (renumber_eq_of_accepts_eq hm hd halphabet haccepts).symm

end DFA

/-! ### Expressions -/

theorem Expr.built_of_compile {e : Expr} {m : DFA} (h : e.compile.outcome = .ok m) : m.Built := by
  obtain ⟨n, hn, hrep⟩ := exists_toNFA e
  rw [compile, hn, Traced.bind_of_ok rfl, Traced.bind_of_ok rfl] at h
  have h : (NFA.determinize n >>= (DFA.minimize · .words)).outcome = .ok m := h
  rw [Traced.outcome_bind] at h
  cases hd : (NFA.determinize n).outcome with
  | error fault =>
      rw [hd] at h
      cases h
  | ok d =>
      rw [hd] at h
      exact .minimize (.determinize hrep.built hd) h

namespace DFA

end DFA

end RegexMachine
