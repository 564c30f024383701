import Mathlib.Computability.MyhillNerode
import RegexMachine.Proofs.DFA.Canonical

/-!
# RegexMachine.Proofs.DFA.Residual

**The states of a smallest machine are the left quotients of its language.** The words that lead
from a state to a final one are the left quotient by any word that leads to the state. In a smallest
machine every state is reached by some word over the alphabet, every such word leads somewhere, and
no two states have the same residual language. So the states and the left quotients by words over
the alphabet correspond one to one, and the final states to those quotients that hold the empty
word.
-/

namespace RegexMachine

open Std

namespace DFA

open Automaton

variable {d m : DFA} {p q start : StateId} {u : Word}

theorem acceptsFrom_append (hpath : d.Path p u q) (v : Word) :
    acceptsFrom d p (u ++ v) = acceptsFrom d q v := by
  rw [acceptsFrom, run?_append, run?_eq_some_iff.mpr hpath]
  rfl

/-- No word over the alphabet gets stuck in a complete machine. -/
theorem Total.exists_path (htotal : Total d) (hd : d.WellFormed) (hp : p ∈ d.states)
    (hu : ∀ c ∈ u, c ∈ d.alphabet) : ∃ q ∈ d.states, d.Path p u q := by
  induction u generalizing p with
  | nil => exact ⟨p, hp, .nil p⟩
  | cons c u ih =>
      obtain ⟨hc, hu⟩ := List.forall_mem_cons.mp hu
      obtain ⟨r, hr⟩ := htotal p hp c hc
      obtain ⟨q, hq, hpath⟩ := ih (hd.head_mem hr) hu
      exact ⟨q, hq, .cons hr hpath⟩

section Quotients

variable {L : Language Char} (hL : ∀ w, accepts m w = true ↔ w ∈ L)

include hL in
/-- What leads on from a state is the left quotient by what leads there. -/
theorem residual_eq_leftQuotient (hm : m.WellFormed) (hstart : m.initial = some start)
    (hpath : m.Path start u q) : residual m q = L.leftQuotient u := by
  ext v
  rw [mem_residual hm, ← acceptsFrom_append hpath]
  refine Iff.trans ?_ (hL (u ++ v))
  rw [accepts, hstart]
  rfl

include hL in
theorem Smallest.bijOn_residual (hm : Smallest m) : Set.BijOn (residual m) {q | q ∈ m.states}
    (L.leftQuotient '' {u | ∀ c ∈ u, c ∈ m.alphabet}) := by
  have hwf := hm.wellFormed
  refine ⟨fun q hq => ?_, fun p hp q hq heq => ?_, fun K hK => ?_⟩
  · obtain ⟨start, hstart, u, hpath⟩ := hm.connected q hq
    exact ⟨u, hpath.mem_alphabet hwf, (residual_eq_leftQuotient hL hwf hstart hpath).symm⟩
  · exact hm.reduced p hp q hq ((residual_eq_iff hwf).mp heq)
  · obtain ⟨u, hu, rfl⟩ := hK
    obtain ⟨start, hstart⟩ := hm.initial
    obtain ⟨q, hq, hpath⟩ := hm.total.exists_path hwf (hwf.initial_mem hstart) hu
    exact ⟨q, hq, residual_eq_leftQuotient hL hwf hstart hpath⟩

include hL in
/-- **There is a state for every left quotient.** -/
theorem Smallest.stateCount_eq (hm : Smallest m) :
    m.stateCount = (L.leftQuotient '' {u | ∀ c ∈ u, c ∈ m.alphabet}).ncard :=
  (StateSet.ncard_mem m.states).symm.trans (hm.bijOn_residual hL).ncard_eq

include hL in
/-- The final states are those for the left quotients that hold the empty word. -/
theorem Smallest.size_finals (hm : Smallest m) : m.finals.size =
    {K ∈ L.leftQuotient '' {u | ∀ c ∈ u, c ∈ m.alphabet} | [] ∈ K}.ncard := by
  have hfinals : ∀ q, q ∈ m.finals ↔ [] ∈ residual m q := fun q => by
    rw [mem_residual hm.wellFormed, acceptsFrom_nil, isFinal_iff]
  have hbij := hm.bijOn_residual hL
  have hbij' : Set.BijOn (residual m) {q | q ∈ m.finals}
      {K ∈ L.leftQuotient '' {u | ∀ c ∈ u, c ∈ m.alphabet} | [] ∈ K} := by
    refine ⟨fun q hq => ?_, hbij.injOn.mono fun q hq => hm.wellFormed.finals_mem hq, fun K hK => ?_⟩
    · exact ⟨hbij.mapsTo (hm.wellFormed.finals_mem hq), (hfinals q).mp hq⟩
    · obtain ⟨q, -, rfl⟩ := hbij.surjOn hK.1
      exact ⟨q, (hfinals q).mpr hK.2, rfl⟩
  exact (StateSet.ncard_mem m.finals).symm.trans hbij'.ncard_eq

end Quotients

end DFA

end RegexMachine
