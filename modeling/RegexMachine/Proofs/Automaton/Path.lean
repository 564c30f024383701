import RegexMachine.Proofs.Automaton.WellFormed

/-!
# RegexMachine.Proofs.Automaton.Path

**Paths and the words they spell.** A path follows edges one after the other, and the word it spells
is what is read along them; empty moves read nothing. A machine accepts a word in this sense if a
path from the start state to a final state spells it.

Both kinds of machines read words by procedures of their own. For deterministic machines it is shown
here that the procedure decides whether there is such a path.
-/

namespace RegexMachine

open Std

namespace Automaton

variable {κ τ : Type} [Ord κ] [TransOrd κ] [Target τ] [Lettered κ]

/-- `m.Path p w q`: a path from `p` to `q` spells `w`. -/
inductive Path (m : Automaton κ τ) : StateId → Word → StateId → Prop
  /-- Staying where one is. -/
  | nil (q : StateId) : Path m q [] q
  /-- One edge, and a path behind it. -/
  | cons {p q r : StateId} {k : κ} {w : Word} :
      m.Edge p k q → Path m q w r → Path m p (Lettered.letters k ++ w) r

/-- A path from the start state to a final state spells the word. -/
def Accepts (m : Automaton κ τ) (w : Word) : Prop :=
  ∃ p, m.initial = some p ∧ ∃ q ∈ m.finals, m.Path p w q

namespace Path

variable {m n : Automaton κ τ} {p q r : StateId} {u v w : Word}

theorem single {k : κ} (h : m.Edge p k q) : m.Path p (Lettered.letters k) q := by
  have hpath := Path.cons h (Path.nil q)
  rwa [List.append_nil] at hpath

theorem append (hu : m.Path p u q) (hv : m.Path q v r) : m.Path p (u ++ v) r := by
  induction hu with
  | nil => exact hv
  | cons hedge _ ih =>
      rw [List.append_assoc]
      exact .cons hedge (ih hv)

theorem mono (hedge : ∀ p k q, m.Edge p k q → n.Edge p k q) (h : m.Path p w q) :
    n.Path p w q := by
  induction h with
  | nil => exact .nil _
  | cons h _ ih => exact .cons (hedge _ _ _ h) ih

/-- A path never leaves the states. -/
theorem mem_states (hm : m.WellFormed) (hp : p ∈ m.states) (h : m.Path p w q) :
    q ∈ m.states := by
  induction h with
  | nil => exact hp
  | cons hedge _ ih => exact ih (hm.head_mem hedge)

/-- Only characters of the alphabet are read along a path. -/
theorem mem_alphabet (hm : m.WellFormed) (h : m.Path p w q) : ∀ c ∈ w, c ∈ m.alphabet := by
  induction h with
  | nil => exact fun c hc => absurd hc List.not_mem_nil
  | cons hedge _ ih =>
      intro c hc
      rcases List.mem_append.mp hc with hc | hc
      · exact hm.mem_alphabet.mpr ⟨_, _, _, hedge, hc⟩
      · exact ih c hc

end Path

omit [TransOrd κ] [Target τ] [Lettered κ] in
theorem isFinal_iff {m : Automaton κ τ} {q : StateId} : m.isFinal q = true ↔ q ∈ m.finals :=
  ExtTreeSet.contains_iff_mem

theorem Accepts.mem_alphabet {m : Automaton κ τ} (hm : m.WellFormed) {w : Word}
    (h : m.Accepts w) : ∀ c ∈ w, c ∈ m.alphabet := by
  obtain ⟨_, _, _, _, hpath⟩ := h
  exact hpath.mem_alphabet hm

end Automaton

namespace DFA

open Automaton

theorem run?_eq_some_iff {d : DFA} {p q : StateId} {w : Word} :
    run? d p w = some q ↔ d.Path p w q := by
  constructor
  · intro h
    induction w generalizing p with
    | nil => exact Option.some.inj h ▸ .nil p
    | cons c w ih =>
        obtain ⟨r, hr, hw⟩ := Option.bind_eq_some_iff.mp h
        exact .cons (edge_iff_next?.mpr hr) (ih hw)
  · intro h
    induction h with
    | nil q => rfl
    | cons hedge _ ih =>
        rw [letters_char, List.singleton_append, run?_cons, edge_iff_next?.mp hedge,
          Option.bind_some, ih]

theorem acceptsFrom_iff {d : DFA} {p : StateId} {w : Word} :
    acceptsFrom d p w = true ↔ ∃ q ∈ d.finals, d.Path p w q := by
  rw [acceptsFrom, Option.any_eq_true]
  constructor
  · intro h
    obtain ⟨q, hq, hfinal⟩ := h
    exact ⟨q, isFinal_iff.mp hfinal, run?_eq_some_iff.mp hq⟩
  · intro h
    obtain ⟨q, hfinal, hq⟩ := h
    exact ⟨q, run?_eq_some_iff.mpr hq, isFinal_iff.mpr hfinal⟩

theorem accepts_iff {d : DFA} {w : Word} : accepts d w = true ↔ d.Accepts w := by
  rw [accepts, Option.any_eq_true]
  exact exists_congr fun p => and_congr Iff.rfl acceptsFrom_iff

end DFA

end RegexMachine
