import Mathlib.Data.Char
import RegexMachine.Proofs.Automaton.Numbering

/-!
# RegexMachine.Proofs.DFA.Access

**The words that lead to a state.** In a deterministic machine the successors of a state are listed
in the order of the characters that lead to them, so words are routes. Every state that can be
reached has a least word that leads to it, and the states are numbered in the order of these words.

Words are compared by their lengths first, and words of one length character by character, by code
point.
-/

namespace RegexMachine

open Std Search

instance wellFoundedLT_char : WellFoundedLT Char := ⟨InvImage.wf Char.toNat Nat.lt_wfRel.wf⟩

namespace DFA

open Automaton

variable {d : DFA} {p q start : StateId} {u v w : Word}

/-! ### Words as routes -/

/-- The edges of a state by their characters. -/
def arrows (d : DFA) (q : StateId) : List (Char × StateId) :=
  (d.edgesFrom? q).elim [] ExtTreeMap.toList

theorem labeled_arrows (d : DFA) : Labeled d.successors (arrows d) where
  heads q := by
    unfold arrows successors
    cases d.edgesFrom? q with
    | none => rfl
    | some out => exact List.map_eq_flatMap
  ascending q := by
    unfold arrows
    cases d.edgesFrom? q with
    | none => exact .nil
    | some out => exact out.ordered_keys_toList.imp fun h => compareOfLessAndEq_eq_lt.mp h

theorem mem_arrows {c : Char} : (c, q) ∈ arrows d p ↔ d.Edge p c q := by
  rw [edge_iff_next?, next?, target?, arrows]
  cases d.edgesFrom? p with
  | none => simp
  | some out => simp

theorem route_append_of_path {r : StateId} (h : d.Path p w q) (hu : Route (arrows d) r u p) :
    Route (arrows d) r (u ++ w) q := by
  induction h generalizing u with
  | nil => rwa [List.append_nil]
  | @cons _ _ _ c w hedge _ ih =>
      have hnext := ih (hu.snoc (mem_arrows.mpr hedge))
      rwa [List.append_assoc] at hnext

/-- The routes of a deterministic machine are the words that it reads. -/
theorem route_iff_path : Route (arrows d) p w q ↔ d.Path p w q := by
  constructor
  · intro h
    induction h with
    | nil => exact .nil p
    | snoc _ hc ih => exact ih.append (.single (mem_arrows.mp hc))
  · intro h
    exact route_append_of_path h .nil

/-- The word leads from the start state to `q`. -/
def Accesses (d : DFA) (w : Word) (q : StateId) : Prop :=
  ∃ start, d.initial = some start ∧ run? d start w = some q

theorem accesses_iff_route (hstart : d.initial = some start) :
    Accesses d w q ↔ Route (arrows d) start w q := by
  rw [Accesses, hstart]
  simp only [Option.some.injEq, exists_eq_left', run?_eq_some_iff, route_iff_path]

theorem reachable_iff_exists_accesses : d.Reachable q ↔ ∃ w, Accesses d w q := by
  unfold Reachable Accesses
  simp only [run?_eq_some_iff]
  constructor
  · intro h
    obtain ⟨start, hstart, w, hw⟩ := h
    exact ⟨w, start, hstart, hw⟩
  · intro h
    obtain ⟨w, start, hstart, hw⟩ := h
    exact ⟨start, hstart, w, hw⟩

/-! ### Least words -/

/-- `w` is the first word that leads to `q`. Shorter words come first, and words of one length are
compared character by character. -/
structure LeastAccess (d : DFA) (w : Word) (q : StateId) : Prop where
  accesses : Accesses d w q
  not_before {u : Word} : Accesses d u q → ¬ List.Shortlex (· < ·) u w

theorem leastAccess_iff_leastRoute (hstart : d.initial = some start) :
    LeastAccess d w q ↔ LeastRoute (arrows d) start w q := by
  constructor
  · intro h
    exact ⟨(accesses_iff_route hstart).mp h.accesses, fun hu =>
      h.not_before ((accesses_iff_route hstart).mpr hu)⟩
  · intro h
    exact ⟨(accesses_iff_route hstart).mpr h.route, fun hu =>
      h.not_before ((accesses_iff_route hstart).mp hu)⟩

/-- Among the words that lead to a state there is a first one. -/
theorem reachable_iff_exists_leastAccess (hstart : d.initial = some start) :
    d.Reachable q ↔ ∃ w, LeastAccess d w q := by
  rw [reachable_iff_exists_accesses]
  constructor
  · intro h
    obtain ⟨w, hw⟩ := h
    obtain ⟨v, hv⟩ := exists_leastRoute ((accesses_iff_route hstart).mp hw)
    exact ⟨v, (leastAccess_iff_leastRoute hstart).mpr hv⟩
  · intro h
    obtain ⟨w, hw⟩ := h
    exact ⟨w, hw.accesses⟩

theorem LeastAccess.reachable (h : LeastAccess d w q) : d.Reachable q :=
  reachable_iff_exists_accesses.mpr ⟨w, h.accesses⟩

theorem shortlex_of_number_lt (hu : LeastAccess d u p) (hv : LeastAccess d v q)
    (hlt : d.number p < d.number q) : List.Shortlex (· < ·) u v := by
  obtain ⟨start, hstart, -⟩ := hu.reachable
  exact before_of_number_lt (labeled_arrows d) hstart hu.reachable hv.reachable hlt u v
    ((leastAccess_iff_leastRoute hstart).mp hu) ((leastAccess_iff_leastRoute hstart).mp hv)

/-- The states are numbered in the order of the least words that lead to them. -/
theorem number_lt_iff_shortlex (hd : d.WellFormed) (hu : LeastAccess d u p)
    (hv : LeastAccess d v q) : d.number p < d.number q ↔ List.Shortlex (· < ·) u v := by
  constructor
  · exact shortlex_of_number_lt hu hv
  · intro h
    refine number_lt_of_not_lt hd (hu.reachable.mem_states hd) (hv.reachable.mem_states hd) ?_ ?_
    · intro heq
      exact hv.not_before (heq ▸ hu.accesses) h
    · intro hback
      exact Std.Asymm.asymm u v h (shortlex_of_number_lt hv hu hback)

end DFA

end RegexMachine
