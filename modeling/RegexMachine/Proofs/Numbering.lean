import RegexMachine.Proofs.Automaton.InStep
import RegexMachine.Proofs.Built
import RegexMachine.Proofs.DFA.Access
import RegexMachine.Proofs.DFA.Canonical
import RegexMachine.Proofs.Determinization
import RegexMachine.Proofs.Minimization

/-!
# RegexMachine.Proofs.Numbering

**What numbering the states of a machine does.** Whatever calls a machine of either kind was built
by, numbering gives its states the numbers below their number, breadth-first, and puts the numbers
in the place of the states. So the words stay the same. Only the order of the names counts, and a
numbered machine keeps its names when it is numbered again. Moving the states up keeps the order of
the names, unless some of them go round past the last machine word.

A deterministic machine has one path for a word, and there the numbers can be told from words alone:
the states are numbered in the order of the least words that lead to them. Words say nothing of the
names of states, so if all states can be reached then the numbered machine does not depend on the
names.
-/

namespace RegexMachine

open Std Automaton

/-! ### Either kind of machine -/

/-- **Numbering goes breadth-first and keeps the words.** The numbered machine is the old one with
the numbers in the place of the states. -/
theorem renumber_breadthFirst :
    (∀ n : NFA, n.Built → (∃ f, BreadthFirst f n ∧ Relabeled f n n.renumber) ∧
      ∀ w, NFA.accepts n.renumber w = NFA.accepts n w) ∧
    ∀ d : DFA, d.Built → (∃ f, BreadthFirst f d ∧ Relabeled f d d.renumber) ∧
      ∀ w, DFA.accepts d.renumber w = DFA.accepts d w := by
  constructor
  · intro n hn
    have hwf := hn.wellFormed
    refine ⟨⟨n.number, breadthFirst_number hwf, relabeled_renumber hwf⟩, fun w => ?_⟩
    rw [Bool.eq_iff_iff, NFA.accepts_iff, NFA.accepts_iff, accepts_renumber hwf]
  · intro d hd
    have hwf := hd.wellFormed
    exact ⟨⟨d.number, breadthFirst_number hwf, relabeled_renumber hwf⟩, DFA.accepts_renumber hwf⟩

/-- The name `6` lies between the other two, but the state cannot be reached, so it comes last. What
a machine of the other kind accepts, it accepts when it is numbered. -/
theorem renumber_breadthFirst_tangled :
    (∃ f, f 4 = 0 ∧ f 4 < f 9 ∧ f 9 < f 6 ∧ Relabeled f NFA.tangled NFA.tangled.renumber) ∧
      DFA.accepts DFA.sparse.renumber ['a'] = true := by
  have hstart : NFA.tangled.initial = some 4 := by cbv
  have hfound : NFA.tangled.reachable = [4, 9] := by cbv
  have hstates : 6 ∈ NFA.tangled.states := by cbv
  have hnine : NFA.tangled.Reachable 9 := mem_reachable.mp (by simp [hfound])
  have hsix : ¬ NFA.tangled.Reachable 6 := mt mem_reachable.mpr (by simp [hfound])
  obtain ⟨⟨f, hf, hrelabeled⟩, -⟩ := renumber_breadthFirst.1 NFA.tangled NFA.built_tangled
  refine ⟨⟨f, hf.initial hstart, ?_, hf.reachable hnine hstates hsix, hrelabeled⟩, ?_⟩
  · have hne : f 9 ≠ f 4 := fun heq =>
      absurd (hf.bijOn.injOn (hnine.mem_states NFA.built_tangled.wellFormed)
        (NFA.built_tangled.wellFormed.initial_mem hstart) heq) (by decide)
    rw [hf.initial hstart] at hne ⊢
    exact Nat.pos_of_ne_zero hne
  · rw [(renumber_breadthFirst.2 DFA.sparse DFA.built_sparse).2]
    cbv

/-- A machine in which `b` leads to two states, the greater of which `a` leads to already. A state
with a lesser name than all others cannot be reached. -/
def NFA.fan : NFA :=
  ((setInitial 8).on ((addEdge 8 5 (.literal 'b')).on ((addEdge 8 2 (.literal 'b')).on
    ((addEdge 8 5 (.literal 'a')).on ((addState 8 false).on ((addState 5 true).on
      ((addState 2 false).on ((addState 1 true).on Automaton.empty).2).2).2).2).2).2).2).2

theorem NFA.built_fan : NFA.Built NFA.fan :=
  .call (.addEdge 8 5 _ (.addEdge 8 2 _ (.addEdge 8 5 _ (.call (.call (.call (.call .empty
    (.addState 1 true)) (.addState 2 false)) (.addState 5 true)) (.addState 8 false)))))
      (.setInitial 8)

/-- A machine of two states, the lesser of which is final, and no edges. -/
def DFA.pair : DFA :=
  ((addState 5 false).on ((addState 1 true).on Automaton.empty).2).2

namespace DFA

variable {d : DFA} {start : StateId}

/-! ### Deterministic machines -/

/-- **The numbers of a deterministic machine are told by words.** The states that can be reached
take the first numbers, in the order of the least words that lead to them. So if all states can be
reached, other names for the states make no difference to the numbered machine. -/
theorem renumber_by_least_words (hd : d.Built) (hstart : d.initial = some start) :
    Relabeled d.number d d.renumber ∧ (∀ q, d.Reachable q ↔ ∃ w, LeastAccess d w q) ∧
    (∀ p q u v, LeastAccess d u p → LeastAccess d v q →
      (d.number p < d.number q ↔ List.Shortlex (· < ·) u v)) ∧
    (∀ q, d.Reachable q → ∀ i < d.number q, ∃ p, d.Reachable p ∧ d.number p = i) ∧
    ((∀ q ∈ d.states, d.Reachable q) → ∀ (f : StateId → StateId) (d' : DFA),
      Set.InjOn f {q | q ∈ d.states} → Relabeled f d d' → d'.renumber = d.renumber) := by
  have hwf := hd.wellFormed
  refine ⟨relabeled_renumber hwf, fun q => reachable_iff_exists_leastAccess hstart,
    fun p q u v hu hv => number_lt_iff_shortlex hwf hu hv,
    fun q hq i hi => exists_reachable_of_lt_number hwf hq hi, fun hconnected f d' hf hd' => ?_⟩
  rw [hd'.eq_relabel hwf hf]
  exact renumber_relabel hconnected hwf hf

/-- A machine whose start state has the greatest name but one, with two ways to its last state. -/
def kite : DFA :=
  ((setInitial 7).on ((addEdge 9 4 'b').on ((addEdge 2 4 'a').on ((addEdge 7 9 'a').on
    ((addEdge 7 2 'b').on ((addState 9 false).on ((addState 7 false).on ((addState 4 true).on
      ((addState 2 false).on Automaton.empty).2).2).2).2).2).2).2).2).2

theorem built_kite : Built kite :=
  .call (.addEdge 9 4 'b' (.addEdge 2 4 'a' (.addEdge 7 9 'a' (.addEdge 7 2 'b' (.call (.call
    (.call (.call .empty (.addState 2 false)) (.addState 4 true)) (.addState 7 false))
      (.addState 9 false)))))) (.setInitial 7)

/-- `9` comes before `2`, and turning the order of the names around does not change that. -/
theorem renumber_by_least_words_kite :
    (∃ u v, LeastAccess kite u 9 ∧ LeastAccess kite v 2 ∧ List.Shortlex (· < ·) u v) ∧
      (kite.relabel (10 - ·)).renumber = kite.renumber := by
  have hstart : kite.initial = some 7 := by cbv
  have hstates : kite.states.toList = [2, 4, 7, 9] := by cbv
  have hlisting : kite.reachable = [7, 9, 2, 4] := by cbv
  have hfound : ∀ q ∈ kite.states.toList, q ∈ kite.reachable := by
    rw [hstates, hlisting]
    decide
  have hle : ∀ q ∈ kite.states.toList, q ≤ 10 := by
    rw [hstates]
    decide
  have hreachable : ∀ q ∈ kite.states, kite.Reachable q := fun q hq =>
    mem_reachable.mp (hfound q (ExtTreeSet.mem_toList.mpr hq))
  have hapart : Apart (10 - ·) kite := fun p hp q hq heq => by
    have hp : p ≤ 10 := hle p (ExtTreeSet.mem_toList.mpr hp)
    have hq : q ≤ 10 := hle q (ExtTreeSet.mem_toList.mpr hq)
    exact (tsub_right_inj hp hq).mp heq
  have hlt : kite.number 9 < kite.number 2 := by cbv
  obtain ⟨-, hleast, hnumber, -, hnames⟩ := renumber_by_least_words built_kite hstart
  obtain ⟨u, hu⟩ := (hleast 9).mp (hreachable 9 (ExtTreeSet.mem_toList.mp (by simp [hstates])))
  obtain ⟨v, hv⟩ := (hleast 2).mp (hreachable 2 (ExtTreeSet.mem_toList.mp (by simp [hstates])))
  exact ⟨⟨u, v, hu, hv, (hnumber 9 2 u v hu hv).mp hlt⟩,
    hnames hreachable _ _ hapart (relabeled_relabel built_kite.wellFormed hapart)⟩

end DFA

end RegexMachine
