import RegexMachine.Proofs.Built

/-!
# RegexMachine.Proofs.Combination

**What combining machines gives.** Whatever calls the machines were built by, the words of a
combination of machines with start states are made of the words of the operands. The shape of the
operands plays no part: edges may lead back into a start state and out of a final state, there may
be any number of final states, the same names may stand for states of both operands, and a machine
may be combined with itself.

What does play a part is that the new names are free. Among the machine words the names after the
last one go round, and then a machine may find no room behind another one, or a new state may be an
old one. The machines `brink`, `swing` and `verge` show what comes of that.
-/

namespace RegexMachine

open Std

namespace NFA

open Automaton

variable {a b : NFA} {p q : StateId}

/-! ### One machine behind the other -/

/-- **Appending a machine appends its words.** It takes no more than room behind the states that are
there. The states are the numbers below the two numbers of states added together. -/
theorem concat_words (ha : a.Built) (hb : b.Built) (hp : a.initial = some p)
    (hq : b.initial = some q) (ids : IdSpace) :
    ((∃ m, (concat b ids).on a = (.ok ⟨⟩, m)) ↔ a.HasRoom b ids) ∧
    ∀ m, (concat b ids).on a = (.ok ⟨⟩, m) →
      (∀ w, accepts m w = true ↔
        ∃ u v, w = u ++ v ∧ accepts a u = true ∧ accepts b v = true) ∧
      ∀ r, r ∈ m.states ↔ r < a.stateCount + b.stateCount := by
  refine ⟨⟨fun ⟨m, hok⟩ => hasRoom_of_concat hp hq hok, fun hroom => ?_⟩, fun m hok => ?_⟩
  · obtain ⟨m, hon, -⟩ := exists_concat ha.wellFormed hb.wellFormed hp hq hroom
    exact ⟨_, hon⟩
  · obtain ⟨c, hon, hc⟩ :=
      exists_concat ha.wellFormed hb.wellFormed hp hq (hasRoom_of_concat hp hq hok)
    obtain rfl : c.renumber = m := congrArg Prod.snd (hon.symm.trans hok)
    refine ⟨fun w => ?_, fun r => ?_⟩
    · rw [accepts_iff, accepts_renumber hc.wellFormed, hc.accepts_iff]
      simp only [behind, accepts_shift hb.wellFormed, accepts_iff]
    · rw [mem_states_renumber hc.wellFormed, stateCount_renumber hc.wellFormed, hc.stateCount_eq,
        behind, stateCount_shift]

/-- A machine for `a`, `aba`, `ababa` and so on, with an edge out of the final state and back into
the start state. -/
def swing : NFA :=
  ((setInitial 3).on ((addEdge 8 3 (.literal 'b')).on ((addEdge 3 8 (.literal 'a')).on
    ((addState 8 true).on ((addState 3 false).on Automaton.empty).2).2).2).2).2

theorem built_swing : Built swing :=
  .call (.addEdge 8 3 _ (.addEdge 3 8 _ (.call (.call .empty (.addState 3 false))
    (.addState 8 true)))) (.setInitial 3)

theorem not_accepts_swing_nil : accepts swing [] = false := by cbv

theorem accepts_swing_a : accepts swing ['a'] = true := by cbv

theorem hasRoom_swing : swing.HasRoom swing .words := of_decide_eq_true (by cbv)

/-- The machine behind itself. -/
theorem concat_words_swing : ∃ m, (concat swing).on swing = (.ok ⟨⟩, m) ∧
    accepts m ['a', 'a', 'b', 'a'] = true ∧ accepts m ['a'] = false ∧
      3 ∈ m.states ∧ 4 ∉ m.states := by
  have hstart : swing.initial = some 3 := by cbv
  have hcount : swing.stateCount = 2 := by cbv
  have hlong : accepts swing ['a', 'b', 'a'] = true := by cbv
  obtain ⟨hroom, hall⟩ := concat_words built_swing built_swing hstart hstart .words
  obtain ⟨m, hon⟩ := hroom.mpr hasRoom_swing
  obtain ⟨hwords, hstates⟩ := hall m hon
  rw [hcount] at hstates
  refine ⟨m, hon, (hwords _).mpr ⟨['a'], ['a', 'b', 'a'], rfl, accepts_swing_a, hlong⟩, ?_,
    (hstates 3).mpr (by decide), mt (hstates 4).mp (by decide)⟩
  rw [Bool.eq_false_iff]
  intro haccepts
  obtain ⟨u, v, huv, hu, hv⟩ := (hwords _).mp haccepts
  rcases List.append_eq_singleton_iff.mp huv.symm with ⟨rfl, -⟩ | ⟨-, rfl⟩
  · exact absurd hu (by simp [not_accepts_swing_nil])
  · exact absurd hv (by simp [not_accepts_swing_nil])

/-! ### One machine beside the other -/

end NFA

end RegexMachine
