import RegexMachine.Proofs.NFA.InOrder
import RegexMachine.Proofs.NFA.OnePass
import RegexMachine.Proofs.Numbering

/-!
# RegexMachine.Proofs.Discovery

**The sets of states keep the numbers under which they are reported.** Making a machine
deterministic ends with numbering the states, and that changes nothing: the sets of states come up
in the order in which the numbering comes upon their states. So the state that a record names for a
set is the state that stands for the set in the machine that is answered.

The machine is built over the list of the sets. It is the one that comes out when it is built turn
by turn while the sets come up, and the records are those made on the way.
-/

namespace RegexMachine

open Std Relation

namespace NFA

open Automaton Construction

variable {n : NFA} {sets : List StateSet} {d : DFA} {start : StateId} {s : StateSet} {i : StateId}

/-- The sets reported are those that come up after the first one, each with its place. -/
theorem mem_discoveries : Record.discovered s i ∈ discoveries sets ↔ i ≠ 0 ∧ sets[i]? = some s := by
  cases sets with
  | nil => simp [discoveries]
  | cons first rest =>
      have hmem : Record.discovered s i ∈ discoveries (first :: rest) ↔ (s, i) ∈ rest.zipIdx 1 := by
        show Record.discovered s i ∈ (rest.zipIdx 1).map _ ↔ _
        simp
      rw [hmem, List.mk_mem_zipIdx_iff_le_and_getElem?_sub, Nat.one_le_iff_ne_zero]
      refine and_congr_right fun hi => ?_
      obtain ⟨j, rfl⟩ := Nat.exists_eq_succ_of_ne_zero hi
      rfl

/-- A set is reported with the state that the words lead to by which the set is reached. -/
theorem Determined.discovered_iff (hd : Determined n sets d) (h : Explored n start sets) :
    Record.discovered s i ∈ discoveries sets ↔ i ∈ d.states ∧ i ≠ 0 ∧
      ∀ w : Word, (∀ c ∈ w, c ∈ n.alphabet) →
        (DFA.run? d 0 w = some i ↔ moves n (closure n {start}) w = s) := by
  have hrun : ∀ w : Word, (∀ c ∈ w, c ∈ n.alphabet) →
      (DFA.run? d 0 w = some i ↔ sets[i]? = some (moves n (closure n {start}) w)) := fun w hw => by
    rw [DFA.run?_eq_some_iff, hd.path_iff h h.first, and_iff_right hw]
  rw [mem_discoveries]
  constructor
  · rintro ⟨hi, hs⟩
    refine ⟨hd.mem_states.mpr (List.getElem?_eq_some_iff.mp hs).1, hi, fun w hw => ?_⟩
    rw [hrun w hw, hs, Option.some.injEq, eq_comm]
  · rintro ⟨hi, hne, hwords⟩
    obtain ⟨t, ht⟩ : ∃ t, sets[i]? = some t :=
      ⟨_, List.getElem?_eq_getElem (hd.mem_states.mp hi)⟩
    obtain ⟨w, hw, rfl⟩ := h.exists_word (List.mem_of_getElem? ht)
    rw [← (hwords w hw).mp ((hrun w hw).mpr ht)]
    exact ⟨hne, ht⟩

/-- **The sets of states are numbered as they come up.** Built turn by turn, the machine comes out
as it does over the list of sets: no turn is ever refused, and however many have been made, the
others lead to the end. Numbering this machine changes nothing, so it is the one that is answered,
and the records made on the way name the state of a set in it: the one that a word over the alphabet
leads to exactly if it leads to the set. All states but the first are reported. -/
theorem determinize_in_order (hstart : n.initial = some start) :
    ∃ x y, Construction.start n (closure n {start}) = .ok x ∧
      (∀ z, ReflTransGen (Turn n) x z → ReflTransGen (Turn n) z y) ∧ y.queue = [] ∧
      subsetMachine n (subsets n (closure n {start})) = .ok y.machine ∧
      y.machine.renumber = y.machine ∧
      determinize n = ⟨.ok y.machine,
        y.records ++ [.determinized n.stateCount y.machine.stateCount]⟩ ∧
      ∀ s i, Record.discovered s i ∈ y.records ↔ i ∈ y.machine.states ∧ i ≠ 0 ∧
        ∀ w : Word, (∀ c ∈ w, c ∈ n.alphabet) →
          (DFA.run? y.machine 0 w = some i ↔ moves n (closure n {start}) w = s) := by
  have hexplored := explored_subsets n start
  obtain ⟨x, y, hx, hturns, hend⟩ := exists_end n (closure n {start})
  obtain ⟨d, hbuild, hd⟩ := hexplored.exists_determined
  obtain ⟨e, he, hdeterminize⟩ := exists_determinizing hstart
  -- There is one machine over the sets, however it is built.
  obtain rfl : y.machine = d := hend.determined.unique hd
  obtain rfl : y.machine = e := hend.determined.unique he
  refine ⟨x, y, hx, fun z hz => turns_of_turns hturns hend.queue hz, hend.queue, hbuild,
    hd.renumber_eq, ?_, fun s i => ?_⟩
  · rw [hdeterminize, hd.renumber_eq, hend.records]
  · rw [hend.records]
    exact hd.discovered_iff hexplored

/-- `a` leads to one state and `b` to two, and after either of them `b` leads to none. -/
theorem determinize_in_order_fan : ∃ d, (determinize fan).outcome = .ok d ∧ d.renumber = d ∧
    DFA.run? d 0 ['a'] = some 1 ∧ DFA.run? d 0 ['b'] = some 2 ∧
      DFA.run? d 0 ['a', 'b'] = some 3 := by
  have hstart : fan.initial = some 8 := by cbv
  have hletters : 'a' ∈ fan.alphabet ∧ 'b' ∈ fan.alphabet := by constructor <;> cbv
  have hreported : (determinize fan).records =
      [.discovered (moves fan (closure fan {8}) ['a']) 1,
        .discovered (moves fan (closure fan {8}) ['b']) 2,
        .discovered (moves fan (closure fan {8}) ['a', 'b']) 3, .determinized 4 4] :=
    of_decide_eq_true (by cbv)
  obtain ⟨x, y, -, -, -, -, hnumbered, hdeterminize, hrecords⟩ := determinize_in_order hstart
  have hled : ∀ (w : Word) i, (∀ c ∈ w, c ∈ fan.alphabet) →
      Record.discovered (moves fan (closure fan {8}) w) i ∈ (determinize fan).records →
        DFA.run? y.machine 0 w = some i := by
    intro w i hw hmem
    have hmade : Record.discovered (moves fan (closure fan {8}) w) i ∈ y.records := by
      simpa [hdeterminize] using hmem
    exact (((hrecords _ i).mp hmade).2.2 w hw).mpr rfl
  refine ⟨y.machine, by rw [hdeterminize], hnumbered, ?_, ?_, ?_⟩
  · exact hled ['a'] 1 (by simp [hletters]) (by simp [hreported])
  · exact hled ['b'] 2 (by simp [hletters]) (by simp [hreported])
  · exact hled ['a', 'b'] 3 (by simp [hletters]) (by simp [hreported])

end NFA

end RegexMachine
