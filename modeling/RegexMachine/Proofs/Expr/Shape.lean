import RegexMachine.Proofs.Automaton.InStep
import RegexMachine.Proofs.Expr.Thompson

/-!
# RegexMachine.Proofs.Expr.Shape

**The machine for an expression has a shape that the expression settles.** The numbers of its states
and of its final states can be read off the expression, its states are numbered without a gap and in
breadth-first order, and it is sealed: nothing leads into its start state and nothing leads out of a
final state.

The induction is on the expression. No state is lost when machines are combined, not even one that
cannot be reached, for the parts share no state and the numbers keep all states apart. A combination
is sealed if its parts are, and a repetition is sealed whatever is repeated.
-/

namespace RegexMachine

open Std

/-! ### Sealed machines -/

namespace Automaton

variable {κ τ : Type} [Ord κ] [TransOrd κ] [Target τ]

/-- Nothing leads into the start state, and nothing leads out of a final state. -/
structure Sealed (m : Automaton κ τ) : Prop where
  not_edge_initial {p q : StateId} {k : κ} : m.initial = some q → ¬ m.Edge p k q
  not_edge_final {p q : StateId} {k : κ} : p ∈ m.finals → ¬ m.Edge p k q

theorem Sealed.relabel [LawfulEqOrd κ] [Lettered κ] {m : Automaton κ τ} {f : StateId → StateId}
    (h : Sealed m) (hm : m.WellFormed) (hf : Apart f m) : Sealed (m.relabel f) where
  not_edge_initial {r s k} hs hedge := by
    obtain ⟨start, hstart, rfl⟩ := Option.map_eq_some_iff.mp hs
    obtain ⟨p, q, hold, -, heq⟩ := (edge_relabel hm hf).mp hedge
    have hq : q = start := hf (hm.head_mem hold) (hm.initial_mem hstart) heq
    exact h.not_edge_initial hstart (hq ▸ hold)
  not_edge_final {r s k} hr hedge := by
    obtain ⟨p, hp, rfl⟩ := mem_finals_relabel.mp hr
    obtain ⟨q, hold, -⟩ := (edge_relabel_apply hm hf (hm.finals_mem hp)).mp hedge
    exact h.not_edge_final hp hold

/-- With at most two states, the start state being `0`, there is only one way to number them. -/
theorem renumber_eq_self_of_le_two [LawfulEqOrd κ] [Lettered κ] {m : Automaton κ τ}
    (hm : m.WellFormed) (hstates : ∀ q, q ∈ m.states ↔ q < m.stateCount) (hle : m.stateCount ≤ 2)
    (hinitial : m.initial = some 0) : m.renumber = m := by
  have hzero : m.number 0 = 0 := number_initial hinitial
  have hone : ∀ i : Nat, i < m.stateCount → i ≠ 0 → i = 1 := by omega
  refine relabel_eq_self hm fun q hq => ?_
  show m.number q = q
  by_cases hq0 : q = 0
  · rw [hq0, hzero]
  · have hne : m.number q ≠ 0 := fun heq =>
      hq0 (apart_number hm hq (hm.initial_mem hinitial) (heq.trans hzero.symm))
    rw [hone _ ((number_lt_iff hm).mpr hq) hne, hone q ((hstates q).mp hq) hq0]

end Automaton

namespace NFA

open Automaton

variable {a b m : NFA}

theorem sealed_of_edges_eq {n : NFA} (h : n.edges = ∅) : Sealed n := by
  have hnone : ∀ p k q, ¬ n.Edge p k q := fun p k q hedge =>
    not_edge_empty p k q ((edge_of_edges_eq (n := Automaton.empty) h p k q).mp hedge)
  exact ⟨fun _ => hnone _ _ _, fun _ => hnone _ _ _⟩

theorem sealed_ofChar (c : Char) : Sealed (ofChar c) where
  not_edge_initial {p q k} hq hedge := by
    obtain ⟨-, -, hone⟩ := edge_ofChar.mp hedge
    have hzero : 0 = q := Option.some.inj hq
    exact absurd (hzero.trans hone.symm) (by decide)
  not_edge_final {p q k} hp hedge := by
    obtain ⟨hzero, -, -⟩ := edge_ofChar.mp hedge
    have hone : 1 = p := StateSet.mem_singleton.mp hp
    exact absurd (hzero.trans hone.symm) (by decide)

theorem Concatenated.sealed (h : Concatenated a b m) (ha : Sealed a) (hb : Sealed b) :
    Sealed m where
  not_edge_initial {p q k} hq hedge := by
    rw [h.initial] at hq
    have hqa : q ∈ a.states := h.left.initial_mem hq
    rcases h.edge.mp hedge with (hedge | hedge) | ⟨-, -, hstart⟩
    · exact ha.not_edge_initial hq hedge
    · exact h.disjoint q hqa (h.right.head_mem hedge)
    · exact h.disjoint q hqa (h.right.initial_mem hstart)
  not_edge_final {p q k} hp hedge := by
    rw [h.finals] at hp
    have hpb : p ∈ b.states := h.right.finals_mem hp
    rcases h.edge.mp hedge with (hedge | hedge) | ⟨-, hfinal, -⟩
    · exact h.disjoint p (h.left.tail_mem hedge) hpb
    · exact hb.not_edge_final hp hedge
    · exact h.disjoint p (h.left.finals_mem hfinal) hpb

theorem United.sealed {fork : StateId} (h : United a b fork m) (ha : Sealed a) (hb : Sealed b) :
    Sealed m where
  not_edge_initial {p q k} hq hedge := by
    cases h.initial.symm.trans hq
    rcases h.edge.mp hedge with (hedge | hedge) | ⟨-, -, hstart | hstart⟩
    · exact h.fresh.1 (h.left.head_mem hedge)
    · exact h.fresh.2 (h.right.head_mem hedge)
    · exact h.fresh.1 (h.left.initial_mem hstart)
    · exact h.fresh.2 (h.right.initial_mem hstart)
  not_edge_final {p q k} hp hedge := by
    rcases h.mem_finals.mp hp with hp | hp
    · rcases (h.part_left p (h.left.finals_mem hp) k q).mp hedge with hedge | ⟨-, -, hexit⟩
      · exact ha.not_edge_final hp hedge
      · exact hexit
    · rcases (h.part_right p (h.right.finals_mem hp) k q).mp hedge with hedge | ⟨-, -, hexit⟩
      · exact hb.not_edge_final hp hedge
      · exact hexit

/-- The new start state and the new final state seal any machine. -/
theorem Looped.sealed {skip : Bool} {entry exit : StateId} (h : Looped skip a entry exit m) :
    Sealed m where
  not_edge_initial {p q k} hq hedge := by
    cases h.initial.symm.trans hq
    have hstart : a.initial ≠ some entry := fun heq => h.fresh.1 (h.inner.initial_mem heq)
    have hexit : exit ≠ entry := fun heq => h.fresh.2.2 heq.symm
    rcases h.edge.mp hedge with hedge | ⟨-, ⟨-, hq | ⟨-, hq⟩⟩ | ⟨-, hq | hq⟩⟩
    · exact h.fresh.1 (h.inner.head_mem hedge)
    · exact hstart hq
    · exact hexit hq
    · exact hexit hq
    · exact hstart hq
  not_edge_final {p q k} hp hedge := by
    cases h.mem_finals.mp hp
    exact h.not_edge_exit k q hedge

end NFA

/-! ### Sizes read off the expression -/

namespace Expr

open Automaton

/-- The number of states of the machine for an expression. -/
def stateCount : Expr → Nat
  | .lambda => 1
  | .empty | .char _ => 2
  | .concat l r => stateCount l + stateCount r
  | .union l r => stateCount l + stateCount r + 1
  | .star e | .plus e => stateCount e + 2

/-- The number of final states of the machine for an expression. -/
def finalCount : Expr → Nat
  | .empty | .lambda | .char _ | .star _ | .plus _ => 1
  | .concat _ r => finalCount r
  | .union l r => finalCount l + finalCount r

theorem one_le_finalCount (e : Expr) : 1 ≤ e.finalCount := by
  induction e with
  | concat l r _ ihr => exact ihr
  | union l r ihl _ => exact Nat.le_add_right_of_le ihl
  | _ => exact Nat.le_refl 1

/-- `n` has the shape that goes with the expression. -/
structure Shaped (n : NFA) (e : Expr) : Prop where
  /-- The states are the numbers below their number. -/
  mem_states {q : StateId} : q ∈ n.states ↔ q < e.stateCount
  initial : n.initial = some 0
  size_finals : n.finals.size = e.finalCount
  sealed : Sealed n
  /-- The states are numbered already. -/
  renumber_eq : n.renumber = n

/-- The machines with at most two states. -/
theorem shaped_of_le_two {n : NFA} {e : Expr} (hn : n.WellFormed)
    (hstates : ∀ q, q ∈ n.states ↔ q < e.stateCount) (hle : e.stateCount ≤ 2)
    (hinitial : n.initial = some 0) (hfinals : n.finals.size = e.finalCount) (hsealed : Sealed n) :
    Shaped n e := by
  have hcount : n.stateCount = e.stateCount := StateSet.size_of_mem_iff_lt hstates
  refine ⟨fun {q} => hstates q, hinitial, hfinals, hsealed, ?_⟩
  exact renumber_eq_self_of_le_two hn (hcount ▸ hstates) (hcount ▸ hle) hinitial

theorem mem_states_ofEmpty_iff_lt (q : StateId) : q ∈ NFA.ofEmpty.states ↔ q < 2 := by
  have htwo : ∀ i : Nat, 0 = i ∨ 1 = i ↔ i < 2 := by omega
  rw [NFA.mem_states_ofEmpty, htwo]

theorem shaped_ofEmpty : Shaped NFA.ofEmpty .empty :=
  shaped_of_le_two NFA.wellFormed_ofEmpty mem_states_ofEmpty_iff_lt (Nat.le_refl 2) rfl
    (StateSet.size_singleton 1) (NFA.sealed_of_edges_eq rfl)

theorem shaped_ofLambda : Shaped NFA.ofLambda .lambda := by
  refine shaped_of_le_two NFA.wellFormed_ofLambda (fun q => ?_) (Nat.le_succ 1) rfl
    (StateSet.size_singleton 0) (NFA.sealed_of_edges_eq rfl)
  rw [NFA.ofLambda, StateSet.mem_singleton, stateCount, Nat.lt_one_iff, eq_comm]

theorem shaped_ofChar (c : Char) : Shaped (NFA.ofChar c) (.char c) :=
  shaped_of_le_two (NFA.wellFormed_ofChar c) mem_states_ofEmpty_iff_lt (Nat.le_refl 2) rfl
    (StateSet.size_singleton 1) (NFA.sealed_ofChar c)

/-- What a combination leaves has the shape if it had it before its states were numbered. -/
theorem exists_shaped {x : Edit Symbol StateSet Unit} {a m : NFA} {e : Expr} {start : StateId}
    (hon : x.on a = (.ok ⟨⟩, m.renumber)) (hm : m.WellFormed) (hinitial : m.initial = some start)
    (hstates : m.stateCount = e.stateCount) (hfinals : m.finals.size = e.finalCount)
    (hsealed : Sealed m) : ∃ n, x.result a = .ok n ∧ Shaped n e := by
  have hapart := apart_number hm
  refine ⟨m.renumber, Edit.result_of_ok hon, fun {q} => ?_, ?_, ?_, hsealed.relabel hm hapart,
    Automaton.renumber_renumber hm⟩
  · rw [mem_states_renumber hm, stateCount_renumber hm, hstates]
  · rw [initial_renumber hinitial, number_initial hinitial]
  · exact (size_finals_relabel hm hapart).trans hfinals

section Combinations

variable {a b : NFA} {l r e : Expr}

theorem Shaped.stateCount_eq (h : Shaped a e) : a.stateCount = e.stateCount :=
  StateSet.size_of_mem_iff_lt fun _ => h.mem_states

theorem Shaped.concat (ha : Shaped a l) (hb : Shaped b r) (hwa : a.WellFormed)
    (hwb : b.WellFormed) :
    ∃ n, (NFA.concat b .naturals).result a = .ok n ∧ Shaped n (.concat l r) := by
  obtain ⟨m, hon, hm⟩ :=
    NFA.exists_concat hwa hwb ha.initial hb.initial (hasRoom_naturals a b)
  have hmoved := apart_add b .naturals (a.nextFree .naturals)
  refine exists_shaped hon hm.wellFormed (hm.initial.trans ha.initial) ?_ ?_
    (hm.sealed ha.sealed (hb.sealed.relabel hwb hmoved))
  · rw [hm.stateCount_eq, behind, stateCount_shift, ha.stateCount_eq, hb.stateCount_eq, stateCount]
  · rw [hm.finals, finalCount, ← hb.size_finals]
    exact size_finals_relabel hwb hmoved

theorem Shaped.union (ha : Shaped a l) (hb : Shaped b r) (hwa : a.WellFormed)
    (hwb : b.WellFormed) :
    ∃ n, (NFA.union b .naturals).result a = .ok n ∧ Shaped n (.union l r) := by
  obtain ⟨m, fork, hon, hforked, hfresh⟩ :=
    NFA.exists_union hwa hwb ha.initial hb.initial (hasRoom_naturals a b)
  have hm : NFA.United a _ fork m := ⟨hforked, hfresh.mpr (hasFree_naturals _)⟩
  have hmoved := apart_add b .naturals (a.nextFree .naturals)
  refine exists_shaped hon hm.wellFormed hm.initial ?_ ?_
    (hm.sealed ha.sealed (hb.sealed.relabel hwb hmoved))
  · rw [hm.stateCount_eq, behind, stateCount_shift, ha.stateCount_eq, hb.stateCount_eq, stateCount]
  · rw [hm.size_finals, finalCount, ← ha.size_finals, ← hb.size_finals]
    exact congrArg _ (size_finals_relabel hwb hmoved)

/-- A repetition, with and without the way past it. -/
theorem Shaped.loop (ha : Shaped a l) (hwa : a.WellFormed) (skip : Bool)
    (hstates : e.stateCount = l.stateCount + 2) (hfinals : e.finalCount = 1) :
    ∃ n, (NFA.loop skip .naturals).result a = .ok n ∧ Shaped n e := by
  obtain ⟨m, entry, exit, hon, hwrapped, hfresh⟩ := NFA.exists_loop hwa skip .naturals ha.initial
  have hm : NFA.Looped skip a entry exit m := ⟨hwrapped, hfresh.mpr (NFA.hasTwoFree_naturals a)⟩
  refine exists_shaped hon hm.wellFormed hm.initial ?_ ?_ hm.sealed
  · rw [hm.stateCount_eq, ha.stateCount_eq, hstates]
  · rw [hm.size_finals, hfinals]

end Combinations

theorem represents_of_toNFA {n : NFA} {e : Expr} (h : e.toNFA = .ok n) : Represents n e := by
  obtain ⟨m, hm, hrep⟩ := exists_toNFA e
  exact Except.ok.inj (hm.symm.trans h) ▸ hrep

/-- The machine for an expression has the shape that goes with it. -/
theorem exists_toNFA_shaped (e : Expr) : ∃ n, e.toNFA = .ok n ∧ Shaped n e := by
  induction e with
  | empty => exact ⟨_, rfl, shaped_ofEmpty⟩
  | lambda => exact ⟨_, rfl, shaped_ofLambda⟩
  | char c => exact ⟨_, rfl, shaped_ofChar c⟩
  | concat l r ihl ihr =>
      obtain ⟨a, hl, ha⟩ := ihl
      obtain ⟨b, hr, hb⟩ := ihr
      obtain ⟨n, hn, h⟩ := ha.concat hb (represents_of_toNFA hl).wellFormed
        (represents_of_toNFA hr).wellFormed
      exact ⟨n, by rw [toNFA, hl, hr]; exact hn, h⟩
  | union l r ihl ihr =>
      obtain ⟨a, hl, ha⟩ := ihl
      obtain ⟨b, hr, hb⟩ := ihr
      obtain ⟨n, hn, h⟩ := ha.union hb (represents_of_toNFA hl).wellFormed
        (represents_of_toNFA hr).wellFormed
      exact ⟨n, by rw [toNFA, hl, hr]; exact hn, h⟩
  | star e ih =>
      obtain ⟨a, he, ha⟩ := ih
      obtain ⟨n, hn, h⟩ :=
        ha.loop (e := .star e) (represents_of_toNFA he).wellFormed true rfl rfl
      exact ⟨n, by rw [toNFA, he]; exact hn, h⟩
  | plus e ih =>
      obtain ⟨a, he, ha⟩ := ih
      obtain ⟨n, hn, h⟩ :=
        ha.loop (e := .plus e) (represents_of_toNFA he).wellFormed false rfl rfl
      exact ⟨n, by rw [toNFA, he]; exact hn, h⟩

/-- **The expression settles the shape of its machine.** -/
theorem toNFA_shape (e : Expr) : ∃ n, e.toNFA = .ok n ∧ Shaped n e ∧ 1 ≤ e.finalCount ∧
    n.alphabet = e.chars := by
  obtain ⟨n, hn, h⟩ := exists_toNFA_shaped e
  exact ⟨n, hn, h, one_le_finalCount e, (represents_of_toNFA hn).alphabet⟩

end Expr

end RegexMachine
