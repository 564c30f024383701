import RegexMachine.Proofs.Least

/-!
# RegexMachine.Proofs.Integrity

**Whatever is called, nothing is missing from a machine and nothing is left over.** Every machine
that calls lead to is well formed, after refused calls as well, and so are the machines made from
expressions, which are built by the same calls.

Two things follow that the calls themselves rely on. A state added under a free name has no edges,
neither out of it nor into it, as no edge is ever stored for a name that is not a state. Among the
natural numbers there is always a free name, and among the words as long as the last is not a state.
And every state that is mentioned anywhere in a machine has a place in the order by which the states
are numbered.
-/

namespace RegexMachine

open Std

namespace Automaton

variable {κ τ : Type} [Ord κ] [TransOrd κ] [Target τ] {m : Automaton κ τ} {q : StateId}

/-- The places at which a machine mentions the state `q`. -/
inductive Mentions (m : Automaton κ τ) (q : StateId) : Prop
  /-- Among the states. -/
  | state : q ∈ m.states → Mentions m q
  /-- As the start state. -/
  | initial : m.initial = some q → Mentions m q
  /-- Among the final states. -/
  | final : q ∈ m.finals → Mentions m q
  /-- As the state that edges are stored for. -/
  | source {out : ExtTreeMap κ τ} : m.edges[q]? = some out → Mentions m q
  /-- As a state that an edge leads to. -/
  | head {p : StateId} {k : κ} : m.Edge p k q → Mentions m q

/-- A well-formed machine in which new states start without edges and every state mentioned has a
number. -/
structure Intact [Lettered κ] (m : Automaton κ τ) : Prop extends WellFormed m where
  /-- There is a free name, unless the names go round. -/
  hasFree {ids : IdSpace} : ids = .naturals ∨ (∀ q ∈ m.states, q + 1 < UInt64.size) → m.HasFree ids
  /-- A new state is no old one, no edges are stored for it, and no edge leads to it. -/
  newState_bare {ids : IdSpace} (accepting : Bool) : m.HasFree ids → ∃ q left,
    (newState accepting ids).on m = (.ok q, left) ∧
      q ∉ m.states ∧ left.edgesFrom? q = none ∧ ∀ p k, ¬ left.Edge p k q
  /-- Numbering finds every state that is mentioned. -/
  mem_order {q : StateId} : m.Mentions q → q ∈ m.order

variable [Lettered κ]

theorem Mentions.mem_states (h : m.Mentions q) (hm : m.WellFormed) : q ∈ m.states := by
  cases h with
  | state h => exact h
  | initial h => exact hm.initial_mem h
  | final h => exact hm.finals_mem h
  | source h => exact hm.source_mem h
  | head h => exact hm.head_mem h

theorem WellFormed.intact [LawfulEqOrd κ] (hm : m.WellFormed) : m.Intact where
  toWellFormed := hm
  hasFree := StateSet.nextFree_not_mem
  newState_bare {ids} accepting hfree := by
    -- The new state is the only thing added: the edges are those of `m`.
    have hedge := edge_of_edges_eq (m := m.withState (m.nextFree ids) accepting) (n := m) rfl
    refine ⟨m.nextFree ids, m.withState (m.nextFree ids) accepting, on_newState accepting ids m,
      hfree, ?_, ?_⟩
    · exact Option.eq_none_iff_forall_ne_some.mpr fun _ hout => hfree (hm.source_mem hout)
    · exact fun p k h => hfree (hm.head_mem ((hedge p k (m.nextFree ids)).mp h))
  mem_order h := (Automaton.mem_order hm).mpr (h.mem_states hm)

end Automaton

/-- **Every machine that calls lead to is intact,** and the machines made from expressions are among
them. -/
theorem built_intact :
    (∀ n : NFA, n.Built → n.Intact) ∧ (∀ d : DFA, d.Built → d.Intact) ∧
      (∀ (e : Expr) (n : NFA), e.toNFA = .ok n → n.Built) ∧
      ∀ (e : Expr) (d : DFA), e.compile.outcome = .ok d → d.Built := by
  refine ⟨fun n hn => hn.wellFormed.intact, fun d hd => hd.wellFormed.intact,
    fun e n hok => ?_, fun e d hok => Expr.built_of_compile hok⟩
  obtain ⟨n', hn', hrep⟩ := Expr.exists_toNFA e
  exact Except.ok.inj (hn'.symm.trans hok) ▸ hrep.built

/-- A loop that a state was renamed in, after a refused call. -/
def patched : NFA :=
  ((Automaton.setInitial 7).on ((Automaton.rename 3 9).on
    ((NFA.plus .words).on (NFA.ofChar 'a')).2).2).2

theorem built_patched : NFA.Built patched :=
  .call (.call (.plus .words (.ofChar 'a')) (.rename 3 9)) (.setInitial 7)

/-- The next free state is `10`, and nothing is known of it. -/
theorem built_intact_patched : ∃ left, (Automaton.newState true).on patched = (.ok 10, left) ∧
    left.edgesFrom? 10 = none ∧ 9 ∈ patched.order := by
  have hintact := built_intact.1 patched built_patched
  have hfree : patched.nextFree = 10 := by cbv
  have hnine : 9 ∈ patched.states := by cbv
  have hlast : (patched.states.toList.all fun q => decide (q + 1 < UInt64.size)) = true := by cbv
  simp only [List.all_eq_true, ExtTreeSet.mem_toList, decide_eq_true_eq] at hlast
  obtain ⟨q, left, hon, -, hnone, -⟩ :=
    hintact.newState_bare true (hintact.hasFree (Or.inr hlast))
  have hq : q = 10 := by
    have heq : patched.nextFree = q :=
      Except.ok.inj (congrArg Prod.fst ((Automaton.on_newState true .words patched).symm.trans hon))
    rw [← heq, hfree]
  subst hq
  exact ⟨left, hon, hnone, hintact.mem_order (.state hnine)⟩

end RegexMachine
