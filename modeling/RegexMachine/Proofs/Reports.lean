import RegexMachine.Proofs.Compilation
import RegexMachine.Proofs.DFA.Turns

/-!
# RegexMachine.Proofs.Reports

**What is reported accounts for what is built.** Compiling an expression reports the
nondeterministic machine, then every set of states that comes up while it is made deterministic,
then every cut that is made while the result is minimized, each stage with the numbers of states
before and after it. The sets are as many as the states of the deterministic machine, the first of
which is not reported, and the cuts are as many as the states that minimizing adds to the blocks at
the start.
-/

namespace RegexMachine

open Std

/-! ### Making a machine deterministic -/

namespace NFA

open Automaton

variable {n : NFA} {sets : List StateSet} {start : StateId}

/-- Every set but the one before the first character is reported, and they are counted from 1 on. -/
theorem Explored.exists_discoveries (h : Explored n start sets) : ∃ rest,
    sets = closure n {start} :: rest ∧
      discoveries sets = (rest.zipIdx 1).map fun (s, i) => .discovered s i := by
  cases sets with
  | nil => exact absurd h.first (by simp)
  | cons first rest =>
      obtain rfl : first = closure n {start} := Option.some.inj h.first
      exact ⟨rest, rfl, rfl⟩

/-- One set is reported for every state but the first, and no set twice. -/
theorem exists_found (hstart : n.initial = some start) : ∃ (d : DFA) (sets : List StateSet),
    determinize n = ⟨.ok d, (sets.zipIdx 1).map (fun (s, i) => Record.discovered s i) ++
      [Record.determinized n.stateCount d.stateCount]⟩ ∧
    sets.length + 1 = d.stateCount ∧ (closure n {start} :: sets).Nodup ∧
    d.WellFormed ∧ DFA.Total d ∧ d.initial = some 0 := by
  have hexplored := explored_subsets n start
  obtain ⟨d, hd, hdeterminize⟩ := exists_determinizing hstart
  obtain ⟨sets, hsets, hdiscoveries⟩ := hexplored.exists_discoveries
  refine ⟨d.renumber, sets, ?_, ?_, hsets ▸ hexplored.nodup, wellFormed_renumber hd.wellFormed,
    (hd.total hexplored).relabel hd.wellFormed (apart_number hd.wellFormed), hd.initial_renumber⟩
  · rw [hdeterminize, hdiscoveries, stateCount_renumber hd.wellFormed]
  · rw [hd.stateCount_renumber, hsets]
    rfl

end NFA

/-! ### Minimizing -/

/-- At the start there is a block of final states and one of the others, unless they are empty. -/
theorem Refinement.length_start (d : DFA) : (start d).blocks.length =
    [d.finals, d.states \ d.finals].countP fun s => !s.isEmpty := by
  have hsame : ∀ s : StateSet, decide (s.toList ≠ []) = !s.isEmpty := fun s => by
    rw [← ExtTreeSet.isEmpty_toList]
    cases s.toList <;> rfl
  rw [List.countP_eq_length_filter]
  simp only [start, List.filter_cons, List.filter_nil, hsame]
  cases d.finals.isEmpty <;> cases (d.states \ d.finals).isEmpty <;> rfl

/-- One cut is reported for every state that is there in the end and not yet at the start. -/
theorem DFA.exists_cuts {d : DFA} {start : StateId} (hd : d.WellFormed)
    (hstart : d.initial = some start) (ids : IdSpace) :
    ∃ (total m : DFA) (cuts : List Record), complete d ids = .ok total ∧
    minimize d ids = ⟨.ok m, cuts ++ [Record.minimized d.stateCount m.stateCount]⟩ ∧
    (cuts.length + [total.finals, total.states \ total.finals].countP fun s => !s.isEmpty) =
      m.stateCount ∧
    ∀ record ∈ cuts, Refinement.Tells total record := by
  obtain ⟨total, m, hm, hminimize⟩ := exists_minimizing hd hstart ids
  have hcount := Automaton.stateCount_renumber hm.wellFormed
  have htally := (Refinement.reached_refined total).1.tally
  refine ⟨total, m.renumber, (refined total).records, hm.complete, ?_, ?_, htally.tells⟩
  · rw [hminimize, hcount]
  · rw [hcount, hm.merged.stateCount_eq, ← Refinement.length_start]
    exact htally.records

/-! ### Compiling -/

theorem Expr.compile_eq {e : Expr} {n : NFA} {d m : DFA} {found cuts : List Record}
    (hn : e.toNFA = .ok n) (hd : NFA.determinize n = ⟨.ok d, found⟩)
    (hm : DFA.minimize d = ⟨.ok m, cuts⟩) :
    e.compile = ⟨.ok m, [.built n.stateCount e] ++ found ++ cuts⟩ := by
  rw [compile, hn, Traced.bind_of_ok rfl, Traced.bind_of_ok rfl, hd, Traced.bind_of_ok rfl, hm,
    List.append_assoc]
  rfl

/-- The last record is about the compiled machine. -/
theorem Regex.ofExpr_eq {e : Expr} {m : DFA} {records : List Record}
    (h : e.compile = ⟨.ok m, records⟩) :
    ofExpr e = ⟨.ok ⟨e, m⟩, records ++ [.compiled e m.stateCount]⟩ := by
  rw [ofExpr, Traced.bind_of_ok (congrArg Traced.outcome h), h]
  rfl

/-- **What compiling an expression reports.** One record says how large the nondeterministic machine
is. Then the sets of states follow that come up, each once and none of them the one before the first
character, counted from 1 on up to the last state of the deterministic machine. Then there is one
record for every cut of a block into two that both hold states: as many as minimizing makes states
out of the final states and the others, as far as there are any. In the end the compiled machine is
reported, and nothing is reported besides. -/
theorem Regex.ofExpr_reports (e : Expr) :
    ∃ (n : NFA) (d : DFA) (r : Regex) (start : StateId) (sets : List StateSet) (cuts : List Record),
    e.toNFA = .ok n ∧ (NFA.determinize n).outcome = .ok d ∧
    (DFA.minimize d).outcome = .ok r.machine ∧ e.compile.outcome = .ok r.machine ∧
    (ofExpr e).outcome = .ok r ∧ n.initial = some start ∧
    (ofExpr e).records =
      [Record.built n.stateCount e] ++
      (sets.zipIdx 1).map (fun (s, i) => Record.discovered s i) ++
      [Record.determinized n.stateCount d.stateCount] ++
      cuts ++
      [Record.minimized d.stateCount r.machine.stateCount,
        Record.compiled e r.machine.stateCount] ∧
    sets.length + 1 = d.stateCount ∧
    (NFA.closure n {start} :: sets).Nodup ∧
    (cuts.length + [d.finals, d.states \ d.finals].countP fun s => !s.isEmpty) =
      r.machine.stateCount ∧
    ∀ record ∈ cuts, Refinement.Tells d record := by
  obtain ⟨n, hn, hrep⟩ := Expr.exists_toNFA e
  obtain ⟨start, hstart⟩ := hrep.initial
  obtain ⟨d, sets, hdeterminize, hcount, hnodup, hwf, htotal, hinitial⟩ := NFA.exists_found hstart
  obtain ⟨total, m, cuts, hcomplete, hminimize, hcuts, htells⟩ :=
    DFA.exists_cuts hwf hinitial .words
  -- The deterministic machine lacks no edge, so it is minimized as it is.
  obtain rfl : d = total :=
    Except.ok.inj ((DFA.complete_of_total htotal .words).symm.trans hcomplete)
  have hcompile := Expr.compile_eq hn hdeterminize hminimize
  refine ⟨n, d, ⟨e, m⟩, start, sets, cuts, hn, by rw [hdeterminize], by rw [hminimize],
    by rw [hcompile], by rw [ofExpr_eq hcompile], hstart, ?_, hcount, hnodup, hcuts, htells⟩
  rw [ofExpr_eq hcompile]
  simp only [List.append_assoc, List.cons_append, List.nil_append]

end RegexMachine
