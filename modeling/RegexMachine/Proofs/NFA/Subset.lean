import RegexMachine.NFA.Subset
import RegexMachine.Proofs.Automaton.Renumber
import RegexMachine.Proofs.DFA.Complete
import RegexMachine.Proofs.NFA.Simulation

/-!
# RegexMachine.Proofs.NFA.Subset

**The deterministic machine is where the nondeterministic one can be.** The machine built over the
listed sets has the place of a set for a state, and a word over the alphabet leads from the place of
a set to the place of the set that is reached by reading the word. So the machine is complete over
the alphabet, all its states can be reached, and it accepts what the nondeterministic machine
accepts.

`Explored` collects what is needed of the list of sets, and `Determined` says what is built over it.
-/

namespace RegexMachine

open Std Relation

namespace NFA

open Automaton

variable {n : NFA} {sets : List StateSet} {d : DFA} {start : StateId}

/-! ### The sets -/

/-- The sets listed: each once, those that come after one of them included. -/
structure Explored (n : NFA) (start : StateId) (sets : List StateSet) : Prop where
  nodup : sets.Nodup
  /-- The set before the first character comes first. -/
  first : sets[0]? = some (closure n {start})
  move_mem {s : StateSet} {c : Char} : s ∈ sets → c ∈ n.alphabet → move n s c ∈ sets
  /-- Nothing is listed but what some word leads to. -/
  exists_word {s : StateSet} : s ∈ sets →
    ∃ w : Word, (∀ c ∈ w, c ∈ n.alphabet) ∧ moves n (closure n {start}) w = s

theorem mem_nextSubsets {s t : StateSet} :
    t ∈ nextSubsets n s ↔ ∃ c ∈ n.alphabet, move n s c = t := by
  simp only [nextSubsets, List.mem_map, ExtTreeSet.mem_toList]

theorem exists_word_of_leads {s t : StateSet} (h : Leads (nextSubsets n) s t) :
    ∃ w : Word, (∀ c ∈ w, c ∈ n.alphabet) ∧ moves n s w = t := by
  induction h using ReflTransGen.head_induction_on with
  | refl => exact ⟨[], by simp, rfl⟩
  | head hnext _ ih =>
      obtain ⟨c, hc, rfl⟩ := mem_nextSubsets.mp hnext
      obtain ⟨w, hw, heq⟩ := ih
      refine ⟨c :: w, fun b hb => ?_, heq⟩
      rcases List.mem_cons.mp hb with rfl | hb
      · exact hc
      · exact hw b hb

theorem explored_subsets (n : NFA) (start : StateId) :
    Explored n start (subsets n (closure n {start})) where
  nodup := Search.nodup_search (List.nodup_singleton _)
  first := by
    obtain ⟨rest, hrest⟩ := Search.exists_search_eq_cons (closure n {start}) []
    rw [subsets, hrest]
    rfl
  move_mem {s c} hs hc := by
    rw [subsets, Search.mem_search] at hs ⊢
    obtain ⟨t, ht, hts⟩ := hs
    exact ⟨t, ht, hts.tail (mem_nextSubsets.mpr ⟨c, hc, rfl⟩)⟩
  exists_word {s} hs := by
    rw [subsets, Search.mem_search] at hs
    obtain ⟨t, ht, hts⟩ := hs
    rw [List.mem_singleton] at ht
    subst ht
    exact exists_word_of_leads hts

/-- What is listed once has one place in the list. -/
theorem idxOf_eq_iff_of_nodup (h : sets.Nodup) {s : StateSet} (hs : s ∈ sets) {j : Nat} :
    sets.idxOf s = j ↔ sets[j]? = some s := by
  constructor
  · intro hj
    rw [← hj, List.getElem?_eq_getElem (List.idxOf_lt_length_iff.mpr hs), List.getElem_idxOf]
  · intro hj
    obtain ⟨hlt, rfl⟩ := List.getElem?_eq_some_iff.mp hj
    exact h.idxOf_getElem j hlt

/-! ### The machine over the sets -/

/-- `d` has the places of the sets for states and moves between them as `n` does. -/
structure Determined (n : NFA) (sets : List StateSet) (d : DFA) : Prop where
  wellFormed : d.WellFormed
  mem_states {i : StateId} : i ∈ d.states ↔ i < sets.length
  initial : d.initial = some 0
  mem_finals {i : StateId} {s : StateSet} :
    sets[i]? = some s → (i ∈ d.finals ↔ hasFinal n s = true)
  edge {i j : StateId} {s : StateSet} {c : Char} : sets[i]? = some s →
    (d.Edge i c j ↔ c ∈ n.alphabet ∧ sets[j]? = some (move n s c))

/-- There is one machine over the places of the sets. -/
theorem Determined.unique {e : DFA} (hd : Determined n sets d) (he : Determined n sets e) :
    d = e := by
  have hsets : ∀ i ∈ d.states, ∃ s, sets[i]? = some s := fun i hi =>
    ⟨_, List.getElem?_eq_getElem (hd.mem_states.mp hi)⟩
  refine hd.wellFormed.eq_of_forall_mem he.wellFormed
    (fun i => hd.mem_states.trans he.mem_states.symm) (hd.initial.trans he.initial.symm)
    (fun i hi => ?_) fun i hi c j => ?_
  · obtain ⟨s, hs⟩ := hsets i hi
    rw [hd.mem_finals hs, he.mem_finals hs]
  · obtain ⟨s, hs⟩ := hsets i hi
    rw [hd.edge hs, he.edge hs]

theorem keeps_buildSubsets (n : NFA) (sets : List StateSet) :
    (buildSubsets n sets).Keeps WellFormed :=
  (Edit.keeps_forM fun _ _ => (keeps_newState _ _).bind fun _ => Edit.keeps_pure _).bind fun _ =>
    (keeps_setInitial _).bind fun _ =>
      Edit.keeps_forM fun _ _ => Edit.keeps_forM fun _ _ => DFA.keeps_addEdge _ _ _

/-- The steps of the loop that adds the edges: a set with its place, and a character. -/
def subsetEdges (n : NFA) (sets : List StateSet) : List ((StateSet × Nat) × Char) :=
  sets.zipIdx.flatMap fun x => n.alphabet.toList.map fun c => (x, c)

theorem mem_subsetEdges {s : StateSet} {i : Nat} {c : Char} :
    ((s, i), c) ∈ subsetEdges n sets ↔ sets[i]? = some s ∧ c ∈ n.alphabet := by
  simp only [subsetEdges, List.mem_flatMap, List.mem_map, ExtTreeSet.mem_toList, Prod.mk.injEq]
  constructor
  · intro h
    obtain ⟨x, hx, b, hb, rfl, rfl⟩ := h
    exact ⟨List.mem_zipIdx_iff_getElem?.mp hx, hb⟩
  · intro h
    exact ⟨(s, i), List.mem_zipIdx_iff_getElem?.mpr h.1, c, h.2, rfl, rfl⟩

namespace Explored

theorem moves_mem (h : Explored n start sets) {s : StateSet} {w : Word} (hs : s ∈ sets)
    (hw : ∀ c ∈ w, c ∈ n.alphabet) : moves n s w ∈ sets := by
  induction w generalizing s with
  | nil => exact hs
  | cons c w ih =>
      obtain ⟨hc, hw⟩ := List.forall_mem_cons.mp hw
      exact ih (h.move_mem hs hc) hw

/-- One character leads from a set listed to a set listed. -/
theorem exists_place (h : Explored n start sets) {i : Nat} {s : StateSet} {c : Char}
    (hs : sets[i]? = some s) (hc : c ∈ n.alphabet) : ∃ j : Nat, sets[j]? = some (move n s c) :=
  List.mem_iff_getElem?.mp (h.move_mem (List.mem_of_getElem? hs) hc)

/-- The sets listed are those that words lead to. -/
theorem mem_iff (h : Explored n start sets) {s : StateSet} : s ∈ sets ↔
    ∃ w : Word, (∀ c ∈ w, c ∈ n.alphabet) ∧ moves n (closure n {start}) w = s := by
  constructor
  · exact h.exists_word
  · intro hs
    obtain ⟨w, hw, rfl⟩ := hs
    exact h.moves_mem (List.mem_of_getElem? h.first) hw

/-- Only sets of states of the machine are listed, so there are no more than all of these. -/
theorem length_le (h : Explored n start sets) (hn : n.WellFormed) (hstart : start ∈ n.states) :
    sets.length ≤ 2 ^ n.stateCount := by
  refine StateSet.length_le_two_pow h.nodup fun s hs q hq => ?_
  obtain ⟨w, -, rfl⟩ := h.mem_iff.mp hs
  exact mem_states_of_mem_moves hn hstart hq

/-- A set is named by the one place at which it is listed. -/
theorem idxOf_eq_iff (h : Explored n start sets) {s : StateSet} (hs : s ∈ sets) {j : Nat} :
    sets.idxOf s = j ↔ sets[j]? = some s :=
  idxOf_eq_iff_of_nodup h.nodup hs

/-- The loop that adds the edges to the machine with the places of the sets for states. -/
theorem on_forM_subsetEdges (h : Explored n start sets) {accepting : StateSet → Bool}
    (hd : Bare sets accepting d) :
    ∃ left, (sets.zipIdx.forM fun (s, place) => n.alphabet.toList.forM fun c =>
        DFA.addEdge place (sets.idxOf (move n s c)) c).on d = (.ok ⟨⟩, left) ∧
      SameStates d left ∧ ∀ i c j, left.Edge i c j ↔
        ∃ x ∈ subsetEdges n sets, x.1.2 = i ∧ x.2 = c ∧ sets.idxOf (move n x.1.1 x.2) = j := by
  have hnone : ∀ p k q, ¬ d.Edge p k q := fun p k q hedge =>
    not_edge_empty p k q ((edge_of_edges_eq hd.edges p k q).mp hedge)
  obtain ⟨left, hon, hsame, hedge⟩ :=
    DFA.on_forM_addEdge_of_agree (subsetEdges n sets) (fun x => x.1.2)
    (fun x => sets.idxOf (move n x.1.1 x.2)) (fun x => x.2)
    (f := fun x => DFA.addEdge x.1.2 (sets.idxOf (move n x.1.1 x.2)) x.2) (d := d)
    (fun _ _ => rfl)
    (by
      intro ((s, i), c) hx
      obtain ⟨hs, hc⟩ := mem_subsetEdges.mp hx
      obtain ⟨hi, rfl⟩ := List.getElem?_eq_some_iff.mp hs
      have hmove := h.move_mem (List.getElem_mem hi) hc
      exact ⟨hd.mem_states.mpr hi, hd.mem_states.mpr (List.idxOf_lt_length_iff.mpr hmove)⟩)
    (by
      intro ((s, i), c) hx ((t, j), b) hy hij hcb
      simp only at hij hcb
      subst hij hcb
      have hst : s = t :=
        Option.some.inj ((mem_subsetEdges.mp hx).1.symm.trans (mem_subsetEdges.mp hy).1)
      rw [hst])
    (fun x _ q hq => absurd hq (hnone _ _ _))
  refine ⟨left, ?_, hsame, fun i c j => (hedge i c j).trans (or_iff_left (hnone i c j))⟩
  rw [← hon]
  exact congrArg (fun x => Edit.on x d) (forM_forM_eq sets.zipIdx (fun _ => n.alphabet.toList)
    fun x c => DFA.addEdge x.2 (sets.idxOf (move n x.1 c)) c)

/-- Building the machine over the sets is not refused. -/
theorem exists_determined (h : Explored n start sets) :
    ∃ d, subsetMachine n sets = .ok d ∧ Determined n sets d := by
  obtain ⟨m₁, hon₁, hbare⟩ := on_forM_newState (κ := Char) (τ := StateId) sets (hasFinal n)
  have hzero : 0 ∈ m₁.states :=
    hbare.mem_states.mpr (List.getElem?_eq_some_iff.mp h.first).1
  -- The edges come last, into a machine that has its start state already.
  have hbare' : Bare sets (hasFinal n) { m₁ with initial := some 0 } :=
    ⟨hbare.mem_states, hbare.mem_finals, hbare.edges, hbare.alphabet⟩
  obtain ⟨d, hon, hsame, hedge⟩ := h.on_forM_subsetEdges hbare'
  have hbuild : (buildSubsets n sets).on empty = (.ok ⟨⟩, d) := by
    rw [buildSubsets, Edit.on_bind_of_ok hon₁,
      Edit.on_bind_of_ok (on_setInitial_of_mem hzero)]
    exact hon
  refine ⟨d, Edit.result_of_ok hbuild, ?_, ?_, hsame.initial, ?_, ?_⟩
  · have hkeep := keeps_buildSubsets n sets empty wellFormed_empty
    rw [hbuild] at hkeep
    exact hkeep
  · intro i
    rw [hsame.states]
    exact hbare.mem_states
  · intro i s hs
    rw [hsame.finals]
    refine hbare.mem_finals.trans ⟨fun hex => ?_, fun hfinal => ⟨s, hs, hfinal⟩⟩
    obtain ⟨t, ht, hfinal⟩ := hex
    exact Option.some.inj (ht.symm.trans hs) ▸ hfinal
  · intro i j s c hs
    have hmem : s ∈ sets := List.mem_of_getElem? hs
    rw [hedge]
    constructor
    · intro hex
      obtain ⟨⟨⟨t, k⟩, b⟩, hx, hk, hb, hj⟩ := hex
      obtain ⟨ht, hbn⟩ := mem_subsetEdges.mp hx
      simp only at hk hb hj
      subst hk hb
      have hts : t = s := Option.some.inj (ht.symm.trans hs)
      subst hts
      exact ⟨hbn, (h.idxOf_eq_iff (h.move_mem hmem hbn)).mp hj⟩
    · intro hex
      exact ⟨((s, i), c), mem_subsetEdges.mpr ⟨hs, hex.1⟩, rfl, rfl,
        (h.idxOf_eq_iff (h.move_mem hmem hex.1)).mpr hex.2⟩

end Explored

/-! ### Reading words -/

namespace Determined

/-- A word over the alphabet leads from the place of a set to the place of the set that is reached
by reading it, and other words lead nowhere. -/
theorem path_iff (hd : Determined n sets d) (h : Explored n start sets) {i j : StateId}
    {s : StateSet} {w : Word} (hs : sets[i]? = some s) :
    d.Path i w j ↔ (∀ c ∈ w, c ∈ n.alphabet) ∧ sets[j]? = some (moves n s w) := by
  rw [← DFA.run?_eq_some_iff]
  induction w generalizing i s with
  | nil =>
      constructor
      · intro hij
        exact ⟨fun c hc => absurd hc List.not_mem_nil, Option.some.inj hij ▸ hs⟩
      · intro hj
        have hmem : s ∈ sets := List.mem_of_getElem? hs
        rw [← (h.idxOf_eq_iff hmem).mpr hj.2, (h.idxOf_eq_iff hmem).mpr hs]
        rfl
  | cons c w ih =>
      rw [DFA.run?_cons, Option.bind_eq_some_iff, List.forall_mem_cons, moves_cons]
      constructor
      · intro hrun
        obtain ⟨k, hk, hrest⟩ := hrun
        obtain ⟨hc, hmove⟩ := (hd.edge hs).mp (DFA.edge_iff_next?.mpr hk)
        obtain ⟨hw, hj⟩ := (ih hmove).mp hrest
        exact ⟨⟨hc, hw⟩, hj⟩
      · intro hj
        obtain ⟨⟨hc, hw⟩, hj⟩ := hj
        obtain ⟨k, hk⟩ := h.exists_place hs hc
        exact ⟨k, DFA.edge_iff_next?.mp ((hd.edge hs).mpr ⟨hc, hk⟩), (ih hk).mpr ⟨hw, hj⟩⟩

/-- The first state has an edge for every character of the alphabet. -/
theorem alphabet_eq (hd : Determined n sets d) (h : Explored n start sets) :
    d.alphabet = n.alphabet := by
  refine ExtTreeSet.ext_mem fun c => ⟨fun hc => ?_, fun hc => ?_⟩
  · obtain ⟨i, k, j, hedge, hk⟩ := hd.wellFormed.mem_alphabet.mp hc
    rw [letters_char, List.mem_singleton] at hk
    subst hk
    have hi : i < sets.length := hd.mem_states.mp (hd.wellFormed.tail_mem hedge)
    exact ((hd.edge (List.getElem?_eq_getElem hi)).mp hedge).1
  · obtain ⟨j, hj⟩ := h.exists_place h.first hc
    exact DFA.char_mem_alphabet hd.wellFormed ((hd.edge h.first).mpr ⟨hc, hj⟩)

theorem total (hd : Determined n sets d) (h : Explored n start sets) : DFA.Total d := by
  intro i hi c hc
  rw [hd.alphabet_eq h] at hc
  obtain ⟨s, hs⟩ : ∃ s, sets[i]? = some s :=
    ⟨_, List.getElem?_eq_getElem (hd.mem_states.mp hi)⟩
  obtain ⟨j, hj⟩ := h.exists_place hs hc
  exact ⟨j, (hd.edge hs).mpr ⟨hc, hj⟩⟩

/-- Every state can be reached. -/
theorem reachable (hd : Determined n sets d) (h : Explored n start sets) {i : StateId}
    (hi : i ∈ d.states) : d.Reachable i := by
  have hs := List.getElem?_eq_getElem (hd.mem_states.mp hi)
  obtain ⟨w, hw, hmoves⟩ := h.exists_word (List.getElem_mem (hd.mem_states.mp hi))
  refine ⟨0, hd.initial, w, (hd.path_iff h h.first).mpr ⟨hw, ?_⟩⟩
  rw [hmoves, hs]

theorem stateCount_eq (hd : Determined n sets d) : d.stateCount = sets.length :=
  StateSet.size_of_mem_iff_lt fun _ => hd.mem_states

theorem accepts_iff (hd : Determined n sets d) (h : Explored n start sets) (hn : n.WellFormed)
    (hstart : n.initial = some start) {w : Word} : d.Accepts w ↔ n.Accepts w := by
  have hmoves : ∀ j, sets[j]? = some (moves n (closure n {start}) w) →
      (j ∈ d.finals ↔ ∃ q ∈ n.finals, n.Path start w q) := by
    intro j hj
    rw [hd.mem_finals hj, ← acceptsFrom_eq, acceptsFrom_closure_iff]
  constructor
  · intro hacc
    obtain ⟨i, hi, j, hfinal, hpath⟩ := hacc
    cases hd.initial.symm.trans hi
    obtain ⟨-, hj⟩ := (hd.path_iff h h.first).mp hpath
    exact ⟨start, hstart, (hmoves j hj).mp hfinal⟩
  · intro hacc
    -- Only characters of the alphabet occur in the word, so reading it stays among the sets listed.
    have hw := hacc.mem_alphabet hn
    obtain ⟨p, hp, hpath⟩ := hacc
    cases hstart.symm.trans hp
    obtain ⟨j, hj⟩ := List.mem_iff_getElem?.mp (h.mem_iff.mpr ⟨w, hw, rfl⟩)
    exact ⟨0, hd.initial, j, (hmoves j hj).mpr hpath, (hd.path_iff h h.first).mpr ⟨hw, hj⟩⟩

/-- Word by word, the numbered machine decides as the nondeterministic one does. -/
theorem accepts_renumber (hd : Determined n sets d) (h : Explored n start sets) (hn : n.WellFormed)
    (hstart : n.initial = some start) (w : Word) : DFA.accepts d.renumber w = accepts n w := by
  rw [Bool.eq_iff_iff, DFA.accepts_iff, NFA.accepts_iff, Automaton.accepts_renumber hd.wellFormed,
    hd.accepts_iff h hn hstart]

/-! The machine is numbered at last. The place of a set gets a number like any other state. -/

theorem initial_renumber (hd : Determined n sets d) : d.renumber.initial = some 0 := by
  rw [Automaton.initial_renumber hd.initial, number_initial hd.initial]

theorem stateCount_renumber (hd : Determined n sets d) : d.renumber.stateCount = sets.length := by
  rw [Automaton.stateCount_renumber hd.wellFormed, hd.stateCount_eq]

/-- The state of the numbered machine that stands for a set. -/
def name (sets : List StateSet) (d : DFA) (s : StateSet) : StateId :=
  d.number (sets.idxOf s)

/-- Every set listed has a state of its own, and there are no other states. -/
theorem bijOn_name (hd : Determined n sets d) (h : Explored n start sets) :
    Set.BijOn (name sets d) {s | s ∈ sets} {q | q ∈ d.renumber.states} := by
  have hplace : ∀ s ∈ sets, sets.idxOf s ∈ d.states := fun s hs =>
    hd.mem_states.mpr (List.idxOf_lt_length_iff.mpr hs)
  refine ⟨fun s hs => ?_, fun s hs t ht heq => ?_, fun q hq => ?_⟩
  · exact mem_states_relabel.mpr ⟨_, hplace s hs, rfl⟩
  · exact (List.idxOf_inj hs).mp (apart_number hd.wellFormed (hplace s hs) (hplace t ht) heq)
  · obtain ⟨i, hi, rfl⟩ := mem_states_relabel.mp hq
    have hlt : i < sets.length := hd.mem_states.mp hi
    exact ⟨sets[i], List.getElem_mem hlt, congrArg d.number (h.nodup.idxOf_getElem i hlt)⟩

/-- A word over the alphabet leads to the state that stands for the set it leads to. -/
theorem run?_renumber (hd : Determined n sets d) (h : Explored n start sets) {w : Word}
    (hw : ∀ c ∈ w, c ∈ n.alphabet) :
    DFA.run? d.renumber 0 w = some (name sets d (moves n (closure n {start}) w)) := by
  have hzero : 0 ∈ d.states := hd.wellFormed.initial_mem hd.initial
  have hmem : moves n (closure n {start}) w ∈ sets := h.mem_iff.mpr ⟨w, hw, rfl⟩
  have hpath : d.Path 0 w (sets.idxOf (moves n (closure n {start}) w)) :=
    (hd.path_iff h h.first).mpr ⟨hw, (h.idxOf_eq_iff hmem).mp rfl⟩
  have hrenamed : d.renumber.Path (d.number 0) w (name sets d (moves n (closure n {start}) w)) :=
    (path_relabel hd.wellFormed (apart_number hd.wellFormed) hzero).mpr ⟨_, hpath, rfl⟩
  rw [number_initial hd.initial] at hrenamed
  exact DFA.run?_eq_some_iff.mpr hrenamed

end Determined

/-! ### Making a machine deterministic -/

/-- What making a machine with a start state deterministic comes to: it is never refused, and it
reports every set listed but the first and then the two numbers of states. -/
theorem exists_determinizing (hstart : n.initial = some start) :
    ∃ d, Determined n (subsets n (closure n {start})) d ∧ determinize n =
      ⟨.ok d.renumber, discoveries (subsets n (closure n {start})) ++
        [.determinized n.stateCount d.stateCount]⟩ := by
  obtain ⟨d, hbuild, hd⟩ := (explored_subsets n start).exists_determined
  refine ⟨d, hd, ?_⟩
  rw [determinize, start_of_initial hstart, Traced.bind_of_ok rfl, Traced.bind_of_ok rfl, hbuild]
  rfl

/-- A machine with a start state is made deterministic without being refused. -/
theorem exists_determinize (hstart : n.initial = some start) :
    ∃ d, (determinize n).outcome = .ok d.renumber ∧
      Determined n (subsets n (closure n {start})) d := by
  obtain ⟨d, hd, heq⟩ := exists_determinizing hstart
  exact ⟨d, by rw [heq], hd⟩

/-- Without a start state no set of states is listed. -/
theorem determinize_refused (h : n.initial = none) :
    determinize n = ⟨.error .missingInitialState, []⟩ := by
  rw [determinize, start_of_no_initial h, Traced.bind_of_error rfl]
  rfl

end NFA

end RegexMachine
