import RegexMachine.DFA.Minimal
import RegexMachine.Proofs.DFA.Refinement

/-!
# RegexMachine.Proofs.DFA.Quotient

**One state for a block.** The machine built over the blocks of a division has a state for every
place in the list of blocks. Its edges are taken from the least state of each block only. If every
character leads every block into one block, they are the edges of any state of the block, and from
the place of a block the same words lead to a final state as from each of its members.

`Stable` collects what the division must satisfy for that, and `Merged` says what is built.
-/

namespace RegexMachine

open Std

namespace Block

/-- The block at the place `i` holds `q`. -/
def At (blocks : List Block) (i : Nat) (q : StateId) : Prop :=
  ∃ block, blocks[i]? = some block ∧ q ∈ block

theorem At.lt_length {blocks : List Block} {i : Nat} {q : StateId} (h : At blocks i q) :
    i < blocks.length := by
  obtain ⟨_, hblock, _⟩ := h
  exact (List.getElem?_eq_some_iff.mp hblock).1

theorem together_iff_at {blocks : List Block} {p q : StateId} :
    Together blocks p q ↔ ∃ i, At blocks i p ∧ At blocks i q := by
  constructor
  · intro h
    obtain ⟨block, hblock, hp, hq⟩ := h
    obtain ⟨i, hi⟩ := List.mem_iff_getElem?.mp hblock
    exact ⟨i, ⟨block, hi, hp⟩, ⟨block, hi, hq⟩⟩
  · intro h
    obtain ⟨i, ⟨block, hi, hp⟩, ⟨block', hi', hq⟩⟩ := h
    have hsame : block' = block := Option.some.inj (hi'.symm.trans hi)
    exact ⟨block, List.mem_of_getElem? hi, hp, hsame ▸ hq⟩

/-- No state is held at two places. -/
theorem At.unique {blocks : List Block} (hnodup : blocks.flatten.Nodup) {i j : Nat} {q : StateId}
    (hi : At blocks i q) (hj : At blocks j q) : i = j := by
  have key : ∀ {i j : Nat}, At blocks i q → At blocks j q → ¬ i < j := by
    intro i j hi hj hlt
    obtain ⟨b, hb, hqb⟩ := hi
    obtain ⟨b', hb', hqb'⟩ := hj
    obtain ⟨hi, rfl⟩ := List.getElem?_eq_some_iff.mp hb
    obtain ⟨hj, rfl⟩ := List.getElem?_eq_some_iff.mp hb'
    have hdisjoint := List.pairwise_iff_getElem.mp (List.nodup_flatten.mp hnodup).2 i j hi hj hlt
    exact hdisjoint hqb hqb'
  exact Nat.le_antisymm (Nat.le_of_not_lt (key hj hi)) (Nat.le_of_not_lt (key hi hj))

end Block

namespace DFA

open Automaton Block

variable {d : DFA} {blocks : List Block}

/-- The place of the first block that holds `q`. -/
def placeOf (blocks : List Block) (q : StateId) : Nat :=
  blocks.findIdx fun block => decide (q ∈ block)

/-! ### Divisions that can be merged -/

/-- The blocks divide the states, and no block tells two of its states apart. -/
structure Stable (d : DFA) (blocks : List Block) : Prop where
  /-- The blocks hold every state once. -/
  perm : blocks.flatten.Perm d.states.toList
  /-- No block is empty. -/
  block_ne : ∀ block ∈ blocks, block ≠ []
  /-- No block mixes final states with others. -/
  finals {p q : StateId} : Together blocks p q → (p ∈ d.finals ↔ q ∈ d.finals)
  /-- Every character leads every block into one block. -/
  edge {p q p' q' : StateId} {c : Char} :
    Together blocks p q → d.Edge p c p' → d.Edge q c q' → Together blocks p' q'

theorem stable_refined (hd : d.WellFormed) (htotal : Total d) : Stable d (refined d).blocks where
  perm := (valid_refined hd htotal).perm
  block_ne := (valid_refined hd htotal).block_ne
  finals := by
    intro p q h
    obtain ⟨block, hblock, hp, hq⟩ := h
    exact (valid_refined hd htotal).uniform block hblock p hp q hq
  edge := together_of_edge hd htotal

namespace Stable

theorem nodup_flatten (h : Stable d blocks) : blocks.flatten.Nodup :=
  h.perm.nodup_iff.mpr (StateSet.nodup_toList _)

theorem exists_at (h : Stable d blocks) {q : StateId} (hq : q ∈ d.states) :
    ∃ i, At blocks i q := by
  obtain ⟨block, hblock, hmem⟩ :=
    List.mem_flatten.mp (h.perm.mem_iff.mpr (ExtTreeSet.mem_toList.mpr hq))
  obtain ⟨i, hi⟩ := List.mem_iff_getElem?.mp hblock
  exact ⟨i, block, hi, hmem⟩

theorem mem_states (h : Stable d blocks) {i : Nat} {q : StateId} (hq : At blocks i q) :
    q ∈ d.states := by
  obtain ⟨block, hi, hmem⟩ := hq
  refine ExtTreeSet.mem_toList.mp (h.perm.mem_iff.mp (List.mem_flatten.mpr ⟨block, ?_, hmem⟩))
  exact List.mem_of_getElem? hi

/-- What one state of a block does, the others do as well. -/
theorem exists_edge (h : Stable d blocks) (hd : d.WellFormed) (htotal : Total d)
    {p q p' : StateId} {c : Char} (hpq : Together blocks p q) (hedge : d.Edge p c p') :
    ∃ q', d.Edge q c q' ∧ Together blocks p' q' := by
  obtain ⟨i, -, hq⟩ := together_iff_at.mp hpq
  obtain ⟨q', hedge'⟩ := htotal q (h.mem_states hq) c (char_mem_alphabet hd hedge)
  exact ⟨q', hedge', h.edge hpq hedge hedge'⟩

theorem exists_member (h : Stable d blocks) {i : Nat} (hi : i < blocks.length) :
    ∃ q, At blocks i q := by
  have hne := h.block_ne blocks[i] (List.getElem_mem hi)
  obtain ⟨q, hq⟩ := List.exists_mem_of_ne_nil _ hne
  exact ⟨q, blocks[i], List.getElem?_eq_getElem hi, hq⟩

theorem at_placeOf (h : Stable d blocks) {q : StateId} (hq : q ∈ d.states) :
    At blocks (placeOf blocks q) q := by
  obtain ⟨i, block, hi, hmem⟩ := h.exists_at hq
  have hlt : placeOf blocks q < blocks.length :=
    List.findIdx_lt_length_of_exists ⟨block, List.mem_of_getElem? hi, by simpa using hmem⟩
  exact ⟨_, List.getElem?_eq_getElem hlt, of_decide_eq_true (List.findIdx_getElem (w := hlt))⟩

theorem placeOf_eq_iff (h : Stable d blocks) {i : Nat} {q : StateId} (hq : q ∈ d.states) :
    placeOf blocks q = i ↔ At blocks i q := by
  constructor
  · intro heq
    exact heq ▸ h.at_placeOf hq
  · intro hi
    exact (h.at_placeOf hq).unique h.nodup_flatten hi

theorem blockOf_eq (h : Stable d blocks) {q : StateId} (hq : q ∈ d.states) :
    blockOf blocks q = .ok (placeOf blocks q) := by
  have hlt : placeOf blocks q < blocks.length := (h.at_placeOf hq).lt_length
  have hfind : blocks.findIdx? (fun block => decide (q ∈ block)) = some (placeOf blocks q) := by
    rw [List.findIdx?_eq_guard_findIdx_lt]
    exact Option.guard_eq_some_iff.mpr ⟨rfl, decide_eq_true hlt⟩
  rw [blockOf, hfind]

end Stable

/-! ### The machine over the places -/

/-- `m` has the places of the blocks for states and does what the members of the blocks do. -/
structure Merged (d : DFA) (blocks : List Block) (m : DFA) : Prop where
  wellFormed : m.WellFormed
  mem_states {i : StateId} : i ∈ m.states ↔ i < blocks.length
  initial {q : StateId} : d.initial = some q → ∃ i, m.initial = some i ∧ At blocks i q
  mem_finals {i q : StateId} : At blocks i q → (i ∈ m.finals ↔ q ∈ d.finals)
  edge {i j p : StateId} {c : Char} :
    At blocks i p → (m.Edge i c j ↔ ∃ q, d.Edge p c q ∧ At blocks j q)

theorem mem_edgesOfBlock {block : Block} {c : Char} {q : StateId} :
    (c, q) ∈ edgesOfBlock d block ↔ ∃ p, block.head? = some p ∧ d.Edge p c q := by
  simp only [edge_iff_next?, next?, target?]
  unfold edgesOfBlock
  cases block.head? with
  | none => simp
  | some p =>
      simp only [Option.bind_some, Option.some.injEq, exists_eq_left']
      cases d.edgesFrom? p with
      | none => simp
      | some out => simp

theorem keeps_quotient (d : DFA) (blocks : List Block) (initial : StateId) :
    (quotient d blocks initial).Keeps WellFormed :=
  (Edit.keeps_forM fun _ _ => keeps_addState _ _).bind fun _ =>
    (Edit.keeps_forM fun _ _ => Edit.keeps_forM fun _ _ =>
      (Edit.keeps_answer _).bind fun _ => keeps_addEdge _ _ _).bind fun _ =>
        (Edit.keeps_answer _).bind fun _ => keeps_setInitial _

/-- The edges of a block that the machine over the places gets its edges from. -/
def blockEdges (d : DFA) (blocks : List Block) : List ((Block × Nat) × (Char × StateId)) :=
  blocks.zipIdx.flatMap fun x => (edgesOfBlock d x.1).map fun y => (x, y)

theorem mem_blockEdges {block : Block} {i : Nat} {c : Char} {q : StateId} :
    ((block, i), (c, q)) ∈ blockEdges d blocks ↔
      blocks[i]? = some block ∧ ∃ p, block.head? = some p ∧ d.Edge p c q := by
  simp only [blockEdges, List.mem_flatMap, List.mem_map, Prod.mk.injEq]
  constructor
  · intro h
    obtain ⟨x, hx, y, hy, rfl, rfl⟩ := h
    exact ⟨List.mem_zipIdx_iff_getElem?.mp hx, mem_edgesOfBlock.mp hy⟩
  · intro h
    exact ⟨(block, i), List.mem_zipIdx_iff_getElem?.mpr h.1, (c, q), mem_edgesOfBlock.mpr h.2,
      rfl, rfl⟩

/-- What a block does by its least state, each of its states does. -/
theorem exists_blockEdge_iff (hd : d.WellFormed) (htotal : Total d) (h : Stable d blocks)
    {i j : Nat} {p : StateId} {c : Char} (hp : At blocks i p) :
    (∃ x ∈ blockEdges d blocks, x.1.2 = i ∧ x.2.1 = c ∧ placeOf blocks x.2.2 = j) ↔
      ∃ q, d.Edge p c q ∧ At blocks j q := by
  obtain ⟨block, hblock, hpb⟩ := hp
  have hsame : ∀ s ∈ block, Together blocks s p := fun s hs =>
    ⟨block, List.mem_of_getElem? hblock, hs, hpb⟩
  constructor
  · intro hex
    obtain ⟨⟨⟨b, _⟩, _, q⟩, hx, rfl, rfl, rfl⟩ := hex
    obtain ⟨hb, s, hs, hedge⟩ := mem_blockEdges.mp hx
    have hbb : b = block := Option.some.inj (hb.symm.trans hblock)
    subst hbb
    obtain ⟨q', hedge', hqq⟩ := h.exists_edge hd htotal (hsame s (List.mem_of_head? hs)) hedge
    obtain ⟨j, hj, hj'⟩ := together_iff_at.mp hqq
    refine ⟨q', hedge', ?_⟩
    rwa [(h.placeOf_eq_iff (hd.head_mem hedge)).mpr hj]
  · intro hex
    obtain ⟨q, hedge, hq⟩ := hex
    obtain ⟨s, hs⟩ : ∃ s, block.head? = some s := by
      cases block with
      | nil => exact absurd hpb List.not_mem_nil
      | cons s _ => exact ⟨s, rfl⟩
    obtain ⟨q', hedge', hqq⟩ :=
      h.exists_edge hd htotal (hsame s (List.mem_of_head? hs)).symm hedge
    obtain ⟨j', hj', hj⟩ := together_iff_at.mp hqq
    refine ⟨((block, i), (c, q')), mem_blockEdges.mpr ⟨hblock, s, hs, hedge'⟩, rfl, rfl, ?_⟩
    rw [h.placeOf_eq_iff (hd.head_mem hedge'), ← hj'.unique h.nodup_flatten hq]
    exact hj

theorem any_isFinal_iff (h : Stable d blocks) {i : Nat} {q : StateId} (hq : At blocks i q) :
    (∃ block, blocks[i]? = some block ∧ block.any d.isFinal = true) ↔ q ∈ d.finals := by
  obtain ⟨block, hblock, hqb⟩ := hq
  constructor
  · intro hex
    obtain ⟨b, hb, hany⟩ := hex
    obtain ⟨p, hp, hfinal⟩ := List.any_eq_true.mp hany
    have hbb : b = block := Option.some.inj (hb.symm.trans hblock)
    have htogether : Together blocks p q :=
      ⟨block, List.mem_of_getElem? hblock, hbb ▸ hp, hqb⟩
    exact (h.finals htogether).mp (isFinal_iff.mp hfinal)
  · intro hfinal
    exact ⟨block, hblock, List.any_eq_true.mpr ⟨q, hqb, isFinal_iff.mpr hfinal⟩⟩

/-- The loop that adds the edges of the blocks to the machine with their places for states. -/
theorem on_forM_blockEdges (hd : d.WellFormed) (h : Stable d blocks) {m : DFA}
    {accepting : Block → Bool} (hm : Bare blocks accepting m) :
    ∃ m', (blocks.zipIdx.forM fun (block, place) =>
        (edgesOfBlock d block).forM fun (c, q) => do
          addEdge place (← Edit.answer (blockOf blocks q)) c).on m = (.ok ⟨⟩, m') ∧
      SameStates m m' ∧ ∀ i c j, m'.Edge i c j ↔
        ∃ x ∈ blockEdges d blocks, x.1.2 = i ∧ x.2.1 = c ∧ placeOf blocks x.2.2 = j := by
  have hnone : ∀ p k q, ¬ m.Edge p k q := fun p k q hedge =>
    not_edge_empty p k q ((edge_of_edges_eq hm.edges p k q).mp hedge)
  have hhead : ∀ x ∈ blockEdges d blocks, x.1.2 < blocks.length ∧ x.2.2 ∈ d.states := by
    intro x hx
    obtain ⟨hblock, p, -, hedge⟩ := mem_blockEdges.mp hx
    exact ⟨(List.getElem?_eq_some_iff.mp hblock).1, hd.head_mem hedge⟩
  obtain ⟨m', hon, hsame, hedge⟩ := on_forM_addEdge_of_agree (blockEdges d blocks) (fun x => x.1.2)
    (fun x => placeOf blocks x.2.2) (fun x => x.2.1)
    (f := fun x => do addEdge x.1.2 (← Edit.answer (blockOf blocks x.2.2)) x.2.1) (d := m)
    (by
      intro x hx
      rw [h.blockOf_eq (hhead x hx).2]
      rfl)
    (by
      intro x hx
      obtain ⟨hlt, hmem⟩ := hhead x hx
      exact ⟨hm.mem_states.mpr hlt, hm.mem_states.mpr (h.at_placeOf hmem).lt_length⟩)
    (by
      -- The edges of one place come from one state, so there is one of them for a character.
      intro ⟨⟨b, i⟩, c, q⟩ hx ⟨⟨b', i'⟩, c', q'⟩ hy hi hc
      obtain ⟨hb, p, hp, hedge⟩ := mem_blockEdges.mp hx
      obtain ⟨hb', p', hp', hedge'⟩ := mem_blockEdges.mp hy
      simp only at hi hc
      subst hi hc
      have hblock : b = b' := Option.some.inj (hb.symm.trans hb')
      subst hblock
      have hpp : p = p' := Option.some.inj (hp.symm.trans hp')
      subst hpp
      exact congrArg (placeOf blocks) (edge_unique hedge hedge'))
    (fun x _ q hq => absurd hq (hnone _ _ _))
  refine ⟨m', ?_, hsame, fun i c j => (hedge i c j).trans (or_iff_left (hnone i c j))⟩
  rw [← hon]
  exact congrArg (fun x => Edit.on x m) (forM_forM_eq blocks.zipIdx (fun x => edgesOfBlock d x.1)
    fun x y => do addEdge x.2 (← Edit.answer (blockOf blocks y.2)) y.1)

/-- Merging the states of the blocks is not refused. -/
theorem exists_quotient (hd : d.WellFormed) (htotal : Total d) (h : Stable d blocks)
    {start : StateId} (hstart : d.initial = some start) :
    ∃ m, (quotient d blocks start).on empty = (.ok ⟨⟩, m) ∧ Merged d blocks m := by
  obtain ⟨m₁, hon₁, hbare⟩ := on_forM_addState (κ := Char) (τ := StateId) blocks
    (fun block => block.any d.isFinal)
  obtain ⟨m₂, hon₂, hsame, hedge⟩ := on_forM_blockEdges hd h hbare
  -- The start state is set last, and its block has a place among the states by then.
  have hfirst : At blocks (placeOf blocks start) start := h.at_placeOf (hd.initial_mem hstart)
  have hmem : placeOf blocks start ∈ m₂.states := by
    rw [hsame.states, hbare.mem_states]
    exact hfirst.lt_length
  have hon : (quotient d blocks start).on empty =
      (.ok ⟨⟩, { m₂ with initial := some (placeOf blocks start) }) := by
    rw [quotient, Edit.on_bind_of_ok hon₁, Edit.on_bind_of_ok hon₂,
      h.blockOf_eq (hd.initial_mem hstart)]
    exact on_setInitial_of_mem hmem
  refine ⟨_, hon, ?_, ?_, ?_, ?_, ?_⟩
  · have hkeep := keeps_quotient d blocks start empty wellFormed_empty
    rw [hon] at hkeep
    exact hkeep
  · intro i
    exact (congrArg (i ∈ ·) hsame.states).to_iff.trans hbare.mem_states
  · intro q hq
    exact ⟨placeOf blocks start, rfl, Option.some.inj (hstart.symm.trans hq) ▸ hfirst⟩
  · intro i q hq
    refine Iff.trans ?_ (any_isFinal_iff h hq)
    exact (congrArg (i ∈ ·) hsame.finals).to_iff.trans hbare.mem_finals
  · intro i j p c hp
    refine Iff.trans ?_ (exists_blockEdge_iff hd htotal h hp)
    exact (edge_of_edges_eq rfl i c j).trans (hedge i c j)

namespace Merged

variable {m : DFA}

/-- The place of a block accepts what its members accept. -/
theorem acceptsFrom_eq (hm : Merged d blocks m) (hd : d.WellFormed) (h : Stable d blocks)
    {i : Nat} {q : StateId} (hq : At blocks i q) (w : Word) :
    acceptsFrom m i w = acceptsFrom d q w := by
  induction w generalizing i q with
  | nil =>
      rw [acceptsFrom_nil, acceptsFrom_nil, Bool.eq_iff_iff, isFinal_iff, isFinal_iff]
      exact hm.mem_finals hq
  | cons c w ih =>
      by_cases hex : ∃ r, d.Edge q c r
      · obtain ⟨r, hr⟩ := hex
        obtain ⟨j, hj⟩ := h.exists_at (hd.head_mem hr)
        rw [acceptsFrom_cons_of_edge hr,
          acceptsFrom_cons_of_edge ((hm.edge hq).mpr ⟨r, hr, hj⟩), ih hj]
      · rw [acceptsFrom_cons_of_no_edge (not_exists.mp hex), acceptsFrom_cons_of_no_edge]
        intro j hj
        obtain ⟨r, hr, -⟩ := (hm.edge hq).mp hj
        exact hex ⟨r, hr⟩

theorem accepts_eq (hm : Merged d blocks m) (hd : d.WellFormed) (h : Stable d blocks)
    {start : StateId} (hstart : d.initial = some start) (w : Word) :
    accepts m w = accepts d w := by
  obtain ⟨i, hi, hat⟩ := hm.initial hstart
  rw [accepts, accepts, hi, hstart]
  exact hm.acceptsFrom_eq hd h hat w

/-- The alphabet is that of the machine whose states are merged. -/
theorem alphabet_eq (hm : Merged d blocks m) (hd : d.WellFormed) (htotal : Total d)
    (h : Stable d blocks) {start : StateId} (hstart : d.initial = some start) :
    m.alphabet = d.alphabet := by
  refine ExtTreeSet.ext_mem fun c => ⟨fun hc => ?_, fun hc => ?_⟩
  · obtain ⟨i, k, j, hedge, hk⟩ := hm.wellFormed.mem_alphabet.mp hc
    rw [letters_char, List.mem_singleton] at hk
    subst hk
    obtain ⟨p, hp⟩ := h.exists_member (hm.mem_states.mp (hm.wellFormed.tail_mem hedge))
    obtain ⟨q, hq, -⟩ := (hm.edge hp).mp hedge
    exact char_mem_alphabet hd hq
  · obtain ⟨q, hq⟩ := htotal start (hd.initial_mem hstart) c hc
    obtain ⟨i, hi⟩ := h.exists_at (hd.initial_mem hstart)
    obtain ⟨j, hj⟩ := h.exists_at (hd.head_mem hq)
    exact char_mem_alphabet hm.wellFormed ((hm.edge hi).mpr ⟨q, hq, hj⟩)

theorem total (hm : Merged d blocks m) (hd : d.WellFormed) (htotal : Total d)
    (h : Stable d blocks) {start : StateId} (hstart : d.initial = some start) : Total m := by
  intro i hi c hc
  rw [hm.alphabet_eq hd htotal h hstart] at hc
  obtain ⟨p, hp⟩ := h.exists_member (hm.mem_states.mp hi)
  obtain ⟨q, hq⟩ := htotal p (h.mem_states hp) c hc
  obtain ⟨j, hj⟩ := h.exists_at (hd.head_mem hq)
  exact ⟨j, (hm.edge hp).mpr ⟨q, hq, hj⟩⟩

end Merged

end DFA

end RegexMachine
