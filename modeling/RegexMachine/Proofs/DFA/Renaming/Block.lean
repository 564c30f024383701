import Mathlib.Data.List.Sort
import RegexMachine.Proofs.Automaton.Relabel
import RegexMachine.Proofs.DFA.Quotient

/-!
# RegexMachine.Proofs.DFA.Renaming.Block

**What happens to blocks does not depend on the names of states.** A block lists its states in
ascending order, so renaming a block sorts it anew. But a block is cut, found among others and
compared by what it holds, and which part goes on the stack depends on the numbers of states only.
So cutting, withdrawing and queueing blocks commute with renaming them.

Only blocks that list states of the machine in ascending order are told apart by what they hold.
`Within` says so, and it is kept up by every cut.
-/

namespace RegexMachine

open Std

open Automaton

variable {d : DFA} {f : StateId → StateId}

namespace Block

/-! ### Renaming the states of a block -/

/-- A block of states of `d`, listed in ascending order. -/
structure Within (d : DFA) (block : Block) : Prop where
  ascending : block.Pairwise (· < ·)
  mem_states : ∀ q ∈ block, q ∈ d.states

/-- The block of the renamed states. -/
def rename (f : StateId → StateId) (block : Block) : Block :=
  (StateSet.image f (ExtTreeSet.ofList block)).toList

variable {block inside outside : Block} {leads leads' : StateId → Bool}

theorem mem_rename {q : StateId} : q ∈ rename f block ↔ ∃ p ∈ block, f p = q := by
  simp [rename]

theorem ascending_rename : (rename f block).Pairwise (· < ·) :=
  StateSet.pairwise_lt_toList _

/-- A block is settled by the states it holds. -/
theorem eq_rename {image : Block} (h : image.Pairwise (· < ·))
    (hmem : ∀ q, q ∈ image ↔ ∃ p ∈ block, f p = q) : image = rename f block :=
  h.eq_of_mem_iff ascending_rename fun q => (hmem q).trans mem_rename.symm

theorem rename_eq_nil : rename f block = [] ↔ block = [] := by
  simp [List.eq_nil_iff_forall_not_mem, mem_rename]

theorem Within.filter (hb : Within d block) (leads : StateId → Bool) :
    Within d (block.filter leads) :=
  ⟨hb.ascending.filter leads, fun q hq => hb.mem_states q (List.mem_of_mem_filter hq)⟩

theorem within_toList {s : StateSet} (h : ∀ q ∈ s, q ∈ d.states) : Within d s.toList :=
  ⟨StateSet.pairwise_lt_toList s, fun q hq => h q (ExtTreeSet.mem_toList.mp hq)⟩

theorem within_parts (hb : Within d block) (hcut : cut? leads block = some (inside, outside)) :
    Within d inside ∧ Within d outside := by
  obtain ⟨rfl, rfl, -⟩ := cut?_eq_some_iff.mp hcut
  exact ⟨hb.filter _, hb.filter _⟩

theorem within_pieces (hb : Within d block) : ∀ b ∈ pieces leads block, Within d b :=
  pieces_of_cut hb fun _ _ hcut => within_parts hb hcut

theorem within_requeue {pending : List Block} (hb : Within d block)
    (hpending : ∀ b ∈ pending, Within d b) : ∀ b ∈ requeue leads pending block, Within d b :=
  requeue_of_cut hpending fun _ _ hcut => within_parts hb hcut

theorem within_foldl_requeue {blocks pending : List Block} (hblocks : ∀ b ∈ blocks, Within d b)
    (hpending : ∀ b ∈ pending, Within d b) :
    ∀ b ∈ blocks.foldl (requeue leads) pending, Within d b := by
  induction blocks generalizing pending with
  | nil => exact hpending
  | cons block blocks ih =>
      obtain ⟨hb, hblocks⟩ := List.forall_mem_cons.mp hblocks
      exact ih hblocks (within_requeue hb hpending)

section Apart

variable (hf : Apart f d)

include hf

theorem apply_mem_rename (hb : Within d block) {q : StateId} (hq : q ∈ d.states) :
    f q ∈ rename f block ↔ q ∈ block := by
  rw [rename, ExtTreeSet.mem_toList, StateSet.apply_mem_image hf ?_ hq]
  · simp
  · intro p hp
    exact hb.mem_states p (by simpa using hp)

theorem rename_injOn : Set.InjOn (rename f) {block | Within d block} := by
  intro a ha b hb heq
  refine List.Pairwise.eq_of_mem_iff (Within.ascending ha) (Within.ascending hb) fun q => ?_
  by_cases hq : q ∈ d.states
  · rw [← apply_mem_rename hf ha hq, heq, apply_mem_rename hf hb hq]
  · exact iff_of_false (mt (Within.mem_states ha q) hq) (mt (Within.mem_states hb q) hq)

theorem length_rename (hb : Within d block) : (rename f block).length = block.length := by
  rw [rename, ExtTreeSet.length_toList, StateSet.size_image, ExtTreeSet.size_ofList]
  · exact hb.ascending.imp fun hlt heq => Nat.ne_of_lt hlt (Nat.compare_eq_eq.mp heq)
  · intro p hp q hq heq
    exact hf (hb.mem_states p (by simpa using hp)) (hb.mem_states q (by simpa using hq)) heq

theorem mem_map_rename {pending : List Block} (hb : Within d block)
    (hpending : ∀ b ∈ pending, Within d b) :
    rename f block ∈ pending.map (rename f) ↔ block ∈ pending := by
  constructor
  · intro h
    obtain ⟨b, hmem, heq⟩ := List.mem_map.mp h
    exact rename_injOn hf (hpending b hmem) hb heq ▸ hmem
  · exact List.mem_map_of_mem

end Apart

/-! ### Cutting renamed blocks

A cut is made along a line that `leads` draws; `leads'` draws the same line between the renamed
states. -/

theorem filter_rename (hlead : ∀ q ∈ block, leads' (f q) = leads q) :
    (rename f block).filter leads' = rename f (block.filter leads) := by
  refine eq_rename (ascending_rename.filter _) fun q => ?_
  rw [List.mem_filter, mem_rename]
  constructor
  · intro h
    obtain ⟨⟨p, hp, rfl⟩, hq⟩ := h
    exact ⟨p, List.mem_filter.mpr ⟨hp, hlead p hp ▸ hq⟩, rfl⟩
  · intro h
    obtain ⟨p, hp, rfl⟩ := h
    obtain ⟨hp, hq⟩ := List.mem_filter.mp hp
    exact ⟨⟨p, hp, rfl⟩, (hlead p hp).trans hq⟩

theorem cut?_rename (hlead : ∀ q ∈ block, leads' (f q) = leads q) :
    cut? leads' (rename f block) =
      (cut? leads block).map fun parts => (rename f parts.1, rename f parts.2) := by
  have houtside : (rename f block).filter (fun q => !leads' q) =
      rename f (block.filter fun q => !leads q) :=
    filter_rename fun q hq => congrArg not (hlead q hq)
  simp only [cut?, filter_rename hlead, houtside, rename_eq_nil]
  split <;> rfl

theorem pieces_rename (hlead : ∀ q ∈ block, leads' (f q) = leads q) :
    pieces leads' (rename f block) = (pieces leads block).map (rename f) := by
  rw [pieces, cut?_rename hlead, pieces]
  cases cut? leads block <;> rfl

section Apart

variable (hf : Apart f d) (hlead : ∀ q ∈ d.states, leads' (f q) = leads q)

include hf

theorem replace_rename {top : Block} {rest : List Block} (hb : Within d block)
    (hrest : ∀ b ∈ rest, Within d b) :
    (rest.map (rename f)).replace (rename f block) (rename f top) =
      (rest.replace block top).map (rename f) := by
  induction rest with
  | nil => rfl
  | cons b rest ih =>
      have ih := ih fun c hc => hrest c (List.mem_cons_of_mem _ hc)
      by_cases heq : b = block
      · subst heq
        rw [List.map_cons, List.replace_cons_self, List.replace_cons_self, List.map_cons]
      · have hne : rename f b ≠ rename f block :=
          mt (rename_injOn hf (hrest b List.mem_cons_self) hb) heq
        rw [List.map_cons, List.replace_cons, beq_eq_false_iff_ne.mpr hne.symm, List.replace_cons,
          beq_eq_false_iff_ne.mpr (Ne.symm heq), ih, List.map_cons]

theorem withdraw_rename {pending : List Block} (hb : Within d block)
    (hpending : ∀ b ∈ pending, Within d b) :
    withdraw (rename f block) (pending.map (rename f)) =
      (withdraw block pending).map (rename f) := by
  cases pending with
  | nil => rfl
  | cons top rest =>
      have hrest : ∀ b ∈ rest, Within d b := fun b hb => hpending b (List.mem_cons_of_mem _ hb)
      rw [List.map_cons, withdraw, withdraw]
      by_cases heq : top = block
      · rw [if_pos heq, if_pos (congrArg (rename f) heq)]
      · rw [if_neg heq, if_neg (mt (rename_injOn hf (hpending top List.mem_cons_self) hb) heq),
          replace_rename hf hb hrest]

include hlead

theorem record?_rename (hb : Within d block) (c : Char) :
    record? leads' c (rename f block) = record? leads c block := by
  rw [record?, cut?_rename fun q hq => hlead q (hb.mem_states q hq), record?, length_rename hf hb]
  cases hcut : cut? leads block with
  | none => rfl
  | some parts =>
      obtain ⟨inside, outside⟩ := parts
      obtain ⟨hin, hout⟩ := within_parts hb hcut
      simp only [Option.map_some, length_rename hf hin, length_rename hf hout]

theorem requeue_rename {pending : List Block} (hb : Within d block)
    (hpending : ∀ b ∈ pending, Within d b) :
    requeue leads' (pending.map (rename f)) (rename f block) =
      (requeue leads pending block).map (rename f) := by
  rw [requeue, cut?_rename fun q hq => hlead q (hb.mem_states q hq), requeue]
  cases hcut : cut? leads block with
  | none => rfl
  | some parts =>
      obtain ⟨inside, outside⟩ := parts
      obtain ⟨hin, hout⟩ := within_parts hb hcut
      -- Whether the block is pending and which part is smaller does not depend on names.
      simp only [Option.map_some, mem_map_rename hf hb hpending, length_rename hf hin,
        length_rename hf hout, withdraw_rename hf hb hpending]
      split
      · rfl
      · split <;> rfl

theorem foldl_requeue_rename {blocks pending : List Block} (hblocks : ∀ b ∈ blocks, Within d b)
    (hpending : ∀ b ∈ pending, Within d b) :
    (blocks.map (rename f)).foldl (requeue leads') (pending.map (rename f)) =
      (blocks.foldl (requeue leads) pending).map (rename f) := by
  induction blocks generalizing pending with
  | nil => rfl
  | cons block blocks ih =>
      obtain ⟨hb, hblocks⟩ := List.forall_mem_cons.mp hblocks
      rw [List.map_cons, List.foldl_cons, List.foldl_cons, requeue_rename hf hlead hb hpending,
        ih hblocks (within_requeue hb hpending)]

end Apart

/-- A state keeps its place when its block is renamed with it. -/
theorem at_rename {blocks : List Block} (hf : Apart f d) (hblocks : ∀ b ∈ blocks, Within d b)
    {i : Nat} {q : StateId} (hq : q ∈ d.states) :
    At (blocks.map (rename f)) i (f q) ↔ At blocks i q := by
  unfold At
  rw [List.getElem?_map]
  cases hblock : blocks[i]? with
  | none => simp
  | some block =>
      have hb := hblocks block (List.mem_of_getElem? hblock)
      simp only [Option.map_some, Option.some.injEq, exists_eq_left', apply_mem_rename hf hb hq]

end Block

end RegexMachine
