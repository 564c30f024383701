import Mathlib.Data.List.Perm.Subperm
import RegexMachine.DFA.Refinement
import RegexMachine.Proofs.Automaton.WellFormed

/-!
# RegexMachine.Proofs.DFA.Block

**What cutting does to blocks.** A block is cut along a line that tells its states apart by where a
character leads. The pieces hold the same states, two states stay together exactly if they were
together and go the same way, and what is pending stays a part of the blocks, nothing twice.

Nothing gets lost among the pending blocks either: a pending block that is left whole stays pending,
of a pending block that is cut both parts are pending, and of any block that is cut at least one
part is. The proofs follow the fold over the blocks. They rest on the fact that the parts of a cut
are not cut again, so that whatever is put on the stack in this pass stays there.
-/

namespace RegexMachine

open Std

namespace Block

variable {leads : StateId → Bool} {block inside outside : Block}

/-! ### Cutting one block -/

theorem cut?_eq_some_iff : cut? leads block = some (inside, outside) ↔
    block.filter leads = inside ∧ (block.filter fun q => !leads q) = outside ∧
      inside ≠ [] ∧ outside ≠ [] := by
  simp only [cut?]
  split
  · next h =>
      constructor
      · intro hnone
        cases hnone
      · intro hparts
        obtain ⟨hi, ho, hine, hone⟩ := hparts
        subst hi ho
        exact absurd h (not_or.mpr ⟨hine, hone⟩)
  · next h =>
      rw [not_or] at h
      constructor
      · intro hsome
        cases hsome
        exact ⟨rfl, rfl, h⟩
      · intro hparts
        rw [hparts.1, hparts.2.1]

/-- A block of states that all go the same way is left whole. -/
theorem cut?_eq_none_of_same {b : Bool} (h : ∀ q ∈ block, leads q = b) :
    cut? leads block = none := by
  refine Option.eq_none_iff_forall_ne_some.mpr fun (inside, outside) hcut => ?_
  obtain ⟨rfl, rfl, hine, hone⟩ := cut?_eq_some_iff.mp hcut
  obtain ⟨p, hp⟩ := List.exists_mem_of_ne_nil _ hine
  obtain ⟨q, hq⟩ := List.exists_mem_of_ne_nil _ hone
  rw [List.mem_filter] at hp hq
  rw [h p hp.1] at hp
  rw [h q hq.1, hp.2] at hq
  cases hq.2

theorem mem_pieces {piece : Block} : piece ∈ pieces leads block ↔
    (cut? leads block = none ∧ piece = block) ∨
      ∃ inside outside, cut? leads block = some (inside, outside) ∧
        (piece = inside ∨ piece = outside) := by
  unfold pieces
  cases hcut : cut? leads block with
  | none => simp
  | some parts =>
      obtain ⟨inside, outside⟩ := parts
      simp [eq_comm]

theorem flatten_pieces_perm (leads : StateId → Bool) (block : Block) :
    (pieces leads block).flatten.Perm block := by
  unfold pieces
  cases hcut : cut? leads block with
  | none => simp
  | some parts =>
      obtain ⟨inside, outside⟩ := parts
      obtain ⟨rfl, rfl, -⟩ := cut?_eq_some_iff.mp hcut
      simpa using List.filter_append_perm leads block

theorem flatten_flatMap_pieces_perm (leads : StateId → Bool) (blocks : List Block) :
    (blocks.flatMap (pieces leads)).flatten.Perm blocks.flatten := by
  induction blocks with
  | nil => rfl
  | cons block blocks ih =>
      rw [List.flatMap_cons, List.flatten_append, List.flatten_cons]
      exact (flatten_pieces_perm leads block).append ih

/-- What holds of a block and passes to both parts of a cut holds of the pieces. -/
theorem pieces_of_cut {p : Block → Prop} (hblock : p block)
    (hcut : ∀ inside outside, cut? leads block = some (inside, outside) → p inside ∧ p outside) :
    ∀ piece ∈ pieces leads block, p piece := by
  intro piece hpiece
  rcases mem_pieces.mp hpiece with ⟨-, rfl⟩ | ⟨inside, outside, h, rfl | rfl⟩
  · exact hblock
  · exact (hcut _ _ h).1
  · exact (hcut _ _ h).2

/-! ### What is pending after a cut -/

theorem replace_perm {top : Block} {rest : List Block} (h : block ∈ rest) :
    (rest.replace block top).Perm (top :: rest.erase block) := by
  induction rest with
  | nil => exact absurd h List.not_mem_nil
  | cons b rest ih =>
      by_cases hb : b = block
      · rw [hb, List.replace_cons_self, List.erase_cons_head]
      · have hrest : block ∈ rest := (List.mem_cons.mp h).resolve_left (Ne.symm hb)
        have hbeq : (block == b) = false := beq_eq_false_iff_ne.mpr (Ne.symm hb)
        have hbeq' : ¬ (b == block) = true := by simpa using hb
        rw [List.replace_cons, hbeq, List.erase_cons_tail hbeq']
        exact ((ih hrest).cons b).trans (List.Perm.swap top b _)

/-- A block withdrawn is gone once, and everything else is still pending. -/
theorem withdraw_perm {pending : List Block} (h : block ∈ pending) :
    (withdraw block pending).Perm (pending.erase block) := by
  cases pending with
  | nil => exact absurd h List.not_mem_nil
  | cons top rest =>
      simp only [withdraw]
      by_cases htop : top = block
      · rw [if_pos htop, htop, List.erase_cons_head]
      · have hrest : block ∈ rest := (List.mem_cons.mp h).resolve_left (Ne.symm htop)
        have hbeq : ¬ (top == block) = true := by simpa using htop
        rw [if_neg htop, List.erase_cons_tail hbeq]
        exact replace_perm hrest

/-- What is pending is a part of the blocks, and stays one when a block is cut. -/
theorem requeue_subperm {pending rest : List Block} (h : pending.Subperm (block :: rest)) :
    (requeue leads pending block).Subperm (pieces leads block ++ rest) := by
  unfold requeue pieces
  cases hcut : cut? leads block with
  | none => exact h
  | some parts =>
      obtain ⟨inside, outside⟩ := parts
      by_cases hmem : block ∈ pending
      · have herase : (withdraw block pending).Subperm rest := by
          refine (withdraw_perm hmem).subperm.trans ?_
          simpa using h.erase block
        simp only [if_pos hmem]
        refine List.Subperm.trans ?_ (List.Perm.swap inside outside rest).subperm
        exact (List.subperm_cons inside).mpr herase |> (List.subperm_cons outside).mpr
      · have hrest : pending.Subperm rest := by
          have hsub := h.erase block
          rwa [List.erase_of_not_mem hmem, List.erase_cons_head] at hsub
        simp only [if_neg hmem]
        split
        · exact ((List.subperm_cons inside).mpr hrest).trans
            ((List.sublist_cons_self outside rest).subperm |> (List.subperm_cons inside).mpr)
        · exact ((List.subperm_cons outside).mpr hrest).trans
            (List.sublist_cons_self inside (outside :: rest)).subperm

theorem foldl_requeue_subperm {blocks pending : List Block} (rest : List Block)
    (h : pending.Subperm (blocks ++ rest)) :
    (blocks.foldl (requeue leads) pending).Subperm (blocks.flatMap (pieces leads) ++ rest) := by
  induction blocks generalizing pending rest with
  | nil => exact h
  | cons block blocks ih =>
      rw [List.foldl_cons, List.flatMap_cons, List.append_assoc]
      have hblock : (requeue leads pending block).Subperm
          (blocks ++ (pieces leads block ++ rest)) :=
        (requeue_subperm h).trans (List.perm_append_comm_assoc _ _ _).subperm
      exact (ih _ hblock).trans (List.perm_append_comm_assoc _ _ _).subperm

/-- A pending block stays pending while another block is dealt with. -/
theorem mem_requeue_of_ne {b : Block} {pending : List Block} (hb : b ∈ pending) (hne : b ≠ block) :
    b ∈ requeue leads pending block := by
  unfold requeue
  cases cut? leads block with
  | none => exact hb
  | some parts =>
      by_cases hmem : block ∈ pending
      · have hleft : b ∈ withdraw block pending :=
          (withdraw_perm hmem).mem_iff.mpr ((List.mem_erase_of_ne hne).mpr hb)
        simp only [if_pos hmem]
        exact List.mem_cons_of_mem _ (List.mem_cons_of_mem _ hleft)
      · simp only [if_neg hmem]
        split
        · exact List.mem_cons_of_mem _ hb
        · exact List.mem_cons_of_mem _ hb

theorem requeue_of_whole {pending : List Block} (hwhole : cut? leads block = none) :
    requeue leads pending block = pending := by
  rw [requeue, hwhole]

/-- What holds of all pending blocks and of both parts of a cut holds of what is pending then. -/
theorem requeue_of_cut {p : Block → Prop} {pending : List Block} (hpending : ∀ b ∈ pending, p b)
    (hcut : ∀ inside outside, cut? leads block = some (inside, outside) → p inside ∧ p outside) :
    ∀ b ∈ requeue leads pending block, p b := by
  unfold requeue
  cases h : cut? leads block with
  | none => exact hpending
  | some parts =>
      obtain ⟨inside, outside⟩ := parts
      obtain ⟨hin, hout⟩ := hcut inside outside h
      by_cases hmem : block ∈ pending
      · have hleft : ∀ b ∈ withdraw block pending, p b := fun b hb =>
          hpending b (List.mem_of_mem_erase ((withdraw_perm hmem).mem_iff.mp hb))
        simp only [if_pos hmem]
        exact List.forall_mem_cons.mpr ⟨hout, List.forall_mem_cons.mpr ⟨hin, hleft⟩⟩
      · simp only [if_neg hmem]
        split
        · exact List.forall_mem_cons.mpr ⟨hin, hpending⟩
        · exact List.forall_mem_cons.mpr ⟨hout, hpending⟩

/-- A pending block that is left whole stays pending. -/
theorem mem_foldl_requeue_of_whole {b : Block} {blocks pending : List Block} (hb : b ∈ pending)
    (hwhole : cut? leads b = none) : b ∈ blocks.foldl (requeue leads) pending := by
  induction blocks generalizing pending with
  | nil => exact hb
  | cons block blocks ih =>
      rw [List.foldl_cons]
      refine ih ?_
      by_cases hne : b = block
      · rwa [← hne, requeue_of_whole hwhole]
      · exact mem_requeue_of_ne hb hne

/-- The parts of a cut are not cut again by the same character. -/
theorem cut?_parts (h : cut? leads block = some (inside, outside)) :
    cut? leads inside = none ∧ cut? leads outside = none := by
  obtain ⟨rfl, rfl, -⟩ := cut?_eq_some_iff.mp h
  constructor
  · exact cut?_eq_none_of_same (b := true) fun q hq => (List.mem_filter.mp hq).2
  · exact cut?_eq_none_of_same (b := false) fun q hq => by
      simpa using (List.mem_filter.mp hq).2

/-- Of a pending block that is cut, both parts are pending. -/
theorem parts_mem_foldl_requeue {blocks pending : List Block} (hblock : block ∈ blocks)
    (hpending : block ∈ pending) (hcut : cut? leads block = some (inside, outside)) :
    inside ∈ blocks.foldl (requeue leads) pending ∧
      outside ∈ blocks.foldl (requeue leads) pending := by
  obtain ⟨hin, hout⟩ := cut?_parts hcut
  induction blocks generalizing pending with
  | nil => exact absurd hblock List.not_mem_nil
  | cons b blocks ih =>
      rw [List.foldl_cons]
      by_cases hb : b = block
      · have hqueue : requeue leads pending b =
            outside :: inside :: withdraw block pending := by
          subst hb
          simp [requeue, hcut, hpending]
        rw [hqueue]
        exact ⟨mem_foldl_requeue_of_whole (by simp) hin, mem_foldl_requeue_of_whole (by simp) hout⟩
      · exact ih ((List.mem_cons.mp hblock).resolve_left (Ne.symm hb))
          (mem_requeue_of_ne hpending (Ne.symm hb))

/-- Of any block that is cut, at least one part is pending. -/
theorem part_mem_foldl_requeue {blocks : List Block} (pending : List Block)
    (hblock : block ∈ blocks) (hcut : cut? leads block = some (inside, outside)) :
    inside ∈ blocks.foldl (requeue leads) pending ∨
      outside ∈ blocks.foldl (requeue leads) pending := by
  obtain ⟨hin, hout⟩ := cut?_parts hcut
  induction blocks generalizing pending with
  | nil => exact absurd hblock List.not_mem_nil
  | cons b blocks ih =>
      rw [List.foldl_cons]
      by_cases hb : b = block
      · subst hb
        have hqueue : inside ∈ requeue leads pending b ∨ outside ∈ requeue leads pending b := by
          simp only [requeue, hcut]
          split
          · exact Or.inl (by simp)
          · split
            · exact Or.inl (by simp)
            · exact Or.inr (by simp)
        exact hqueue.imp (mem_foldl_requeue_of_whole · hin) (mem_foldl_requeue_of_whole · hout)
      · exact ih _ ((List.mem_cons.mp hblock).resolve_left (Ne.symm hb))

/-! ### States of one block -/

/-- Some block holds both states. -/
def Together (blocks : List Block) (p q : StateId) : Prop :=
  ∃ block ∈ blocks, p ∈ block ∧ q ∈ block

theorem Together.symm {blocks : List Block} {p q : StateId} (h : Together blocks p q) :
    Together blocks q p := by
  obtain ⟨block, hblock, hp, hq⟩ := h
  exact ⟨block, hblock, hq, hp⟩

theorem mem_inside (h : cut? leads block = some (inside, outside)) {q : StateId} :
    q ∈ inside ↔ q ∈ block ∧ leads q = true := by
  obtain ⟨rfl, -, -⟩ := cut?_eq_some_iff.mp h
  exact List.mem_filter

theorem mem_outside (h : cut? leads block = some (inside, outside)) {q : StateId} :
    q ∈ outside ↔ q ∈ block ∧ leads q = false := by
  obtain ⟨-, rfl, -⟩ := cut?_eq_some_iff.mp h
  rw [List.mem_filter, Bool.not_eq_true']

/-- Two states of a block that go different ways cut it. -/
theorem exists_cut? {p q : StateId} (hp : p ∈ block) (hq : q ∈ block) (hlp : leads p = true)
    (hlq : leads q = false) : ∃ inside outside, cut? leads block = some (inside, outside) := by
  refine ⟨_, _, cut?_eq_some_iff.mpr ⟨rfl, rfl, ?_, ?_⟩⟩
  · exact List.ne_nil_of_mem (List.mem_filter.mpr ⟨hp, hlp⟩)
  · exact List.ne_nil_of_mem (List.mem_filter.mpr ⟨hq, by rw [hlq]; rfl⟩)

/-- The states of a block that is left whole all go the same way. -/
theorem leads_eq_of_whole (hwhole : cut? leads block = none) {p q : StateId} (hp : p ∈ block)
    (hq : q ∈ block) : leads p = leads q := by
  have key : ∀ {p q : StateId}, p ∈ block → q ∈ block → leads p = true → leads q = true := by
    intro p q hp hq hlp
    by_contra hlq
    obtain ⟨_, _, hcut⟩ := exists_cut? hp hq hlp (Bool.eq_false_iff.mpr hlq)
    rw [hwhole] at hcut
    cases hcut
  exact Bool.eq_iff_iff.mpr ⟨key hp hq, key hq hp⟩

/-- Two states of a block are in one piece of it if they go the same way. -/
theorem exists_piece_iff {p q : StateId} : (∃ piece ∈ pieces leads block, p ∈ piece ∧ q ∈ piece) ↔
    (p ∈ block ∧ q ∈ block) ∧ leads p = leads q := by
  constructor
  · intro h
    obtain ⟨piece, hpiece, hp, hq⟩ := h
    rcases mem_pieces.mp hpiece with ⟨hwhole, rfl⟩ | ⟨inside, outside, hcut, rfl | rfl⟩
    · exact ⟨⟨hp, hq⟩, leads_eq_of_whole hwhole hp hq⟩
    · rw [mem_inside hcut] at hp hq
      exact ⟨⟨hp.1, hq.1⟩, hp.2.trans hq.2.symm⟩
    · rw [mem_outside hcut] at hp hq
      exact ⟨⟨hp.1, hq.1⟩, hp.2.trans hq.2.symm⟩
  · intro h
    obtain ⟨⟨hp, hq⟩, hsame⟩ := h
    cases hcut : cut? leads block with
    | none => exact ⟨block, mem_pieces.mpr (Or.inl ⟨hcut, rfl⟩), hp, hq⟩
    | some parts =>
        obtain ⟨inside, outside⟩ := parts
        cases hlp : leads p with
        | true =>
            exact ⟨inside, mem_pieces.mpr (Or.inr ⟨_, _, hcut, Or.inl rfl⟩),
              (mem_inside hcut).mpr ⟨hp, hlp⟩, (mem_inside hcut).mpr ⟨hq, hsame ▸ hlp⟩⟩
        | false =>
            exact ⟨outside, mem_pieces.mpr (Or.inr ⟨_, _, hcut, Or.inr rfl⟩),
              (mem_outside hcut).mpr ⟨hp, hlp⟩, (mem_outside hcut).mpr ⟨hq, hsame ▸ hlp⟩⟩

/-- Cutting every block leaves those states together that were together and go the same way. -/
theorem together_flatMap_pieces {blocks : List Block} {p q : StateId} :
    Together (blocks.flatMap (pieces leads)) p q ↔ Together blocks p q ∧ leads p = leads q := by
  constructor
  · intro h
    obtain ⟨piece, hpiece, hmem⟩ := h
    obtain ⟨block, hblock, hpiece⟩ := List.mem_flatMap.mp hpiece
    obtain ⟨hboth, hsame⟩ := exists_piece_iff.mp ⟨piece, hpiece, hmem⟩
    exact ⟨⟨block, hblock, hboth⟩, hsame⟩
  · intro h
    obtain ⟨⟨block, hblock, hboth⟩, hsame⟩ := h
    obtain ⟨piece, hpiece, hmem⟩ := exists_piece_iff.mpr ⟨hboth, hsame⟩
    exact ⟨piece, List.mem_flatMap.mpr ⟨block, hblock, hpiece⟩, hmem⟩

end Block

end RegexMachine
