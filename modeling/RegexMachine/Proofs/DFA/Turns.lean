import RegexMachine.Proofs.DFA.Renaming

/-!
# RegexMachine.Proofs.DFA.Turns

**How many turns and cuts there are.** Every cut makes one block more, one pending block more and
one record. So the records count the blocks that have been added to those of the start, and what is
pending falls behind the blocks by one with every turn. When nothing is pending any more, there have
been as many turns as there are blocks.

`Reached d k r` says that `r` is the division before the next turn after `k` turns, and `Arises d r`
that `r` comes up at all, be it within a turn after some of the characters. What a record tells of
is a block of a division that arises: `Tells` ties the sizes in it to the block and to the two
blocks it has come to. Every division that arises is a proper one: `Divides` says what that means.
-/

namespace RegexMachine

open Std

/-! ### Counting cuts -/

namespace Block

variable (leads : StateId → Bool) (c : Char)

theorem length_pieces (block : Block) :
    (pieces leads block).length = (record? leads c block).toList.length + 1 := by
  unfold pieces record?
  cases cut? leads block <;> rfl

theorem length_requeue (pending : List Block) (block : Block) :
    (requeue leads pending block).length =
      pending.length + (record? leads c block).toList.length := by
  unfold requeue record?
  cases hcut : cut? leads block with
  | none => rfl
  | some parts =>
      by_cases hmem : block ∈ pending
      · have hlength := length_withdraw hmem
        simp only [if_pos hmem, List.length_cons, Option.map_some, Option.toList_some,
          List.length_nil]
        omega
      · simp only [if_neg hmem]
        split <;> rfl

/-- A pass over the blocks adds a block for every cut. -/
theorem length_flatMap_pieces (blocks : List Block) : (blocks.flatMap (pieces leads)).length =
    blocks.length + (blocks.filterMap (record? leads c)).length := by
  induction blocks with
  | nil => rfl
  | cons block blocks ih =>
      rw [List.flatMap_cons, List.length_append, length_pieces leads c, ih, List.length_cons,
        List.filterMap_cons]
      cases record? leads c block <;> simp only [Option.toList_none, Option.toList_some,
        List.length_nil, List.length_cons] <;> omega

/-- A pass over the blocks adds a pending block for every cut. -/
theorem length_foldl_requeue (blocks pending : List Block) :
    (blocks.foldl (requeue leads) pending).length =
      pending.length + (blocks.filterMap (record? leads c)).length := by
  induction blocks generalizing pending with
  | nil => rfl
  | cons block blocks ih =>
      rw [List.foldl_cons, ih, length_requeue leads c, List.filterMap_cons]
      cases record? leads c block <;> simp only [Option.toList_none, Option.toList_some,
        List.length_nil, List.length_cons] <;> omega

end Block

namespace Refinement

open RegexMachine.DFA Block

variable {d : DFA} {r s t : Refinement} {splitter : Block} {k : Nat}

/-! ### Turn by turn -/

/-- `r` is the division before the next turn after `k` turns. -/
inductive Reached (d : DFA) : Nat → Refinement → Prop
  /-- The division before the first turn. -/
  | start : Reached d 0 (start d)
  /-- One turn more. -/
  | turn {k : Nat} {r : Refinement} : Reached d k r → r.pending ≠ [] → Reached d (k + 1) (step d r)

/-- `r` comes up before a turn, or within a turn after some of the characters. -/
inductive Arises (d : DFA) : Refinement → Prop
  /-- Before a splitter is taken. -/
  | between {k : Nat} {r : Refinement} : Reached d k r → Arises d r
  /-- After the characters `done` of a turn. -/
  | within {k : Nat} {r : Refinement} {splitter : Block} {rest : List Block} {done todo : Word} :
      Reached d k r → r.pending = splitter :: rest → d.alphabet.toList = done ++ todo →
      Arises d (done.foldl (refineOn d splitter) { r with pending := rest })

/-! ### Cuts that are reported -/

/-- `block` of `r` has come to two blocks of `s`, neither of them empty. -/
structure Cut (r s : Refinement) (block inside outside : Block) : Prop where
  mem : block ∈ r.blocks
  inside_mem : inside ∈ s.blocks
  outside_mem : outside ∈ s.blocks
  /-- The two blocks hold the states of the one. -/
  perm : (inside ++ outside).Perm block
  inside_pos : 0 < inside.length
  outside_pos : 0 < outside.length
  length_add : inside.length + outside.length = block.length

/-- `record` tells of a cut by one character in a division that arises, with the sizes of the block
and of the two that take its place. -/
def Tells (d : DFA) (record : Record) : Prop :=
  ∃ r splitter c block inside outside, Arises d r ∧ Arises d (refineOn d splitter r c) ∧
    Cut r (refineOn d splitter r c) block inside outside ∧
    record = .split block.length c inside.length outside.length

/-- A block that is cut is replaced by its two parts. -/
theorem cut_refineOn {c : Char} {block inside outside : Block} (hblock : block ∈ r.blocks)
    (h : cut? (leadsInto d c splitter) block = some (inside, outside)) :
    Cut r (refineOn d splitter r c) block inside outside := by
  have hmem : ∀ piece, piece = inside ∨ piece = outside →
      piece ∈ (refineOn d splitter r c).blocks := fun piece hpiece =>
    List.mem_flatMap.mpr ⟨block, hblock, mem_pieces.mpr (Or.inr ⟨inside, outside, h, hpiece⟩)⟩
  have hperm := flatten_pieces_perm (leadsInto d c splitter) block
  obtain ⟨hsum, hinside, houtside⟩ := length_add_length_of_cut? h
  rw [pieces, h] at hperm
  refine ⟨hblock, hmem inside (Or.inl rfl), hmem outside (Or.inr rfl), ?_, hinside, houtside, hsum⟩
  simpa only [List.flatten_cons, List.flatten_nil, List.append_nil] using hperm

/-- `s` is what the cuts reported have made of `r`. -/
structure Grown (d : DFA) (r s : Refinement) (cuts : List Record) : Prop where
  records : s.records = r.records ++ cuts
  blocks : s.blocks.length = r.blocks.length + cuts.length
  pending : s.pending.length = r.pending.length + cuts.length
  tells : ∀ record ∈ cuts, Tells d record

theorem Grown.refl (d : DFA) (r : Refinement) : Grown d r r [] where
  records := (List.append_nil _).symm
  blocks := rfl
  pending := rfl
  tells _ h := absurd h List.not_mem_nil

theorem Grown.trans {cuts more : List Record} (h : Grown d r s cuts) (h' : Grown d s t more) :
    Grown d r t (cuts ++ more) where
  records := by rw [h'.records, h.records, List.append_assoc]
  blocks := by rw [h'.blocks, h.blocks, List.length_append, Nat.add_assoc]
  pending := by rw [h'.pending, h.pending, List.length_append, Nat.add_assoc]
  tells record hrecord := (List.mem_append.mp hrecord).elim (h.tells record) (h'.tells record)

theorem grown_refineOn {c : Char} (hr : Arises d r) (hs : Arises d (refineOn d splitter r c)) :
    Grown d r (refineOn d splitter r c)
      (r.blocks.filterMap (record? (leadsInto d c splitter) c)) where
  records := rfl
  blocks := length_flatMap_pieces _ c r.blocks
  pending := length_foldl_requeue _ c r.blocks r.pending
  tells record hrecord := by
    obtain ⟨block, hblock, hrecord⟩ := List.mem_filterMap.mp hrecord
    obtain ⟨⟨inside, outside⟩, hcut, rfl⟩ := Option.map_eq_some_iff.mp hrecord
    exact ⟨r, splitter, c, block, inside, outside, hr, hs, cut_refineOn hblock hcut, rfl⟩

theorem exists_grown_foldl (cs : List Char)
    (h : ∀ done todo, cs = done ++ todo → Arises d (done.foldl (refineOn d splitter) r)) :
    ∃ cuts, Grown d r (cs.foldl (refineOn d splitter) r) cuts := by
  induction cs generalizing r with
  | nil => exact ⟨[], .refl d r⟩
  | cons c cs ih =>
      obtain ⟨cuts, hcuts⟩ := ih (r := refineOn d splitter r c) fun done todo hcs =>
        h (c :: done) todo (congrArg (c :: ·) hcs)
      exact ⟨_, (grown_refineOn (h [] _ rfl) (h [c] cs rfl)).trans hcuts⟩

/-- A turn is made of cuts. -/
theorem Reached.exists_grown {rest : List Block} (h : Reached d k r)
    (hpending : r.pending = splitter :: rest) :
    ∃ cuts, Grown d { r with pending := rest } (step d r) cuts := by
  have hstep : step d r =
      d.alphabet.toList.foldl (refineOn d splitter) { r with pending := rest } := by
    rw [step, hpending]
  rw [hstep]
  exact exists_grown_foldl _ fun done todo hchars => .within h hpending hchars

/-! ### Counting turns -/

/-- The numbers that go with a division after `k` turns. -/
structure Tally (d : DFA) (k : Nat) (r : Refinement) : Prop where
  /-- Every block but those of the start comes from a cut. -/
  records : r.records.length + (start d).blocks.length = r.blocks.length
  /-- Every block but those pending stands for a turn. -/
  pending : r.pending.length + k = r.blocks.length
  tells : ∀ record ∈ r.records, Tells d record

theorem tally_start (d : DFA) : Tally d 0 (start d) where
  records := Nat.zero_add _
  pending := List.length_reverse
  tells _ h := absurd h List.not_mem_nil

theorem Tally.step (h : Tally d k r) (hreached : Reached d k r) (hne : r.pending ≠ []) :
    Tally d (k + 1) (step d r) := by
  obtain ⟨splitter, rest, hpending⟩ := List.exists_cons_of_ne_nil hne
  obtain ⟨cuts, hcuts⟩ := hreached.exists_grown hpending
  have hrecords := h.records
  have htaken := h.pending
  rw [hpending, List.length_cons] at htaken
  refine ⟨?_, ?_, fun record hrecord => ?_⟩
  · rw [hcuts.records, hcuts.blocks, List.length_append]
    simp only
    omega
  · rw [hcuts.pending, hcuts.blocks]
    simp only
    omega
  · rw [hcuts.records] at hrecord
    exact (List.mem_append.mp hrecord).elim (h.tells record) (hcuts.tells record)

theorem Reached.tally (h : Reached d k r) : Tally d k r := by
  induction h with
  | start => exact tally_start d
  | turn h hne ih => exact ih.step h hne

/-- The division is known by the number of turns. -/
theorem Reached.unique (hr : Reached d k r) (hs : Reached d k s) : r = s := by
  induction hr generalizing s with
  | start =>
      cases hs
      rfl
  | turn _ _ ih =>
      cases hs with
      | turn h _ => rw [ih h]

/-- The turns to come do not depend on those taken. -/
theorem Reached.run_eq (h : Reached d k r) : run d r = refined d := by
  induction h with
  | start => rfl
  | @turn _ r _ hne ih => rw [← ih, run.eq_def d r, dif_neg hne]

theorem Reached.eq_refined (h : Reached d k r) (hnil : r.pending = []) : r = refined d := by
  rw [← h.run_eq, run, dif_pos hnil]

/-- From any turn on the turns lead to an end. -/
theorem Reached.exists_end (h : Reached d k r) : ∃ n, Reached d n (run d r) := by
  fun_induction run d r generalizing k with
  | case1 r _ => exact ⟨k, h⟩
  | case2 r hne _ ih => exact ih (h.turn hne)

/-- There are as many turns as blocks in the end. -/
theorem reached_refined (d : DFA) :
    Reached d (refined d).blocks.length (refined d) ∧ (refined d).pending = [] := by
  obtain ⟨k, hk⟩ := Reached.exists_end (.start (d := d))
  have hnil : (refined d).pending = [] :=
    (run_induction (p := fun _ => True) (fun _ h => h) trivial).2
  have hlength := hk.tally.pending
  change (refined d).pending.length + k = (refined d).blocks.length at hlength
  rw [hnil, List.length_nil, Nat.zero_add] at hlength
  exact ⟨hlength ▸ hk, hnil⟩

/-! ### Divisions that arise -/

/-- `r` divides the states of `d`, and pending are blocks of the division. -/
structure Divides (d : DFA) (r : Refinement) : Prop where
  block_ne : ∀ block ∈ r.blocks, block ≠ []
  /-- No two blocks share a state. -/
  disjoint : r.blocks.Pairwise List.Disjoint
  /-- The blocks hold all states and nothing else. -/
  mem_states {q : StateId} : q ∈ d.states ↔ ∃ block ∈ r.blocks, q ∈ block
  /-- A block holds final states only, or none. -/
  uniform : ∀ block ∈ r.blocks, (∀ q ∈ block, q ∈ d.finals) ∨ ∀ q ∈ block, q ∉ d.finals
  /-- A block is listed in one way only. -/
  ascending : ∀ block ∈ r.blocks, block.Pairwise (· < ·)
  pending_mem : ∀ block ∈ r.pending, block ∈ r.blocks
  /-- No block is pending twice. -/
  nodup_pending : r.pending.Nodup

theorem Valid.nodup_blocks (h : Valid d r) : r.blocks.Nodup := by
  refine (List.nodup_flatten.mp h.nodup_flatten).2.imp_of_mem ?_
  intro block other hblock _ hdisjoint heq
  obtain ⟨q, hq⟩ := List.exists_mem_of_ne_nil _ (h.block_ne block hblock)
  exact hdisjoint hq (heq ▸ hq)

theorem Valid.nodup_pending (h : Valid d r) : r.pending.Nodup := by
  obtain ⟨blocks, hperm, hsub⟩ := h.pending
  exact hperm.nodup_iff.mp (h.nodup_blocks.sublist hsub)

theorem Valid.divides (h : Valid d r) (hwithin : Within d r) : Divides d r where
  block_ne := h.block_ne
  disjoint := (List.nodup_flatten.mp h.nodup_flatten).2
  mem_states {q} := by
    constructor
    · exact h.exists_block
    · intro hq
      obtain ⟨block, hblock, hmem⟩ := hq
      exact h.mem_states hblock hmem
  uniform block hblock := by
    obtain ⟨p, hp⟩ := List.exists_mem_of_ne_nil _ (h.block_ne block hblock)
    by_cases hfinal : p ∈ d.finals
    · exact Or.inl fun q hq => (h.uniform block hblock p hp q hq).mp hfinal
    · exact Or.inr fun q hq => mt (h.uniform block hblock p hp q hq).mpr hfinal
  ascending block hblock := (hwithin.blocks block hblock).ascending
  pending_mem _ hblock := h.pending.subset hblock
  nodup_pending := h.nodup_pending

/-- There are no more blocks than states. -/
theorem Valid.length_blocks_le (h : Valid d r) : r.blocks.length ≤ d.stateCount := by
  have hflatten : r.blocks.flatten.length = d.stateCount := by
    rw [h.perm.length_eq, ExtTreeSet.length_toList, Automaton.stateCount]
  rw [← hflatten, List.length_flatten, ← List.length_map (f := List.length)]
  refine List.length_le_sum_of_one_le _ fun size hsize => ?_
  obtain ⟨block, hblock, rfl⟩ := List.mem_map.mp hsize
  exact List.length_pos_iff.mpr (h.block_ne block hblock)

theorem Reached.valid (h : Reached d k r) (hd : d.WellFormed) (htotal : Total d) :
    Ready d r ∧ Within d r := by
  induction h with
  | start => exact ⟨ready_start hd, within_start hd⟩
  | turn _ _ ih => exact ⟨ih.1.step hd htotal, ih.2.step⟩

/-- **Whatever arises is a division of the states.** -/
theorem Arises.divides (h : Arises d r) (hd : d.WellFormed) (htotal : Total d) : Divides d r := by
  cases h with
  | between h =>
      obtain ⟨hready, hwithin⟩ := h.valid hd htotal
      exact hready.valid.divides hwithin
  | @within _ r splitter rest done todo h hpending hchars =>
      obtain ⟨hready, hwithin⟩ := h.valid hd htotal
      obtain ⟨hsplitter, hvalid⟩ := hready.valid.pop hpending
      refine (hvalid.foldl_refineOn hd htotal hsplitter fun c hc => ?_).divides
        ((hwithin.pop hpending).2.foldl_refineOn done)
      rw [← ExtTreeSet.mem_toList, hchars]
      exact List.mem_append_left _ hc

end Refinement

end RegexMachine
