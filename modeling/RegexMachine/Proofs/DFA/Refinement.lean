import Mathlib.Data.List.Nodup
import RegexMachine.Proofs.DFA.Block
import RegexMachine.Proofs.DFA.Complete

/-!
# RegexMachine.Proofs.DFA.Refinement

**The blocks that are left are the classes of states that no word tells apart.** Two states of a
complete machine are in one block of `refined` exactly if the same words lead from them to a final
state.

Proof shape. `Valid` is what holds of every division that comes up: its blocks divide the states, no
block mixes final and other states, no block separates states that no word tells apart, and what is
pending is a part of the blocks, none of them twice. From it follows that the blocks are never too
fine.

That they are fine enough in the end is the point of the pending blocks. `Watched` says of a
character that wherever it leads two states of one block into different blocks, some pending block
holds just one of the two; with nothing pending it leads every block into one block. A turn keeps
this up: a block that is cut was pending, and then both parts are, or it was not, and then one part
is, which holds just one of two states that the cut has separated. The splitter of the turn itself
serves as one more pending block for the characters that are still to come, even if it is cut on the
way.
-/

namespace RegexMachine

open Std

namespace DFA

open Automaton

/-! ### States that no word tells apart -/

/-- The same words lead from both states to a final one. -/
def Alike (d : DFA) (p q : StateId) : Prop :=
  ∀ w, acceptsFrom d p w = acceptsFrom d q w

theorem Alike.symm {d : DFA} {p q : StateId} (h : Alike d p q) : Alike d q p :=
  fun w => (h w).symm

theorem Alike.mem_finals_iff {d : DFA} {p q : StateId} (h : Alike d p q) :
    p ∈ d.finals ↔ q ∈ d.finals := by
  rw [← isFinal_iff, ← isFinal_iff, ← acceptsFrom_nil, ← acceptsFrom_nil, h]

/-- One character takes states that are alike to states that are alike. -/
theorem Alike.of_edge {d : DFA} {p q p' q' : StateId} {c : Char} (h : Alike d p q)
    (hp : d.Edge p c p') (hq : d.Edge q c q') : Alike d p' q' := by
  intro w
  rw [← acceptsFrom_cons_of_edge hp, ← acceptsFrom_cons_of_edge hq, h]

/-- A block that separates no two states that are alike. -/
def Saturated (d : DFA) (block : Block) : Prop :=
  ∀ p ∈ block, ∀ q ∈ d.states, Alike d p q → q ∈ block

end DFA

namespace Refinement

open RegexMachine.DFA Block

variable {d : DFA} {r : Refinement} {splitter : Block} {c : Char}

theorem leadsInto_iff {p : StateId} :
    leadsInto d c splitter p = true ↔ ∃ q ∈ splitter, d.Edge p c q := by
  rw [leadsInto, Option.any_eq_true]
  refine exists_congr fun q => ?_
  rw [edge_iff_next?, decide_eq_true_eq, and_comm]

theorem leadsInto_eq_iff {p q p' q' : StateId}
    (hp : d.Edge p c p') (hq : d.Edge q c q') :
    leadsInto d c splitter p = leadsInto d c splitter q ↔ (p' ∈ splitter ↔ q' ∈ splitter) := by
  have hiff : ∀ {p p' : StateId}, d.Edge p c p' →
      (leadsInto d c splitter p = true ↔ p' ∈ splitter) := by
    intro p p' hedge
    rw [leadsInto_iff]
    constructor
    · intro h
      obtain ⟨q, hq, hpq⟩ := h
      exact edge_unique hpq hedge ▸ hq
    · intro h
      exact ⟨p', h, hedge⟩
  rw [Bool.eq_iff_iff, hiff hp, hiff hq]

/-- A saturated splitter leads states that are alike the same way. -/
theorem leadsInto_eq_of_alike (hd : d.WellFormed) (htotal : Total d)
    (hsplitter : Saturated d splitter) (hc : c ∈ d.alphabet) {p q : StateId} (hp : p ∈ d.states)
    (hq : q ∈ d.states) (h : Alike d p q) :
    leadsInto d c splitter p = leadsInto d c splitter q := by
  obtain ⟨p', hp'⟩ := htotal p hp c hc
  obtain ⟨q', hq'⟩ := htotal q hq c hc
  have halike : Alike d p' q' := h.of_edge hp' hq'
  rw [leadsInto_eq_iff hp' hq']
  exact ⟨fun hmem => hsplitter p' hmem q' (hd.head_mem hq') halike,
    fun hmem => hsplitter q' hmem p' (hd.head_mem hp') halike.symm⟩

/-! ### What holds of every division -/

/-- A division that may come up while the states of `d` are told apart. -/
structure Valid (d : DFA) (r : Refinement) : Prop where
  /-- The blocks hold every state once. -/
  perm : r.blocks.flatten.Perm d.states.toList
  /-- No block is empty. -/
  block_ne : ∀ block ∈ r.blocks, block ≠ []
  /-- No block mixes final states with others. -/
  uniform : ∀ block ∈ r.blocks, ∀ p ∈ block, ∀ q ∈ block, p ∈ d.finals ↔ q ∈ d.finals
  /-- No block separates states that are alike. -/
  saturated : ∀ block ∈ r.blocks, Saturated d block
  /-- Pending are blocks, none of them twice. -/
  pending : r.pending.Subperm r.blocks

namespace Valid

theorem mem_states (h : Valid d r) {block : Block} (hblock : block ∈ r.blocks) {q : StateId}
    (hq : q ∈ block) : q ∈ d.states :=
  ExtTreeSet.mem_toList.mp (h.perm.mem_iff.mp (List.mem_flatten.mpr ⟨block, hblock, hq⟩))

theorem exists_block (h : Valid d r) {q : StateId} (hq : q ∈ d.states) :
    ∃ block ∈ r.blocks, q ∈ block :=
  List.mem_flatten.mp (h.perm.mem_iff.mpr (ExtTreeSet.mem_toList.mpr hq))

theorem nodup_flatten (h : Valid d r) : r.blocks.flatten.Nodup :=
  h.perm.nodup_iff.mpr (StateSet.nodup_toList _)

end Valid

theorem valid_start (hd : d.WellFormed) : Valid d (start d) := by
  have hmem : ∀ {block : Block}, block ∈ (start d).blocks ↔
      (block = d.finals.toList ∨ block = (d.states \ d.finals).toList) ∧ block ≠ [] := by
    intro block
    simp only [start, List.mem_filter, List.mem_cons, List.not_mem_nil, or_false,
      decide_eq_true_eq]
  have hfinals : ∀ block ∈ (start d).blocks, (∀ q ∈ block, q ∈ d.finals) ∨
      (∀ q ∈ block, q ∉ d.finals) := by
    intro block hblock
    rcases (hmem.mp hblock).1 with rfl | rfl
    · exact Or.inl fun q hq => ExtTreeSet.mem_toList.mp hq
    · exact Or.inr fun q hq => (ExtTreeSet.mem_diff_iff.mp (ExtTreeSet.mem_toList.mp hq)).2
  refine ⟨?_, fun block h => (hmem.mp h).2, ?_, ?_, (List.reverse_perm _).subperm⟩
  -- An empty block left out changes nothing about the states that the blocks hold.
  · have hflatten : (start d).blocks.flatten =
        d.finals.toList ++ (d.states \ d.finals).toList := by
      simp only [start, List.flatten_filter_ne_nil]
      simp
    rw [hflatten]
    refine (List.perm_ext_iff_of_nodup ?_ (StateSet.nodup_toList _)).mpr fun q => ?_
    · refine List.nodup_append.mpr ⟨StateSet.nodup_toList _, StateSet.nodup_toList _, ?_⟩
      intro p hp q hq hpq
      rw [ExtTreeSet.mem_toList] at hp hq
      exact (ExtTreeSet.mem_diff_iff.mp hq).2 (hpq ▸ hp)
    · rw [List.mem_append, ExtTreeSet.mem_toList, ExtTreeSet.mem_toList, ExtTreeSet.mem_toList,
        ExtTreeSet.mem_diff_iff]
      by_cases hq : q ∈ d.finals
      · simp [hq, hd.finals_mem hq]
      · simp [hq]
  · intro block hblock p hp q hq
    rcases hfinals block hblock with h | h
    · exact iff_of_true (h p hp) (h q hq)
    · exact iff_of_false (h p hp) (h q hq)
  · intro block hblock p hp q hq halike
    rcases (hmem.mp hblock).1 with rfl | rfl
    · rw [ExtTreeSet.mem_toList] at hp ⊢
      exact halike.mem_finals_iff.mp hp
    · rw [ExtTreeSet.mem_toList, ExtTreeSet.mem_diff_iff] at hp ⊢
      exact ⟨hq, fun hfinal => hp.2 (halike.mem_finals_iff.mpr hfinal)⟩

/-- Cutting every block by one character keeps a division valid. -/
theorem Valid.refineOn (h : Valid d r) (hd : d.WellFormed) (htotal : Total d)
    (hsplitter : Saturated d splitter) (hc : c ∈ d.alphabet) :
    Valid d (refineOn d splitter r c) := by
  -- Every piece is a part of an old block, cut along a line that separates no alike states.
  have hpiece : ∀ {p : Block → Prop}, (∀ block ∈ r.blocks, p block) →
      (∀ block ∈ r.blocks, ∀ inside outside, p block →
        cut? (leadsInto d c splitter) block = some (inside, outside) → p inside ∧ p outside) →
      ∀ piece ∈ (Refinement.refineOn d splitter r c).blocks, p piece := by
    intro p hold hcut piece hpiece
    obtain ⟨block, hblock, hpiece⟩ := List.mem_flatMap.mp hpiece
    exact pieces_of_cut (hold block hblock)
      (fun inside outside => hcut block hblock inside outside (hold block hblock)) piece hpiece
  refine ⟨?_, ?_, ?_, ?_, ?_⟩
  · exact (flatten_flatMap_pieces_perm _ _).trans h.perm
  · refine hpiece h.block_ne fun block _ inside outside _ hcut => ?_
    exact (cut?_eq_some_iff.mp hcut).2.2
  · refine hpiece h.uniform fun block _ inside outside huniform hcut => ?_
    obtain ⟨rfl, rfl, -⟩ := cut?_eq_some_iff.mp hcut
    exact ⟨fun p hp q hq => huniform p (List.mem_of_mem_filter hp) q (List.mem_of_mem_filter hq),
      fun p hp q hq => huniform p (List.mem_of_mem_filter hp) q (List.mem_of_mem_filter hq)⟩
  · refine hpiece h.saturated fun block hblock inside outside hsaturated hcut => ?_
    have hsame : ∀ p ∈ block, ∀ q ∈ d.states, Alike d p q →
        leadsInto d c splitter p = leadsInto d c splitter q := fun p hp q hq =>
      leadsInto_eq_of_alike hd htotal hsplitter hc (h.mem_states hblock hp) hq
    obtain ⟨rfl, rfl, -⟩ := cut?_eq_some_iff.mp hcut
    constructor
    · intro p hp q hq halike
      rw [List.mem_filter] at hp ⊢
      exact ⟨hsaturated p hp.1 q hq halike, hsame p hp.1 q hq halike ▸ hp.2⟩
    · intro p hp q hq halike
      rw [List.mem_filter] at hp ⊢
      exact ⟨hsaturated p hp.1 q hq halike, by rw [← hsame p hp.1 q hq halike]; exact hp.2⟩
  · have hpending : r.pending.Subperm (r.blocks ++ []) := by
      rw [List.append_nil]
      exact h.pending
    show (r.blocks.foldl (requeue (leadsInto d c splitter)) r.pending).Subperm
      (r.blocks.flatMap (pieces (leadsInto d c splitter)))
    rw [← List.append_nil (r.blocks.flatMap _)]
    exact foldl_requeue_subperm [] hpending

/-- The characters of a turn one after the other keep a division valid. -/
theorem Valid.foldl_refineOn (h : Valid d r) (hd : d.WellFormed) (htotal : Total d)
    (hsplitter : Saturated d splitter) {cs : List Char} (hcs : ∀ c ∈ cs, c ∈ d.alphabet) :
    Valid d (cs.foldl (Refinement.refineOn d splitter) r) := by
  induction cs generalizing r with
  | nil => exact h
  | cons c cs ih =>
      obtain ⟨hc, hcs⟩ := List.forall_mem_cons.mp hcs
      exact ih (h.refineOn hd htotal hsplitter hc) hcs

/-- The splitter is a block, and the division stays valid when it is taken off the stack. -/
theorem Valid.pop {rest : List Block} (h : Valid d r) (hpending : r.pending = splitter :: rest) :
    Saturated d splitter ∧ Valid d { r with pending := rest } := by
  have hsub : (splitter :: rest).Subperm r.blocks := hpending ▸ h.pending
  exact ⟨h.saturated splitter (hsub.subset List.mem_cons_self), h.perm, h.block_ne, h.uniform,
    h.saturated, (List.sublist_cons_self splitter rest).subperm.trans hsub⟩

/-! ### What the pending blocks watch over -/

/-- Wherever `c` leads two states of one block into different blocks, a watcher holds just one of
the two. -/
def Watched (d : DFA) (blocks watchers : List Block) (c : Char) : Prop :=
  ∀ p q p' q', Together blocks p q → d.Edge p c p' → d.Edge q c q' →
    Together blocks p' q' ∨ ∃ block ∈ watchers, ¬ (p' ∈ block ↔ q' ∈ block)

theorem watched_start (hd : d.WellFormed) (c : Char) :
    Watched d (start d).blocks (start d).pending c := by
  intro p q p' q' _ hp _
  obtain ⟨block, hblock, hmem⟩ := (valid_start hd).exists_block (hd.head_mem hp)
  by_cases hq : q' ∈ block
  · exact Or.inl ⟨block, hblock, hmem, hq⟩
  · exact Or.inr ⟨block, List.mem_reverse.mpr hblock, fun hiff => hq (hiff.mp hmem)⟩

/-- What a cut separates, one of the two parts watches. -/
theorem exists_watcher_of_cut {p q : StateId} (h : Together r.blocks p q)
    (hlp : leadsInto d c splitter p = true) (hlq : leadsInto d c splitter q = false) :
    ∃ block ∈ (refineOn d splitter r c).pending, ¬ (p ∈ block ↔ q ∈ block) := by
  obtain ⟨block, hblock, hp, hq⟩ := h
  obtain ⟨inside, outside, hcut⟩ := exists_cut? hp hq hlp hlq
  rcases part_mem_foldl_requeue r.pending hblock hcut with hmem | hmem
  · refine ⟨inside, hmem, fun hiff => ?_⟩
    have hq' := (mem_inside hcut).mp (hiff.mp ((mem_inside hcut).mpr ⟨hp, hlp⟩))
    exact absurd (hq'.2.symm.trans hlq) (by decide)
  · refine ⟨outside, hmem, fun hiff => ?_⟩
    have hp' := (mem_outside hcut).mp (hiff.mpr ((mem_outside hcut).mpr ⟨hq, hlq⟩))
    exact absurd (hp'.2.symm.trans hlp) (by decide)

/-- What a pending block watches, it still watches, or one of its parts does. -/
theorem exists_watcher_of_pending (h : Valid d r) {block : Block} (hblock : block ∈ r.pending)
    {p q : StateId} (hne : ¬ (p ∈ block ↔ q ∈ block)) :
    ∃ b ∈ (refineOn d splitter r c).pending, ¬ (p ∈ b ↔ q ∈ b) := by
  cases hcut : cut? (leadsInto d c splitter) block with
  | none => exact ⟨block, mem_foldl_requeue_of_whole hblock hcut, hne⟩
  | some parts =>
      obtain ⟨inside, outside⟩ := parts
      obtain ⟨hin, hout⟩ := parts_mem_foldl_requeue (h.pending.subset hblock) hblock hcut
      have hsplit : ∀ s, s ∈ block ↔ s ∈ inside ∨ s ∈ outside := fun s => by
        rw [mem_inside hcut, mem_outside hcut]
        cases leadsInto d c splitter s <;> simp
      by_cases hi : p ∈ inside ↔ q ∈ inside
      · refine ⟨outside, hout, fun hiff => hne ?_⟩
        rw [hsplit, hsplit, hi, hiff]
      · exact ⟨inside, hin, hi⟩

/-- Cutting the blocks moves no pair of states out of sight: what the cut separates, one of the two
parts watches, and a part of a pending block watches what the block did. -/
theorem Watched.refineOn (extra : List Block) {a : Char} (h : Valid d r)
    (hw : Watched d r.blocks (extra ++ r.pending) a) :
    Watched d (refineOn d splitter r c).blocks
      (extra ++ (refineOn d splitter r c).pending) a := by
  intro p q p' q' htogether hp hq
  have hpending : (∃ b ∈ (Refinement.refineOn d splitter r c).pending, ¬ (p' ∈ b ↔ q' ∈ b)) →
      ∃ b ∈ extra ++ (Refinement.refineOn d splitter r c).pending, ¬ (p' ∈ b ↔ q' ∈ b) := by
    intro hex
    obtain ⟨b, hb, hne⟩ := hex
    exact ⟨b, List.mem_append_right _ hb, hne⟩
  -- Before the cut the targets were in one block, or a watcher held just one of them.
  rcases hw p q p' q' (together_flatMap_pieces.mp htogether).1 hp hq with hold | hwatch
  · cases hlp : leadsInto d c splitter p' <;> cases hlq : leadsInto d c splitter q'
    · exact Or.inl (together_flatMap_pieces.mpr ⟨hold, hlp.trans hlq.symm⟩)
    · obtain ⟨b, hb, hne⟩ := exists_watcher_of_cut hold.symm hlq hlp
      exact Or.inr (hpending ⟨b, hb, fun hiff => hne hiff.symm⟩)
    · exact Or.inr (hpending (exists_watcher_of_cut hold hlp hlq))
    · exact Or.inl (together_flatMap_pieces.mpr ⟨hold, hlp.trans hlq.symm⟩)
  · obtain ⟨block, hblock, hne⟩ := hwatch
    rcases List.mem_append.mp hblock with hextra | hblock
    · exact Or.inr ⟨block, List.mem_append_left _ hextra, hne⟩
    · exact Or.inr (hpending (exists_watcher_of_pending h hblock hne))

/-- Once the blocks are cut by a character, the splitter need not watch over it any more. -/
theorem Watched.of_splitter (h : Valid d r)
    (hw : Watched d r.blocks (splitter :: r.pending) c) :
    Watched d (Refinement.refineOn d splitter r c).blocks
      (Refinement.refineOn d splitter r c).pending c := by
  intro p q p' q' htogether hp hq
  rcases hw.refineOn [splitter] h p q p' q' htogether hp hq with hsame | hwatch
  · exact Or.inl hsame
  · obtain ⟨block, hblock, hne⟩ := hwatch
    rcases List.mem_cons.mp hblock with rfl | hpending
    · have hlead := (together_flatMap_pieces.mp htogether).2
      exact absurd ((leadsInto_eq_iff hp hq).mp hlead) hne
    · exact Or.inr ⟨block, hpending, hne⟩

/-! ### Turns -/

/-- What holds before every turn. -/
structure Ready (d : DFA) (r : Refinement) : Prop where
  valid : Valid d r
  watched : ∀ c ∈ d.alphabet, Watched d r.blocks r.pending c

theorem ready_start (hd : d.WellFormed) : Ready d (start d) :=
  ⟨valid_start hd, fun c _ => watched_start hd c⟩

/-- The part of a turn for the characters `cs`: for these the splitter still watches. -/
theorem ready_foldl_refineOn (hd : d.WellFormed) (htotal : Total d)
    (hsplitter : Saturated d splitter) {cs : List Char} (hcs : ∀ c ∈ cs, c ∈ d.alphabet)
    (h : Valid d r) (htodo : ∀ c ∈ cs, Watched d r.blocks (splitter :: r.pending) c)
    (hdone : ∀ c ∈ d.alphabet, c ∉ cs → Watched d r.blocks r.pending c) :
    Ready d (cs.foldl (refineOn d splitter) r) := by
  induction cs generalizing r with
  | nil => exact ⟨h, fun c hc => hdone c hc List.not_mem_nil⟩
  | cons c cs ih =>
      have hc : c ∈ d.alphabet := hcs c List.mem_cons_self
      rw [List.foldl_cons]
      refine ih (fun a ha => hcs a (List.mem_cons_of_mem _ ha)) (h.refineOn hd htotal hsplitter hc)
        (fun a ha => ?_) (fun a ha hnot => ?_)
      · exact Watched.refineOn [splitter] h (htodo a (List.mem_cons_of_mem _ ha))
      -- For `c` the splitter has done its work; for the characters before it, it had already.
      · by_cases hac : a = c
        · subst hac
          exact (htodo a List.mem_cons_self).of_splitter h
        · exact Watched.refineOn [] h (hdone a ha (by simp [hac, hnot]))

theorem Ready.step (hd : d.WellFormed) (htotal : Total d) (h : Ready d r) :
    Ready d (step d r) := by
  unfold Refinement.step
  split
  · exact h
  · next splitter rest hpending =>
      -- The splitter is pending no more, but it is kept as a watcher until the turn is over.
      obtain ⟨hsplitter, hvalid⟩ := h.valid.pop hpending
      refine ready_foldl_refineOn hd htotal hsplitter (fun c hc => ExtTreeSet.mem_toList.mp hc)
        hvalid ?_ ?_
      · intro c hc
        have hwatched := h.watched c (ExtTreeSet.mem_toList.mp hc)
        rwa [hpending] at hwatched
      · intro c hc hnot
        exact absurd (ExtTreeSet.mem_toList.mpr hc) hnot

/-- The turns end with nothing pending, and what every turn keeps up holds in the end. -/
theorem run_induction {p : Refinement → Prop} (hstep : ∀ r, p r → p (step d r)) (h : p r) :
    p (run d r) ∧ (run d r).pending = [] := by
  fun_induction run d r with
  | case1 r hnil => exact ⟨h, hnil⟩
  | case2 r _ _ ih => exact ih (hstep r h)

end Refinement

/-! ### The classes of states that are alike -/

namespace DFA

open Automaton Refinement Block

variable {d : DFA}

theorem ready_refined (hd : d.WellFormed) (htotal : Total d) :
    Ready d (refined d) ∧ (refined d).pending = [] :=
  run_induction (fun _ h => h.step hd htotal) (ready_start hd)

theorem valid_refined (hd : d.WellFormed) (htotal : Total d) : Valid d (refined d) :=
  (ready_refined hd htotal).1.valid

/-- With nothing pending, every character leads every block into one block. -/
theorem together_of_edge (hd : d.WellFormed) (htotal : Total d) {p q p' q' : StateId} {c : Char}
    (h : Together (refined d).blocks p q) (hp : d.Edge p c p') (hq : d.Edge q c q') :
    Together (refined d).blocks p' q' := by
  obtain ⟨hready, hnil⟩ := ready_refined hd htotal
  rcases hready.watched c (char_mem_alphabet hd hp) p q p' q' h hp hq with hsame | hwatch
  · exact hsame
  · obtain ⟨block, hblock, -⟩ := hwatch
    rw [hnil] at hblock
    exact absurd hblock List.not_mem_nil

theorem alike_of_together (hd : d.WellFormed) (htotal : Total d) {p q : StateId}
    (h : Together (refined d).blocks p q) : Alike d p q := by
  have hvalid := valid_refined hd htotal
  intro w
  induction w generalizing p q with
  | nil =>
      obtain ⟨block, hblock, hp, hq⟩ := h
      rw [acceptsFrom_nil, acceptsFrom_nil, Bool.eq_iff_iff, isFinal_iff, isFinal_iff]
      exact hvalid.uniform block hblock p hp q hq
  | cons c w ih =>
      by_cases hc : c ∈ d.alphabet
      · obtain ⟨block, hblock, hp, hq⟩ := h
        obtain ⟨p', hp'⟩ := htotal p (hvalid.mem_states hblock hp) c hc
        obtain ⟨q', hq'⟩ := htotal q (hvalid.mem_states hblock hq) c hc
        rw [acceptsFrom_cons_of_edge hp', acceptsFrom_cons_of_edge hq']
        exact ih (together_of_edge hd htotal ⟨block, hblock, hp, hq⟩ hp' hq')
      -- A character outside the alphabet leads nowhere, from either state.
      · rw [acceptsFrom_cons_of_no_edge fun q hq => hc (char_mem_alphabet hd hq),
          acceptsFrom_cons_of_no_edge fun q hq => hc (char_mem_alphabet hd hq)]

/-- **The blocks are the classes of states that no word tells apart.** -/
theorem together_iff_alike (hd : d.WellFormed) (htotal : Total d) {p q : StateId}
    (hp : p ∈ d.states) (hq : q ∈ d.states) :
    Together (refined d).blocks p q ↔ Alike d p q := by
  constructor
  · exact alike_of_together hd htotal
  · intro h
    have hvalid := valid_refined hd htotal
    obtain ⟨block, hblock, hmem⟩ := hvalid.exists_block hp
    exact ⟨block, hblock, hmem, hvalid.saturated block hblock p hmem q hq h⟩

end DFA

end RegexMachine
