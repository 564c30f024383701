import RegexMachine.Proofs.DFA.Minimal
import RegexMachine.Proofs.DFA.Renaming.Block

/-!
# RegexMachine.Proofs.DFA.Renaming

**Minimizing a machine does not depend on the names of its states.** When the states are renamed
apart, `minimize` gives the same machine and the same records, even if states cannot be reached or
edges are missing. If edges are missing, then both machines need a free name for the sink.

Names come in at three places. The sink of a machine with missing edges gets a name of its own, so
the completed machines differ by a renaming that also takes the one sink to the other. Blocks list
their states in the order of the names, but every turn of the refinement commutes with renaming the
blocks, so they come up in the same order. The edges of a block are read off its least state, which
may be another one after the renaming; but all states of a block have edges into the same blocks,
and in the end a block is named by its place.
-/

namespace RegexMachine

open Std

open Automaton

variable {d : DFA} {f : StateId → StateId}

/-! ### Turns over renamed blocks -/

namespace Refinement

open RegexMachine.DFA Block

variable {r : Refinement} {splitter : Block} {c : Char}

/-- The division with every state renamed. -/
def rename (f : StateId → StateId) (r : Refinement) : Refinement where
  blocks := r.blocks.map (Block.rename f)
  pending := r.pending.map (Block.rename f)
  records := r.records

/-- All blocks, pending ones too, hold states of `d`. -/
structure Within (d : DFA) (r : Refinement) : Prop where
  blocks : ∀ b ∈ r.blocks, b.Within d
  pending : ∀ b ∈ r.pending, b.Within d

theorem Within.refineOn (hr : Within d r) : Within d (refineOn d splitter r c) where
  blocks b hb := by
    obtain ⟨block, hblock, hpiece⟩ := List.mem_flatMap.mp hb
    exact within_pieces (hr.blocks block hblock) b hpiece
  pending := within_foldl_requeue hr.blocks hr.pending

theorem Within.foldl_refineOn (hr : Within d r) (cs : List Char) :
    Within d (cs.foldl (Refinement.refineOn d splitter) r) := by
  induction cs generalizing r with
  | nil => exact hr
  | cons c cs ih => exact ih hr.refineOn

theorem within_start (hd : d.WellFormed) : Within d (start d) := by
  have hblocks : ∀ b ∈ (start d).blocks, b.Within d := by
    intro b hb
    have hmem : b = d.finals.toList ∨ b = (d.states \ d.finals).toList := by
      simpa using List.mem_of_mem_filter hb
    rcases hmem with rfl | rfl
    · exact within_toList fun q hq => hd.finals_mem hq
    · exact within_toList fun q hq => (ExtTreeSet.mem_diff_iff.mp hq).1
  exact ⟨hblocks, fun b hb => hblocks b (List.mem_reverse.mp hb)⟩

/-- The next splitter is a block as well, and taking it off the stack adds none. -/
theorem Within.pop {rest : List Block} (hr : Within d r) (hpending : r.pending = splitter :: rest) :
    splitter.Within d ∧ Within d { r with pending := rest } := by
  have h := hr.pending
  rw [hpending, List.forall_mem_cons] at h
  exact ⟨h.1, hr.blocks, h.2⟩

theorem Within.step (hr : Within d r) : Within d (step d r) := by
  unfold Refinement.step
  split
  · exact hr
  · next splitter rest hpending => exact (hr.pop hpending).2.foldl_refineOn _

section Apart

variable (hd : d.WellFormed) (hf : Apart f d)

include hd hf

theorem leadsInto_relabel (hs : splitter.Within d) {q : StateId} (hq : q ∈ d.states) :
    leadsInto (d.relabel f) c (splitter.rename f) (f q) = leadsInto d c splitter q := by
  rw [Bool.eq_iff_iff, leadsInto_iff, leadsInto_iff]
  constructor
  · intro h
    obtain ⟨_, hmem, hedge⟩ := h
    obtain ⟨r, hold, rfl⟩ := (edge_relabel_apply hd hf hq).mp hedge
    exact ⟨r, (apply_mem_rename hf hs (hd.head_mem hold)).mp hmem, hold⟩
  · intro h
    obtain ⟨r, hmem, hedge⟩ := h
    exact ⟨f r, mem_rename.mpr ⟨r, hmem, rfl⟩, (edge_relabel_apply hd hf hq).mpr ⟨r, hedge, rfl⟩⟩

theorem start_relabel : start (d.relabel f) = (start d).rename f := by
  have hfinals : (d.relabel f).finals.toList = Block.rename f d.finals.toList :=
    eq_rename (StateSet.pairwise_lt_toList _) fun q => by simp
  have hothers : ((d.relabel f).states \ (d.relabel f).finals).toList =
      Block.rename f (d.states \ d.finals).toList := by
    refine eq_rename (StateSet.pairwise_lt_toList _) fun q => ?_
    simp only [ExtTreeSet.mem_toList, ExtTreeSet.mem_diff_iff, mem_states_relabel]
    constructor
    · intro h
      obtain ⟨⟨p, hp, rfl⟩, hnot⟩ := h
      exact ⟨p, ⟨hp, mt (apply_mem_finals_relabel hd hf hp).mpr hnot⟩, rfl⟩
    · intro h
      obtain ⟨p, ⟨hp, hnot⟩, rfl⟩ := h
      exact ⟨⟨p, hp, rfl⟩, mt (apply_mem_finals_relabel hd hf hp).mp hnot⟩
  have hblocks : ([d.finals.toList, (d.states \ d.finals).toList].map (Block.rename f)).filter
      (· ≠ []) = ([d.finals.toList, (d.states \ d.finals).toList].filter (· ≠ [])).map
        (Block.rename f) := by
    rw [List.filter_map]
    simp only [Function.comp_def, ne_eq, rename_eq_nil]
  simp only [start, rename, hfinals, hothers, List.map_reverse]
  rw [← hblocks]
  rfl

theorem refineOn_relabel (hr : Within d r) (hs : splitter.Within d) :
    refineOn (d.relabel f) (splitter.rename f) (r.rename f) c =
      (refineOn d splitter r c).rename f := by
  have hlead : ∀ q ∈ d.states, leadsInto (d.relabel f) c (splitter.rename f) (f q) =
      leadsInto d c splitter q := fun q hq => leadsInto_relabel hd hf hs hq
  have hpieces : ∀ b ∈ r.blocks,
      pieces (leadsInto (d.relabel f) c (splitter.rename f)) (Block.rename f b) =
        (pieces (leadsInto d c splitter) b).map (Block.rename f) := fun b hb =>
    pieces_rename fun q hq => hlead q ((hr.blocks b hb).mem_states q hq)
  have hrecords : ∀ b ∈ r.blocks,
      record? (leadsInto (d.relabel f) c (splitter.rename f)) c (Block.rename f b) =
        record? (leadsInto d c splitter) c b := fun b hb =>
    record?_rename hf hlead (hr.blocks b hb) c
  simp only [refineOn, rename, List.flatMap_map, List.filterMap_map, List.map_flatMap,
    List.flatMap_congr hpieces, foldl_requeue_rename hf hlead hr.blocks hr.pending]
  refine congrArg (Refinement.mk _ _) (congrArg (r.records ++ ·) ?_)
  exact List.filterMap_congr hrecords

theorem foldl_refineOn_relabel (hr : Within d r) (hs : splitter.Within d) (cs : List Char) :
    cs.foldl (refineOn (d.relabel f) (splitter.rename f)) (r.rename f) =
      (cs.foldl (refineOn d splitter) r).rename f := by
  induction cs generalizing r with
  | nil => rfl
  | cons c cs ih =>
      rw [List.foldl_cons, List.foldl_cons, refineOn_relabel hd hf hr hs, ih hr.refineOn]

theorem step_relabel (hr : Within d r) :
    step (d.relabel f) (r.rename f) = (step d r).rename f := by
  cases hpending : r.pending with
  | nil => simp only [step, rename, hpending, List.map_nil]
  | cons splitter rest =>
      obtain ⟨hs, hrest⟩ := hr.pop hpending
      have hfold := foldl_refineOn_relabel hd hf hrest hs d.alphabet.toList
      simp only [step, rename, hpending, List.map_cons] at hfold ⊢
      exact hfold

theorem run_relabel (hr : Within d r) :
    run (d.relabel f) (r.rename f) = (run d r).rename f := by
  fun_induction run d r with
  | case1 r hnil =>
      have hnil' : (r.rename f).pending = [] := by rw [rename, hnil, List.map_nil]
      rw [run, dif_pos hnil']
  | case2 r hne _ ih =>
      have hne' : (r.rename f).pending ≠ [] := fun h => hne (List.map_eq_nil_iff.mp h)
      rw [run, dif_neg hne']
      show run (d.relabel f) (step (d.relabel f) (r.rename f)) = _
      rw [step_relabel hd hf hr, ih hr.step]

end Apart

end Refinement

/-! ### Completing a renamed machine -/

namespace DFA

open Block Refinement

/-- A renamed state lacks the edges that the state lacks. -/
theorem no_edge_relabel (hd : d.WellFormed) (hf : Apart f d) {q : StateId} (hq : q ∈ d.states)
    {c : Char} : (∀ r, ¬ (d.relabel f).Edge (f q) c r) ↔ ∀ r, ¬ d.Edge q c r := by
  rw [← not_exists, ← not_exists, exists_edge_relabel hd hf hq]

namespace Sunk

variable {t t' : DFA} {sink sink' : StateId}

/-- There is one machine whose missing edges lead to a given new state. -/
theorem unique (h : Sunk d sink t) (h' : Sunk d sink t') : t = t' := by
  refine h.wellFormed.eq_of_edge_iff h'.wellFormed (ExtTreeSet.ext_mem fun q => ?_)
    (h.initial.trans h'.initial.symm) (h.finals.trans h'.finals.symm) fun p c q => ?_
  · rw [h.mem_states, h'.mem_states]
  · rw [h.edge, h'.edge]

theorem update_of_mem (h : Sunk d sink t) {q : StateId} (hq : q ∈ d.states) :
    Function.update f sink sink' q = f q :=
  Function.update_of_ne (ne_of_mem_of_not_mem hq h.fresh) sink' f

/-- A new name for the sink keeps it apart from the renamed states. -/
theorem apart (h : Sunk d sink t) (hf : Apart f d) (hsink : sink' ∉ (d.relabel f).states) :
    Apart (Function.update f sink sink') t := by
  have hnew : ∀ q ∈ d.states, f q ≠ sink' := fun q hq heq =>
    hsink (mem_states_relabel.mpr ⟨q, hq, heq⟩)
  intro p hp q hq heq
  rcases h.mem_states.mp hp with rfl | hp <;> rcases h.mem_states.mp hq with rfl | hq
  · rfl
  · rw [Function.update_self, h.update_of_mem hq] at heq
    exact absurd heq.symm (hnew q hq)
  · rw [Function.update_self, h.update_of_mem hp] at heq
    exact absurd heq (hnew p hp)
  · rw [h.update_of_mem hp, h.update_of_mem hq] at heq
    exact hf hp hq heq

/-- The missing edges of the renamed machine lead to the new name of the sink. -/
theorem relabel (h : Sunk d sink t) (hd : d.WellFormed) (hf : Apart f d)
    (hsink : sink' ∉ (d.relabel f).states) :
    Sunk (d.relabel f) sink' (t.relabel (Function.update f sink sink')) := by
  have hapart := h.apart hf hsink
  have hold : ∀ q ∈ d.states, Function.update f sink sink' q = f q := fun q hq => h.update_of_mem hq
  have hself : Function.update f sink sink' sink = sink' := Function.update_self ..
  refine ⟨hsink, fun {q} => ?_, ?_, ?_, fun {p c q} => ?_, h.wellFormed.relabel hapart⟩
  · simp only [mem_states_relabel, h.mem_states, or_and_right, exists_or, exists_eq_left', hself]
    exact or_congr_right (exists_congr fun p => and_congr_right fun hp => by rw [hold p hp])
  · rw [initial_relabel, initial_relabel, h.initial]
    exact Option.map_congr fun q hq => hold q (hd.initial_mem hq)
  · show StateSet.image _ t.finals = StateSet.image f d.finals
    rw [h.finals]
    exact StateSet.image_congr fun q hq => hold q (hd.finals_mem hq)
  · rw [edge_relabel h.wellFormed hapart, edge_relabel hd hf]
    constructor
    · intro hex
      obtain ⟨p, q, hedge, rfl, rfl⟩ := hex
      rcases h.edge.mp hedge with hedge | ⟨hc, rfl, rfl | ⟨hp, hnone⟩⟩
      · exact Or.inl ⟨p, q, hedge, (hold p (hd.tail_mem hedge)).symm,
          (hold q (hd.head_mem hedge)).symm⟩
      · exact Or.inr ⟨hc, hself, Or.inl hself⟩
      · refine Or.inr ⟨hc, hself, Or.inr ⟨mem_states_relabel.mpr ⟨p, hp, (hold p hp).symm⟩, ?_⟩⟩
        rw [hold p hp]
        exact (no_edge_relabel hd hf hp).mpr hnone
    · intro hex
      rcases hex with ⟨p, q, hedge, rfl, rfl⟩ | ⟨hc, rfl, rfl | ⟨hmem, hnone⟩⟩
      · exact ⟨p, q, h.edge.mpr (Or.inl hedge), hold p (hd.tail_mem hedge),
          hold q (hd.head_mem hedge)⟩
      · exact ⟨sink, sink, h.edge.mpr (Or.inr ⟨hc, rfl, Or.inl rfl⟩), hself, hself⟩
      · obtain ⟨p, hp, rfl⟩ := mem_states_relabel.mp hmem
        have hgap := (no_edge_relabel hd hf hp).mp hnone
        exact ⟨p, sink, h.edge.mpr (Or.inr ⟨hc, rfl, Or.inr ⟨hp, hgap⟩⟩), hold p hp, hself⟩

end Sunk

/-- Completing a renamed machine gives the completed machine, renamed, as long as the sinks are
new. -/
theorem complete_relabel (hd : d.WellFormed) (hf : Apart f d) {ids ids' : IdSpace}
    (hfree : Completable d ids) (hfree' : Completable (d.relabel f) ids') {t : DFA}
    (hok : complete d ids = .ok t) :
    ∃ g, Apart g t ∧ complete (d.relabel f) ids' = .ok (t.relabel g) := by
  by_cases htotal : Total d
  · have ht : t = d := (Except.ok.inj ((complete_of_total htotal ids).symm.trans hok)).symm
    subst ht
    exact ⟨f, hf, complete_of_total (htotal.relabel hd hf) ids'⟩
  · obtain ⟨left, hleft, hsunk⟩ := hfree.exists_sunk hd htotal
    obtain ⟨left', hleft', hsunk'⟩ :=
      hfree'.exists_sunk (hd.relabel hf) (mt (total_relabel_iff hd hf).mp htotal)
    have ht : left = t := Except.ok.inj (hleft.symm.trans hok)
    subst ht
    have hrelabel := hsunk.relabel hd hf hsunk'.fresh
    exact ⟨_, hsunk.apart hf hsunk'.fresh, by rw [hleft', hsunk'.unique hrelabel]⟩

/-! ### Minimizing a renamed machine -/

theorem refined_relabel (hd : d.WellFormed) (hf : Apart f d) :
    refined (d.relabel f) = (refined d).rename f := by
  rw [refined, start_relabel hd hf, run_relabel hd hf (within_start hd), refined]

theorem within_refined (hd : d.WellFormed) : Refinement.Within d (refined d) :=
  (run_induction (fun _ hr => hr.step) (within_start hd)).1

namespace Merged

variable {m m' : DFA} {blocks : List Block}

/-- There is one machine over the places of the blocks. -/
theorem unique (hm : Merged d blocks m) (hm' : Merged d blocks m') (h : Stable d blocks)
    {start : StateId} (hstart : d.initial = some start) : m = m' := by
  have hmember : ∀ i ∈ m.states, ∃ q, At blocks i q := fun i hi =>
    h.exists_member (hm.mem_states.mp hi)
  refine hm.wellFormed.eq_of_forall_mem hm'.wellFormed
    (fun i => hm.mem_states.trans hm'.mem_states.symm) ?_ (fun i hi => ?_) fun i hi c j => ?_
  · obtain ⟨i, hi, hat⟩ := hm.initial hstart
    obtain ⟨i', hi', hat'⟩ := hm'.initial hstart
    rw [hi, hi', hat.unique h.nodup_flatten hat']
  · obtain ⟨q, hq⟩ := hmember i hi
    rw [hm.mem_finals hq, hm'.mem_finals hq]
  · obtain ⟨q, hq⟩ := hmember i hi
    rw [hm.edge hq, hm'.edge hq]

/-- The machine over the places of renamed blocks does what it did before. -/
theorem of_relabel (hd : d.WellFormed) (hf : Apart f d) (hblocks : ∀ b ∈ blocks, Block.Within d b)
    (hm : Merged (d.relabel f) (blocks.map (Block.rename f)) m) : Merged d blocks m := by
  have hplace : ∀ {i q}, q ∈ d.states →
      (At (blocks.map (Block.rename f)) i (f q) ↔ At blocks i q) := fun hq =>
    at_rename hf hblocks hq
  have hmem : ∀ {i q}, At blocks i q → q ∈ d.states := fun h => by
    obtain ⟨block, hblock, hq⟩ := h
    exact (hblocks block (List.mem_of_getElem? hblock)).mem_states _ hq
  refine ⟨hm.wellFormed, fun {i} => ?_, fun {q} hq => ?_, fun {i q} hq => ?_,
    fun {i j p c} hp => ?_⟩
  · rw [hm.mem_states, List.length_map]
  · obtain ⟨i, hi, hat⟩ := hm.initial (q := f q) (by rw [initial_relabel, hq]; rfl)
    exact ⟨i, hi, (hplace (hd.initial_mem hq)).mp hat⟩
  · have hq' := hmem hq
    rw [hm.mem_finals ((hplace hq').mpr hq), apply_mem_finals_relabel hd hf hq']
  · have hp' := hmem hp
    rw [hm.edge ((hplace hp').mpr hp)]
    constructor
    · intro h
      obtain ⟨_, hedge, hat⟩ := h
      obtain ⟨q, hold, rfl⟩ := (edge_relabel_apply hd hf hp').mp hedge
      exact ⟨q, hold, (hplace (hd.head_mem hold)).mp hat⟩
    · intro h
      obtain ⟨q, hedge, hat⟩ := h
      exact ⟨f q, (edge_relabel_apply hd hf hp').mpr ⟨q, hedge, rfl⟩,
        (hplace (hd.head_mem hedge)).mpr hat⟩

end Merged

/-- **Minimizing a machine does not depend on the names of its states**, as long as the sinks that
complete it are new. -/
theorem minimize_relabel (hd : d.WellFormed) (hf : Apart f d) {ids ids' : IdSpace}
    (hfree : Completable d ids) (hfree' : Completable (d.relabel f) ids') :
    minimize (d.relabel f) ids' = minimize d ids := by
  have hd' := hd.relabel hf
  cases hstart : d.initial with
  | none =>
      have hnone : (d.relabel f).initial = none := by rw [initial_relabel, hstart]; rfl
      rw [minimize_refused hd hstart, minimize_refused hd' hnone]
  | some start =>
      have hstart' : (d.relabel f).initial = some (f start) := by
        rw [initial_relabel, hstart]; rfl
      obtain ⟨total, m, hm, heq⟩ := exists_minimizing hd hstart ids
      obtain ⟨total', m', hm', heq'⟩ := exists_minimizing hd' hstart' ids'
      obtain ⟨g, hg, hcomplete⟩ := complete_relabel hd hf hfree hfree' hm.complete
      have htotal : total' = total.relabel g :=
        Except.ok.inj (hm'.complete.symm.trans hcomplete)
      subst htotal
      -- Both runs end with a machine over the places of the same blocks.
      have hwf := hm.filled.wellFormed
      have hrefined := refined_relabel hwf hg
      have hmerged := hm'.merged
      rw [hrefined] at hmerged
      have hsame : m' = m := (hmerged.of_relabel hwf hg (within_refined hwf).blocks).unique
        hm.merged hm.stable (hm.filled.initial.trans hstart)
      rw [heq, heq', hrefined, hsame, stateCount_relabel hf]
      rfl

end DFA

end RegexMachine
