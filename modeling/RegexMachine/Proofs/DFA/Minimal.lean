import RegexMachine.Proofs.Automaton.Renumber
import RegexMachine.Proofs.DFA.Quotient

/-!
# RegexMachine.Proofs.DFA.Minimal

**Minimizing merges exactly the states that no word tells apart.** A machine with a start state is
never refused. The result is complete, has the alphabet and the words of the completed machine, and
its states are numbered without a gap. It has one state for every residual language of the completed
machine, and no two of its states have the same one. The words are those of the machine it is made
from if that could be completed without using a name twice.

`Minimizing` names the machines that come up on the way, and `exists_minimize` is the equation that
later proofs use.
-/

namespace RegexMachine

open Std

namespace DFA

open Automaton Block

/-! ### Residual languages -/

/-- The words over the alphabet that lead from `q` to a final state. -/
def residual (d : DFA) (q : StateId) : Set Word :=
  {w | (∀ c ∈ w, c ∈ d.alphabet) ∧ acceptsFrom d q w = true}

section Residual

variable {d : DFA} {p q : StateId}

/-- Nothing but words over the alphabet leads to a final state. -/
theorem mem_alphabet_of_acceptsFrom (hd : d.WellFormed) {w : Word}
    (h : acceptsFrom d q w = true) : ∀ c ∈ w, c ∈ d.alphabet := by
  obtain ⟨_, _, hpath⟩ := acceptsFrom_iff.mp h
  exact hpath.mem_alphabet hd

theorem mem_residual (hd : d.WellFormed) {w : Word} :
    w ∈ residual d q ↔ acceptsFrom d q w = true :=
  and_iff_right_of_imp (mem_alphabet_of_acceptsFrom hd)

theorem residual_eq_iff (hd : d.WellFormed) : residual d p = residual d q ↔ Alike d p q := by
  rw [Set.ext_iff]
  refine forall_congr' fun w => ?_
  rw [mem_residual hd, mem_residual hd]
  exact Bool.eq_iff_iff.symm

/-- Words over the alphabet are enough to tell states apart. -/
theorem alike_iff (hd : d.WellFormed) : Alike d p q ↔
    ∀ w : Word, (∀ c ∈ w, c ∈ d.alphabet) → acceptsFrom d p w = acceptsFrom d q w := by
  constructor
  · intro h w _
    exact h w
  · intro h w
    by_cases hw : ∀ c ∈ w, c ∈ d.alphabet
    · exact h w hw
    · rw [Bool.eq_false_iff.mpr (mt (mem_alphabet_of_acceptsFrom hd) hw),
        Bool.eq_false_iff.mpr (mt (mem_alphabet_of_acceptsFrom hd) hw)]

end Residual

/-! ### Renamed machines -/

section Relabel

variable {d : DFA} {f : StateId → StateId}

theorem acceptsFrom_relabel (hd : d.WellFormed) (hf : Apart f d) {q : StateId} (hq : q ∈ d.states)
    (w : Word) : acceptsFrom (d.relabel f) (f q) w = acceptsFrom d q w := by
  rw [Bool.eq_iff_iff, acceptsFrom_iff, acceptsFrom_iff]
  constructor
  · intro h
    obtain ⟨_, hfinal, hpath⟩ := h
    obtain ⟨r, hr, rfl⟩ := (path_relabel hd hf hq).mp hpath
    exact ⟨r, (apply_mem_finals_relabel hd hf (hr.mem_states hd hq)).mp hfinal, hr⟩
  · intro h
    obtain ⟨r, hfinal, hpath⟩ := h
    exact ⟨f r, mem_finals_relabel.mpr ⟨r, hfinal, rfl⟩,
      (path_relabel hd hf hq).mpr ⟨r, hpath, rfl⟩⟩

theorem exists_edge_relabel (hd : d.WellFormed) (hf : Apart f d) {q : StateId} (hq : q ∈ d.states)
    {c : Char} : (∃ r, (d.relabel f).Edge (f q) c r) ↔ ∃ r, d.Edge q c r := by
  constructor
  · intro h
    obtain ⟨_, hedge⟩ := h
    obtain ⟨r, hold, -⟩ := (edge_relabel_apply hd hf hq).mp hedge
    exact ⟨r, hold⟩
  · intro h
    obtain ⟨r, hedge⟩ := h
    exact ⟨f r, (edge_relabel_apply hd hf hq).mpr ⟨r, hedge, rfl⟩⟩

theorem total_relabel_iff (hd : d.WellFormed) (hf : Apart f d) : Total (d.relabel f) ↔ Total d :=
  StateSet.forall_mem_image.trans <|
    forall₂_congr fun _ hq => forall₂_congr fun _ _ => exists_edge_relabel hd hf hq

theorem Total.relabel (htotal : Total d) (hd : d.WellFormed) (hf : Apart f d) :
    Total (d.relabel f) :=
  (total_relabel_iff hd hf).mpr htotal

theorem accepts_renumber (hd : d.WellFormed) (w : Word) : accepts d.renumber w = accepts d w := by
  rw [Bool.eq_iff_iff, accepts_iff, accepts_iff]
  exact Automaton.accepts_renumber hd

end Relabel

/-! ### States of which no two are alike -/

/-- No two states are alike. -/
def Reduced (d : DFA) : Prop :=
  ∀ p ∈ d.states, ∀ q ∈ d.states, Alike d p q → p = q

theorem Reduced.relabel {d : DFA} {f : StateId → StateId} (hreduced : Reduced d)
    (hd : d.WellFormed) (hf : Apart f d) : Reduced (d.relabel f) := by
  intro r hr s hs halike
  obtain ⟨p, hp, rfl⟩ := mem_states_relabel.mp hr
  obtain ⟨q, hq, rfl⟩ := mem_states_relabel.mp hs
  refine congrArg f (hreduced p hp q hq fun w => ?_)
  rw [← acceptsFrom_relabel hd hf hp, ← acceptsFrom_relabel hd hf hq]
  exact halike w

/-- A machine no two of whose states are alike has a state for every residual language. -/
theorem Reduced.stateCount_eq {d : DFA} (hreduced : Reduced d) (hd : d.WellFormed) :
    d.stateCount = (residual d '' {q | q ∈ d.states}).ncard := by
  have hinj : Set.InjOn (residual d) {q | q ∈ d.states} := fun p hp q hq heq =>
    hreduced p hp q hq ((residual_eq_iff hd).mp heq)
  rw [hinj.ncard_image, StateSet.ncard_mem, stateCount]

namespace Merged

variable {d m : DFA} {blocks : List Block}

theorem residual_eq (hm : Merged d blocks m) (hd : d.WellFormed) (h : Stable d blocks)
    {i : Nat} {q : StateId} (hq : At blocks i q) : residual m i = residual d q := by
  ext w
  rw [mem_residual hm.wellFormed, mem_residual hd, hm.acceptsFrom_eq hd h hq]

/-- The residual languages are those of the machine whose states are merged. -/
theorem image_residual (hm : Merged d blocks m) (hd : d.WellFormed) (h : Stable d blocks) :
    residual m '' {i | i ∈ m.states} = residual d '' {q | q ∈ d.states} := by
  ext language
  constructor
  · intro hi
    obtain ⟨i, hi, rfl⟩ := hi
    obtain ⟨q, hq⟩ := h.exists_member (hm.mem_states.mp hi)
    exact ⟨q, h.mem_states hq, (hm.residual_eq hd h hq).symm⟩
  · intro hq
    obtain ⟨q, hq, rfl⟩ := hq
    obtain ⟨i, hi⟩ := h.exists_at hq
    exact ⟨i, hm.mem_states.mpr hi.lt_length, hm.residual_eq hd h hi⟩

/-- There is one state for a block. -/
theorem stateCount_eq (hm : Merged d blocks m) : m.stateCount = blocks.length :=
  StateSet.size_of_mem_iff_lt fun _ => hm.mem_states

/-- If alike states are in one block, merging leaves no two states that are alike. -/
theorem reduced (hm : Merged d blocks m) (hd : d.WellFormed) (h : Stable d blocks)
    (halike : ∀ p ∈ d.states, ∀ q ∈ d.states, Alike d p q → Together blocks p q) : Reduced m := by
  intro i hi j hj hij
  obtain ⟨p, hp⟩ := h.exists_member (hm.mem_states.mp hi)
  obtain ⟨q, hq⟩ := h.exists_member (hm.mem_states.mp hj)
  have hpq : Alike d p q := fun w => by
    rw [← hm.acceptsFrom_eq hd h hp, ← hm.acceptsFrom_eq hd h hq]
    exact hij w
  obtain ⟨k, hkp, hkq⟩ :=
    together_iff_at.mp (halike p (h.mem_states hp) q (h.mem_states hq) hpq)
  rw [hp.unique h.nodup_flatten hkp, hq.unique h.nodup_flatten hkq]

end Merged

/-! ### Minimizing -/

/-- The machines that come up when `d` is minimized: `total` is `d` completed, and `m` is what is
left of it once the states are merged. -/
structure Minimizing (ids : IdSpace) (d total m : DFA) : Prop where
  complete : complete d ids = .ok total
  filled : Filled d total
  merged : Merged total (refined total).blocks m

/-- What minimizing a machine with a start state comes to: it is never refused, and it reports every
cut and then the two numbers of states. -/
theorem exists_minimizing {d : DFA} (hd : d.WellFormed) {start : StateId}
    (hstart : d.initial = some start) (ids : IdSpace) :
    ∃ total m, Minimizing ids d total m ∧ minimize d ids =
      ⟨.ok m.renumber, (refined total).records ++ [.minimized d.stateCount m.stateCount]⟩ := by
  obtain ⟨total, hcomplete, ht⟩ := exists_complete hd ids
  have hinitial : total.initial = some start := ht.initial.trans hstart
  obtain ⟨m, hon, hm⟩ :=
    exists_quotient ht.wellFormed ht.total (stable_refined ht.wellFormed ht.total) hinitial
  refine ⟨total, m, ⟨hcomplete, ht, hm⟩, ?_⟩
  rw [minimize, hcomplete, Traced.bind_of_ok rfl, start_of_initial hinitial, Traced.bind_of_ok rfl,
    Traced.bind_of_ok rfl, Edit.result_of_ok hon]
  rfl

/-- Minimizing a machine with a start state is never refused. -/
theorem exists_minimize {d : DFA} (hd : d.WellFormed) {start : StateId}
    (hstart : d.initial = some start) (ids : IdSpace) :
    ∃ total m, Minimizing ids d total m ∧ (minimize d ids).outcome = .ok m.renumber := by
  obtain ⟨total, m, hm, heq⟩ := exists_minimizing hd hstart ids
  exact ⟨total, m, hm, by rw [heq]⟩

/-- Without a start state nothing is minimized and nothing is reported. -/
theorem minimize_refused {d : DFA} (hd : d.WellFormed) (h : d.initial = none) (ids : IdSpace) :
    minimize d ids = ⟨.error .missingInitialState, []⟩ := by
  obtain ⟨total, hcomplete, ht⟩ := exists_complete hd ids
  rw [minimize, hcomplete, Traced.bind_of_ok rfl, start_of_no_initial (ht.initial.trans h),
    Traced.bind_of_error rfl]
  rfl

namespace Minimizing

variable {ids : IdSpace} {d total m : DFA}

theorem stable (h : Minimizing ids d total m) : Stable total (refined total).blocks :=
  stable_refined h.filled.wellFormed h.filled.total

theorem wellFormed (h : Minimizing ids d total m) : m.WellFormed := h.merged.wellFormed

theorem accepts_eq_total (h : Minimizing ids d total m) {start : StateId}
    (hstart : d.initial = some start) (w : Word) : accepts m w = accepts total w :=
  h.merged.accepts_eq h.filled.wellFormed h.stable (h.filled.initial.trans hstart) w

theorem accepts_eq (h : Minimizing ids d total m) (hd : d.WellFormed)
    (hcompletable : Completable d ids) {start : StateId} (hstart : d.initial = some start)
    (w : Word) : accepts m w = accepts d w := by
  rw [h.accepts_eq_total hstart, (hcompletable.completion hd h.complete).accepts hd]

theorem alphabet_eq (h : Minimizing ids d total m) {start : StateId}
    (hstart : d.initial = some start) : m.alphabet = d.alphabet := by
  rw [h.merged.alphabet_eq h.filled.wellFormed h.filled.total h.stable
    (h.filled.initial.trans hstart), h.filled.alphabet]

theorem total_merged (h : Minimizing ids d total m) {start : StateId}
    (hstart : d.initial = some start) : Total m :=
  h.merged.total h.filled.wellFormed h.filled.total h.stable
    (h.filled.initial.trans hstart)

theorem reduced (h : Minimizing ids d total m) : Reduced m :=
  h.merged.reduced h.filled.wellFormed h.stable fun _ hp _ hq =>
    (together_iff_alike h.filled.wellFormed h.filled.total hp hq).mpr

theorem stateCount_eq (h : Minimizing ids d total m) :
    m.stateCount = (residual total '' {q | q ∈ total.states}).ncard := by
  rw [h.reduced.stateCount_eq h.wellFormed,
    h.merged.image_residual h.filled.wellFormed h.stable]

end Minimizing

end DFA

end RegexMachine
