import RegexMachine.Proofs.NFA.Subset

/-!
# RegexMachine.Proofs.NFA.Renaming

**Making a machine deterministic does not depend on the names of its states.** When the states are
renamed apart, the sets of states that the machine may be in are the images of the old ones. They
come up in the same order, for the order in which they are found depends on the characters only. The
deterministic machine names a set by its place in that order, so it stays the same.

A set of states of the machine is `Within` it. Only on such sets is taking images one to one, so it
has to be known of every set that comes up.
-/

namespace RegexMachine

open Std

namespace StateSet

theorem image_singleton (f : StateId → StateId) (q : StateId) : image f {q} = {f q} := by
  refine ExtTreeSet.ext_mem fun r => ?_
  simp

end StateSet

namespace NFA

open Automaton

variable {n : NFA} {f : StateId → StateId} {s : StateSet}

/-! ### Sets of states of the machine -/

/-- All members are states of the machine. -/
def Within (n : NFA) (s : StateSet) : Prop :=
  ∀ q ∈ s, q ∈ n.states

theorem image_injOn (hf : Apart f n) : Set.InjOn (StateSet.image f) {s | Within n s} := by
  intro s hs t ht heq
  refine ExtTreeSet.ext_mem fun q => ?_
  by_cases hq : q ∈ n.states
  · rw [← StateSet.apply_mem_image hf hs hq, heq, StateSet.apply_mem_image hf ht hq]
  · exact iff_of_false (mt (hs q) hq) (mt (ht q) hq)

section Within

variable (hn : n.WellFormed)

include hn

theorem within_follow (s : StateSet) (k : Symbol) : Within n (follow n s k) := by
  intro r hr
  obtain ⟨q, -, hqr⟩ := mem_follow.mp hr
  exact hn.head_mem (edge_iff_mem_targets.mpr hqr)

theorem within_closure (hs : Within n s) : Within n (closure n s) := by
  intro r hr
  obtain ⟨q, hq, hpath⟩ := mem_closure.mp hr
  exact hpath.mem_states hn (hs q hq)

theorem within_move (s : StateSet) (c : Char) : Within n (move n s c) :=
  within_closure hn (within_follow hn s _)

end Within

/-! ### Following sets of renamed states -/

section Relabel

variable (hn : n.WellFormed) (hf : Apart f n)

include hn hf

theorem closure_relabel (hs : Within n s) :
    closure (n.relabel f) (StateSet.image f s) = StateSet.image f (closure n s) := by
  refine ExtTreeSet.ext_mem fun r => ?_
  rw [mem_closure, StateSet.mem_image]
  constructor
  · intro h
    obtain ⟨_, hmem, hpath⟩ := h
    obtain ⟨p, hp, rfl⟩ := StateSet.mem_image.mp hmem
    obtain ⟨q, hpq, rfl⟩ := (path_relabel hn hf (hs p hp)).mp hpath
    exact ⟨q, mem_closure.mpr ⟨p, hp, hpq⟩, rfl⟩
  · intro h
    obtain ⟨q, hq, rfl⟩ := h
    obtain ⟨p, hp, hpq⟩ := mem_closure.mp hq
    exact ⟨f p, StateSet.mem_image.mpr ⟨p, hp, rfl⟩,
      (path_relabel hn hf (hs p hp)).mpr ⟨q, hpq, rfl⟩⟩

theorem follow_relabel (hs : Within n s) (k : Symbol) :
    follow (n.relabel f) (StateSet.image f s) k = StateSet.image f (follow n s k) := by
  refine ExtTreeSet.ext_mem fun r => ?_
  rw [StateSet.mem_image]
  simp only [mem_follow, ← edge_iff_mem_targets]
  constructor
  · intro h
    obtain ⟨_, hmem, hedge⟩ := h
    obtain ⟨p, hp, rfl⟩ := StateSet.mem_image.mp hmem
    obtain ⟨q, hold, rfl⟩ := (edge_relabel_apply hn hf (hs p hp)).mp hedge
    exact ⟨q, ⟨p, hp, hold⟩, rfl⟩
  · intro h
    obtain ⟨q, ⟨p, hp, hedge⟩, rfl⟩ := h
    exact ⟨f p, StateSet.mem_image.mpr ⟨p, hp, rfl⟩,
      (edge_relabel_apply hn hf (hs p hp)).mpr ⟨q, hedge, rfl⟩⟩

theorem move_relabel (hs : Within n s) (c : Char) :
    move (n.relabel f) (StateSet.image f s) c = StateSet.image f (move n s c) := by
  rw [move, follow_relabel hn hf hs, closure_relabel hn hf (within_follow hn s _), move]

theorem hasFinal_relabel (hs : Within n s) :
    hasFinal (n.relabel f) (StateSet.image f s) = hasFinal n s := by
  rw [Bool.eq_iff_iff, hasFinal_iff, hasFinal_iff]
  constructor
  · intro h
    obtain ⟨_, hmem, hfinal⟩ := h
    obtain ⟨p, hp, rfl⟩ := StateSet.mem_image.mp hmem
    exact ⟨p, hp, (apply_mem_finals_relabel hn hf (hs p hp)).mp hfinal⟩
  · intro h
    obtain ⟨p, hp, hfinal⟩ := h
    exact ⟨f p, StateSet.mem_image.mpr ⟨p, hp, rfl⟩,
      (apply_mem_finals_relabel hn hf (hs p hp)).mpr hfinal⟩

end Relabel

/-! ### The machine over the places -/

variable {sets : List StateSet} {d : DFA}

namespace Determined

/-- The machine over the places of renamed sets moves between them as before. -/
theorem of_relabel (hn : n.WellFormed) (hf : Apart f n) (hsets : ∀ s ∈ sets, Within n s)
    (hd : Determined (n.relabel f) (sets.map (StateSet.image f)) d) : Determined n sets d := by
  have hplace : ∀ {i s}, sets[i]? = some s →
      (sets.map (StateSet.image f))[i]? = some (StateSet.image f s) := fun hs => by
    rw [List.getElem?_map, hs, Option.map_some]
  have hwithin : ∀ {i s}, sets[i]? = some s → Within n s := fun hs =>
    hsets _ (List.mem_of_getElem? hs)
  refine ⟨hd.wellFormed, fun {i} => ?_, hd.initial, fun hs => ?_, fun {i j s c} hs => ?_⟩
  · rw [hd.mem_states, List.length_map]
  · rw [hd.mem_finals (hplace hs), hasFinal_relabel hn hf (hwithin hs)]
  · rw [hd.edge (hplace hs), move_relabel hn hf (hwithin hs), List.getElem?_map,
      Option.map_eq_some_iff]
    refine and_congr_right fun _ => ⟨fun h => ?_, fun h => ⟨_, h, rfl⟩⟩
    obtain ⟨u, hu, heq⟩ := h
    exact image_injOn hf (hwithin hu) (within_move hn s c) heq ▸ hu

end Determined

end NFA

end RegexMachine
