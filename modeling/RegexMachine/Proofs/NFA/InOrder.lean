import RegexMachine.Proofs.DFA.Access
import RegexMachine.Proofs.NFA.Subset

/-!
# RegexMachine.Proofs.NFA.InOrder

**The sets of states come up in the order of their numbers.** The machine over the listed sets names
a set by its place, and the edges of a place are stored by character, in the order in which the
characters of the alphabet are tried when the sets are listed. So following the stored edges from
the first place on, one comes upon the places in the order in which the sets were listed: the
listing of the machine's states is the listing of the sets with every set replaced by its place.
Hence the machine is numbered already.
-/

namespace RegexMachine

open Std Search

namespace NFA

open Automaton

variable {n : NFA} {sets : List StateSet} {d : DFA} {start : StateId}

namespace Determined

/-- The edges of a place, in the order of the alphabet. -/
theorem arrows_eq (hd : Determined n sets d) (h : Explored n start sets) {i : StateId}
    {s : StateSet} (hs : sets[i]? = some s) :
    DFA.arrows d i = n.alphabet.toList.map fun c => (c, sets.idxOf (move n s c)) := by
  have hright : (n.alphabet.toList.map fun c => (c, sets.idxOf (move n s c))).Pairwise
      fun x y => x.1 < y.1 := by
    have hascending := ExtTreeSet.ordered_toList (t := n.alphabet)
    exact List.pairwise_map.mpr (hascending.imp fun h => compareOfLessAndEq_eq_lt.mp h)
  refine ((DFA.labeled_arrows d).ascending i).eq_of_mem_iff hright fun (c, j) => ?_
  rw [DFA.mem_arrows, hd.edge hs, List.mem_map]
  constructor
  · rintro ⟨hc, hj⟩
    have hmem := h.move_mem (List.mem_of_getElem? hs) hc
    exact ⟨c, ExtTreeSet.mem_toList.mpr hc, Prod.ext rfl ((h.idxOf_eq_iff hmem).mpr hj)⟩
  · rintro ⟨b, hb, heq⟩
    obtain ⟨rfl, rfl⟩ := Prod.mk.inj heq
    have hb := ExtTreeSet.mem_toList.mp hb
    exact ⟨hb, (h.idxOf_eq_iff (h.move_mem (List.mem_of_getElem? hs) hb)).mp rfl⟩

/-- The places after a place are those of the sets after its set, in the same order. -/
theorem successors_idxOf (hd : Determined n sets d) (h : Explored n start sets) {s : StateSet}
    (hs : s ∈ sets) : d.successors (sets.idxOf s) = (nextSubsets n s).map sets.idxOf := by
  rw [← (DFA.labeled_arrows d).heads, hd.arrows_eq h ((h.idxOf_eq_iff hs).mp rfl), nextSubsets,
    List.map_map, List.map_map]
  rfl

/-- The search through the places lists them in the order of the sets. -/
theorem reachable_eq (hd : Determined n (subsets n (closure n {start})) d) :
    d.reachable = (subsets n (closure n {start})).map (subsets n (closure n {start})).idxOf := by
  have h := explored_subsets n start
  have hfirst : (subsets n (closure n {start})).idxOf (closure n {start}) = 0 :=
    (h.idxOf_eq_iff (List.mem_of_getElem? h.first)).mpr h.first
  have hstarts : d.initial.toList =
      [closure n {start}].map (subsets n (closure n {start})).idxOf := by
    rw [hd.initial, List.map_singleton, hfirst, Option.toList_some]
  rw [Automaton.reachable, hstarts]
  refine search_map (p := (· ∈ subsets n (closure n {start})))
    (fun s hs t _ heq => (List.idxOf_inj hs).mp heq) (fun s hs t ht => ?_)
    (fun s hs => hd.successors_idxOf h hs) (by simpa using List.mem_of_getElem? h.first)
  obtain ⟨c, hc, rfl⟩ := mem_nextSubsets.mp ht
  exact h.move_mem hs hc

/-- Every place is its own number. -/
theorem number_eq (hd : Determined n (subsets n (closure n {start})) d) {i : StateId}
    (hi : i ∈ d.states) : d.number i = i := by
  have h := explored_subsets n start
  have hlt := hd.mem_states.mp hi
  have hnodup := d.nodup_reachable
  rw [number_of_mem_reachable (mem_reachable.mpr (hd.reachable h hi))]
  rw [hd.reachable_eq] at hnodup ⊢
  have hplace := hnodup.idxOf_getElem i (by rwa [List.length_map])
  rwa [List.getElem_map, h.nodup.idxOf_getElem i hlt] at hplace

/-- **The machine over the sets is numbered already.** -/
theorem renumber_eq (hd : Determined n (subsets n (closure n {start})) d) : d.renumber = d := by
  rw [renumber_eq_relabel]
  exact relabel_eq_self hd.wellFormed fun i hi => hd.number_eq hi

end Determined

end NFA

end RegexMachine
