import RegexMachine.Proofs.NFA.Subset

/-!
# RegexMachine.Proofs.NFA.OnePass

**Listing and building in one pass.** `determinize` lists the sets of states first and builds the
machine over the list. The machine can just as well be built while the sets come up. A turn takes a
set off a queue and reads every character of the alphabet from it; a set that comes up for the first
time gets the next free state there and then, is reported, and is put on the queue. `Construction`
is such a run under way and `Turn` is one turn of it.

The turns come upon the sets in the order in which `visit` lists them, so the next free state is
always the place of the set in that list. `Underway` says how far the machine has been built, down
to the single characters of a turn. When the queue is empty it is the machine over the list.
-/

namespace RegexMachine

open Std Relation Search

/-- What is at a place of a list stays there when the list gets longer. -/
theorem getElem?_append_of_eq_some {α : Type} {xs : List α} {a : α} {i : Nat}
    (h : xs[i]? = some a) (ys : List α) : (xs ++ ys)[i]? = some a := by
  rw [List.getElem?_append_left (List.getElem?_eq_some_iff.mp h).1, h]

/-- A thing listed with its place is looked up by its first place. -/
theorem lookup_zipIdx {α : Type} [BEq α] [LawfulBEq α] (xs : List α) (a : α) (k : Nat) :
    (xs.zipIdx k).lookup a = if a ∈ xs then some (k + xs.idxOf a) else none := by
  induction xs generalizing k with
  | nil => rfl
  | cons b xs ih =>
      rw [List.zipIdx_cons, List.lookup_cons, ih, List.idxOf_cons]
      by_cases hab : a = b
      · subst hab
        simp
      · have hne : (a == b) = false := beq_false_of_ne hab
        have hne' : (b == a) = false := beq_false_of_ne (Ne.symm hab)
        simp [hne, hne', hab, Nat.add_assoc, Nat.add_comm 1]

namespace NFA

open Automaton

/-! ### Turns -/

/-- A subset construction under way. -/
structure Construction where
  /-- The machine as far as it is built. -/
  machine : DFA
  /-- The sets that have come up, each with its state. -/
  names : List (StateSet × StateId)
  /-- The sets that have come up and have not been taken up yet. -/
  queue : List StateSet
  /-- The records made. -/
  records : List Record

namespace Construction

/-- Changes the machine. -/
def edit {α : Type} (e : Edit Char StateId α) (x : Construction) :
    Except Fault (α × Construction) :=
  match e.on x.machine with
  | (.ok a, d) => .ok (a, { x with machine := d })
  | (.error fault, _) => .error fault

/-- The state of a set. A set that comes up for the first time gets a new state, is reported, and is
put on the queue. -/
def nameOf (n : NFA) (s : StateSet) (x : Construction) : Except Fault (StateId × Construction) :=
  match x.names.lookup s with
  | some known => .ok (known, x)
  | none => do
      let (fresh, x) ← x.edit (newState (hasFinal n s) .naturals)
      return (fresh, { x with
        names := x.names ++ [(s, fresh)]
        queue := x.queue ++ [s]
        records := x.records ++ [.discovered s fresh] })

/-- Reads a character from a set with a state. -/
def readOff (n : NFA) (s : StateSet) (source : StateId) (x : Construction) (c : Char) :
    Except Fault Construction := do
  let (target, x) ← x.nameOf n (move n s c)
  let (_, x) ← x.edit (DFA.addEdge source target c)
  return x

/-- The construction that has come upon the first set only. -/
def start (n : NFA) (first : StateSet) : Except Fault Construction := do
  let (q, x) ← edit (newState (hasFinal n first) .naturals) ⟨.empty, [], [], []⟩
  let (_, x) ← x.edit (setInitial q)
  return { x with names := [(first, q)], queue := [first] }

/-- A turn takes a set off the queue and reads every character of the alphabet from it. There is no
turn if the set has no state, nor if a change of the machine is refused. -/
inductive Turn (n : NFA) : Construction → Construction → Prop
  | take {x y : Construction} {s : StateSet} {rest : List StateSet} {source : StateId} :
      x.queue = s :: rest → x.names.lookup s = some source →
      n.alphabet.toList.foldlM (readOff n s source) { x with queue := rest } = .ok y → Turn n x y

end Construction

/-! ### The machine on the way -/

variable {n : NFA} {seen : List StateSet} {d : DFA} {drawn : StateId → Char → Prop}

/-- `d` has the places of the sets for states, and of the edges to be added those that `drawn`
picks. -/
structure Partly (n : NFA) (seen : List StateSet) (drawn : StateId → Char → Prop) (d : DFA) :
    Prop where
  wellFormed : d.WellFormed
  mem_states {i : StateId} : i ∈ d.states ↔ i < seen.length
  initial : d.initial = some 0
  mem_finals {i : StateId} {s : StateSet} :
    seen[i]? = some s → (i ∈ d.finals ↔ hasFinal n s = true)
  /-- Where an edge leads has come up. -/
  move_mem {i : StateId} {s : StateSet} {c : Char} :
    seen[i]? = some s → drawn i c → move n s c ∈ seen
  edge {i j : StateId} {s : StateSet} {c : Char} : seen[i]? = some s →
    (d.Edge i c j ↔ drawn i c ∧ seen[j]? = some (move n s c))

namespace Partly

/-- A set that has not come up before gets a new state. -/
theorem withState (h : Partly n seen drawn d) {t : StateSet} (ht : t ∉ seen)
    (hdrawn : ∀ c, ¬ drawn seen.length c) :
    Partly n (seen ++ [t]) drawn (d.withState seen.length (hasFinal n t)) where
  wellFormed := h.wellFormed.withState _ _
  mem_states {i} := by
    rw [mem_states_withState, h.mem_states, List.length_append, List.length_singleton,
      Nat.lt_succ_iff_lt_or_eq, or_comm, eq_comm]
  initial := h.initial
  mem_finals {i s} hs := by
    rw [mem_finals_withState]
    rcases getElem?_snoc_iff.mp hs with hs | ⟨rfl, rfl⟩
    · have hne : seen.length ≠ i := Nat.ne_of_gt (List.getElem?_eq_some_iff.mp hs).1
      rw [h.mem_finals hs, or_iff_right fun hlast => hne hlast.2]
    · have hnot : seen.length ∉ d.finals := fun hfinal =>
        Nat.lt_irrefl _ (h.mem_states.mp (h.wellFormed.finals_mem hfinal))
      rw [or_iff_left hnot, and_iff_left rfl]
  move_mem {i s c} hs hc := by
    rcases getElem?_snoc_iff.mp hs with hs | ⟨rfl, -⟩
    · exact List.mem_append_left _ (h.move_mem hs hc)
    · exact absurd hc (hdrawn c)
  edge {i j s c} hs := by
    have hedges : (d.withState seen.length (hasFinal n t)).Edge i c j ↔ d.Edge i c j :=
      edge_of_edges_eq rfl i c j
    rw [hedges]
    rcases getElem?_snoc_iff.mp hs with hs | ⟨rfl, -⟩
    · rw [h.edge hs, getElem?_snoc_iff]
      refine and_congr_right fun hc => (or_iff_left fun hlast => ht ?_).symm
      exact hlast.2 ▸ h.move_mem hs hc
    · refine iff_of_false (fun hedge => ?_) fun hc => hdrawn c hc.1
      exact Nat.lt_irrefl _ (h.mem_states.mp (h.wellFormed.tail_mem hedge))

/-- An edge is added between the places of two sets. -/
theorem withEdge (h : Partly n seen drawn d) (hnodup : seen.Nodup) {i : StateId} {s : StateSet}
    {c : Char} (hs : seen[i]? = some s) (hmem : move n s c ∈ seen) :
    Partly n seen (fun p b => drawn p b ∨ (p = i ∧ b = c))
      (DFA.withEdge d i (seen.idxOf (move n s c)) c) where
  wellFormed := DFA.wellFormed_withEdge h.wellFormed
    (h.mem_states.mpr (List.getElem?_eq_some_iff.mp hs).1)
    (h.mem_states.mpr (List.idxOf_lt_length_iff.mpr hmem)) c
  mem_states := h.mem_states
  initial := h.initial
  mem_finals := h.mem_finals
  move_mem {p t b} ht hb := by
    rcases hb with hb | ⟨rfl, rfl⟩
    · exact h.move_mem ht hb
    · obtain rfl : s = t := Option.some.inj (hs.symm.trans ht)
      exact hmem
  edge {p q t b} ht := by
    rw [DFA.edge_withEdge]
    split
    · next hkey =>
        obtain ⟨rfl, rfl⟩ := hkey
        obtain rfl : s = t := Option.some.inj (hs.symm.trans ht)
        rw [idxOf_eq_iff_of_nodup hnodup hmem]
        exact (and_iff_right (Or.inr ⟨rfl, rfl⟩)).symm
    · next hne =>
        rw [h.edge ht, or_iff_left fun hkey => hne ⟨hkey.1.symm, hkey.2.symm⟩]

/-- When all edges have been added, the machine is the one over the sets. -/
theorem determined (h : Partly n seen drawn d)
    (hdrawn : ∀ i c, i < seen.length → (drawn i c ↔ c ∈ n.alphabet)) : Determined n seen d where
  wellFormed := h.wellFormed
  mem_states := h.mem_states
  initial := h.initial
  mem_finals := h.mem_finals
  edge {i j s c} hs := by
    rw [h.edge hs, hdrawn i c (List.getElem?_eq_some_iff.mp hs).1]

end Partly

/-! ### Turn by turn -/

/-- A set that comes up behind the others is reported behind them. -/
theorem discoveries_snoc (hne : seen ≠ []) (t : StateSet) :
    discoveries (seen ++ [t]) = discoveries seen ++ [.discovered t seen.length] := by
  rw [discoveries, List.zipIdx_append, List.drop_append_of_le_length
      (by simpa [Nat.one_le_iff_ne_zero] using hne),
    List.map_append, Nat.zero_add]
  rfl

/-- The edges that are there when `count` sets have been read from and, from the next one, the
characters in `read`. -/
def Drawn (n : NFA) (count : Nat) (read : List Char) (i : StateId) (c : Char) : Prop :=
  (i < count ∧ c ∈ n.alphabet) ∨ (i = count ∧ c ∈ read)

theorem drawn_snoc {count : Nat} {read : List Char} {b : Char} :
    (fun i c => Drawn n count read i c ∨ (i = count ∧ c = b)) = Drawn n count (read ++ [b]) := by
  funext i c
  rw [Drawn, Drawn, List.mem_append, List.mem_singleton, and_or_left, or_assoc]

theorem drawn_alphabet {count : Nat} :
    Drawn n count n.alphabet.toList = Drawn n (count + 1) [] := by
  funext i c
  rw [Drawn, Drawn, ExtTreeSet.mem_toList, ← or_and_right, Nat.lt_succ_iff_lt_or_eq]
  simp

namespace Construction

variable {x : Construction} {count : Nat} {read : List Char} {queue rest : List StateSet}
variable {s t : StateSet}

/-- The sets in `seen` have come up and those in `queue` have not been taken up; the first `count`
sets have been read from and, from the next one, the characters in `read`. -/
structure Underway (n : NFA) (seen : List StateSet) (count : Nat) (read : List Char)
    (queue : List StateSet) (x : Construction) : Prop where
  names : x.names = seen.zipIdx
  queue : x.queue = queue
  records : x.records = discoveries seen
  nodup : seen.Nodup
  machine : Partly n seen (Drawn n count read) x.machine

theorem edit_bind_of_ok {α β : Type} {e : Edit Char StateId α} {a : α} {d : DFA}
    (h : e.on x.machine = (.ok a, d)) (f : α × Construction → Except Fault β) :
    (x.edit e >>= f) = f (a, { x with machine := d }) := by
  rw [edit, h]
  rfl

/-- The machine with a state for the first set only. -/
theorem partly_start (n : NFA) (first : StateSet) :
    Partly n [first] (Drawn n 0 [])
      { (empty : DFA).withState 0 (hasFinal n first) with initial := some 0 } := by
  have hmem : ∀ i, i ∈ ((empty : DFA).withState 0 (hasFinal n first)).states ↔ i < 1 := by
    intro i
    rw [mem_states_withState, Nat.lt_one_iff, eq_comm]
    exact or_iff_left ExtTreeSet.not_mem_empty
  have hdrawn : ∀ i c, ¬ Drawn n 0 [] i c := fun i c hc =>
    hc.elim (fun h => Nat.not_lt_zero i h.1) fun h => List.not_mem_nil h.2
  refine ⟨(wellFormed_empty.withState _ _).withInitial ((hmem 0).mpr Nat.one_pos), @hmem, rfl,
    fun {i s} hs => ?_, fun _ hc => absurd hc (hdrawn _ _), fun {i j s c} _ => ?_⟩
  · obtain ⟨rfl, rfl⟩ : i = 0 ∧ first = s := by
      rw [List.getElem?_singleton] at hs
      simpa using hs
    show 0 ∈ ((empty : DFA).withState 0 (hasFinal n first)).finals ↔ _
    rw [mem_finals_withState, and_iff_left rfl]
    exact or_iff_left ExtTreeSet.not_mem_empty
  · exact iff_of_false (not_edge_empty i c j) fun hc => hdrawn i c hc.1

/-- Coming upon the first set is not refused. -/
theorem exists_start (n : NFA) (first : StateSet) :
    ∃ x, start n first = .ok x ∧ Underway n [first] 0 [] [first] x := by
  have hfree : (empty : DFA).nextFree .naturals = 0 := StateSet.nextFree_eq fun q => by simp [empty]
  have hnew : (newState (hasFinal n first) .naturals).on (empty : DFA) =
      (.ok 0, (empty : DFA).withState 0 (hasFinal n first)) := by rw [on_newState, hfree]
  have hknown : 0 ∈ ((empty : DFA).withState 0 (hasFinal n first)).states :=
    mem_states_withState.mpr (Or.inl rfl)
  have hinitial := on_setInitial_of_mem hknown
  refine ⟨⟨{ (empty : DFA).withState 0 (hasFinal n first) with initial := some 0 }, [(first, 0)],
    [first], []⟩, ?_, rfl, rfl, rfl, List.nodup_singleton first, partly_start n first⟩
  rw [start, edit_bind_of_ok hnew]
  exact edit_bind_of_ok hinitial _

namespace Underway

/-- A set is known by the place at which it has come up. A new one comes up at the next place. -/
theorem exists_nameOf (h : Underway n seen count read queue x) (hcount : count < seen.length)
    (t : StateSet) : ∃ y, x.nameOf n t = .ok ((seen ++ unseen seen [t]).idxOf t, y) ∧
      Underway n (seen ++ unseen seen [t]) count read (queue ++ unseen seen [t]) y := by
  have hlookup : x.names.lookup t = if t ∈ seen then some (seen.idxOf t) else none := by
    rw [h.names, lookup_zipIdx, Nat.zero_add]
  by_cases ht : t ∈ seen
  · have hnew : unseen seen [t] = [] := by simp [unseen, ht]
    rw [hnew, List.append_nil, List.append_nil]
    exact ⟨x, by rw [nameOf, hlookup, if_pos ht], h⟩
  · have hnew : unseen seen [t] = [t] := by simp [unseen, ht]
    have hfree : x.machine.nextFree .naturals = seen.length :=
      StateSet.nextFree_eq fun _ => h.machine.mem_states
    have hon : (newState (hasFinal n t) .naturals).on x.machine =
        (.ok seen.length, x.machine.withState seen.length (hasFinal n t)) := by
      rw [on_newState, hfree]
    have hplace : (seen ++ [t]).idxOf t = seen.length := by
      rw [List.idxOf_append_of_notMem ht, List.idxOf_cons_self, Nat.add_zero]
    rw [hnew, hplace]
    refine ⟨⟨x.machine.withState seen.length (hasFinal n t), x.names ++ [(t, seen.length)],
      x.queue ++ [t], x.records ++ [.discovered t seen.length]⟩, ?_, ?_⟩
    · rw [nameOf, hlookup, if_neg ht]
      exact edit_bind_of_ok hon _
    · refine ⟨?_, ?_, ?_, ?_, h.machine.withState ht fun c hc => ?_⟩
      · rw [h.names, List.zipIdx_append, Nat.zero_add]
        rfl
      · rw [h.queue]
      · rw [h.records, discoveries_snoc (List.ne_nil_of_length_pos (Nat.zero_lt_of_lt hcount))]
      · refine List.nodup_append.mpr ⟨h.nodup, List.nodup_singleton t, fun a ha b hb hab => ?_⟩
        exact ht (List.mem_singleton.mp hb ▸ hab ▸ ha)
      · rcases hc with hc | hc
        · exact Nat.lt_asymm hcount hc.1
        · exact Nat.ne_of_gt hcount hc.1

/-- A character is read from the set taken up last. -/
theorem exists_readOff (h : Underway n seen count read queue x) (hs : seen[count]? = some s)
    (c : Char) : ∃ y, readOff n s count x c = .ok y ∧
      Underway n (seen ++ unseen seen [move n s c]) count (read ++ [c])
        (queue ++ unseen seen [move n s c]) y := by
  obtain ⟨y, hname, hnamed⟩ := h.exists_nameOf (List.getElem?_eq_some_iff.mp hs).1 (move n s c)
  generalize hseen' : seen ++ unseen seen [move n s c] = seen' at hname hnamed ⊢
  have hs' : seen'[count]? = some s := hseen' ▸ getElem?_append_of_eq_some hs _
  have hmem : move n s c ∈ seen' := by
    rw [← hseen']
    by_cases ht : move n s c ∈ seen <;> simp [ht]
  have hedge := hnamed.machine.withEdge hnamed.nodup hs' hmem
  rw [drawn_snoc] at hedge
  have hon : (DFA.addEdge count (seen'.idxOf (move n s c)) c).on y.machine =
      (.ok ⟨⟩, DFA.withEdge y.machine count (seen'.idxOf (move n s c)) c) := by
    rw [DFA.on_addEdge, if_pos, if_pos]
    · exact hnamed.machine.mem_states.mpr (List.idxOf_lt_length_iff.mpr hmem)
    · exact hnamed.machine.mem_states.mpr (List.getElem?_eq_some_iff.mp hs').1
  refine ⟨{ y with machine := DFA.withEdge y.machine count (seen'.idxOf (move n s c)) c }, ?_,
    hnamed.names, hnamed.queue, hnamed.records, hnamed.nodup, hedge⟩
  rw [readOff, hname]
  exact edit_bind_of_ok hon _

/-- The characters are read one after another. -/
theorem exists_foldlM (h : Underway n seen count read queue x) (hs : seen[count]? = some s)
    (cs : List Char) : ∃ y, cs.foldlM (readOff n s count) x = .ok y ∧
      Underway n (seen ++ unseen seen (cs.map (move n s))) count (read ++ cs)
        (queue ++ unseen seen (cs.map (move n s))) y := by
  induction cs generalizing seen read queue x with
  | nil => exact ⟨x, rfl, by simpa [unseen] using h⟩
  | cons c cs ih =>
      obtain ⟨y, hy, hread⟩ := h.exists_readOff hs c
      obtain ⟨z, hz, hrest⟩ := ih hread (getElem?_append_of_eq_some hs _)
      refine ⟨z, ?_, ?_⟩
      · rw [List.foldlM_cons, hy]
        exact hz
      · rw [List.map_cons, ← List.singleton_append, unseen_append]
        simpa using hrest

/-- A turn lists what is new behind the set taken up. -/
theorem exists_turn (h : Underway n seen count [] (s :: rest) x) (hs : seen[count]? = some s) :
    ∃ y, Turn n x y ∧ Underway n (seen ++ unseen seen (nextSubsets n s)) (count + 1) []
      (rest ++ unseen seen (nextSubsets n s)) y := by
  have htaken : Underway n seen count [] rest { x with queue := rest } :=
    ⟨h.names, rfl, h.records, h.nodup, h.machine⟩
  obtain ⟨y, hy, hread⟩ := htaken.exists_foldlM hs n.alphabet.toList
  have hmem := List.mem_of_getElem? hs
  have hlookup : x.names.lookup s = some count := by
    rw [h.names, lookup_zipIdx, if_pos hmem, Nat.zero_add,
      (idxOf_eq_iff_of_nodup h.nodup hmem).mpr hs]
  refine ⟨y, .take h.queue hlookup hy, ?_⟩
  rw [List.nil_append] at hread
  exact ⟨hread.names, hread.queue, hread.records, hread.nodup, drawn_alphabet ▸ hread.machine⟩

/-- The turns list what the search lists. -/
theorem exists_turns (seen queue : List StateSet) : ∀ done x,
    Underway n seen done.length [] queue x → seen = done ++ queue →
      ∃ y, ReflTransGen (Turn n) x y ∧
        Underway n (done ++ visit (nextSubsets n) (confined_nextSubsets n) seen queue)
          (done ++ visit (nextSubsets n) (confined_nextSubsets n) seen queue).length [] [] y := by
  fun_induction visit (nextSubsets n) (confined_nextSubsets n) seen queue with
  | case1 seen =>
      intro done x h hseen
      rw [List.append_nil] at hseen ⊢
      exact ⟨x, .refl, hseen ▸ h⟩
  | case2 seen s rest new ih =>
      intro done x h hseen
      have hs : seen[done.length]? = some s := by rw [hseen]; simp
      obtain ⟨y, hturn, hnext⟩ := h.exists_turn hs
      have hlength : done.length + 1 = (done ++ [s]).length := by simp
      rw [hlength] at hnext
      obtain ⟨z, hturns, hend⟩ := ih (done ++ [s]) y hnext (by simp [hseen])
      rw [List.append_assoc] at hend
      exact ⟨z, .head hturn hturns, hend⟩

end Underway

/-- In the end the machine is the one over the sets. -/
theorem Underway.determined (h : Underway n seen seen.length [] [] x) :
    Determined n seen x.machine := by
  refine h.machine.determined fun i c hi => ?_
  rw [Drawn, or_iff_left fun hlast => List.not_mem_nil hlast.2, and_iff_right hi]

/-- The turns end, and they come upon the sets that are listed. -/
theorem exists_end (n : NFA) (first : StateSet) :
    ∃ x y, start n first = .ok x ∧ ReflTransGen (Turn n) x y ∧
      Underway n (subsets n first) (subsets n first).length [] [] y := by
  obtain ⟨x, hx, hunderway⟩ := exists_start n first
  obtain ⟨y, hturns, hend⟩ := Underway.exists_turns [first] [first] [] x hunderway rfl
  exact ⟨x, y, hx, hturns, hend⟩

/-- What a turn leaves is settled. -/
theorem rightUnique_turn (n : NFA) : Relator.RightUnique (Turn n) := by
  intro x y z hy hz
  obtain ⟨hqueue, hlookup, hread⟩ := hy
  obtain ⟨hqueue', hlookup', hread'⟩ := hz
  rw [hqueue] at hqueue'
  obtain ⟨rfl, rfl⟩ := List.cons.inj hqueue'
  obtain rfl := Option.some.inj (hlookup.symm.trans hlookup')
  exact Except.ok.inj (hread.symm.trans hread')

theorem not_turn_of_queue_nil {y : Construction} (h : x.queue = []) : ¬ Turn n x y := by
  rintro ⟨hqueue, -, -⟩
  exact List.cons_ne_nil _ _ (hqueue.symm.trans h)

/-- However many turns have been made, the others lead to the end. -/
theorem turns_of_turns {y z : Construction} (hy : ReflTransGen (Turn n) x y) (hend : y.queue = [])
    (hz : ReflTransGen (Turn n) x z) : ReflTransGen (Turn n) z y := by
  rcases ReflTransGen.total_of_right_unique (rightUnique_turn n) hz hy with h | h
  · exact h
  · rcases ReflTransGen.cases_head h with rfl | ⟨w, hw, -⟩
    · exact .refl
    · exact absurd hw (not_turn_of_queue_nil hend)

end Construction

end NFA

end RegexMachine
