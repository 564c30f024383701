import RegexMachine.Proofs.NFA.Bridge

/-!
# RegexMachine.Proofs.NFA.Combine

**What the combinations of machines accept.** Appending a machine gives the words made of a word of
the first and a word of the second, adding a machine as an alternative gives the words of either,
and repeating a machine gives the words made of several of its words in a row. Nothing is assumed of
the shape of the machines: there may be edges back into a start state and out of final states.

For each combination there is a structure that says what is built before the states are numbered
anew, and a lemma that it is built whenever there are start states and, for a second machine, room.
Otherwise the combination is refused and the machine is left as it was. The new states of `Forked`
and `Wrapped` may be states that were there; that they are not is what `United` and `Looped` add,
and what the accepted words depend on.
-/

namespace RegexMachine

open Std

namespace NFA

open Automaton

variable {a b m : NFA} {w : Word}

/-! ### One machine behind the other -/

/-- `m` is `a` with `b` behind it. -/
structure Concatenated (a b m : NFA) : Prop where
  left : a.WellFormed
  right : b.WellFormed
  disjoint : Disjoint a b
  wellFormed : m.WellFormed
  mem_states {q : StateId} : q ∈ m.states ↔ q ∈ a.states ∨ q ∈ b.states
  initial : m.initial = a.initial
  finals : m.finals = b.finals
  edge {p : StateId} {k : Symbol} {q : StateId} : m.Edge p k q ↔
    (a.Edge p k q ∨ b.Edge p k q) ∨ (k = .epsilon ∧ p ∈ a.finals ∧ b.initial = some q)

namespace Concatenated

theorem part_left (h : Concatenated a b m) : Part a (fun q => b.initial = some q) m := by
  intro p hp k q
  have hnot : ¬ b.Edge p k q := fun hedge => h.disjoint p hp (h.right.tail_mem hedge)
  rw [h.edge, or_iff_left hnot, and_left_comm]

theorem part_right (h : Concatenated a b m) : Part b (fun _ => False) m := by
  intro p hp k q
  have hnot : ¬ a.Edge p k q := fun hedge => h.disjoint p (h.left.tail_mem hedge) hp
  have hfinal : p ∉ a.finals := fun hfinal => h.disjoint p (h.left.finals_mem hfinal) hp
  rw [h.edge, or_iff_right hnot]
  simp [hfinal]

theorem accepts_iff (h : Concatenated a b m) :
    m.Accepts w ↔ ∃ u v, w = u ++ v ∧ a.Accepts u ∧ b.Accepts v := by
  constructor
  · intro hacc
    obtain ⟨p, hp, r, hr, hpath⟩ := hacc
    rw [h.initial] at hp
    rw [h.finals] at hr
    rcases h.part_left.path_cases h.left (h.left.initial_mem hp) hpath with
      hinside | ⟨u, v, rfl, q, hq, hu, s, hs, hv⟩
    -- A final state is one of `b`, where no path inside `a` can end.
    · have hra : r ∈ a.states := hinside.mem_states h.left (h.left.initial_mem hp)
      exact absurd (h.right.finals_mem hr) (h.disjoint r hra)
    · have hsb : s ∈ b.states := h.right.initial_mem hs
      exact ⟨u, v, rfl, ⟨p, hp, q, hq, hu⟩,
        ⟨s, hs, r, hr, (h.part_right.path_iff h.right hsb).mp hv⟩⟩
  · intro hacc
    obtain ⟨u, v, rfl, ⟨p, hp, q, hq, hu⟩, ⟨s, hs, r, hr, hv⟩⟩ := hacc
    have hexit : m.Path q [] s := h.part_left.path_exit h.left hq hs
    refine ⟨p, h.initial.trans hp, r, h.finals ▸ hr, ?_⟩
    exact (h.part_left.path h.left hu).append (hexit.append (h.part_right.path h.right hv))

theorem alphabet_eq (h : Concatenated a b m) : m.alphabet = a.alphabet ∪ b.alphabet :=
  alphabet_eq_of_edge_iff (h.left.merge h.right h.disjoint) h.wellFormed fun _ _ _ => by
    rw [h.edge, edge_merge h.left h.right h.disjoint]

theorem stateCount_eq (h : Concatenated a b m) : m.stateCount = a.stateCount + b.stateCount :=
  StateSet.size_eq_add h.disjoint fun _ => h.mem_states

end Concatenated

/-- A machine with a start state is appended to another one without being refused, if there is room
for it. -/
theorem exists_concat (ha : a.WellFormed) (hb : b.WellFormed) {ids : IdSpace} {p q : StateId}
    (hp : a.initial = some p) (hq : b.initial = some q) (hroom : a.HasRoom b ids) :
    ∃ m, (concat b ids).on a = (.ok ⟨⟩, m.renumber) ∧ Concatenated a (b.behind a ids) m := by
  have hmoved : (b.behind a ids).WellFormed := hb.shift ids _
  have hstart := initial_behind hq a ids
  obtain ⟨n, hon, hn⟩ := exists_bridged_each (ha.merge hmoved hroom)
    (fun r hr => mem_states_merge.mpr (Or.inl (ha.finals_mem hr)))
    (mem_states_merge.mpr (Or.inr (hmoved.initial_mem hstart)))
  have hfinals : ∀ r ∈ (b.behind a ids).finals, r ∈ n.states := fun r hr => by
    rw [hn.same.states]
    exact mem_states_merge.mpr (Or.inr (hmoved.finals_mem hr))
  have hmem : p ∈ n.states := by
    rw [hn.same.states]
    exact mem_states_merge.mpr (Or.inl (ha.initial_mem hp))
  have hset : (setInitial p).on { n with finals := (b.behind a ids).finals } =
      (.ok ⟨⟩, { n with finals := (b.behind a ids).finals, initial := some p }) :=
    on_setInitial_of_mem hmem
  refine ⟨_, ?_, ha, hmoved, hroom, (hn.wellFormed.withFinals hfinals).withInitial hmem, ?_,
    hp.symm, rfl, ?_⟩
  · rw [concat, Edit.on_bind_of_ok (on_requireInitial_of_initial hp),
      Edit.on_look_bind, Edit.on_bind_of_ok (on_takeIn hstart hroom), Edit.on_bind_of_ok hon,
      setFinals, Edit.on_change_bind, Edit.on_bind_of_ok hset]
    rfl
  · intro r
    exact (congrArg (r ∈ ·) hn.same.states).to_iff.trans mem_states_merge
  · intro r k s
    refine ((edge_of_edges_eq rfl r k s).trans hn.edge).trans ?_
    rw [edge_merge ha hmoved hroom, hstart, Option.some.injEq]

/-! ### Alternatives -/

/-- `m` is `a` and `b` side by side, with empty moves into both from the start state `fork`. -/
structure Forked (a b : NFA) (fork : StateId) (m : NFA) : Prop where
  left : a.WellFormed
  right : b.WellFormed
  disjoint : Disjoint a b
  wellFormed : m.WellFormed
  mem_states {q : StateId} : q ∈ m.states ↔ fork = q ∨ q ∈ a.states ∨ q ∈ b.states
  initial : m.initial = some fork
  mem_finals {q : StateId} : q ∈ m.finals ↔ q ∈ a.finals ∨ q ∈ b.finals
  edge {p : StateId} {k : Symbol} {q : StateId} : m.Edge p k q ↔
    (a.Edge p k q ∨ b.Edge p k q) ∨
      (k = .epsilon ∧ fork = p ∧ (a.initial = some q ∨ b.initial = some q))

namespace Forked

variable {fork : StateId}

theorem alphabet_eq (h : Forked a b fork m) : m.alphabet = a.alphabet ∪ b.alphabet :=
  alphabet_eq_of_edge_iff (h.left.merge h.right h.disjoint) h.wellFormed fun _ _ _ => by
    rw [h.edge, edge_merge h.left h.right h.disjoint]

/-- One state is added exactly if the start state is new. -/
theorem stateCount_eq_iff (h : Forked a b fork m) :
    m.stateCount = a.stateCount + b.stateCount + 1 ↔ fork ∉ a.states ∧ fork ∉ b.states := by
  have hboth : (a.merge b).states.size = a.stateCount + b.stateCount :=
    StateSet.size_eq_add h.disjoint fun _ => mem_states_merge
  have hmem : ∀ q, q ∈ m.states ↔ fork = q ∨ q ∈ (a.merge b).states := fun q => by
    rw [h.mem_states, mem_states_merge]
  rw [stateCount, ← hboth, StateSet.size_eq_add_one_iff hmem, mem_states_merge, not_or]

/-- No final state is lost, and no two come to be one. -/
theorem size_finals (h : Forked a b fork m) : m.finals.size = a.finals.size + b.finals.size :=
  StateSet.size_eq_add
    (fun _ ha hb => h.disjoint _ (h.left.finals_mem ha) (h.right.finals_mem hb))
    fun _ => h.mem_finals

end Forked

/-- `m` is `a` and `b` side by side behind the new start state `fork`. -/
structure United (a b : NFA) (fork : StateId) (m : NFA) : Prop extends Forked a b fork m where
  fresh : fork ∉ a.states ∧ fork ∉ b.states

namespace United

variable {fork : StateId}

theorem part_left (h : United a b fork m) : Part a (fun _ => False) m := by
  intro p hp k q
  have hnot : ¬ b.Edge p k q := fun hedge => h.disjoint p hp (h.right.tail_mem hedge)
  have hfork : fork ≠ p := fun heq => h.fresh.1 (heq ▸ hp)
  rw [h.edge, or_iff_left hnot]
  simp [hfork]

theorem part_right (h : United a b fork m) : Part b (fun _ => False) m := by
  intro p hp k q
  have hnot : ¬ a.Edge p k q := fun hedge => h.disjoint p (h.left.tail_mem hedge) hp
  have hfork : fork ≠ p := fun heq => h.fresh.2 (heq ▸ hp)
  rw [h.edge, or_iff_right hnot]
  simp [hfork]

/-- The first move leads into one of the two machines. -/
theorem path_fork (h : United a b fork m) {r : StateId} (hr : r ≠ fork) (hpath : m.Path fork w r) :
    ∃ q, (a.initial = some q ∨ b.initial = some q) ∧ m.Path q w r := by
  cases hpath with
  | nil => exact absurd rfl hr
  | @cons _ q _ k v hedge hpath =>
      rcases h.edge.mp hedge with (hedge | hedge) | ⟨rfl, -, hq⟩
      · exact absurd (h.left.tail_mem hedge) h.fresh.1
      · exact absurd (h.right.tail_mem hedge) h.fresh.2
      · exact ⟨q, hq, hpath⟩

theorem accepts_iff (h : United a b fork m) : m.Accepts w ↔ a.Accepts w ∨ b.Accepts w := by
  constructor
  · intro hacc
    obtain ⟨p, hp, r, hr, hpath⟩ := hacc
    cases h.initial.symm.trans hp
    have hne : r ≠ fork := by
      intro heq
      rcases h.mem_finals.mp hr with hr | hr
      · exact h.fresh.1 (heq ▸ h.left.finals_mem hr)
      · exact h.fresh.2 (heq ▸ h.right.finals_mem hr)
    obtain ⟨q, hq, hpath⟩ := h.path_fork hne hpath
    rcases hq with hq | hq
    -- The path stays in the machine it has entered, so that is where its end is final.
    · have hinside := (h.part_left.path_iff h.left (h.left.initial_mem hq)).mp hpath
      have hra : r ∈ a.states := hinside.mem_states h.left (h.left.initial_mem hq)
      have hfinal := (h.mem_finals.mp hr).resolve_right fun hb =>
        h.disjoint r hra (h.right.finals_mem hb)
      exact Or.inl ⟨q, hq, r, hfinal, hinside⟩
    · have hinside := (h.part_right.path_iff h.right (h.right.initial_mem hq)).mp hpath
      have hrb : r ∈ b.states := hinside.mem_states h.right (h.right.initial_mem hq)
      have hfinal := (h.mem_finals.mp hr).resolve_left fun ha =>
        h.disjoint r (h.left.finals_mem ha) hrb
      exact Or.inr ⟨q, hq, r, hfinal, hinside⟩
  · intro hacc
    have hmove : ∀ {q}, a.initial = some q ∨ b.initial = some q → m.Path fork [] q := fun hq =>
      .single (h.edge.mpr (Or.inr ⟨rfl, rfl, hq⟩))
    rcases hacc with ⟨q, hq, r, hr, hpath⟩ | ⟨q, hq, r, hr, hpath⟩
    · exact ⟨fork, h.initial, r, h.mem_finals.mpr (Or.inl hr),
        (hmove (Or.inl hq)).append (h.part_left.path h.left hpath)⟩
    · exact ⟨fork, h.initial, r, h.mem_finals.mpr (Or.inr hr),
        (hmove (Or.inr hq)).append (h.part_right.path h.right hpath)⟩

theorem stateCount_eq (h : United a b fork m) : m.stateCount = a.stateCount + b.stateCount + 1 :=
  h.stateCount_eq_iff.mpr h.fresh

end United

/-- A new state, or one that had its name, with empty moves to two states. -/
theorem exists_forked {l : NFA} (hl : l.WellFormed) (ids : IdSpace) {p q : StateId}
    (hp : p ∈ l.states) (hq : q ∈ l.states) : ∃ fork n, (fork ∉ l.states ↔ l.HasFree ids) ∧
      Bridged (l.withState fork false) (fun r s => fork = r ∧ (p = s ∨ q = s)) n ∧
      ∀ rest : StateId → Edit Symbol StateSet Unit,
        (do
          let fork ← newState false ids
          addEdge fork p .epsilon
          addEdge fork q .epsilon
          rest fork).on l = (rest fork).on n := by
  generalize hname : l.nextFree ids = fork
  have hfork : fork ∈ (l.withState fork false).states := mem_states_withState.mpr (Or.inl rfl)
  obtain ⟨n₁, hon₁, hn₁⟩ := exists_bridged (hl.withState fork false) fork p hfork
    (mem_states_withState.mpr (Or.inr hp))
  obtain ⟨n₂, hon₂, hn₂⟩ := exists_bridged hn₁.wellFormed fork q
    (hn₁.same.states ▸ hfork) (hn₁.same.states ▸ mem_states_withState.mpr (Or.inr hq))
  refine ⟨fork, n₂, hname ▸ Iff.rfl, ?_, fun rest => ?_⟩
  · exact (hn₁.trans hn₂).of_iff fun r s => and_or_left.symm
  · rw [Edit.on_bind_of_ok (on_newState false ids l), hname, Edit.on_bind_of_ok hon₁,
      Edit.on_bind_of_ok hon₂]

/-- A machine with a start state is added as an alternative without being refused, if there is room
for it. The start state is new exactly if there is a free name for it behind both machines. -/
theorem exists_union (ha : a.WellFormed) (hb : b.WellFormed) {ids : IdSpace} {p q : StateId}
    (hp : a.initial = some p) (hq : b.initial = some q) (hroom : a.HasRoom b ids) :
    ∃ m fork, (union b ids).on a = (.ok ⟨⟩, m.renumber) ∧ Forked a (b.behind a ids) fork m ∧
      ((fork ∉ a.states ∧ fork ∉ (b.behind a ids).states) ↔
        (a.merge (b.behind a ids)).HasFree ids) := by
  have hmoved : (b.behind a ids).WellFormed := hb.shift ids _
  have hstart := initial_behind hq a ids
  obtain ⟨fork, n, hfresh, hn, hfork⟩ := exists_forked (ha.merge hmoved hroom) ids
    (mem_states_merge.mpr (Or.inl (ha.initial_mem hp)))
    (mem_states_merge.mpr (Or.inr (hmoved.initial_mem hstart)))
  have hmem : fork ∈ n.states := by
    rw [hn.same.states]
    exact mem_states_withState.mpr (Or.inl rfl)
  rw [mem_states_merge, not_or] at hfresh
  refine ⟨_, fork, ?_, ⟨ha, hmoved, hroom, hn.wellFormed.withInitial hmem, ?_, rfl, ?_, ?_⟩, hfresh⟩
  · rw [union, Edit.on_bind_of_ok (on_requireInitial_of_initial hp),
      Edit.on_bind_of_ok (on_takeIn hstart hroom)]
    refine (hfork fun _ => _).trans ?_
    rw [Edit.on_bind_of_ok (on_setInitial_of_mem hmem)]
    rfl
  · intro r
    refine (congrArg (r ∈ ·) hn.same.states).to_iff.trans ?_
    rw [mem_states_withState, mem_states_merge]
  · intro r
    refine (congrArg (r ∈ ·) hn.same.finals).to_iff.trans ?_
    rw [mem_finals_withState, mem_finals_merge]
    simp
  · intro r k s
    have hold : ((a.merge (b.behind a ids)).withState fork false).Edge r k s ↔
        a.Edge r k s ∨ (b.behind a ids).Edge r k s :=
      (edge_of_edges_eq rfl r k s).trans (edge_merge ha hmoved hroom)
    refine ((edge_of_edges_eq rfl r k s).trans hn.edge).trans ?_
    rw [hold, hp, hstart, Option.some.injEq, Option.some.injEq]

/-! ### Repetition -/

/-- `m` is `a` between the start state `entry` and the only final state `exit`, with a way back. -/
structure Wrapped (skip : Bool) (a : NFA) (entry exit : StateId) (m : NFA) : Prop where
  inner : a.WellFormed
  wellFormed : m.WellFormed
  mem_states {q : StateId} : q ∈ m.states ↔ exit = q ∨ entry = q ∨ q ∈ a.states
  initial : m.initial = some entry
  mem_finals {q : StateId} : q ∈ m.finals ↔ exit = q
  edge {p : StateId} {k : Symbol} {q : StateId} : m.Edge p k q ↔
    a.Edge p k q ∨ (k = .epsilon ∧
      ((entry = p ∧ (a.initial = some q ∨ (skip = true ∧ exit = q))) ∨
        (p ∈ a.finals ∧ (exit = q ∨ a.initial = some q))))

namespace Wrapped

variable {skip : Bool} {entry exit : StateId}

theorem alphabet_eq (h : Wrapped skip a entry exit m) : m.alphabet = a.alphabet :=
  alphabet_eq_of_edge_iff h.inner h.wellFormed fun _ _ _ => h.edge

/-- Two states are added exactly if both are new. -/
theorem stateCount_eq_iff (h : Wrapped skip a entry exit m) : m.stateCount = a.stateCount + 2 ↔
    entry ∉ a.states ∧ exit ∉ a.states ∧ entry ≠ exit :=
  StateSet.size_eq_add_two_iff fun _ => h.mem_states

theorem size_finals (h : Wrapped skip a entry exit m) : m.finals.size = 1 :=
  StateSet.size_eq_length (List.nodup_singleton exit) fun q => by
    rw [h.mem_finals, List.mem_singleton, eq_comm]

end Wrapped

/-- `m` is `a` between the new states `entry` and `exit`, with a way back. -/
structure Looped (skip : Bool) (a : NFA) (entry exit : StateId) (m : NFA) : Prop
    extends Wrapped skip a entry exit m where
  fresh : entry ∉ a.states ∧ exit ∉ a.states ∧ entry ≠ exit

namespace Looped

variable {skip : Bool} {entry exit : StateId}

theorem part_inner (h : Looped skip a entry exit m) :
    Part a (fun q => exit = q ∨ a.initial = some q) m := by
  intro p hp k q
  have hentry : entry ≠ p := fun heq => h.fresh.1 (heq ▸ hp)
  rw [h.edge, and_left_comm]
  simp [hentry]

/-- Nothing leads out of the final state. -/
theorem not_edge_exit (h : Looped skip a entry exit m) (k : Symbol) (q : StateId) :
    ¬ m.Edge exit k q := by
  intro hedge
  rcases h.edge.mp hedge with hedge | ⟨-, ⟨heq, -⟩ | ⟨hfinal, -⟩⟩
  · exact h.fresh.2.1 (h.inner.tail_mem hedge)
  · exact h.fresh.2.2 heq
  · exact h.fresh.2.1 (h.inner.finals_mem hfinal)

theorem eq_nil_of_path_exit (h : Looped skip a entry exit m) {r : StateId}
    (hpath : m.Path exit w r) : w = [] := by
  cases hpath with
  | nil => rfl
  | cons hedge _ => exact absurd hedge (h.not_edge_exit _ _)

/-- A path from inside to the exit finishes one word of `a`, and then goes around any number of
times. -/
theorem path_inner (h : Looped skip a entry exit m) {p : StateId} (hp : p ∈ a.states)
    (hpath : m.Path p w exit) : ∃ u ws, w = u ++ List.flatten ws ∧
      (∃ q ∈ a.finals, a.Path p u q) ∧ ∀ v ∈ ws, a.Accepts v := by
  generalize hr : exit = r at hpath
  induction hpath with
  | nil => exact absurd (hr ▸ hp) h.fresh.2.1
  | @cons p s r k w hedge hpath ih =>
      subst hr
      rcases (h.part_inner p hp k s).mp hedge with hedge | ⟨hfinal, rfl, rfl | hs⟩
      · obtain ⟨u, ws, rfl, ⟨q, hq, hu⟩, hws⟩ := ih (h.inner.head_mem hedge) rfl
        exact ⟨_, ws, (List.append_assoc _ _ _).symm, ⟨q, hq, .cons hedge hu⟩, hws⟩
      · rw [h.eq_nil_of_path_exit hpath]
        exact ⟨[], [], rfl, ⟨p, hfinal, .nil p⟩, by simp⟩
      · obtain ⟨u, ws, rfl, ⟨q, hq, hu⟩, hws⟩ := ih (h.inner.initial_mem hs) rfl
        refine ⟨[], u :: ws, rfl, ⟨p, hfinal, .nil p⟩, fun v hv => ?_⟩
        rcases List.mem_cons.mp hv with rfl | hv
        · exact ⟨s, hs, q, hq, hu⟩
        · exact hws v hv

/-- One word after the other leads from the old start state to the exit. -/
theorem path_of_words (h : Looped skip a entry exit m) {u : Word} {ws : List Word}
    (hu : a.Accepts u) (hws : ∀ v ∈ ws, a.Accepts v) :
    ∃ p, a.initial = some p ∧ m.Path p (u ++ ws.flatten) exit := by
  induction ws generalizing u with
  | nil =>
      obtain ⟨p, hp, q, hq, hpath⟩ := hu
      have hexit : m.Path q [] exit := h.part_inner.path_exit h.inner hq (Or.inl rfl)
      exact ⟨p, hp, (h.part_inner.path h.inner hpath).append hexit⟩
  | cons v ws ih =>
      obtain ⟨p, hp, q, hq, hpath⟩ := hu
      obtain ⟨hv, hws⟩ := List.forall_mem_cons.mp hws
      obtain ⟨p', hp', hrest⟩ := ih hv hws
      have hback : m.Path q [] p' := h.part_inner.path_exit h.inner hq (Or.inr hp')
      exact ⟨p, hp, (h.part_inner.path h.inner hpath).append (hback.append hrest)⟩

theorem accepts_iff (h : Looped skip a entry exit m) : m.Accepts w ↔
    ∃ ws : List Word, (∀ v ∈ ws, a.Accepts v) ∧ (skip = true ∨ ws ≠ []) ∧ ws.flatten = w := by
  have hmove : ∀ {q}, a.initial = some q ∨ (skip = true ∧ exit = q) → m.Path entry [] q :=
    fun hq => .single (h.edge.mpr (Or.inr ⟨rfl, Or.inl ⟨rfl, hq⟩⟩))
  constructor
  · intro hacc
    obtain ⟨p, hp, r, hr, hpath⟩ := hacc
    cases h.initial.symm.trans hp
    cases h.mem_finals.mp hr
    -- The first move goes into the inner machine, or straight out if that is allowed.
    cases hpath with
    | nil => exact absurd rfl h.fresh.2.2
    | @cons _ s _ k w hedge hpath =>
        rcases h.edge.mp hedge with hedge | ⟨rfl, ⟨-, hs⟩ | ⟨hfinal, -⟩⟩
        · exact absurd (h.inner.tail_mem hedge) h.fresh.1
        · rcases hs with hs | ⟨hskip, rfl⟩
          · obtain ⟨u, ws, rfl, ⟨q, hq, hu⟩, hws⟩ := h.path_inner (h.inner.initial_mem hs) hpath
            refine ⟨u :: ws, fun v hv => ?_, Or.inr (List.cons_ne_nil _ _), rfl⟩
            rcases List.mem_cons.mp hv with rfl | hv
            · exact ⟨s, hs, q, hq, hu⟩
            · exact hws v hv
          · rw [h.eq_nil_of_path_exit hpath]
            exact ⟨[], by simp, Or.inl hskip, rfl⟩
        · exact absurd (h.inner.finals_mem hfinal) h.fresh.1
  · intro hacc
    obtain ⟨ws, hws, hsome, rfl⟩ := hacc
    have hexit : exit ∈ m.finals := h.mem_finals.mpr rfl
    cases ws with
    | nil =>
        have hskip : skip = true := hsome.resolve_right fun hne => hne rfl
        exact ⟨entry, h.initial, exit, hexit, hmove (Or.inr ⟨hskip, rfl⟩)⟩
    | cons u ws =>
        obtain ⟨hu, hws⟩ := List.forall_mem_cons.mp hws
        obtain ⟨p, hp, hpath⟩ := h.path_of_words hu hws
        exact ⟨entry, h.initial, exit, hexit, (hmove (Or.inl hp)).append hpath⟩

theorem stateCount_eq (h : Looped skip a entry exit m) : m.stateCount = a.stateCount + 2 :=
  h.stateCount_eq_iff.mpr h.fresh

end Looped

/-- The empty move past a repeated machine, if it is wanted, and what comes behind it. -/
theorem exists_bridged_skip (ha : a.WellFormed) (skip : Bool) {entry exit : StateId}
    (hentry : entry ∈ a.states) (hexit : exit ∈ a.states) :
    ∃ n, Bridged a (fun p q => skip = true ∧ entry = p ∧ exit = q) n ∧
      ∀ rest : Unit → Edit Symbol StateSet Unit,
        (if skip = true then addEdge entry exit .epsilon >>= rest else rest ⟨⟩).on a =
          (rest ⟨⟩).on n := by
  cases skip with
  | false => exact ⟨a, (Bridged.refl ha).of_iff (by simp), fun _ => rfl⟩
  | true =>
      obtain ⟨n, hon, hn⟩ := exists_bridged ha entry exit hentry hexit
      exact ⟨n, hn.of_iff (by simp), fun rest => Edit.on_bind_of_ok hon rest⟩

/-- The empty moves from the final states out and back. -/
theorem exists_bridged_back (hm : m.WellFormed) {finals : StateSet} {exit start : StateId}
    (hfinals : ∀ q ∈ finals, q ∈ m.states) (hexit : exit ∈ m.states) (hstart : start ∈ m.states) :
    ∃ n, (finals.toList.forM fun q => do
        addEdge q exit .epsilon
        addEdge q start .epsilon).on m = (.ok ⟨⟩, n) ∧
      Bridged m (fun p q => p ∈ finals ∧ (exit = q ∨ start = q)) n := by
  obtain ⟨n, hon, hn⟩ := exists_bridged_forM hm finals.toList
    (fun q p r => (q = p ∧ exit = r) ∨ (q = p ∧ start = r))
    (f := fun q => do
      addEdge q exit .epsilon
      addEdge q start .epsilon) (by
      intro q hq n hn hstates
      have hqn : q ∈ n.states := hstates ▸ hfinals q (ExtTreeSet.mem_toList.mp hq)
      obtain ⟨k, hk, hb⟩ := exists_bridged hn q exit hqn (hstates ▸ hexit)
      obtain ⟨k', hk', hb'⟩ := exists_bridged hb.wellFormed q start (hb.same.states ▸ hqn)
        (hb.same.states ▸ hstates ▸ hstart)
      exact ⟨k', (Edit.on_bind_of_ok hk _).trans hk', hb.trans hb'⟩)
  refine ⟨n, hon, hn.of_iff fun p r => ⟨fun h => ?_, fun h => ?_⟩⟩
  · obtain ⟨q, hq, ⟨rfl, hr⟩ | ⟨rfl, hr⟩⟩ := h
    · exact ⟨ExtTreeSet.mem_toList.mp hq, Or.inl hr⟩
    · exact ⟨ExtTreeSet.mem_toList.mp hq, Or.inr hr⟩
  · exact ⟨p, ExtTreeSet.mem_toList.mpr h.1, h.2.imp (fun hr => ⟨rfl, hr⟩) fun hr => ⟨rfl, hr⟩⟩

/-- There are two free names in a row behind the last state. -/
def HasTwoFree (a : NFA) (ids : IdSpace) : Prop :=
  a.HasFree ids ∧ (a.withState (a.nextFree ids) false).HasFree ids

instance (a : NFA) (ids : IdSpace) : Decidable (a.HasTwoFree ids) :=
  inferInstanceAs (Decidable (_ ∧ _))

theorem hasTwoFree_naturals (a : NFA) : a.HasTwoFree .naturals :=
  ⟨hasFree_naturals _, hasFree_naturals _⟩

/-- `l` is `a` with the states `entry` and `exit` added, and no edges. -/
structure Framed (a : NFA) (entry exit : StateId) (l : NFA) : Prop where
  wellFormed : l.WellFormed
  mem_states {q : StateId} : q ∈ l.states ↔ exit = q ∨ entry = q ∨ q ∈ a.states
  edge {p : StateId} {k : Symbol} {q : StateId} : l.Edge p k q ↔ a.Edge p k q

theorem exists_framed (ha : a.WellFormed) (ids : IdSpace) : ∃ entry exit l,
    Framed a entry exit l ∧
    ((entry ∉ a.states ∧ exit ∉ a.states ∧ entry ≠ exit) ↔ a.HasTwoFree ids) ∧
    ∀ rest : StateId → StateId → Edit Symbol StateSet Unit,
      (do let entry ← newState false ids; let exit ← newState false ids; rest entry exit).on a =
        (rest entry exit).on l := by
  generalize hentry : a.nextFree ids = entry
  generalize hb : a.withState entry false = b
  have hbstates : ∀ r, r ∈ b.states ↔ entry = r ∨ r ∈ a.states := fun r => by
    rw [← hb, mem_states_withState]
  generalize hexit : b.nextFree ids = exit
  refine ⟨entry, exit, b.withState exit false, ⟨?_, ?_, ?_⟩, ?_, fun rest => ?_⟩
  · exact hb ▸ (ha.withState entry false).withState exit false
  · intro r
    rw [mem_states_withState, hbstates]
  · intro p k q
    rw [← hb]
    exact edge_of_edges_eq rfl p k q
  · rw [HasTwoFree, HasFree, HasFree, hentry, hb, hexit, hbstates, not_or,
      and_comm (a := exit ∉ a.states)]
  · rw [Edit.on_bind_of_ok (on_newState false ids a), hentry, hb,
      Edit.on_bind_of_ok (on_newState false ids b), hexit]

/-- A machine with a start state is repeated without being refused. The start state and the final
state are new exactly if there are free names for both. -/
theorem exists_loop (ha : a.WellFormed) (skip : Bool) (ids : IdSpace) {p : StateId}
    (hp : a.initial = some p) :
    ∃ m entry exit, (loop skip ids).on a = (.ok ⟨⟩, m.renumber) ∧ Wrapped skip a entry exit m ∧
      ((entry ∉ a.states ∧ exit ∉ a.states ∧ entry ≠ exit) ↔ a.HasTwoFree ids) := by
  obtain ⟨entry, exit, l, hl, hfresh, honl⟩ := exists_framed ha ids
  have hpl : p ∈ l.states := hl.mem_states.mpr (Or.inr (Or.inr (ha.initial_mem hp)))
  have hentryl : entry ∈ l.states := hl.mem_states.mpr (Or.inr (Or.inl rfl))
  have hexitl : exit ∈ l.states := hl.mem_states.mpr (Or.inl rfl)
  obtain ⟨n₁, hon₁, hn₁⟩ := exists_bridged hl.wellFormed entry p hentryl hpl
  obtain ⟨n₂, hn₂, hon₂⟩ := exists_bridged_skip hn₁.wellFormed skip
    (hn₁.same.states ▸ hentryl) (hn₁.same.states ▸ hexitl)
  -- Empty moves leave the states as they are, so what is connected next is still there.
  have hn₁₂ := hn₁.trans hn₂
  obtain ⟨n₃, hon₃, hn₃⟩ := exists_bridged_back hn₂.wellFormed
    (fun q hq => hn₁₂.same.states ▸ hl.mem_states.mpr (Or.inr (Or.inr (ha.finals_mem hq))))
    (hn₁₂.same.states ▸ hexitl) (hn₁₂.same.states ▸ hpl)
  have hn := hn₁₂.trans hn₃
  have hentryn : entry ∈ n₃.states := hn.same.states ▸ hentryl
  have hexitn : exit ∈ n₃.states := hn.same.states ▸ hexitl
  have hset : (setInitial entry).on { n₃ with finals := {exit} } =
      (.ok ⟨⟩, { n₃ with finals := {exit}, initial := some entry }) :=
    on_setInitial_of_mem hentryn
  have hfinals : ∀ r ∈ ({exit} : StateSet), r ∈ n₃.states := fun r hr =>
    StateSet.mem_singleton.mp hr ▸ hexitn
  refine ⟨_, entry, exit, ?_, ⟨ha, (hn.wellFormed.withFinals hfinals).withInitial hentryn, ?_, rfl,
    StateSet.mem_singleton, ?_⟩, hfresh⟩
  · rw [loop, Edit.on_bind_of_ok (on_requireInitial_of_initial hp), Edit.on_look_bind]
    refine (honl fun _ _ => _).trans ?_
    rw [Edit.on_bind_of_ok hon₁]
    refine (hon₂ fun _ => _).trans ?_
    rw [Edit.on_bind_of_ok hon₃, setFinals, Edit.on_change_bind, Edit.on_bind_of_ok hset]
    rfl
  · intro r
    exact (congrArg (r ∈ ·) hn.same.states).to_iff.trans hl.mem_states
  · intro r k s
    refine ((edge_of_edges_eq rfl r k s).trans hn.edge).trans ?_
    rw [hl.edge, hp]
    simp only [Option.some.injEq, and_left_comm (a := skip = true), ← and_or_left]

/-! ### Refusals

Without a start state nothing is built, and without room nothing is taken in. Otherwise the numbered
machine is well formed, so no combination ever leaves an ill-formed machine. -/

section Refusals

variable {ids : IdSpace} {p q clash : StateId}

theorem concat_refused (h : a.initial = none ∨ b.initial = none) :
    (concat b ids).on a = (.error .missingInitialState, a) := by
  cases hp : a.initial with
  | none => rw [concat, Edit.on_bind_of_error (on_requireInitial_of_no_initial hp)]
  | some p =>
      have hb : b.initial = none := h.resolve_left (by simp [hp])
      rw [concat, Edit.on_bind_of_ok (on_requireInitial_of_initial hp), Edit.on_look_bind,
        Edit.on_bind_of_error (on_takeIn_of_no_start (initial_behind_of_none hb a ids))]

theorem union_refused (h : a.initial = none ∨ b.initial = none) :
    (union b ids).on a = (.error .missingInitialState, a) := by
  cases hp : a.initial with
  | none => rw [union, Edit.on_bind_of_error (on_requireInitial_of_no_initial hp)]
  | some p =>
      have hb : b.initial = none := h.resolve_left (by simp [hp])
      rw [union, Edit.on_bind_of_ok (on_requireInitial_of_initial hp),
        Edit.on_bind_of_error (on_takeIn_of_no_start (initial_behind_of_none hb a ids))]

theorem loop_refused (h : a.initial = none) (skip : Bool) :
    (loop skip ids).on a = (.error .missingInitialState, a) := by
  rw [loop, Edit.on_bind_of_error (on_requireInitial_of_no_initial h)]

theorem concat_of_clash (hp : a.initial = some p) (hq : b.initial = some q)
    (h : a.clash? b ids = some clash) :
    (concat b ids).on a = (.error (.duplicateState clash), a) := by
  rw [concat, Edit.on_bind_of_ok (on_requireInitial_of_initial hp), Edit.on_look_bind,
    Edit.on_bind_of_error (on_takeIn_of_clash (initial_behind hq a ids) h)]

theorem union_of_clash (hp : a.initial = some p) (hq : b.initial = some q)
    (h : a.clash? b ids = some clash) :
    (union b ids).on a = (.error (.duplicateState clash), a) := by
  rw [union, Edit.on_bind_of_ok (on_requireInitial_of_initial hp),
    Edit.on_bind_of_error (on_takeIn_of_clash (initial_behind hq a ids) h)]

/-- Appending a machine takes room for it. -/
theorem hasRoom_of_concat (hp : a.initial = some p) (hq : b.initial = some q)
    (h : (concat b ids).on a = (.ok ⟨⟩, m)) : a.HasRoom b ids := by
  cases hclash : a.clash? b ids with
  | none => exact clash?_eq_none_iff.mp hclash
  | some clash =>
      rw [concat_of_clash hp hq hclash] at h
      cases h

theorem starts_or_refused (a b : NFA) :
    (∃ p q, a.initial = some p ∧ b.initial = some q) ∨ a.initial = none ∨ b.initial = none := by
  cases hp : a.initial with
  | none => exact Or.inr (Or.inl rfl)
  | some p =>
      cases hq : b.initial with
      | none => exact Or.inr (Or.inr rfl)
      | some q => exact Or.inl ⟨p, q, rfl, rfl⟩

theorem keeps_concat (hb : b.WellFormed) (ids : IdSpace) : (concat b ids).Keeps WellFormed := by
  intro a ha
  rcases starts_or_refused a b with ⟨p, q, hp, hq⟩ | h
  · cases hclash : a.clash? b ids with
    | none =>
        obtain ⟨m, hon, hm⟩ := exists_concat ha hb hp hq (clash?_eq_none_iff.mp hclash)
        rw [hon]
        exact wellFormed_renumber hm.wellFormed
    | some clash =>
        rw [concat_of_clash hp hq hclash]
        exact ha
  · rw [concat_refused h]
    exact ha

theorem keeps_union (hb : b.WellFormed) (ids : IdSpace) : (union b ids).Keeps WellFormed := by
  intro a ha
  rcases starts_or_refused a b with ⟨p, q, hp, hq⟩ | h
  · cases hclash : a.clash? b ids with
    | none =>
        obtain ⟨m, fork, hon, hm, -⟩ := exists_union ha hb hp hq (clash?_eq_none_iff.mp hclash)
        rw [hon]
        exact wellFormed_renumber hm.wellFormed
    | some clash =>
        rw [union_of_clash hp hq hclash]
        exact ha
  · rw [union_refused h]
    exact ha

theorem keeps_loop (skip : Bool) (ids : IdSpace) : (loop skip ids).Keeps WellFormed := by
  intro a ha
  cases hp : a.initial with
  | none =>
      rw [loop_refused hp]
      exact ha
  | some p =>
      obtain ⟨m, entry, exit, hon, hm, -⟩ := exists_loop ha skip ids hp
      rw [hon]
      exact wellFormed_renumber hm.wellFormed

end Refusals

end NFA

end RegexMachine
