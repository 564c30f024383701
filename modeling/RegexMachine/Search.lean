/-!
# RegexMachine.Search

**Breadth-first listing.** `search next starts` lists everything that can be reached from `starts`
by following `next`, each thing once, in the order in which a breadth-first search comes upon it.
The closure under empty moves, the numbering of the states of a machine and the sets of states of
the subset construction are all listings of this kind.

The function `next` may be defined on infinitely many things, but all that it ever leads to must lie
in one finite list. That is what `Confined` says, and it is why the search ends: every turn of
`visit` either takes a thing off the queue or finds one of the finitely many not yet seen. The
finite list is only known to exist, so nothing of its size is ever computed.
-/

namespace RegexMachine

variable {α : Type}

/-- All that `next` leads to lies in one finite list. -/
def Confined (next : α → List α) : Prop :=
  ∃ bound : List α, ∀ a, ∀ b ∈ next a, b ∈ bound

/-! ### Counting what is missing

A search over finitely many things ends because each round takes something out of what is still
missing. The number of missing things is a `List.countP`, and the lemma here says that it drops as
soon as one thing stops being missing and none starts to be. -/

/-- Fewer members count when a condition grows stronger and one member falls out. -/
theorem countP_lt_countP {p q : α → Bool} {xs : List α}
    (himp : ∀ x ∈ xs, p x = true → q x = true) {a : α} (ha : a ∈ xs) (hq : q a = true)
    (hp : p a = false) : xs.countP p < xs.countP q := by
  induction xs with
  | nil => simp at ha
  | cons x xs ih =>
      have hle : xs.countP p ≤ xs.countP q :=
        List.countP_mono_left fun y hy => himp y (List.mem_cons_of_mem _ hy)
      rcases List.mem_cons.1 ha with rfl | ha
      · rw [List.countP_cons_of_neg (by simp [hp]), List.countP_cons_of_pos hq]
        omega
      · have hlt := ih (fun y hy => himp y (List.mem_cons_of_mem _ hy)) ha
        have hx := himp x List.mem_cons_self
        cases hpx : p x with
        | true => rw [List.countP_cons_of_pos hpx, List.countP_cons_of_pos (hx hpx)]; omega
        | false =>
            rw [List.countP_cons_of_neg (by simp [hpx]), List.countP_cons]
            omega

namespace Search

/-- A finite list that holds all that `next` leads to. -/
noncomputable def bound {next : α → List α} (finite : Confined next) : List α :=
  Classical.choose finite

theorem mem_bound {next : α → List α} (finite : Confined next) {a b : α} (h : b ∈ next a) :
    b ∈ bound finite :=
  Classical.choose_spec finite a b h

variable [DecidableEq α]

/-! ### What is new -/

/-- The members of a list that are not in `seen`, each at its first place. -/
def unseen (seen : List α) : List α → List α
  | [] => []
  | a :: as => if a ∈ seen then unseen seen as else a :: unseen (seen ++ [a]) as

@[simp] theorem mem_unseen {seen as : List α} {a : α} :
    a ∈ unseen seen as ↔ a ∈ as ∧ a ∉ seen := by
  induction as generalizing seen with
  | nil => simp [unseen]
  | cons b as ih =>
      unfold unseen
      split
      · next hb =>
          rw [ih, List.mem_cons]
          constructor
          · exact fun h => ⟨Or.inr h.1, h.2⟩
          · rintro ⟨rfl | h, hs⟩
            · exact absurd hb hs
            · exact ⟨h, hs⟩
      · next hb =>
          rw [List.mem_cons, ih, List.mem_cons, List.mem_append, List.mem_singleton]
          by_cases hab : a = b
          · simp [hab, hb]
          · simp [hab]

theorem nodup_unseen (seen as : List α) : (unseen seen as).Nodup := by
  induction as generalizing seen with
  | nil => simp [unseen]
  | cons b as ih =>
      unfold unseen
      split
      · exact ih seen
      · exact List.nodup_cons.2 ⟨by simp, ih _⟩

/-! ### Visiting -/

/-- The number of things that may still come up. -/
noncomputable def remaining {next : α → List α} (finite : Confined next) (seen : List α) : Nat :=
  (bound finite).countP fun a => a ∉ seen

/-- What comes up newly no longer remains. -/
theorem remaining_append_unseen {next : α → List α} (finite : Confined next) (seen as : List α)
    (h : ∀ a ∈ as, a ∈ bound finite) :
    remaining finite (seen ++ unseen seen as) + (unseen seen as).length ≤
      remaining finite seen := by
  induction as generalizing seen with
  | nil => simp [unseen]
  | cons a as ih =>
      have ih := fun s => ih s fun b hb => h b (List.mem_cons_of_mem _ hb)
      unfold unseen
      split
      · exact ih seen
      · next ha =>
          have hlt : remaining finite (seen ++ [a]) < remaining finite seen :=
            countP_lt_countP (by simp +contextual) (h a List.mem_cons_self) (by simpa using ha)
              (by simp)
          have hle := ih (seen ++ [a])
          rw [List.append_assoc, List.singleton_append] at hle
          rw [List.length_cons]
          omega

/-- Lists the queue and all that comes up behind it; `seen` holds what has come up so far. -/
def visit (next : α → List α) (finite : Confined next) (seen queue : List α) : List α :=
  match queue with
  | [] => []
  | a :: rest =>
      let new := unseen seen (next a)
      a :: visit next finite (seen ++ new) (rest ++ new)
termination_by remaining finite seen + queue.length
decreasing_by
  have := remaining_append_unseen finite seen (next a) fun b hb => mem_bound finite hb
  simp only [List.length_append, List.length_cons]
  omega

end Search

/-- Lists all that can be reached from `starts` by following `next`, in breadth-first order. -/
def search [DecidableEq α] (next : α → List α) (finite : Confined next) (starts : List α) :
    List α :=
  Search.visit next finite starts starts

namespace Search

variable [DecidableEq α] {next : α → List α} {finite : Confined next}

/-- All that is listed was in the queue or comes after something by `next`. -/
theorem mem_queue_or_next_of_mem_visit {seen queue : List α} {b : α}
    (h : b ∈ visit next finite seen queue) : b ∈ queue ∨ ∃ a, b ∈ next a := by
  fun_induction visit next finite seen queue with
  | case1 => simp at h
  | case2 seen a rest new ih =>
      rcases List.mem_cons.1 h with rfl | h
      · exact Or.inl List.mem_cons_self
      · rcases ih h with h | h
        · rcases List.mem_append.1 h with h | h
          · exact Or.inl (List.mem_cons_of_mem _ h)
          · exact Or.inr ⟨a, (mem_unseen.1 h).1⟩
        · exact Or.inr h

/-- All that is listed is a start or comes after something by `next`. -/
theorem mem_starts_or_next_of_mem_search {starts : List α} {b : α}
    (h : b ∈ search next finite starts) : b ∈ starts ∨ ∃ a, b ∈ next a :=
  mem_queue_or_next_of_mem_visit h

end Search

end RegexMachine
