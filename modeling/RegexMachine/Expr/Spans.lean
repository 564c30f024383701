import Std.Data.ExtTreeMap
import Std.Data.ExtTreeSet
import RegexMachine.Expr.Basic
import RegexMachine.Search

/-!
# RegexMachine.Expr.Spans

**Spans of a word.** A span is a start and a stop position in a word. What an expression matches
inside a word is a finite set of spans, and each form of expression has an operation on such sets:
`join` lines up two sets of spans end to start, and `grow` closes a set under joining more spans of
another one behind.

`grow` works in rounds. A round joins only the spans found by the round before, and it stops when
nothing new comes up. It ends because every new span starts where an old one starts and stops where
a joined one stops.
-/

namespace RegexMachine

open Std

/-- The part of a word from position `start` up to, and not including, position `stop`. -/
structure Span where
  start : Nat
  stop : Nat
  deriving DecidableEq, Repr

/-- Spans are listed by start, then by stop. -/
instance : Ord Span := ⟨compareLex (compareOn Span.start) (compareOn Span.stop)⟩

instance : TransOrd Span :=
  inferInstanceAs (TransCmp (compareLex (compareOn Span.start) (compareOn Span.stop)))

instance : LawfulEqOrd Span where
  eq_of_compare {a b} h := by
    have h : (compare a.start b.start).then (compare a.stop b.stop) = .eq := h
    rw [Ordering.then_eq_eq, Nat.compare_eq_eq, Nat.compare_eq_eq] at h
    cases a
    cases b
    simp_all

/-- A finite set of spans. -/
abbrev Spans := ExtTreeSet Span

namespace Spans

/-! ### Spans of the simplest expressions -/

/-- The empty spans of a word of length `length`, one at each position, the end included. -/
def empties (length : Nat) : Spans :=
  ExtTreeSet.ofList ((List.range (length + 1)).map fun i => Span.mk i i)

@[simp] theorem mem_empties {length : Nat} {s : Span} :
    s ∈ empties length ↔ s.start = s.stop ∧ s.stop ≤ length := by
  obtain ⟨i, j⟩ := s
  simp only [empties, ExtTreeSet.mem_ofList, List.contains_eq_mem, decide_eq_true_eq, List.mem_map,
    List.mem_range, Span.mk.injEq]
  constructor
  · rintro ⟨k, hk, rfl, rfl⟩
    exact ⟨rfl, Nat.le_of_lt_succ hk⟩
  · rintro ⟨rfl, h⟩
    exact ⟨i, Nat.lt_succ_of_le h, rfl, rfl⟩

/-- The spans of length one that hold the character `c`. -/
def ofChar (word : Word) (c : Char) : Spans :=
  ExtTreeSet.ofList ((word.zipIdx.filter fun entry => entry.1 = c).map fun entry =>
    Span.mk entry.2 (entry.2 + 1))

@[simp] theorem mem_ofChar {word : Word} {c : Char} {s : Span} :
    s ∈ ofChar word c ↔ word[s.start]? = some c ∧ s.stop = s.start + 1 := by
  obtain ⟨i, j⟩ := s
  simp only [ofChar, ExtTreeSet.mem_ofList, List.contains_eq_mem, decide_eq_true_eq, List.mem_map,
    List.mem_filter, Prod.exists, List.mem_zipIdx_iff_getElem?, Span.mk.injEq]
  constructor
  · rintro ⟨d, k, ⟨hk, rfl⟩, rfl, rfl⟩
    exact ⟨hk, rfl⟩
  · rintro ⟨h, rfl⟩
    exact ⟨c, i, ⟨h, rfl⟩, rfl, rfl⟩

/-! ### Joining -/

/-- The stops of the spans with the same start, looked up by that start. -/
def byStart (spans : Spans) : ExtTreeMap Nat (List Nat) :=
  spans.toList.foldr
    (fun s index => index.alter s.start fun stops => some (s.stop :: stops.getD [])) ∅

/-- The stops of the spans that start at a position. -/
def stopsAt (index : ExtTreeMap Nat (List Nat)) (position : Nat) : List Nat :=
  index[position]?.getD []

theorem mem_stopsAt_foldr {xs : List Span} {i j : Nat} :
    j ∈ stopsAt (xs.foldr (fun s index => index.alter s.start fun stops =>
        some (s.stop :: stops.getD [])) ∅) i ↔ ⟨i, j⟩ ∈ xs := by
  induction xs with
  | nil => simp [stopsAt]
  | cons s xs ih =>
      obtain ⟨k, l⟩ := s
      simp only [stopsAt, List.foldr_cons, ExtTreeMap.getElem?_alter, Nat.compare_eq_eq] at ih ⊢
      by_cases h : k = i
      · subst h
        simp [ih]
      · rw [if_neg h, ih]
        simp [Ne.symm h]

@[simp] theorem mem_stopsAt_byStart {spans : Spans} {i j : Nat} :
    j ∈ stopsAt (byStart spans) i ↔ (⟨i, j⟩ : Span) ∈ spans := by
  rw [byStart, mem_stopsAt_foldr, ExtTreeSet.mem_toList]

/-- The spans made of one of `left` and one of `right` that starts where it stops. -/
def join (left right : Spans) : Spans :=
  let index := byStart right
  ExtTreeSet.ofList (left.toList.flatMap fun s => (stopsAt index s.stop).map (Span.mk s.start))

@[simp] theorem mem_join {left right : Spans} {s : Span} :
    s ∈ join left right ↔ ∃ m, ⟨s.start, m⟩ ∈ left ∧ ⟨m, s.stop⟩ ∈ right := by
  obtain ⟨i, j⟩ := s
  simp only [join, ExtTreeSet.mem_ofList, List.contains_eq_mem, decide_eq_true_eq, List.mem_flatMap,
    ExtTreeSet.mem_toList, List.mem_map, mem_stopsAt_byStart, Span.mk.injEq]
  constructor
  · rintro ⟨⟨k, m⟩, hl, l, hr, rfl, rfl⟩
    exact ⟨m, hl, hr⟩
  · rintro ⟨m, hl, hr⟩
    exact ⟨⟨i, m⟩, hl, j, hr, rfl, rfl⟩

/-! ### Growing in rounds -/

/-- The positions at which some span starts. -/
def starts (spans : Spans) : ExtTreeSet Nat :=
  ExtTreeSet.ofList (spans.toList.map Span.start)

@[simp] theorem mem_starts {spans : Spans} {i : Nat} :
    i ∈ starts spans ↔ ∃ s ∈ spans, s.start = i := by
  simp [starts]

/-- The spans not yet found among those that start where a found span starts and stop where a span
of `inner` stops. -/
def missing (inner found : Spans) : Nat :=
  ((starts found).toList.flatMap fun i => inner.toList.map fun s => Span.mk i s.stop).countP
    fun s => s ∉ found

/-- The spans of `frontier` continued by one span of `inner`, as far as they are new. -/
def fresh (inner found frontier : Spans) : Spans :=
  join frontier inner \ found

@[simp] theorem mem_fresh {inner found frontier : Spans} {s : Span} :
    s ∈ fresh inner found frontier ↔ s ∈ join frontier inner ∧ s ∉ found :=
  ExtTreeSet.mem_diff_iff

theorem missing_lt {inner found frontier : Spans} (hsub : ∀ s ∈ frontier, s ∈ found)
    (hne : fresh inner found frontier ≠ ∅) :
    missing inner (found ∪ fresh inner found frontier) < missing inner found := by
  have hstarts : starts (found ∪ fresh inner found frontier) = starts found := by
    refine ExtTreeSet.ext_mem fun i => ?_
    simp only [mem_starts, ExtTreeSet.mem_union_iff, mem_fresh, mem_join]
    constructor
    · rintro ⟨s, h | ⟨⟨m, hm, -⟩, -⟩, rfl⟩
      · exact ⟨s, h, rfl⟩
      · exact ⟨_, hsub _ hm, rfl⟩
    · rintro ⟨s, h, rfl⟩
      exact ⟨s, Or.inl h, rfl⟩
  obtain ⟨s, hs⟩ : ∃ s, s ∈ fresh inner found frontier :=
    Classical.byContradiction fun h =>
      hne (ExtTreeSet.eq_empty_iff_forall_not_mem.2 (not_exists.1 h))
  have hjoin := mem_fresh.1 hs
  obtain ⟨m, hm, hmj⟩ := mem_join.1 hjoin.1
  rw [missing, hstarts, missing]
  refine countP_lt_countP (fun t _ ht => ?_) (a := s) ?_ ?_ ?_
  · simp only [ExtTreeSet.mem_union_iff, not_or, decide_eq_true_eq] at ht ⊢
    exact ht.1
  · rw [List.mem_flatMap]
    refine ⟨s.start, ExtTreeSet.mem_toList.2 (mem_starts.2 ⟨_, hsub _ hm, rfl⟩), ?_⟩
    exact List.mem_map.2 ⟨_, ExtTreeSet.mem_toList.2 hmj, rfl⟩
  · simpa using hjoin.2
  · simpa [hjoin.2] using mem_join.1 hjoin.1

/-- Adds to `found` all that arises by continuing the spans of `frontier` with spans of `inner`, any
number of times. Each round continues only what the round before it found. -/
def grow (inner found frontier : Spans) (hsub : ∀ s ∈ frontier, s ∈ found) : Spans :=
  let new := fresh inner found frontier
  if hne : new = ∅ then found
  else
    have _ := missing_lt hsub hne
    grow inner (found ∪ new) new fun _ hs => ExtTreeSet.mem_union_iff.2 (Or.inr hs)
termination_by missing inner found

/-- The spans made of one of `seed` and any number of spans of `inner` behind it. -/
def chains (seed inner : Spans) : Spans :=
  grow inner seed seed fun _ hs => hs

end Spans

end RegexMachine
