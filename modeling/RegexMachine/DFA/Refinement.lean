import RegexMachine.DFA.Basic
import RegexMachine.Record

/-!
# RegexMachine.DFA.Refinement

**Telling states apart.** The states of a deterministic machine are divided into blocks. At the
start final states are apart from the others; then blocks are split until no block and no character
tells two states of one block apart any more.

A block that may still split others is pending. A turn takes the pending block on top of the stack,
the splitter, and goes through the alphabet: for each character every block is cut into the states
that the character leads into the splitter and the states that it does not. Where both parts hold
states they take the place of the block. If the block was pending, both parts are pending in its
stead; if it was not, the smaller part alone is, for splitting by the block and by one part splits
by the other part as well.

A turn takes one block off the stack, and each cut makes one block more and one pending block more.
As there are never more blocks than states, the turns come to an end.
-/

namespace RegexMachine

open Std

/-- A block of states, listed in ascending order. -/
abbrev Block := List StateId

/-- A division of the states that is being refined. -/
structure Refinement where
  /-- The blocks. -/
  blocks : List Block
  /-- The blocks still to be used as splitters, the next one in front. -/
  pending : List Block
  /-- A record for every cut made. -/
  records : List Record

namespace Block

/-- The states that `leads` picks and the other ones, if there are states of both sorts. -/
def cut? (leads : StateId → Bool) (block : Block) : Option (Block × Block) :=
  let inside := block.filter leads
  let outside := block.filter fun q => !leads q
  if inside = [] ∨ outside = [] then none else some (inside, outside)

/-- What takes the place of a block. -/
def pieces (leads : StateId → Bool) (block : Block) : List Block :=
  match cut? leads block with
  | none => [block]
  | some (inside, outside) => [inside, outside]

/-- The record of a cut. -/
def record? (leads : StateId → Bool) (c : Char) (block : Block) : Option Record :=
  (cut? leads block).map fun (inside, outside) =>
    .split block.length c inside.length outside.length

/-- The stack without one block; what was on top moves into its place. -/
def withdraw (block : Block) : List Block → List Block
  | [] => []
  | top :: rest => if top = block then rest else rest.replace block top

/-- The pending blocks after a block was cut or left whole. -/
def requeue (leads : StateId → Bool) (pending : List Block) (block : Block) : List Block :=
  match cut? leads block with
  | none => pending
  | some (inside, outside) =>
      if block ∈ pending then outside :: inside :: withdraw block pending
      else if inside.length ≤ outside.length then inside :: pending
      else outside :: pending

/-! ### Sizes -/

theorem length_add_length_of_cut? {leads : StateId → Bool} {block inside outside : Block}
    (h : cut? leads block = some (inside, outside)) :
    inside.length + outside.length = block.length ∧ 0 < inside.length ∧ 0 < outside.length := by
  simp only [cut?] at h
  split at h
  · cases h
  · next hne =>
      cases h
      rw [not_or] at hne
      refine ⟨?_, List.length_pos_iff.2 hne.1, List.length_pos_iff.2 hne.2⟩
      simpa [List.countP_eq_length_filter] using
        (List.length_eq_countP_add_countP (p := leads) (l := block)).symm

theorem length_withdraw {block : Block} {pending : List Block} (h : block ∈ pending) :
    (withdraw block pending).length + 1 = pending.length := by
  cases pending with
  | nil => simp at h
  | cons top rest =>
      simp only [withdraw]
      split <;> simp

/-- How many cuts some blocks still allow. -/
def slack : List Block → Nat
  | [] => 0
  | block :: blocks => (block.length - 1) + slack blocks

@[simp] theorem slack_nil : slack [] = 0 := rfl

@[simp] theorem slack_cons (block : Block) (blocks : List Block) :
    slack (block :: blocks) = (block.length - 1) + slack blocks := rfl

@[simp] theorem slack_append (bs cs : List Block) : slack (bs ++ cs) = slack bs + slack cs := by
  induction bs with
  | nil => simp
  | cons b bs ih => simp [ih, Nat.add_assoc]

/-- A cut uses up one of the cuts allowed and adds one pending block. -/
theorem slack_pieces_add_length_requeue (leads : StateId → Bool) (pending : List Block)
    (block : Block) :
    slack (pieces leads block) + (requeue leads pending block).length =
      (block.length - 1) + pending.length := by
  unfold pieces requeue
  cases h : cut? leads block with
  | none => simp
  | some parts =>
      obtain ⟨inside, outside⟩ := parts
      have hlen := length_add_length_of_cut? h
      by_cases hmem : block ∈ pending
      · have := length_withdraw hmem
        simp only [slack_cons, slack_nil, if_pos hmem, List.length_cons]
        omega
      · simp only [slack_cons, slack_nil, if_neg hmem]
        split <;> simp only [List.length_cons] <;> omega

theorem slack_flatMap_add_length_foldl (leads : StateId → Bool) (blocks pending : List Block) :
    slack (blocks.flatMap (pieces leads)) + (blocks.foldl (requeue leads) pending).length =
      slack blocks + pending.length := by
  induction blocks generalizing pending with
  | nil => simp
  | cons block blocks ih =>
      have h := slack_pieces_add_length_requeue leads pending block
      have hrest := ih (requeue leads pending block)
      simp only [List.flatMap_cons, slack_append, List.foldl_cons, slack_cons]
      omega

end Block

namespace Refinement

/-- The division into final and other states, both pending. -/
def start (d : DFA) : Refinement :=
  let blocks := [d.finals.toList, (d.states \ d.finals).toList].filter (· ≠ [])
  ⟨blocks, blocks.reverse, []⟩

/-- Whether the edge of a state for a character leads into a block. -/
def leadsInto (d : DFA) (c : Char) (block : Block) (q : StateId) : Bool :=
  (DFA.next? d q c).any (· ∈ block)

/-- Cuts every block by where one character leads. -/
def refineOn (d : DFA) (splitter : Block) (r : Refinement) (c : Char) : Refinement :=
  let leads := leadsInto d c splitter
  { blocks := r.blocks.flatMap (Block.pieces leads)
    pending := r.blocks.foldl (Block.requeue leads) r.pending
    records := r.records ++ r.blocks.filterMap (Block.record? leads c) }

/-- One turn: takes the next splitter and cuts by every character of the alphabet. -/
def step (d : DFA) (r : Refinement) : Refinement :=
  match r.pending with
  | [] => r
  | splitter :: rest => d.alphabet.toList.foldl (refineOn d splitter) { r with pending := rest }

/-! ### The turns end -/

/-- A bound on the number of turns to come. -/
def cost (r : Refinement) : Nat := Block.slack r.blocks + r.pending.length

theorem cost_refineOn (d : DFA) (splitter : Block) (r : Refinement) (c : Char) :
    (refineOn d splitter r c).cost = r.cost :=
  Block.slack_flatMap_add_length_foldl _ _ _

theorem cost_foldl_refineOn (d : DFA) (splitter : Block) (r : Refinement) (cs : List Char) :
    (cs.foldl (refineOn d splitter) r).cost = r.cost := by
  induction cs generalizing r with
  | nil => rfl
  | cons c cs ih => rw [List.foldl_cons, ih, cost_refineOn]

theorem cost_step (d : DFA) {r : Refinement} (h : r.pending ≠ []) :
    (step d r).cost + 1 = r.cost := by
  unfold step
  split
  · next hnil => exact absurd hnil h
  · next splitter rest hcons =>
      rw [cost_foldl_refineOn]
      simp [cost, hcons, Nat.add_assoc]

/-- Takes turns until no block is pending. -/
def run (d : DFA) (r : Refinement) : Refinement :=
  if h : r.pending = [] then r
  else
    have _ := cost_step d h
    run d (step d r)
termination_by r.cost
decreasing_by omega

end Refinement

namespace DFA

/-- The states of a machine divided as far as words can tell them apart. -/
def refined (d : DFA) : Refinement := (Refinement.start d).run d

end DFA

end RegexMachine
