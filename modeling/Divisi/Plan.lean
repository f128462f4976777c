/-
Choosing the merges of every hand.

A pair of voices that can be combined in one hand may still have to stay apart
there, because a beam, tie or slur (or a request for whole measures) links it
to a hand where the pair cannot be combined. Hands are planned from the first
to the last. A voice that has been folded into another is not used again, and
it carries its incompatibilities along, which can undo what hands planned
before counted on. So in the end merges are withdrawn until every merge left
is made in all the hands it is linked to.
-/
import Divisi.Affinity

namespace Divisi

/-- The merges of one hand, in the order in which they are made. -/
abbrev Plan := List Merge

/-- Three voices make at most two merges. -/
def Plan.capacity : Nat := 2

namespace Planning

/-! ## Planning from front to back -/

/-- The merges chosen for a hand, and those that a neighbour did not allow. -/
structure Choice where
  plan : Plan := []
  declined : List Merge := []

/-- A hand on its way to its plan, with the tables of all hands as they
stand. -/
structure Draft where
  tables : Array Affinity
  choice : Choice := {}

/-- Whether hand `n` still allows a merge. -/
def allows (tables : Array Affinity) (m : Merge) (n : Nat) : Bool :=
  (tables[n]?.getD {}).get m.dest m.src

/-- A voice of the merge has been folded into another in this hand. -/
def usedUp (plan : Plan) (m : Merge) : Bool := plan.any fun p => p.src == m.dest || p.src == m.src

/-- Considers one candidate merge for hand `h`. -/
def consider (s : Score) (l : Layout) (h : Nat) (hand : Hand) (byMeasure : Bool) (d : Draft)
    (m : Merge) : Draft :=
  if Plan.capacity ≤ d.choice.plan.length || usedUp d.choice.plan m then d
  else match hand.voice? m.dest, hand.voice? m.src with
    | some dest, some src =>
      if !allows d.tables m h then d
      else if l.agrees s byMeasure (allows d.tables m) dest src then
        { tables := d.tables.modify h fun t => t.absorb m.dest m.src
          choice := { d.choice with plan := d.choice.plan ++ [m] } }
      else { d with choice := { d.choice with declined := d.choice.declined ++ [m] } }
    | _, _ => d

/-- Plans hand `h` with the tables as the hands before it left them. -/
def hand (s : Score) (l : Layout) (tables : Array Affinity) (hand : Hand) (h : Nat) : Draft :=
  match hand.request with
  | none => { tables }
  | some r => r.pairs.foldl (consider s l h hand r.byMeasure) { tables }

/-- Plans hands one after the other. -/
def hands (s : Score) (l : Layout) : Array Affinity → List (Hand × Nat) → List Choice
  | _, [] => []
  | tables, (h, index) :: rest =>
    let draft := hand s l tables h index
    draft.choice :: hands s l draft.tables rest

/-! ## Settling -/

/-- A merge of hand `h` is made in every hand it is linked to. -/
def holds (s : Score) (l : Layout) (byMeasure : List Bool) (plans : Array Plan) (h : Nat)
    (m : Merge) : Bool :=
  match l.hands[h]?.bind (·.voice? m.dest), l.hands[h]?.bind (·.voice? m.src) with
  | some dest, some src =>
    l.agrees s (byMeasure[h]?.getD false) (fun n => (plans[n]?.getD []).contains m) dest src
  | _, _ => false

/-- The merges that do not hold, with their hands. -/
def failing (s : Score) (l : Layout) (byMeasure : List Bool) (plans : List Plan) :
    List (Nat × Merge) :=
  let made := plans.toArray
  plans.zipIdx.flatMap fun (plan, h) =>
    (plan.filter fun m => !holds s l byMeasure made h m).map fun m => (h, m)

/-- The plans without the merges that do not hold. -/
def prune (s : Score) (l : Layout) (byMeasure : List Bool) (plans : List Plan) : List Plan :=
  let made := plans.toArray
  plans.zipIdx.map fun (plan, h) => plan.filter (holds s l byMeasure made h)

/-- How many merges are planned. -/
def size : List Plan → Nat
  | [] => 0
  | plan :: rest => plan.length + size rest

theorem length_filter_add_not {α : Type} (p : α → Bool) (xs : List α) :
    (xs.filter p).length + (xs.filter fun x => !p x).length = xs.length := by
  induction xs with
  | nil => rfl
  | cons x xs ih => cases h : p x <;> simp [h] <;> omega

/-- What pruning takes away is what fails. -/
theorem size_prune (s : Score) (l : Layout) (byMeasure : List Bool) (plans : List Plan) :
    size (prune s l byMeasure plans) + (failing s l byMeasure plans).length = size plans := by
  suffices h : ∀ (p : Nat → Merge → Bool) (n : Nat),
      size ((plans.zipIdx n).map fun (plan, h) => plan.filter (p h)) +
        ((plans.zipIdx n).flatMap fun (plan, h) =>
          (plan.filter fun m => !p h m).map fun m => (h, m)).length = size plans from h _ 0
  intro p
  induction plans with
  | nil => intro n; rfl
  | cons plan rest ih =>
    intro n
    have hplan := length_filter_add_not (p n) plan
    have hrest := ih (n + 1)
    simp only [List.zipIdx_cons, List.map_cons, List.flatMap_cons, size, List.length_append,
      List.length_map] at hrest ⊢
    omega

theorem size_prune_lt {s : Score} {l : Layout} {byMeasure : List Bool} {plans : List Plan}
    (h : failing s l byMeasure plans ≠ []) :
    size (prune s l byMeasure plans) < size plans := by
  have := size_prune s l byMeasure plans
  have := List.length_pos_iff.mpr h
  omega

/-- Plans that hold, and what was withdrawn on the way, in order. -/
structure Settled where
  plans : List Plan
  withdrawn : List (Nat × Merge) := []

/-- Withdraws merges, all that fail at once, until every merge holds. -/
def settle (s : Score) (l : Layout) (byMeasure : List Bool) (plans : List Plan) : Settled :=
  if failing s l byMeasure plans = [] then { plans }
  else
    let later := settle s l byMeasure (prune s l byMeasure plans)
    { later with withdrawn := failing s l byMeasure plans ++ later.withdrawn }
termination_by size plans
decreasing_by exact size_prune_lt ‹_›

end Planning

/-- The plans of a layout, and how they came about. -/
structure Planned where
  choices : List Planning.Choice
  settled : Planning.Settled

namespace Planned

/-- The final plan of every hand. -/
def plans (p : Planned) : List Plan := p.settled.plans

end Planned

namespace Layout

/-- For each hand whether the request in force is for whole measures. -/
def byMeasure (l : Layout) : List Bool := l.hands.map fun h => h.request.any (·.byMeasure)

/-- Plans every hand, given which voices each can combine on its own. -/
def plan (s : Score) (l : Layout) (tables : List Affinity) : Planned :=
  let choices := Planning.hands s l tables.toArray l.hands.zipIdx
  { choices, settled := Planning.settle s l l.byMeasure (choices.map (·.plan)) }

end Layout

end Divisi
