/-
Combination requests.

A request names the voices of a staff that may be printed as one wherever they
move together, and how strictly their pitches must keep apart.
-/
namespace Divisi

/-- How far the pitches of two voices may mix when they are combined. -/
inductive Qualifier where
  /-- Every note of the upper voice lies above every note of the lower. -/
  | noOverlap
  /-- The voices may meet at one pitch. -/
  | shareOne
  | overlap
  /-- Only rests and spaces are combined. -/
  | restsOnly
  deriving Repr, DecidableEq, Inhabited

/-- The notes of voice `src` join those of voice `dest`. -/
structure Merge where
  dest : Nat
  src : Nat
  deriving Repr, DecidableEq, Inhabited

structure Request where
  voices : List Nat := []
  qualifier : Qualifier := .noOverlap
  /-- Combine within a measure only where it works for the whole measure. -/
  byMeasure : Bool := false
  deriving Repr, DecidableEq, Inhabited

namespace Request

/-- The request names at least two voices, counted as they are written. -/
def isActive (r : Request) : Bool := 2 ≤ r.voices.length

/-- Puts a voice in its place in an ascending list, once. -/
def insertVoice (v : Nat) : List Nat → List Nat
  | [] => [v]
  | w :: rest =>
    if v < w then v :: w :: rest
    else if v = w then w :: rest
    else w :: insertVoice v rest

/-- The voices named, each once, in ascending order. -/
def distinct (voices : List Nat) : List Nat := voices.foldr insertVoice []

/-- Every voice into each of those before it, by destination. -/
def mergesAmong : List Nat → List Merge
  | [] => []
  | dest :: rest => rest.map (fun src => { dest, src }) ++ mergesAmong rest

/-- The candidate merges, lower voice first: of three voices (1,2), (1,3) and
(2,3), in this order. -/
def pairs (r : Request) : List Merge := mergesAmong (distinct r.voices)

theorem mem_insertVoice {v w : Nat} {l : List Nat} : w ∈ insertVoice v l ↔ w = v ∨ w ∈ l := by
  induction l with
  | nil => simp [insertVoice]
  | cons x rest ih =>
    unfold insertVoice
    split
    · simp
    · split <;> simp_all [or_left_comm]

theorem mem_distinct {w : Nat} {l : List Nat} : w ∈ distinct l ↔ w ∈ l := by
  induction l with
  | nil => simp [distinct]
  | cons v rest ih =>
    rw [List.mem_cons, ← ih]
    exact mem_insertVoice

end Request

end Divisi
