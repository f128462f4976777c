/-
The onsets of a measure: one for every moment at which something begins.

Each voice and each verse is a stream of beats, one after the other from the
start of the measure; grace notes are no beats. A stream is at the end of what
it has given so far. The next onset is where the stream that is furthest back
stands, and every stream that stands exactly there gives its next beat to it.
This goes on until no stream has a beat left.
-/
import Divisi.Score

namespace Divisi

/-- A group that is no grace note, or a syllable. -/
structure Beat where
  member : Member
  duration : Time
  deriving DecidableEq

/-- A stream that has given some of its beats. -/
structure Stream where
  rest : List Beat
  /-- Where the beats given so far end. -/
  elapsed : Time := 0

/-- The members that begin together at an offset of the measure. -/
structure Onset where
  start : Time
  members : List Member
  deriving DecidableEq

namespace Stream

/-- Where the stream that is furthest back stands. -/
def earliest? : List Stream → Option Time
  | [] => none
  | s :: rest =>
    match earliest? rest with
    | none => some s.elapsed
    | some t => some (if s.elapsed ≤ t then s.elapsed else t)

/-- The beats that streams have left. -/
def remaining : List Stream → Nat
  | [] => 0
  | s :: others => s.rest.length + remaining others

/-- Every stream that stands at `start` gives its next beat, and must have
one. -/
def advance (start : Time) : List Stream → Except Breach (List Member × List Stream)
  | [] => .ok ([], [])
  | s :: others =>
    if s.elapsed = start then
      match s.rest with
      | [] => .error (.ranOut start)
      | beat :: rest =>
        match s.elapsed.add? beat.duration with
        | none => .error .overflow
        | some elapsed =>
          (advance start others).map fun (members, others) =>
            (beat.member :: members, { rest, elapsed } :: others)
    else
      (advance start others).map fun (members, others) => (members, s :: others)

theorem earliest?_mem {streams : List Stream} {t : Time} (h : earliest? streams = some t) :
    ∃ s ∈ streams, s.elapsed = t := by
  induction streams generalizing t with
  | nil => simp [earliest?] at h
  | cons s rest ih =>
    unfold earliest? at h
    split at h
    · exact ⟨s, by simp, by simpa using h⟩
    · rename_i u hu
      simp only [Option.some.injEq] at h
      split at h
      · exact ⟨s, by simp, h⟩
      · obtain ⟨r, hr, hru⟩ := ih hu
        exact ⟨r, by simp [hr], hru.trans h⟩

/-- What the streams give is what they have less of. -/
theorem remaining_advance {start : Time} {streams later : List Stream} {members : List Member}
    (h : advance start streams = .ok (members, later)) :
    remaining later + members.length = remaining streams := by
  induction streams generalizing members later with
  | nil =>
    simp only [advance, Except.ok.injEq, Prod.mk.injEq] at h
    obtain ⟨rfl, rfl⟩ := h
    rfl
  | cons s others ih =>
    unfold advance at h
    split at h
    · split at h
      · cases h
      · rename_i beat rest hrest
        split at h
        · cases h
        · cases hadv : advance start others with
          | error e => simp [hadv, Except.map] at h
          | ok r =>
            obtain ⟨ms, os⟩ := r
            simp only [hadv, Except.map, Except.ok.injEq, Prod.mk.injEq] at h
            obtain ⟨rfl, rfl⟩ := h
            have := ih hadv
            simp only [remaining, List.length_cons, hrest] at this ⊢
            omega
    · cases hadv : advance start others with
      | error e => simp [hadv, Except.map] at h
      | ok r =>
        obtain ⟨ms, os⟩ := r
        simp only [hadv, Except.map, Except.ok.injEq, Prod.mk.injEq] at h
        obtain ⟨rfl, rfl⟩ := h
        have := ih hadv
        simp only [remaining] at this ⊢
        omega

/-- A stream that stands at the onset gives something to it. -/
theorem members_ne_nil_of_advance {start : Time} {streams later : List Stream}
    {members : List Member} (h : advance start streams = .ok (members, later))
    (hs : ∃ s ∈ streams, s.elapsed = start) : members ≠ [] := by
  induction streams generalizing members later with
  | nil => simp at hs
  | cons s others ih =>
    unfold advance at h
    split at h
    · split at h
      · cases h
      · split at h
        · cases h
        · cases hadv : advance start others with
          | error e => simp [hadv, Except.map] at h
          | ok r =>
            simp only [hadv, Except.map, Except.ok.injEq, Prod.mk.injEq] at h
            obtain ⟨rfl, -⟩ := h
            simp
    · rename_i hne
      cases hadv : advance start others with
      | error e => simp [hadv, Except.map] at h
      | ok r =>
        obtain ⟨ms, os⟩ := r
        simp only [hadv, Except.map, Except.ok.injEq, Prod.mk.injEq] at h
        obtain ⟨rfl, -⟩ := h
        refine ih hadv ?_
        simpa [hne] using hs

theorem remaining_advance_lt {start : Time} {streams later : List Stream} {members : List Member}
    (h : advance start streams = .ok (members, later)) (hs : earliest? streams = some start) :
    remaining later < remaining streams := by
  have hlen := remaining_advance h
  have hne := List.length_pos_iff.mpr (members_ne_nil_of_advance h (earliest?_mem hs))
  omega

/-- The onsets of streams from where they stand, and the streams at their
ends. -/
def onsets (streams : List Stream) : Except Breach (List Onset × List Stream) :=
  if streams.all fun s => s.rest.isEmpty then .ok ([], streams)
  else match _hs : earliest? streams with
    | none => .ok ([], streams)
    | some start =>
      match _h : advance start streams with
      | .error breach => .error breach
      | .ok (members, later) =>
        (onsets later).map fun (more, ends) => ({ start, members } :: more, ends)
termination_by remaining streams
decreasing_by exact remaining_advance_lt _h _hs

end Stream

namespace Onset

/-- Chords from onsets: each lasts until the next begins, the last one until
the measure ends. -/
def chords (packing : Float) (length : Time) : List Onset → Except Breach (List Chord)
  | [] => .ok []
  | o :: rest =>
    let stop := (rest.head?.map (·.start)).getD length
    match stop.sub? o.start with
    | none => .error .overflow
    | some duration =>
      if duration ≤ 0 then .error (.noDuration o.start)
      else (chords packing length rest).map fun more =>
        { start := o.start, duration, weight := duration.weight packing, members := o.members }
          :: more

end Onset

/-- The chords of a measure that lasts `length` and holds these streams. Every
stream must have a beat and must end with the measure. -/
def Stream.chords (packing : Float) (length : Time) (streams : List (List Beat)) :
    Except Breach (List Chord) := do
  if streams.any List.isEmpty then throw .onlyGraces
  let (onsets, ends) ← Stream.onsets (streams.map fun rest => { rest })
  match ends.find? fun s => s.elapsed != length with
  | some late => throw (.endsAt late.elapsed length)
  | none => Onset.chords packing length onsets

end Divisi
