/-
The chords of a measure, told without the sweep that finds them.

A beat begins where the beats before it in its stream end. `Aligned` says what
chords have to be: one for every moment at which some beat begins, in order of
time, holding just the beats that begin there, and lasting until the next one.
The sweep (`Stream.chords`) finds such chords exactly where every stream fills
the measure with beats that take time, and the times on the way can be formed
(`chords_eq_ok_iff`, `exists_chords_iff`); each other shape of a stream ends in
one of its faults.
-/
import Mathlib.Algebra.Order.Field.Rat
import Mathlib.Data.List.Perm.Basic
import Mathlib.Data.List.Sort
import Mathlib.Tactic.Linarith
import Divisi.Onset
import Divisi.Proofs.Outcome
import Divisi.Proofs.Range

namespace Divisi

/-- The beats of a stream that stands at `t`, each with the moment at which it
begins. -/
def timeline (t : Time) : List Beat → List (Time × Member)
  | [] => []
  | b :: rest => (t, b.member) :: timeline (t + b.duration) rest

/-- The moments at which the beats of a stream begin. -/
def moments (beats : List Beat) : List Time := (timeline 0 beats).map Prod.fst

/-- What a stream has beginning at `t`. -/
def beginningAt (t : Time) (beats : List Beat) : List Member :=
  ((timeline 0 beats).filter (·.1 = t)).map Prod.snd

/-- How long the beats of a stream last together. -/
def beatsLength (beats : List Beat) : Time := Time.total (beats.map (·.duration))

/-- Lengths that follow one another fill a span: there is at least one, each
takes time, and they end where the span ends. -/
def Fills (length : Time) (spans : List Time) : Prop :=
  spans ≠ [] ∧ (∀ d ∈ spans, 0 < d) ∧ Time.total spans = length

instance (length : Time) (spans : List Time) : Decidable (Fills length spans) :=
  inferInstanceAs (Decidable (_ ∧ _ ∧ _))

/-- The chords of streams in a measure that lasts `length`. -/
structure Aligned (packing : Float) (length : Time) (streams : List (List Beat))
    (chords : List Chord) : Prop where
  /-- The chords stand in order of time. -/
  ascending : (chords.map (·.start)).Pairwise (· < ·)
  /-- There is a chord exactly where something begins. -/
  mem_starts : ∀ t, t ∈ chords.map (·.start) ↔ ∃ beats ∈ streams, t ∈ moments beats
  /-- A chord holds what begins with it, in the order of the streams. -/
  members : ∀ c ∈ chords, c.members = streams.flatMap (beginningAt c.start)
  /-- A chord lasts until the next one, the last until the measure ends. -/
  durations : ∀ i c, chords[i]? = some c →
    c.duration = (chords[i + 1]?.map (·.start)).getD length - c.start
  weights : ∀ c ∈ chords, c.weight = c.duration.weight packing

@[simp] theorem beatsLength_nil : beatsLength [] = 0 := rfl

@[simp] theorem beatsLength_cons (b : Beat) (rest : List Beat) :
    beatsLength (b :: rest) = b.duration + beatsLength rest := rfl

theorem map_fst_timeline (t : Time) (beats : List Beat) :
    (timeline t beats).map Prod.fst = Time.startsFrom t (beats.map (·.duration)) := by
  induction beats generalizing t with
  | nil => rfl
  | cons b rest ih => simp [timeline, Time.startsFrom, ih]

@[simp] theorem timeline_eq_nil {t : Time} {beats : List Beat} :
    timeline t beats = [] ↔ beats = [] := by
  cases beats <;> simp [timeline]

namespace Stream

/-- The beats that a stream has left, with the moments at which they begin. -/
def ahead (s : Stream) : List (Time × Member) := timeline s.elapsed s.rest

/-- Where a stream will end. -/
def finish (s : Stream) : Time := s.elapsed + beatsLength s.rest

/-! ## One onset -/

/-- What a stream gives to the onset at `t`. -/
def gives (t : Time) (s : Stream) : List Member :=
  if s.elapsed = t then (s.rest.head?.map (·.member)).toList else []

/-- A stream after the onset at `t`. -/
def past (t : Time) (s : Stream) : Stream :=
  if s.elapsed = t then
    match s.rest with
    | [] => s
    | b :: rest => { rest, elapsed := s.elapsed + b.duration }
  else s

/-- A stream has a beat to give, and can go on to its end. -/
def Goes (s : Stream) : Prop :=
  ∃ b rest, s.rest = b :: rest ∧ Time.Formable (· + ·) s.elapsed b.duration

theorem Goes.rest_ne_nil {s : Stream} (h : s.Goes) : s.rest ≠ [] := by
  obtain ⟨b, rest, hr, -⟩ := h
  simp [hr]

/-- The streams that stand at `t` give their beats exactly if each of them has one and can go
on. -/
theorem advance_eq_ok {t : Time} {streams later : List Stream} {members : List Member} :
    advance t streams = .ok (members, later) ↔ (∀ s ∈ streams, s.elapsed = t → s.Goes) ∧
      members = streams.flatMap (gives t) ∧ later = streams.map (past t) := by
  induction streams generalizing members later with
  | nil => simp [advance, eq_comm]
  | cons s others ih =>
    unfold advance
    simp only [List.mem_cons, forall_eq_or_imp, List.flatMap_cons, List.map_cons]
    split
    next ht =>
      split
      next hr =>
        refine iff_of_false (by rintro ⟨⟩) ?_
        rintro ⟨⟨hall, -⟩, -⟩
        exact (hall ht).rest_ne_nil hr
      next b rest hr =>
        have hgoes : s.Goes ↔ Time.Formable (· + ·) s.elapsed b.duration := by simp [Goes, hr]
        split
        next hnone =>
          refine iff_of_false (by rintro ⟨⟩) ?_
          rintro ⟨⟨hall, -⟩, -⟩
          exact Time.add?_eq_none.mp hnone (hgoes.mp (hall ht))
        next elapsed hsome =>
          obtain ⟨hformable, rfl⟩ := Time.add?_eq_some.mp hsome
          simp only [map_eq_ok, Prod.exists, ih, Prod.mk.injEq]
          constructor
          · rintro ⟨_, _, ⟨hothers, rfl, rfl⟩, rfl, rfl⟩
            exact ⟨⟨fun _ => hgoes.mpr hformable, hothers⟩, by simp [gives, ht, hr],
              by simp [past, ht, hr]⟩
          · rintro ⟨⟨-, hothers⟩, rfl, rfl⟩
            exact ⟨_, _, ⟨hothers, rfl, rfl⟩, by simp [gives, ht, hr], by simp [past, ht, hr]⟩
    next ht =>
      simp only [map_eq_ok, Prod.exists, ih, Prod.mk.injEq]
      constructor
      · rintro ⟨_, _, ⟨hothers, rfl, rfl⟩, rfl, rfl⟩
        exact ⟨⟨fun h => absurd h ht, hothers⟩, by simp [gives, ht], by simp [past, ht]⟩
      · rintro ⟨⟨-, hothers⟩, rfl, rfl⟩
        exact ⟨_, _, ⟨hothers, rfl, rfl⟩, by simp [gives, ht], by simp [past, ht]⟩

theorem earliest?_le {streams : List Stream} {t : Time} (h : earliest? streams = some t) :
    ∀ s ∈ streams, t ≤ s.elapsed := by
  induction streams generalizing t with
  | nil => simp
  | cons s rest ih =>
    unfold earliest? at h
    split at h
    next hnone =>
      cases rest with
      | nil => simp_all
      | cons r rest => unfold earliest? at hnone; split at hnone <;> simp at hnone
    next u hu =>
      simp only [Option.some.injEq] at h
      intro r hr
      rcases List.mem_cons.mp hr with rfl | hr
      · split at h <;> linarith
      · have := ih hu r hr
        split at h <;> linarith

theorem earliest?_isSome {streams : List Stream} (h : streams ≠ []) :
    ∃ t, earliest? streams = some t := by
  cases streams with
  | nil => exact absurd rfl h
  | cons s rest => unfold earliest?; split <;> simp

theorem ahead_of_elapsed {s : Stream} {t : Time} (ht : s.elapsed = t) (hs : s.Goes) :
    ∃ m, gives t s = [m] ∧ s.ahead = (t, m) :: (past t s).ahead := by
  obtain ⟨b, rest, hr, -⟩ := hs
  exact ⟨b.member, by simp [gives, ht, hr], by simp [ahead, past, ht, hr, timeline]⟩

theorem past_of_ne {s : Stream} {t : Time} (ht : s.elapsed ≠ t) : past t s = s := by
  simp [past, ht]

theorem gives_of_ne {s : Stream} {t : Time} (ht : s.elapsed ≠ t) : gives t s = [] := by
  simp [gives, ht]

@[simp] theorem finish_past (s : Stream) (t : Time) : (past t s).finish = s.finish := by
  unfold past
  split
  · split
    · rfl
    · rename_i hrest
      simp only [finish, hrest, beatsLength_cons]
      linarith
  · rfl

/-! ## The whole sweep -/

theorem onsets_eq (streams : List Stream) : onsets streams =
    if streams.all fun s => s.rest.isEmpty then .ok ([], streams)
    else match earliest? streams with
      | none => .ok ([], streams)
      | some start => advance start streams >>= fun x =>
        (onsets x.2).map fun y => ({ start, members := x.1 } :: y.1, y.2) := by
  rw [onsets]
  split
  next => rfl
  next =>
    split
    next hnone => rw [hnone]
    next start hstart =>
      rw [hstart]
      split
      next breach hadv =>
        simp only [hadv]
        rfl
      next members later hadv =>
        simp only [hadv]
        rfl

/-- The sweep stops where no beat is left, or goes past one onset. -/
theorem onsets_cases {streams ends : List Stream} {os : List Onset}
    (h : onsets streams = .ok (os, ends)) :
    ((∀ s ∈ streams, s.rest = []) ∧ os = [] ∧ ends = streams) ∨
      ∃ t more, earliest? streams = some t ∧ (∀ s ∈ streams, s.elapsed = t → s.Goes) ∧
        os = { start := t, members := streams.flatMap (gives t) } :: more ∧
        onsets (streams.map (past t)) = .ok (more, ends) := by
  rw [onsets_eq] at h
  split at h
  next hall =>
    simp only [List.all_eq_true, List.isEmpty_iff] at hall
    simp only [Except.ok.injEq, Prod.mk.injEq] at h
    exact .inl ⟨hall, h.1.symm, h.2.symm⟩
  next hall =>
    obtain ⟨t, ht⟩ : ∃ t, earliest? streams = some t :=
      earliest?_isSome (by rintro rfl; simp at hall)
    simp only [ht, bind_eq_ok, map_eq_ok, Prod.exists, Prod.mk.injEq] at h
    obtain ⟨members, later, hadv, more, last, hmore, rfl, rfl⟩ := h
    obtain ⟨hgo, rfl, rfl⟩ := advance_eq_ok.mp hadv
    exact .inr ⟨t, more, ht, hgo, rfl, hmore⟩

/-- Induction along the onsets of a sweep that comes to an end. -/
theorem onsets_induction {motive : List Stream → List Onset → Prop}
    (stop : ∀ streams, (∀ s ∈ streams, s.rest = []) → motive streams [])
    (next : ∀ streams t more, earliest? streams = some t →
      (∀ s ∈ streams, s.elapsed = t → s.Goes) → motive (streams.map (past t)) more →
      motive streams ({ start := t, members := streams.flatMap (gives t) } :: more))
    {streams ends : List Stream} {os : List Onset} (h : onsets streams = .ok (os, ends)) :
    motive streams os := by
  induction os generalizing streams with
  | nil =>
    rcases onsets_cases h with ⟨hrest, -, -⟩ | ⟨t, more, -, -, hos, -⟩
    · exact stop streams hrest
    · cases hos
  | cons o os ih =>
    rcases onsets_cases h with ⟨-, hos, -⟩ | ⟨t, more, ht, hrest, hos, hmore⟩
    · cases hos
    · cases hos
      exact next streams t os ht hrest (ih hmore)

theorem elapsed_of_onsets {streams ends : List Stream} {os : List Onset}
    (h : onsets streams = .ok (os, ends)) : ends.map (·.elapsed) = streams.map finish := by
  induction os generalizing streams with
  | nil =>
    rcases onsets_cases h with ⟨hrest, -, rfl⟩ | ⟨t, more, -, -, hos, -⟩
    · refine List.map_congr_left fun s hs => ?_
      simp [finish, hrest s hs]
    · cases hos
  | cons o os ih =>
    rcases onsets_cases h with ⟨-, hos, -⟩ | ⟨t, more, -, -, hos, hmore⟩
    · cases hos
    · cases hos
      rw [ih hmore, List.map_map]
      exact List.map_congr_left fun s _ => finish_past s t

/-- A stream finds the moments of its beats among the onsets, in their order. -/
theorem ahead_sublist {streams ends : List Stream} {os : List Onset}
    (h : onsets streams = .ok (os, ends)) :
    ∀ s ∈ streams, (s.ahead.map Prod.fst).Sublist (os.map (·.start)) := by
  refine onsets_induction (motive := fun streams os =>
    ∀ s ∈ streams, (s.ahead.map Prod.fst).Sublist (os.map (·.start))) ?_ ?_ h
  · intro streams hrest s hs
    simp [ahead, hrest s hs, timeline]
  · intro streams t more _ hrest ih s hs
    have hpast := ih (past t s) (List.mem_map_of_mem hs)
    by_cases ht : s.elapsed = t
    · obtain ⟨m, -, hahead⟩ := ahead_of_elapsed ht (hrest s hs ht)
      rw [hahead]
      exact hpast.cons_cons t
    · rw [past_of_ne ht] at hpast
      exact hpast.cons t

theorem exists_ahead {streams ends : List Stream} {os : List Onset}
    (h : onsets streams = .ok (os, ends)) :
    ∀ o ∈ os, ∃ s ∈ streams, o.start ∈ s.ahead.map Prod.fst := by
  refine onsets_induction (motive := fun streams os =>
    ∀ o ∈ os, ∃ s ∈ streams, o.start ∈ s.ahead.map Prod.fst) ?_ ?_ h
  · simp
  · intro streams t more ht hrest ih o ho
    rcases List.mem_cons.mp ho with rfl | ho
    · obtain ⟨s, hs, hst⟩ := earliest?_mem ht
      obtain ⟨m, -, hahead⟩ := ahead_of_elapsed hst (hrest s hs hst)
      exact ⟨s, hs, by simp [hahead]⟩
    · obtain ⟨r, hr, hro⟩ := ih o ho
      obtain ⟨s, hs, rfl⟩ := List.mem_map.mp hr
      refine ⟨s, hs, ?_⟩
      by_cases hst : s.elapsed = t
      · obtain ⟨m, -, hahead⟩ := ahead_of_elapsed hst (hrest s hs hst)
        simp [hahead, hro]
      · rwa [past_of_ne hst] at hro

/-- An onset holds the beats that begin at it, as long as no other onset is at
the same moment. -/
theorem members_of_onsets {streams ends : List Stream} {os : List Onset}
    (h : onsets streams = .ok (os, ends)) (hnodup : (os.map (·.start)).Nodup) :
    ∀ o ∈ os, o.members =
      streams.flatMap fun s => (s.ahead.filter (·.1 = o.start)).map Prod.snd := by
  induction os generalizing streams with
  | nil => simp
  | cons o os ih =>
    rcases onsets_cases h with ⟨-, hos, -⟩ | ⟨t, more, ht, hrest, hos, hmore⟩
    · cases hos
    cases hos
    simp only [List.map_cons, List.nodup_cons] at hnodup
    -- what a stream still has ahead after `t` does not begin at `t`
    have hlater : ∀ s ∈ streams, ∀ x ∈ (past t s).ahead, x.1 ≠ t := by
      intro s hs x hx hxt
      have := (ahead_sublist hmore (past t s) (List.mem_map_of_mem hs)).subset
        (List.mem_map_of_mem hx)
      exact hnodup.1 (hxt ▸ this)
    intro o ho
    rcases List.mem_cons.mp ho with rfl | ho
    · refine List.flatMap_congr fun s hs => ?_
      have hnone : (past t s).ahead.filter (·.1 = t) = [] := by
        simpa using hlater s hs
      by_cases hst : s.elapsed = t
      · obtain ⟨m, hgives, hahead⟩ := ahead_of_elapsed hst (hrest s hs hst)
        simp [hgives, hahead, hnone]
      · rw [past_of_ne hst] at hnone
        simp [gives_of_ne hst, hnone]
    · have hot : o.start ≠ t := fun he => hnodup.1 (he ▸ List.mem_map_of_mem ho)
      rw [ih hmore hnodup.2 o ho, List.flatMap_map]
      refine List.flatMap_congr fun s hs => ?_
      by_cases hst : s.elapsed = t
      · obtain ⟨m, -, hahead⟩ := ahead_of_elapsed hst (hrest s hs hst)
        simp [hahead, Ne.symm hot]
      · rw [past_of_ne hst]

/-! ## Streams that fill the measure -/

/-- What a stream has left can be added up. -/
def Addable (s : Stream) : Prop := Time.Addable s.elapsed (s.rest.map (·.duration))

theorem Addable.goes {s : Stream} (h : s.Addable) (hr : s.rest ≠ []) : s.Goes := by
  obtain ⟨b, rest, hr⟩ := List.exists_cons_of_ne_nil hr
  simp only [Addable, hr, List.map_cons, Time.Addable] at h
  exact ⟨b, rest, hr, h.1⟩

theorem addable_past {s : Stream} {t : Time} (hgo : s.elapsed = t → s.Goes) :
    (past t s).Addable ↔ s.Addable := by
  by_cases hst : s.elapsed = t
  · obtain ⟨b, rest, hr, hformable⟩ := hgo hst
    subst hst
    simp [past, hr, Addable, Time.Addable, hformable]
  · rw [past_of_ne hst]

theorem addable_of_onsets {streams ends : List Stream} {os : List Onset}
    (h : onsets streams = .ok (os, ends)) : ∀ s ∈ streams, s.Addable := by
  refine onsets_induction (motive := fun streams _ => ∀ s ∈ streams, s.Addable) ?_ ?_ h
  · intro streams hrest s hs
    simp [Addable, hrest s hs, Time.Addable]
  · intro streams t more _ hgo ih s hs
    exact (addable_past (hgo s hs)).mp (ih (past t s) (List.mem_map_of_mem hs))

/-- A stream on its way through a measure that its beats fill. -/
structure OnCourse (length : Time) (s : Stream) : Prop where
  pos : ∀ b ∈ s.rest, 0 < b.duration
  ends : s.finish = length
  addable : s.Addable

theorem rest_past_subset (t : Time) (s : Stream) : (past t s).rest ⊆ s.rest := by
  unfold past
  split
  · split
    · exact fun _ hb => hb
    next hr => exact fun b hb => by simp [hr, hb]
  · exact fun _ hb => hb

theorem OnCourse.past {length t : Time} {s : Stream} (h : s.OnCourse length)
    (hgo : s.elapsed = t → s.Goes) : (past t s).OnCourse length where
  pos b hb := h.pos b (rest_past_subset t s hb)
  ends := (finish_past s t).trans h.ends
  addable := (addable_past hgo).mpr h.addable

theorem beatsLength_pos {beats : List Beat} (h : ∀ b ∈ beats, 0 < b.duration) (hne : beats ≠ []) :
    0 < beatsLength beats := by
  induction beats with
  | nil => exact absurd rfl hne
  | cons b rest ih =>
    have hb := h b (by simp)
    by_cases hr : rest = []
    · simp [hr, hb]
    · have := ih (fun c hc => h c (by simp [hc])) hr
      simp only [beatsLength_cons]
      linarith

/-- A stream on course has a beat left exactly until the measure ends. -/
theorem OnCourse.rest_eq_nil_iff {length : Time} {s : Stream} (h : s.OnCourse length) :
    s.rest = [] ↔ s.elapsed = length := by
  have hfinish := h.ends
  unfold finish at hfinish
  constructor
  · intro hr
    simpa [hr] using hfinish
  · intro he
    by_contra hr
    have := beatsLength_pos h.pos hr
    linarith

theorem OnCourse.elapsed_le {length : Time} {s : Stream} (h : s.OnCourse length) :
    s.elapsed ≤ length := by
  by_cases hr : s.rest = []
  · exact (h.rest_eq_nil_iff.mp hr).le
  · have hfinish := h.ends
    unfold finish at hfinish
    have := beatsLength_pos h.pos hr
    linarith

/-- The streams that begin at the earliest onset give what they hold there. -/
theorem onsets_of_advance {streams ends : List Stream} {t : Time} {more : List Onset} {r : Stream}
    (hr : r ∈ streams) (hrest : r.rest ≠ []) (ht : earliest? streams = some t)
    (hgo : ∀ s ∈ streams, s.elapsed = t → s.Goes)
    (hmore : onsets (streams.map (past t)) = .ok (more, ends)) :
    onsets streams =
      .ok ({ start := t, members := streams.flatMap (gives t) } :: more, ends) := by
  have hadv := advance_eq_ok.mpr ⟨hgo, rfl, rfl⟩
  have hnot : ¬ (streams.all fun s => s.rest.isEmpty) = true := by
    simp only [List.all_eq_true, List.isEmpty_iff]
    exact fun hall => hrest (hall r hr)
  rw [onsets_eq, if_neg hnot, ht]
  simp only [hadv, bind, Except.bind, hmore]
  rfl

theorem OnCourse.lt_elapsed_past {length t : Time} {s : Stream} (h : s.OnCourse length)
    (hle : t ≤ s.elapsed) (hgo : s.elapsed = t → s.Goes) : t < (Stream.past t s).elapsed := by
  by_cases hst : s.elapsed = t
  · obtain ⟨b, rest, hr, -⟩ := hgo hst
    have hb := h.pos b (by simp [hr])
    simp only [Stream.past, hst, hr, if_true]
    linarith
  · rw [past_of_ne hst]
    exact lt_of_le_of_ne hle (Ne.symm hst)

/-- Streams that fill the measure are swept to its end, from onset to later
onset. -/
theorem onsets_of_onCourse {length : Time} {streams : List Stream}
    (h : ∀ s ∈ streams, s.OnCourse length) :
    ∃ os ends, onsets streams = .ok (os, ends) ∧ (os.map (·.start)).Pairwise (· < ·) ∧
      (∀ o ∈ os, o.start < length) ∧
      ∀ t, (∀ s ∈ streams, t < s.elapsed) → ∀ o ∈ os, t < o.start := by
  generalize hn : remaining streams = n
  induction n using Nat.strong_induction_on generalizing streams with
  | _ n ih =>
  by_cases hall : ∀ s ∈ streams, s.rest = []
  · refine ⟨[], streams, ?_, by simp⟩
    rw [onsets, if_pos (by simpa using hall)]
  · push Not at hall
    obtain ⟨r, hr, hrest⟩ := hall
    obtain ⟨t, ht⟩ := earliest?_isSome (List.ne_nil_of_mem hr)
    have hle := earliest?_le ht
    -- the earliest stream is before the end, so each that stands with it goes on
    have hlt : t < length :=
      (hle r hr).trans_lt (lt_of_le_of_ne (h r hr).elapsed_le fun he =>
        hrest ((h r hr).rest_eq_nil_iff.mpr he))
    have hgo : ∀ s ∈ streams, s.elapsed = t → s.Goes := by
      refine fun s hs hst => (h s hs).addable.goes fun hnil => ?_
      have := (h s hs).rest_eq_nil_iff.mp hnil
      linarith
    have hcourse : ∀ s ∈ streams.map (past t), s.OnCourse length := by
      simp only [List.mem_map, forall_exists_index, and_imp, forall_apply_eq_imp_iff₂]
      exact fun s hs => (h s hs).past (hgo s hs)
    have hlater : ∀ s ∈ streams.map (past t), t < s.elapsed := by
      simp only [List.mem_map, forall_exists_index, and_imp, forall_apply_eq_imp_iff₂]
      exact fun s hs => (h s hs).lt_elapsed_past (hle s hs) (hgo s hs)
    obtain ⟨more, ends, hmore, hasc, hend, hfrom⟩ :=
      ih _ (hn ▸ remaining_advance_lt (advance_eq_ok.mpr ⟨hgo, rfl, rfl⟩) ht) hcourse rfl
    refine ⟨_, ends, onsets_of_advance hr hrest ht hgo hmore, ?_, ?_, ?_⟩
    · simp only [List.map_cons, List.pairwise_cons, List.mem_map, forall_exists_index, and_imp,
        forall_apply_eq_imp_iff₂]
      exact ⟨hfrom t hlater, hasc⟩
    · simp only [List.mem_cons, forall_eq_or_imp]
      exact ⟨hlt, hend⟩
    · intro u hu
      obtain ⟨s, hs, hst⟩ := earliest?_mem ht
      have hut : u < t := hst ▸ hu s hs
      simp only [List.mem_cons, forall_eq_or_imp]
      exact ⟨hut, hfrom u fun s hs => hut.trans (hlater s hs)⟩

/-! ## Streams that stay in range -/

theorem advance_ne_overflow {t : Time} {streams : List Stream} (h : ∀ s ∈ streams, s.Addable) :
    advance t streams ≠ .error .overflow := by
  induction streams with
  | nil => exact (nomatch ·)
  | cons s others ih =>
    simp only [List.mem_cons, forall_eq_or_imp] at h
    have ih := ih h.2
    unfold advance
    split
    · split
      · exact (nomatch ·)
      next b rest hr =>
        split
        next hnone =>
          obtain ⟨c, _, hc, hformable⟩ := h.1.goes (by simp [hr])
          obtain ⟨rfl, -⟩ := List.cons.inj (hr.symm.trans hc)
          exact absurd hformable (Time.add?_eq_none.mp hnone)
        next => cases hadv : advance t others <;> simp_all [Except.map]
    · cases hadv : advance t others <;> simp_all [Except.map]

theorem onsets_ne_overflow {streams : List Stream} (h : ∀ s ∈ streams, s.Addable) :
    onsets streams ≠ .error .overflow := by
  generalize hn : remaining streams = n
  induction n using Nat.strong_induction_on generalizing streams with
  | _ n ih =>
  rw [onsets_eq]
  split
  · exact (nomatch ·)
  cases ht : earliest? streams with
  | none => exact (nomatch ·)
  | some t =>
    cases hadv : advance t streams with
    | error e =>
      simp only [hadv, bind, Except.bind]
      exact fun he => advance_ne_overflow h (Except.error.inj he ▸ hadv)
    | ok r =>
      obtain ⟨hgo, -, hlater⟩ := advance_eq_ok.mp hadv
      have hnext : onsets r.2 ≠ .error .overflow := by
        refine ih _ (hn ▸ remaining_advance_lt hadv ht) ?_ rfl
        rw [hlater]
        simp only [List.mem_map, forall_exists_index, and_imp, forall_apply_eq_imp_iff₂]
        exact fun s hs => (addable_past (hgo s hs)).mpr (h s hs)
      simp only [hadv, bind, Except.bind]
      cases hmore : onsets r.2 <;> simp_all [Except.map]

theorem ascending_of_nonneg {streams ends : List Stream} {os : List Onset}
    (h : onsets streams = .ok (os, ends))
    (hnonneg : ∀ s ∈ streams, ∀ b ∈ s.rest, 0 ≤ b.duration) :
    (os.map (·.start)).Pairwise (· ≤ ·) := by
  induction os generalizing streams with
  | nil => simp
  | cons o os ih =>
    rcases onsets_cases h with ⟨-, hos, -⟩ | ⟨t, more, ht, hgo, hos, hmore⟩
    · cases hos
    cases hos
    have hpast : ∀ s ∈ streams.map (past t), ∀ b ∈ s.rest, 0 ≤ b.duration := by
      simp only [List.mem_map, forall_exists_index, and_imp, forall_apply_eq_imp_iff₂]
      exact fun s hs b hb => hnonneg s hs b (rest_past_subset t s hb)
    refine List.pairwise_cons.mpr ⟨fun u hu => ?_, ih hmore hpast⟩
    obtain ⟨o, ho, rfl⟩ := List.mem_map.mp hu
    obtain ⟨r, hr, hro⟩ := exists_ahead hmore o ho
    obtain ⟨s, hs, rfl⟩ := List.mem_map.mp hr
    -- what is ahead of a stream past the onset was ahead of it before
    have hro : o.start ∈ s.ahead.map Prod.fst := by
      by_cases hst : s.elapsed = t
      · obtain ⟨m, -, hahead⟩ := ahead_of_elapsed hst (hgo s hs hst)
        simp [hahead, hro]
      · rwa [past_of_ne hst] at hro
    rw [ahead, map_fst_timeline] at hro
    exact (earliest?_le ht s hs).trans
      (Time.bounds_of_startsFrom (by simpa using hnonneg s hs) _ hro).1

/-- The onsets hold all beats of the streams and nothing else. -/
theorem members_perm {streams ends : List Stream} {os : List Onset}
    (h : onsets streams = .ok (os, ends)) :
    (os.flatMap (·.members)).Perm (streams.flatMap fun s => s.ahead.map Prod.snd) := by
  refine onsets_induction (motive := fun streams os => (os.flatMap (·.members)).Perm
    (streams.flatMap fun s => s.ahead.map Prod.snd)) ?_ ?_ h
  · intro streams hrest
    have : (streams.flatMap fun s => s.ahead.map Prod.snd) = [] := by
      simp only [List.flatMap_eq_nil_iff, List.map_eq_nil_iff]
      exact fun s hs => by simp [ahead, hrest s hs]
    simp [this]
  · intro streams t more _ hrest ih
    rw [List.flatMap_map] at ih
    have hsplit : (streams.flatMap fun s => s.ahead.map Prod.snd) =
        streams.flatMap fun s => gives t s ++ (past t s).ahead.map Prod.snd := by
      refine List.flatMap_congr fun s hs => ?_
      by_cases hst : s.elapsed = t
      · obtain ⟨m, hgives, hahead⟩ := ahead_of_elapsed hst (hrest s hs hst)
        simp [hgives, hahead]
      · simp [gives_of_ne hst, past_of_ne hst]
    rw [hsplit, List.flatMap_cons]
    exact (ih.append_left _).trans (List.flatMap_append_perm ..)

end Stream

namespace Onset

/-- The chords of onsets, whether or not they take time. -/
def spanned (packing : Float) (length : Time) : List Onset → List Chord
  | [] => []
  | o :: rest =>
    let duration := (rest.head?.map (·.start)).getD length - o.start
    { start := o.start, duration, weight := duration.weight packing, members := o.members } ::
      spanned packing length rest

variable {packing : Float} {length : Time}

theorem spaced_cons {o : Onset} {rest : List Onset} :
    Time.Spaced length ((o :: rest).map (·.start)) ↔
      Time.Formable (· - ·) ((rest.head?.map (·.start)).getD length) o.start ∧
        Time.Spaced length (rest.map (·.start)) := by
  rw [Time.Spaced, List.map_cons, List.cons_append, List.isChain_cons]
  cases rest <;> simp [Time.Spaced]

theorem chords_eq_ok_iff {os : List Onset} {cs : List Chord} :
    chords packing length os = .ok cs ↔ cs = spanned packing length os ∧
      (∀ c ∈ spanned packing length os, 0 < c.duration) ∧
      Time.Spaced length (os.map (·.start)) := by
  induction os generalizing cs with
  | nil => simp [chords, spanned, Time.Spaced, eq_comm]
  | cons o rest ih =>
    simp only [chords, spanned, List.mem_cons, forall_eq_or_imp, spaced_cons]
    split
    next hnone =>
      refine iff_of_false (by rintro ⟨⟩) ?_
      rintro ⟨-, -, hformable, -⟩
      exact Time.sub?_eq_none.mp hnone hformable
    next duration hsome =>
      obtain ⟨hformable, rfl⟩ := Time.sub?_eq_some.mp hsome
      split
      next hle =>
        refine iff_of_false (by rintro ⟨⟩) ?_
        rintro ⟨-, ⟨hpos, -⟩, -⟩
        exact not_lt.mpr hle hpos
      next hnot =>
        simp only [map_eq_ok, ih]
        constructor
        · rintro ⟨_, ⟨rfl, hpos, hspaced⟩, rfl⟩
          exact ⟨rfl, ⟨not_le.mp hnot, hpos⟩, hformable, hspaced⟩
        · rintro ⟨rfl, ⟨-, hpos⟩, -, hspaced⟩
          exact ⟨_, ⟨rfl, hpos, hspaced⟩, rfl⟩

theorem chords_ne_overflow {os : List Onset} (h : Time.Spaced length (os.map (·.start))) :
    chords packing length os ≠ .error .overflow := by
  induction os with
  | nil => exact (nomatch ·)
  | cons o rest ih =>
    obtain ⟨hformable, hrest⟩ := spaced_cons.mp h
    have ih := ih hrest
    simp only [chords]
    split
    next hnone => exact absurd hformable (Time.sub?_eq_none.mp hnone)
    next =>
      split
      · exact (nomatch ·)
      · cases hmore : chords packing length rest <;> simp_all [Except.map]

theorem spanned_starts (packing : Float) (length : Time) (os : List Onset) :
    (spanned packing length os).map (·.start) = os.map (·.start) := by
  induction os with
  | nil => rfl
  | cons o rest ih => simp [spanned, ih]

theorem spanned_members (packing : Float) (length : Time) (os : List Onset) :
    (spanned packing length os).map (·.members) = os.map (·.members) := by
  induction os with
  | nil => rfl
  | cons o rest ih => simp [spanned, ih]

theorem spanned_head? (os : List Onset) :
    (spanned packing length os).head?.map (·.start) = os.head?.map (·.start) := by
  cases os <;> simp [spanned]

theorem spanned_duration {os : List Onset} {i : Nat} {c : Chord}
    (h : (spanned packing length os)[i]? = some c) :
    c.duration = ((spanned packing length os)[i + 1]?.map (·.start)).getD length - c.start ∧
      c.weight = c.duration.weight packing := by
  induction os generalizing i with
  | nil => simp [spanned] at h
  | cons o rest ih =>
    cases i with
    | zero =>
      simp only [spanned, List.getElem?_cons_zero, Option.some.injEq] at h
      subst h
      simp [spanned, ← List.head?_eq_getElem?, spanned_head?]
    | succ i => exact ih (by simpa [spanned] using h)

/-- The chords take time exactly if the onsets follow one another within the
measure. -/
theorem spanned_pos_iff {os : List Onset} :
    (∀ c ∈ spanned packing length os, 0 < c.duration) ↔
      (os.map (·.start)).Pairwise (· < ·) ∧ ∀ o ∈ os, o.start < length := by
  induction os with
  | nil => simp [spanned]
  | cons o rest ih =>
    simp only [spanned, List.mem_cons, forall_eq_or_imp, ih, List.map_cons, List.pairwise_cons,
      List.mem_map, forall_exists_index, and_imp, forall_apply_eq_imp_iff₂]
    cases rest with
    | nil => simp
    | cons o' rest =>
      simp only [List.head?_cons, Option.map_some, Option.getD_some, sub_pos, List.map_cons,
        List.pairwise_cons, List.mem_map, forall_exists_index, and_imp, forall_apply_eq_imp_iff₂,
        List.mem_cons, forall_eq_or_imp]
      constructor
      · rintro ⟨hlt, ⟨hlater, hasc⟩, hend, hends⟩
        exact ⟨⟨⟨hlt, fun p hp => hlt.trans (hlater p hp)⟩, hlater, hasc⟩, hlt.trans hend, hend,
          hends⟩
      · rintro ⟨⟨⟨hlt, -⟩, hlater, hasc⟩, -, hend, hends⟩
        exact ⟨hlt, ⟨hlater, hasc⟩, hend, hends⟩

/-- The chords follow one another without a gap up to the end. -/
theorem spanned_total (os : List Onset) :
    Time.total ((spanned packing length os).map (·.duration)) =
      length - (os.head?.map (·.start)).getD length := by
  induction os with
  | nil => simp [spanned]
  | cons o rest ih =>
    simp only [spanned, List.map_cons, Time.total_cons, ih, List.head?_cons, Option.map_some,
      Option.getD_some]
    linarith

end Onset

namespace Aligned

variable {packing : Float} {length : Time} {streams : List (List Beat)} {cs ds : List Chord}

theorem unique (h : Aligned packing length streams cs) (h' : Aligned packing length streams ds) :
    cs = ds := by
  have hstarts : cs.map (·.start) = ds.map (·.start) :=
    h.ascending.eq_of_mem_iff h'.ascending fun t => (h.mem_starts t).trans (h'.mem_starts t).symm
  have hget : ∀ i : Nat, cs[i]?.map (·.start) = ds[i]?.map (·.start) := by
    intro i
    rw [← List.getElem?_map, ← List.getElem?_map, hstarts]
  refine List.ext_getElem? fun i => ?_
  have hi := hget i
  cases hc : cs[i]? with
  | none => simpa [hc, eq_comm] using hi
  | some c =>
    cases hd : ds[i]? with
    | none => simp [hc, hd] at hi
    | some d =>
      have hcs := List.mem_of_getElem? hc
      have hds := List.mem_of_getElem? hd
      have hstart : c.start = d.start := by simpa [hc, hd] using hi
      have hdur : c.duration = d.duration := by
        rw [h.durations i c hc, h'.durations i d hd, hget, hstart]
      have hweight : c.weight = d.weight := by
        rw [h.weights c hcs, h'.weights d hds, hdur]
      have hmembers : c.members = d.members := by
        rw [h.members c hcs, h'.members d hds, hstart]
      cases c
      cases d
      simp_all

end Aligned

namespace Stream

variable {packing : Float} {length : Time} {streams : List (List Beat)} {cs : List Chord}

/-- What the sweep of a measure has to get through. -/
theorem chords_eq_ok {cs : List Chord} (h : chords packing length streams = .ok cs) :
    (∀ beats ∈ streams, beats ≠ []) ∧
      ∃ os ends, onsets (streams.map fun rest => { rest }) = .ok (os, ends) ∧
        (∀ s ∈ ends, s.elapsed = length) ∧ Onset.chords packing length os = .ok cs := by
  unfold chords at h
  split at h
  next => cases h
  next hempty =>
    simp only [List.any_eq_true, List.isEmpty_iff, not_exists, not_and] at hempty
    cases hos : onsets (streams.map fun rest => { rest }) with
    | error e => simp [hos, bind, Except.bind] at h
    | ok r =>
      obtain ⟨os, ends⟩ := r
      simp only [hos, bind, Except.bind] at h
      split at h
      next => cases h
      next hlate =>
        refine ⟨hempty, os, ends, rfl, ?_, h⟩
        simpa [List.find?_eq_none] using hlate

theorem moments_sublist {os : List Onset} {ends : List Stream}
    (h : onsets (streams.map fun rest => { rest }) = .ok (os, ends)) {beats : List Beat}
    (hb : beats ∈ streams) : (moments beats).Sublist (os.map (·.start)) :=
  ahead_sublist h { rest := beats } (List.mem_map_of_mem hb)

theorem mem_onsets_iff {os : List Onset} {ends : List Stream}
    (h : onsets (streams.map fun rest => { rest }) = .ok (os, ends)) {t : Time} :
    t ∈ os.map (·.start) ↔ ∃ beats ∈ streams, t ∈ moments beats := by
  constructor
  · intro ht
    obtain ⟨o, ho, rfl⟩ := List.mem_map.mp ht
    obtain ⟨s, hs, hst⟩ := exists_ahead h o ho
    obtain ⟨beats, hb, rfl⟩ := List.mem_map.mp hs
    exact ⟨beats, hb, hst⟩
  · rintro ⟨beats, hb, ht⟩
    exact (moments_sublist h hb).subset ht

/-- The streams of a sweep that comes to its end stay in range if its onsets can be spaced. -/
theorem inRange_iff_spaced {os : List Onset} {ends : List Stream}
    (h : onsets (streams.map fun rest => { rest }) = .ok (os, ends))
    (hasc : (os.map (·.start)).Pairwise (· ≤ ·)) (hle : ∀ t ∈ os.map (·.start), t ≤ length)
    (hends : ∀ beats ∈ streams, 0 + beatsLength beats = length) :
    InRange length (streams.map fun beats => beats.map (·.duration)) ↔
      Time.Spaced length (os.map (·.start)) := by
  have haddable : ∀ beats ∈ streams, Time.Addable 0 (beats.map (·.duration)) := fun beats hb =>
    addable_of_onsets h { rest := beats } (List.mem_map_of_mem hb)
  have hstarts : ∀ t, t ∈ os.map (·.start) ↔
      t ∈ (streams.map fun beats => beats.map (·.duration)).flatMap (Time.startsFrom 0) := by
    intro t
    rw [mem_onsets_iff h, List.flatMap_map]
    simp only [List.mem_flatMap, moments, map_fst_timeline]
  rw [InRange, and_iff_right (by simpa using haddable), ← Time.gapsFormable_congr hstarts]
  rcases streams.eq_nil_or_concat with rfl | ⟨_, beats, rfl⟩
  · rcases onsets_cases h with ⟨-, rfl, -⟩ | ⟨t, -, ht, -⟩
    · simp [Time.GapsFormable, Time.Spaced]
    · simp [earliest?] at ht
  refine (Time.spaced_iff hasc hle (fun t ht => ?_) ?_).symm
  · obtain ⟨beats, hb, ht⟩ := (mem_onsets_iff h).mp ht
    rw [moments, map_fst_timeline] at ht
    exact (haddable beats hb).held_starts Time.held_zero t ht
  · rw [← hends beats (by simp)]
    exact (haddable beats (by simp)).held_end Time.held_zero

theorem pos_of_ascending {length t : Time} {beats : List Beat}
    (hasc : ((timeline t beats).map Prod.fst).Pairwise (· < ·))
    (hlt : ∀ u ∈ (timeline t beats).map Prod.fst, u < length)
    (hend : t + beatsLength beats = length) : ∀ b ∈ beats, 0 < b.duration := by
  induction beats generalizing t with
  | nil => simp
  | cons b rest ih =>
    simp only [timeline, List.map_cons, List.pairwise_cons, List.mem_cons,
      forall_eq_or_imp] at hasc hlt
    rw [beatsLength_cons, ← add_assoc] at hend
    simp only [List.mem_cons, forall_eq_or_imp]
    refine ⟨?_, ih hasc.2 hlt.2 hend⟩
    cases rest with
    | nil =>
      simp only [beatsLength_nil, add_zero] at hend
      linarith [hlt.1]
    | cons c rest =>
      have := hasc.1 (t + b.duration) (by simp [timeline])
      linarith

theorem beatsLength_of_ends {os : List Onset} {ends : List Stream}
    (h : onsets (streams.map fun rest => { rest }) = .ok (os, ends))
    (hends : ∀ s ∈ ends, s.elapsed = length) :
    ∀ beats ∈ streams, 0 + beatsLength beats = length := by
  intro beats hb
  have hfin : finish { rest := beats } ∈ ends.map (·.elapsed) := by
    rw [elapsed_of_onsets h, List.map_map]
    exact List.mem_map.mpr ⟨beats, hb, rfl⟩
  obtain ⟨s, hs, hse⟩ := List.mem_map.mp hfin
  exact hse.symm.trans (hends s hs)

theorem fills_of_chords (h : chords packing length streams = .ok cs) :
    ∀ beats ∈ streams, Fills length (beats.map (·.duration)) := by
  obtain ⟨hne, os, ends, hos, hends, hcs⟩ := chords_eq_ok h
  obtain ⟨hasc, hlt⟩ := Onset.spanned_pos_iff.mp (Onset.chords_eq_ok_iff.mp hcs).2.1
  intro beats hb
  have hend := beatsLength_of_ends hos hends beats hb
  refine ⟨by simpa using hne beats hb, ?_, by simpa [beatsLength] using hend⟩
  simp only [List.mem_map, forall_exists_index, and_imp, forall_apply_eq_imp_iff₂]
  refine pos_of_ascending (hasc.sublist (moments_sublist hos hb)) (fun u hu => ?_) hend
  obtain ⟨o, ho, rfl⟩ := List.mem_map.mp ((moments_sublist hos hb).subset hu)
  exact hlt o ho

theorem inRange_of_chords (h : chords packing length streams = .ok cs) :
    InRange length (streams.map fun beats => beats.map (·.duration)) := by
  obtain ⟨-, os, ends, hos, hends, hcs⟩ := chords_eq_ok h
  obtain ⟨-, hpos, hspaced⟩ := Onset.chords_eq_ok_iff.mp hcs
  obtain ⟨hasc, hlt⟩ := Onset.spanned_pos_iff.mp hpos
  refine (inRange_iff_spaced hos (hasc.imp le_of_lt) (fun t ht => ?_)
    (beatsLength_of_ends hos hends)).mpr hspaced
  obtain ⟨o, ho, rfl⟩ := List.mem_map.mp ht
  exact (hlt o ho).le

theorem aligned_of_chords (h : chords packing length streams = .ok cs) :
    Aligned packing length streams cs := by
  obtain ⟨-, os, ends, hos, -, hcs⟩ := chords_eq_ok h
  obtain ⟨rfl, hpos, -⟩ := Onset.chords_eq_ok_iff.mp hcs
  obtain ⟨hasc, -⟩ := Onset.spanned_pos_iff.mp hpos
  have hstarts := Onset.spanned_starts packing length os
  constructor
  · rwa [hstarts]
  · exact fun t => hstarts ▸ mem_onsets_iff hos
  · intro c hc
    obtain ⟨i, hi⟩ := List.getElem?_of_mem hc
    have hstart : os[i]?.map (·.start) = some c.start := by
      rw [← List.getElem?_map, ← hstarts, List.getElem?_map, hi, Option.map_some]
    have hmem : os[i]?.map (·.members) = some c.members := by
      rw [← List.getElem?_map, ← Onset.spanned_members packing length os,
        List.getElem?_map, hi, Option.map_some]
    obtain ⟨o, ho, hos'⟩ := Option.map_eq_some_iff.mp hstart
    have ho' : o.members = c.members := by simpa [ho] using hmem
    have := members_of_onsets hos (hasc.imp ne_of_lt) o (List.mem_of_getElem? ho)
    rw [← ho', ← hos', this, List.flatMap_map]
    rfl
  · exact fun i c hi => (Onset.spanned_duration hi).1
  · intro c hc
    obtain ⟨i, hi⟩ := List.getElem?_of_mem hc
    exact (Onset.spanned_duration hi).2

theorem exists_chords_of_fills (h : ∀ beats ∈ streams, Fills length (beats.map (·.duration)))
    (hrange : InRange length (streams.map fun beats => beats.map (·.duration))) :
    ∃ cs, chords packing length streams = .ok cs := by
  have hcourse : ∀ s ∈ streams.map fun rest => ({ rest } : Stream), s.OnCourse length := by
    intro s hs
    obtain ⟨beats, hb, rfl⟩ := List.mem_map.mp hs
    obtain ⟨-, hpos, htotal⟩ := h beats hb
    refine ⟨fun b hb => hpos _ (List.mem_map_of_mem hb), ?_, hrange.1 _ (List.mem_map_of_mem hb)⟩
    simpa [finish, beatsLength] using htotal
  obtain ⟨os, ends, hos, hasc, hlt, -⟩ := onsets_of_onCourse hcourse
  have hends : ∀ s ∈ ends, s.elapsed = length := by
    intro s hs
    have := List.mem_map_of_mem (f := Stream.elapsed) hs
    rw [elapsed_of_onsets hos] at this
    obtain ⟨r, hr, hrs⟩ := List.mem_map.mp this
    exact hrs.symm.trans (hcourse r hr).ends
  have hlate : ends.find? (fun s => s.elapsed != length) = none := by
    simpa [List.find?_eq_none] using hends
  have hempty : ¬ streams.any List.isEmpty = true := by
    simp only [List.any_eq_true, List.isEmpty_iff, not_exists, not_and]
    exact fun beats hb hnil => (h beats hb).1 (by simp [hnil])
  have hspaced : Time.Spaced length (os.map (·.start)) := by
    refine (inRange_iff_spaced hos (hasc.imp le_of_lt) (fun t ht => ?_)
      (beatsLength_of_ends hos hends)).mp hrange
    obtain ⟨o, ho, rfl⟩ := List.mem_map.mp ht
    exact (hlt o ho).le
  refine ⟨Onset.spanned packing length os, ?_⟩
  unfold chords
  rw [if_neg hempty, hos]
  simp only [bind, Except.bind, hlate]
  exact Onset.chords_eq_ok_iff.mpr ⟨rfl, Onset.spanned_pos_iff.mpr ⟨hasc, hlt⟩, hspaced⟩

/-- **The chords of streams.** A measure has chords exactly if every stream fills it and its
times can be formed, and they are the ones that align its streams. -/
theorem chords_eq_ok_iff : chords packing length streams = .ok cs ↔
    (∀ beats ∈ streams, Fills length (beats.map (·.duration))) ∧
      InRange length (streams.map fun beats => beats.map (·.duration)) ∧
      Aligned packing length streams cs := by
  refine ⟨fun h => ⟨fills_of_chords h, inRange_of_chords h, aligned_of_chords h⟩,
    fun ⟨hfills, hrange, haligned⟩ => ?_⟩
  obtain ⟨ds, hds⟩ : ∃ ds, chords packing length streams = .ok ds :=
    exists_chords_of_fills hfills hrange
  rw [hds, haligned.unique (aligned_of_chords hds)]

theorem exists_chords_iff : (∃ cs, chords packing length streams = .ok cs) ↔
    (∀ beats ∈ streams, Fills length (beats.map (·.duration))) ∧
      InRange length (streams.map fun beats => beats.map (·.duration)) :=
  ⟨fun ⟨_, h⟩ => ⟨fills_of_chords h, inRange_of_chords h⟩,
    fun ⟨hfills, hrange⟩ => exists_chords_of_fills hfills hrange⟩

/-- A measure in range that has no chords is stopped by one of the faults that its beats account
for. -/
theorem chords_ne_overflow (hrange : InRange length (streams.map fun beats => beats.map (·.duration)))
    (hnonneg : ∀ beats ∈ streams, ∀ b ∈ beats, 0 ≤ b.duration) :
    chords packing length streams ≠ .error .overflow := by
  have haddable : ∀ s ∈ streams.map fun rest => ({ rest } : Stream), s.Addable := by
    simp only [List.mem_map, forall_exists_index, and_imp, forall_apply_eq_imp_iff₂]
    exact fun beats hb => hrange.1 _ (List.mem_map_of_mem hb)
  unfold chords
  split
  · exact (nomatch ·)
  cases hos : onsets (streams.map fun rest => { rest }) with
  | error e =>
    rintro ⟨⟩
    exact onsets_ne_overflow haddable hos
  | ok r =>
    obtain ⟨os, ends⟩ := r
    simp only [bind, Except.bind]
    split
    next => exact (nomatch ·)
    next hlate =>
      have hends : ∀ s ∈ ends, s.elapsed = length := by simpa [List.find?_eq_none] using hlate
      have hlast := beatsLength_of_ends hos hends
      refine Onset.chords_ne_overflow ((inRange_iff_spaced hos (ascending_of_nonneg hos ?_)
        (fun t ht => ?_) hlast).mp hrange)
      · simpa using hnonneg
      · obtain ⟨beats, hb, ht⟩ := (mem_onsets_iff hos).mp ht
        rw [moments, map_fst_timeline] at ht
        exact hlast beats hb ▸ (Time.bounds_of_startsFrom (by simpa using hnonneg beats hb) t ht).2

theorem pos_of_chords (h : chords packing length streams = .ok cs) :
    ∀ c ∈ cs, 0 < c.duration := by
  obtain ⟨-, os, ends, -, -, hcs⟩ := chords_eq_ok h
  obtain ⟨rfl, hpos, -⟩ := Onset.chords_eq_ok_iff.mp hcs
  exact hpos

theorem members_perm_of_chords (h : chords packing length streams = .ok cs) :
    (cs.flatMap (·.members)).Perm (streams.flatMap fun beats => beats.map (·.member)) := by
  obtain ⟨-, os, ends, hos, -, hcs⟩ := chords_eq_ok h
  obtain ⟨rfl, -⟩ := Onset.chords_eq_ok_iff.mp hcs
  have hsnd : ∀ (beats : List Beat) (t : Time), (timeline t beats).map Prod.snd =
      beats.map (·.member) := by
    intro beats
    induction beats with
    | nil => simp [timeline]
    | cons b rest ih => simp [timeline, ih]
  have := members_perm hos
  rw [List.flatMap_map] at this
  rw [List.flatMap_def, Onset.spanned_members, ← List.flatMap_def]
  simpa [ahead, hsnd] using this

theorem total_of_chords (h : chords packing length streams = .ok cs) (hne : streams ≠ []) :
    cs.head?.map (·.start) = some 0 ∧ Time.total (cs.map (·.duration)) = length := by
  obtain ⟨hbeats, os, ends, hos, -, hcs⟩ := chords_eq_ok h
  obtain ⟨rfl, -⟩ := Onset.chords_eq_ok_iff.mp hcs
  have hhead : os.head?.map (·.start) = some 0 := by
    rcases onsets_cases hos with ⟨hrest, -, -⟩ | ⟨t, more, ht, -, rfl, -⟩
    · obtain ⟨beats, hb⟩ := List.exists_mem_of_ne_nil _ hne
      exact absurd (hrest { rest := beats } (List.mem_map_of_mem hb)) (hbeats beats hb)
    · obtain ⟨s, hs, rfl⟩ := earliest?_mem ht
      obtain ⟨beats, -, rfl⟩ := List.mem_map.mp hs
      rfl
  rw [Onset.spanned_head?, Onset.spanned_total, hhead]
  simp

end Stream

end Divisi
