/-
Scores whose chords have been built.

`Score.Charted` says that the chords of each measure are those of its streams; with
the invariant of sound scores it is all that later steps count on. Within a measure
no group and no syllable is a member twice, and no grace note is a member at all.
-/
import Mathlib.Data.List.Flatten
import Divisi.Proofs.Building

namespace Divisi

/-! ## Members -/

namespace Member

def group? : Member → Option GroupKey
  | group key => some key
  | syllable _ => none

def syllable? : Member → Option SyllableKey
  | group _ => none
  | syllable key => some key

theorem nodup_of_kinds {members : List Member} (hg : (members.filterMap group?).Nodup)
    (hs : (members.filterMap syllable?).Nodup) : members.Nodup := by
  induction members with
  | nil => exact List.nodup_nil
  | cons m rest ih =>
    cases m with
    | group key =>
      simp only [List.filterMap_cons, group?, List.nodup_cons] at hg
      refine List.nodup_cons.mpr ⟨fun hmem => hg.1 ?_, ih hg.2 hs⟩
      exact List.mem_filterMap.mpr ⟨_, hmem, rfl⟩
    | syllable key =>
      simp only [List.filterMap_cons, syllable?, List.nodup_cons] at hs
      refine List.nodup_cons.mpr ⟨fun hmem => hs.1 ?_, ih hg hs.2⟩
      exact List.mem_filterMap.mpr ⟨_, hmem, rfl⟩

end Member

namespace Chording

variable {groups : Arena Group} {syllables : Arena Syllable} {f : InForce}

/-- The groups of a stave that take time. -/
def staveGroups (groups : Arena Group) (s : Stave) : List GroupKey :=
  s.present.flatMap fun (_, list) => list.filter fun key => !(groups.get key).grace

/-- What the streams of a measure hold. -/
def members (groups : Arena Group) (syllables : Arena Syllable) (f : InForce)
    (staves : List Stave) : List Member :=
  (streams groups syllables f staves).flatMap fun beats => beats.map (·.member)

theorem groups_members (ss : List Stave) : (members groups syllables f ss).filterMap Member.group? =
    (ss.filter fun s => f.staffVisible s.staff).flatMap (staveGroups groups) := by
  unfold members streams
  rw [List.flatMap_assoc, List.filterMap_flatMap]
  refine List.flatMap_congr fun s _ => ?_
  simp [staveStreams, staveGroups, voiceBeats, verseBeats, List.flatMap_map, List.filterMap_flatMap,
    List.filterMap_append, List.filterMap_map, Function.comp_def, Member.group?]

theorem syllables_members (ss : List Stave) :
    (members groups syllables f ss).filterMap Member.syllable? =
      (ss.filter fun s => f.staffVisible s.staff).flatMap Stave.sung := by
  unfold members streams
  rw [List.flatMap_assoc, List.filterMap_flatMap]
  refine List.flatMap_congr fun s _ => ?_
  simp [staveStreams, voiceBeats, verseBeats, Stave.sung, List.flatMap_map, List.filterMap_flatMap,
    List.filterMap_append, List.filterMap_map, Function.comp_def, Member.syllable?]

theorem staveGroups_sublist (measure : Nat) (s : Stave) :
    (staveGroups groups s).Sublist ((s.postings measure).map (·.key)) := by
  unfold staveGroups Stave.postings
  rw [List.map_flatMap]
  refine List.Sublist.flatMap_right _ fun x _ => ?_
  rw [map_key_postingsOf]
  exact List.filter_sublist

theorem members_nodup {measure : Nat} {ss : List Stave}
    (hgroups : ((ss.flatMap (Stave.postings measure)).map (·.key)).Nodup)
    (hsung : (ss.flatMap Stave.sung).Nodup) : (members groups syllables f ss).Nodup := by
  refine Member.nodup_of_kinds ?_ ?_
  · rw [groups_members]
    refine hgroups.sublist ?_
    rw [List.map_flatMap]
    exact (List.filter_sublist.flatMap _).trans
      (List.Sublist.flatMap_right _ fun s _ => staveGroups_sublist measure s)
  · rw [syllables_members]
    exact hsung.sublist (List.filter_sublist.flatMap _)

theorem grace_of_mem {ss : List Stave} {key : GroupKey}
    (h : .group key ∈ members groups syllables f ss) : (groups.get key).grace = false := by
  have hkey : key ∈ (members groups syllables f ss).filterMap Member.group? :=
    List.mem_filterMap.mpr ⟨_, h, rfl⟩
  rw [groups_members] at hkey
  obtain ⟨s, -, hkey⟩ := List.mem_flatMap.mp hkey
  obtain ⟨⟨v, list⟩, -, hkey⟩ := List.mem_flatMap.mp hkey
  simpa using (List.mem_filter.mp hkey).2

end Chording

/-! ## Charted scores -/

/-- Each measure has the chords of its streams. -/
def Score.Charted (s : Score) : Prop := ∀ p ∈ s.placed,
  Stream.chords s.header.options.packing p.length
    (Chording.streams s.groups s.syllables p.inForce p.measure.staves) = .ok p.measure.chords

/-- The score is one that was read and has had its chords built. -/
def Score.Chorded (t : Score) : Prop :=
  ∃ s : Score, s.Parsed ∧ s.buildChords.fault = none ∧ s.buildChords.now = t

theorem Chording.Raises.charted {syllables : Arena Syllable} {packing : Float}
    {groups groups' : Arena Group} {f : InForce} {its its' : List Item} {fault : Option Fault}
    (h : Raises syllables packing groups groups' f its its' fault) (hfault : fault = none) (i : Nat) :
    ∀ p ∈ Placed.along i f its', Stream.chords packing p.length
      (streams groups' syllables p.inForce p.measure.staves) = .ok p.measure.chords := by
  induction h generalizing i with
  | nil => simp [Placed.along]
  | change _ ih => exact ih hfault (i + 1)
  | built _ _ hchords _ ih =>
    simp only [Placed.along, List.mem_cons, forall_eq_or_imp]
    exact ⟨hchords, ih hfault (i + 1)⟩
  | failed => cases hfault

theorem Score.Chorded.sound {t : Score} (h : t.Chorded) : t.Sound Group.Written := by
  obtain ⟨s, hs, -, rfl⟩ := h
  exact hs.sound.buildChords.2

theorem Score.Sound.charted_buildChords {s : Score} (h : s.Sound Group.Written)
    (hfault : s.buildChords.fault = none) : s.buildChords.now.Charted :=
  h.buildChords.1.charted hfault 0

theorem Score.Chorded.charted {t : Score} (h : t.Chorded) : t.Charted := by
  obtain ⟨s, hs, hfault, rfl⟩ := h
  exact hs.sound.charted_buildChords hfault

namespace Score.Sound

variable {fits : Group → Prop} {s : Score} {m : Measure}

theorem keys_nodup (h : s.Sound fits) (hm : m ∈ s.measures) :
    (m.postings.map (·.key)).Nodup := by
  refine h.stocked.groups.nodup.sublist (List.Sublist.map _ ?_)
  rw [Score.postings, List.flatMap_def]
  exact List.sublist_flatten_of_mem (List.mem_map_of_mem hm)

theorem sung_nodup (h : s.Sound fits) (hm : m ∈ s.measures) : m.sung.Nodup := by
  refine h.stocked.syllables.nodup.sublist ?_
  rw [Score.sung, List.flatMap_def]
  exact List.sublist_flatten_of_mem (List.mem_map_of_mem hm)

theorem members_nodup (h : s.Sound fits) (hm : m ∈ s.measures) (f : InForce) :
    (Chording.members s.groups s.syllables f m.staves).Nodup :=
  Chording.members_nodup (h.keys_nodup hm) (h.sung_nodup hm)

theorem measure_eq (h : s.Sound fits) {p q : Placed} (hp : p ∈ s.placed) (hq : q ∈ s.placed)
    (heq : p.measure.number = q.measure.number) : p = q := by
  have hnodup : (s.placed.map (·.measure.number)).Nodup := by
    have := h.numbered
    rw [← Score.map_measure_placed, List.map_map] at this
    rw [show s.placed.map (·.measure.number) = _ from this]
    exact List.nodup_range'
  exact List.inj_on_of_nodup_map hnodup hp hq heq

end Score.Sound

/-! ## Which measures have chords, and which chords -/

namespace Placed

/-- What building has made of a measure: `m` is the measure as it stands in the
score `t` that was built from `s`. -/
structure Partitioned (s t : Score) (p : Placed) (m : Measure) : Prop where
  /-- The groups of a voice that is shown are as they were. -/
  kept : ∀ staff v list, .voice staff v list ∈ p.strands → p.inForce.voiceVisible staff v = true →
    SameAt s.groups t.groups list
  /-- The space of a hidden voice lasts as long as the measure. -/
  spaces : ∀ staff v list, .voice staff v list ∈ p.strands →
    p.inForce.voiceVisible staff v = false → t.groups.get? (m.firstOf staff v) =
      some (.measureSpace staff v p.measure.number p.length)
  aligned : Aligned s.header.options.packing p.length
    (p.strands.map (Strand.beats s p.inForce m.firstOf)) m.chords
  /-- All that takes time is in a chord. -/
  complete : (m.chords.flatMap (·.members)).Perm
    (p.strands.flatMap fun strand => (strand.beats s p.inForce m.firstOf).map (·.member))
  /-- Nothing is in two chords, or twice in one. -/
  once : (m.chords.flatMap (·.members)).Nodup
  timed : ∀ key, .group key ∈ m.chords.flatMap (·.members) → (t.groups.get key).grace = false
  positive : ∀ c ∈ m.chords, 0 < c.duration
  /-- From the start of the measure to its end. -/
  spans : p.strands ≠ [] → m.chords.head?.map (·.start) = some 0 ∧
    Time.total (m.chords.map (·.duration)) = p.length

theorem mem_strands {p : Placed} {strand : Strand} : strand ∈ p.strands ↔
    ∃ st ∈ p.measure.staves, p.inForce.staffVisible st.staff = true ∧
      ((∃ v list, st.list? v = some list ∧ strand = .voice st.staff v list) ∨
        ∃ list ∈ st.verses, strand = .verse list) := by
  simp only [strands, List.mem_flatMap, List.mem_filter, Stave.strands, List.mem_append,
    List.mem_map, and_assoc]
  refine exists_congr fun st => and_congr_right fun _ => and_congr_right fun _ => or_congr
    ⟨fun h => ?_, fun h => ?_⟩
    (exists_congr fun list => and_congr_right fun _ => eq_comm)
  · obtain ⟨v, -, h⟩ := List.mem_filterMap.mp h
    obtain ⟨list, hlist, rfl⟩ := Option.map_eq_some_iff.mp h
    exact ⟨v, list, hlist, rfl⟩
  · obtain ⟨v, list, hlist, h⟩ := h
    have hv := Stave.le_of_list? hlist
    refine List.mem_filterMap.mpr ⟨v, ?_, by rw [hlist, Option.map_some, h]⟩
    simp only [List.mem_cons, List.not_mem_nil, or_false]
    omega

theorem Built.partitioned {s t : Score} {p : Placed} {m : Measure} (h : p.Built s t.groups m)
    (hp : p ∈ s.placed) (hs : s.Sound Group.Written) (ht : t.Sound Group.Written)
    (hm : m ∈ t.measures) : p.Partitioned s t m := by
  have hmeasure : p.measure ∈ s.measures := by
    rw [← Score.map_measure_placed]
    exact List.mem_map_of_mem hp
  have hshown : ∀ {staff v list}, .voice staff v list ∈ p.strands →
      ∃ st st' : Stave, m.stave? staff = some st' ∧ st.staff = staff ∧ st.list? v = some list ∧
        st.Shown (fun v => !p.inForce.voiceVisible staff v) p.measure.number p.length s.groups
          t.groups st' := by
    intro staff v list hstrand
    obtain ⟨st, hst, hvisible, hor⟩ := mem_strands.mp hstrand
    obtain ⟨w, keys, hlist, heq⟩ := hor.resolve_right (by simp)
    obtain ⟨rfl, rfl, rfl⟩ := Strand.voice.inj heq
    obtain ⟨st', hst', hshown⟩ := h.shows.of_mem hst
    refine ⟨st, st', hshown.staff ▸ Measure.stave?_of_mem (ht.measures m hm).ascending hst', rfl,
      hlist, hshown.congr fun v _ => ?_⟩
    simp [Erasing.hides, hvisible]
  have hstreams := Chording.Raises.streams_eq_strands (i := p.item) (f := p.inForce)
    (hs.measures _ hmeasure) h.shows m.number m.chords
  have hmembers : Chording.members t.groups s.syllables p.inForce m.staves =
      p.strands.flatMap fun strand => (strand.beats s p.inForce m.firstOf).map (·.member) := by
    rw [Chording.members, hstreams, List.flatMap_map]
  have hperm := Stream.members_perm_of_chords h.chords
  rw [List.flatMap_map] at hperm
  have hnodup : (Chording.members t.groups s.syllables p.inForce m.staves).Nodup := by
    refine Chording.members_nodup (ht.keys_nodup hm) ?_
    rw [h.shows.flatMap_sung]
    exact hs.sung_nodup hmeasure
  constructor
  · intro staff v list hstrand hv
    obtain ⟨st, st', -, -, hlist, hshown⟩ := hshown hstrand
    exact (hshown.kept v (by simp [hv])).2 list hlist
  · intro staff v list hstrand hv
    obtain ⟨st, st', hst', rfl, hlist, hshown⟩ := hshown hstrand
    obtain ⟨k, hk, hspace⟩ := hshown.hidden v (by simp [hv]) list hlist
    simpa [Measure.firstOf, hst', hk] using hspace
  · exact Stream.aligned_of_chords h.chords
  · exact hperm
  · rw [hperm.nodup_iff, ← hmembers]
    exact hnodup
  · intro key hkey
    rw [hperm.mem_iff, ← hmembers] at hkey
    exact Chording.grace_of_mem hkey
  · exact Stream.pos_of_chords h.chords
  · exact fun hne => Stream.total_of_chords h.chords (by simpa using hne)

theorem lengths_nonneg {s : Score} {p : Placed} (hs : s.Sound Group.Written) (hp : p ∈ s.placed)
    (strand : Strand) : ∀ d ∈ strand.lengths s p.inForce, 0 ≤ d := by
  have hgroup : ∀ k, 0 ≤ (s.groups.get k).duration := by
    intro k
    unfold Arena.get
    cases hk : s.groups.get? k with
    | none => exact (by norm_num : (0 : Time) ≤ 1 / 4)
    | some g => exact (hs.stocked.fits k g hk).nonneg
  have hsyllable : ∀ k, 0 ≤ (s.syllables.get k).duration := by
    intro k
    unfold Arena.get
    cases hk : s.syllables.get? k with
    | none => exact le_refl (0 : Time)
    | some x => exact (hs.stocked.timed k x hk).le
  cases strand with
  | voice staff v list =>
    simp only [Strand.lengths]
    split
    · simp only [Score.timed, Score.groupsOf, List.mem_map, List.mem_filter]
      rintro _ ⟨_, ⟨⟨k, -, rfl⟩, -⟩, rfl⟩
      exact hgroup k
    · simpa using (hs.inForce p hp).duration_pos.le
  | verse list => simpa [Strand.lengths] using fun k _ => hsyllable k

/-- A measure in range has no chords only for what its strands hold. -/
theorem FailsBy.ne_overflow {s : Score} {p : Placed} {breach : Breach} (h : p.FailsBy s breach)
    (hs : s.Sound Group.Written) (hp : p ∈ s.placed) (hrange : p.InRange s) :
    breach ≠ .overflow := by
  obtain ⟨space, hchords⟩ := h
  rintro rfl
  refine Stream.chords_ne_overflow ?_ ?_ hchords
  · simp only [List.map_map, Function.comp_def, Strand.map_duration_beats]
    exact hrange
  · simp only [List.mem_map, forall_exists_index, and_imp, forall_apply_eq_imp_iff₂]
    intro strand _ b hb
    refine lengths_nonneg hs hp strand b.duration ?_
    rw [← Strand.map_duration_beats s p.inForce space]
    exact List.mem_map_of_mem hb

end Placed

/-- **Which measures have chords, and which chords.** Streams in range have chords exactly if
each of them fills the measure, and the chords are then the ones that align them. So building
a score that was read goes well exactly if every measure is filled; it stops at the first
measure that is not; and a measure that it comes to and that is filled is partitioned by its
chords. All this holds as far as the times of the measures can be formed. -/
theorem Score.Parsed.chords_of_strands {s : Score} (h : s.Parsed) :
    (∀ packing length streams chords,
      Stream.InRange length (streams.map fun beats => beats.map (·.duration)) →
        (Stream.chords packing length streams = .ok chords ↔
          (∀ beats ∈ streams, Fills length (beats.map (·.duration))) ∧
            Aligned packing length streams chords)) ∧
    ((∀ p ∈ s.placed, p.InRange s) →
      (s.buildChords.fault = none ↔ ∀ p ∈ s.placed, p.Filled s)) ∧
    ∀ before p after, s.placed = before ++ p :: after →
      (∀ q ∈ before, q.Filled s ∧ q.InRange s) → p.InRange s →
      (p.measure.staves.map (·.staff)).Pairwise (· < ·) ∧
      (¬p.Filled s → ∃ breach, breach ≠ .overflow ∧
        s.buildChords.fault = some (.inconsistent p.measure.number breach)) ∧
      (p.Filled s →
        (∀ breach, s.buildChords.fault ≠ some (.inconsistent p.measure.number breach)) ∧
        ∃ m, s.buildChords.now.measureAt? p.item = some m ∧
          p.Partitioned s s.buildChords.now m) := by
  have hsound := h.sound
  obtain ⟨hraises, hbuilt⟩ := hsound.buildChords
  have hcases := hraises.fault_cases hsound.measures 0
  refine ⟨fun _ _ _ _ hrange => ?_, fun hrange => ?_,
    fun before p after hplaced hbefore hrange => ?_⟩
  · rw [Stream.chords_eq_ok_iff, and_iff_right hrange]
  · rw [hsound.fault_eq_none_iff]
    exact forall₂_congr fun p hp => and_iff_left (hrange p hp)
  have hp : p ∈ s.placed := by simp [hplaced]
  have hmeasure : p.measure ∈ s.measures := by
    rw [← Score.map_measure_placed]
    exact List.mem_map_of_mem hp
  obtain ⟨hstop, hgo⟩ := hraises.reaches hsound.measures hplaced hbefore
  refine ⟨(hsound.measures _ hmeasure).ascending, fun hunfilled => ?_, fun hfilled => ⟨?_, ?_⟩⟩
  · obtain ⟨breach, hfault, hfails⟩ := hstop fun hp => hunfilled hp.1
    exact ⟨breach, hfails.ne_overflow hsound hp hrange, hfault⟩
  · intro breach hfault
    rcases hcases with ⟨hnone, -⟩ | ⟨before', q, after', breach', hplaced', -, hq, hfault'⟩
    · rw [hnone] at hfault
      cases hfault
    · rw [hfault, Option.some.injEq, Fault.inconsistent.injEq] at hfault'
      have hmem : q ∈ s.placed := by
        rw [Score.placed, hplaced']
        simp
      exact hq (hsound.measure_eq hp hmem hfault'.1 ▸ ⟨hfilled, hrange⟩)
  · obtain ⟨n, m, hitem, hm, hpm⟩ := hgo ⟨hfilled, hrange⟩
    have hat : s.buildChords.now.items[p.item]? = some (.measure m) := by
      rw [hitem, Nat.zero_add]
      exact hm
    refine ⟨m, by rw [Score.measureAt?, hat], hpm.partitioned hp hsound hbuilt ?_⟩
    exact mem_measuresOf.mpr (List.mem_of_getElem? hat)

/-- One voice that is shown, in two groups, and one that is not. -/
def shownAndHidden : String :=
  "music:\n- params:\n   staff: 1\n   voice: 2\n   visible: false\n" ++
  "- measure:\n  - voices:\n     1:\n     - time: 2\n       notes: [c5]\n" ++
  "     - time: 2\n       notes: [d5]\n     2:\n     - time: 1\n       notes: [c4]\n"

theorem built_of_shownAndHidden : ∃ s : Score, Score.ofText shownAndHidden = .ok s ∧
    (∀ p ∈ s.placed, p.InRange s) ∧ (∀ p ∈ s.placed, p.Filled s) ∧
      s.buildChords.fault = none := by
  obtain ⟨s, hs, hrange, hfilled⟩ := Score.exists_of_text shownAndHidden
    (P := fun s => (∀ p ∈ s.placed, p.InRange s) ∧ ∀ p ∈ s.placed, p.Filled s)
    (by decide +kernel)
  exact ⟨s, hs, hrange, hfilled,
    ((Score.Parsed.chords_of_strands (.of_text hs)).2.1 hrange).mpr hfilled⟩

end Divisi
