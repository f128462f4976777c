/-
Keys are only names.

The chords of streams do not depend on what their members are (`Stream.chords_map`). A renaming
gives each key another one, and no two groups the same. Nothing in the layout of a score asks
which key it is that names a group, only whether two keys are the same; so a score under other
keys (`Score.Renamed`) has the same hands and lines, under those keys (`Score.Renamed.layout`).
-/
import Divisi.Chording
import Divisi.Proofs.Frame
import Divisi.Proofs.Outcome

namespace Divisi

/-! ## Chords of other members -/

/-- A beat of another member. -/
def Beat.mapMember (g : Member → Member) (b : Beat) : Beat := { b with member := g b.member }

def Onset.mapMembers (g : Member → Member) (o : Onset) : Onset :=
  { o with members := o.members.map g }

def Chord.mapMembers (g : Member → Member) (c : Chord) : Chord :=
  { c with members := c.members.map g }

namespace Stream

def mapMembers (g : Member → Member) (s : Stream) : Stream :=
  { s with rest := s.rest.map (Beat.mapMember g) }

variable (g : Member → Member)

theorem earliest?_map (streams : List Stream) :
    earliest? (streams.map (mapMembers g)) = earliest? streams := by
  induction streams with
  | nil => rfl
  | cons s rest ih =>
    simp only [List.map_cons, earliest?, ih]
    rfl

theorem advance_map (start : Time) (streams : List Stream) :
    advance start (streams.map (mapMembers g)) =
      (advance start streams).map fun x => (x.1.map g, x.2.map (mapMembers g)) := by
  induction streams with
  | nil => rfl
  | cons s others ih =>
    have helapsed : (mapMembers g s).elapsed = s.elapsed := rfl
    simp only [List.map_cons, advance, helapsed, ih]
    split
    · obtain ⟨rest, elapsed⟩ := s
      cases rest with
      | nil => rfl
      | cons beat rest =>
        have hduration : (Beat.mapMember g beat).duration = beat.duration := rfl
        simp only [mapMembers, List.map_cons, hduration]
        split
        · rfl
        · cases advance start others <;> rfl
    · cases advance start others <;> rfl

theorem onsets_map (streams : List Stream) :
    onsets (streams.map (mapMembers g)) = (onsets streams).map fun x =>
      (x.1.map (Onset.mapMembers g), x.2.map (mapMembers g)) := by
  have hempty : ∀ streams : List Stream, (streams.map (mapMembers g)).all (fun s => s.rest.isEmpty) =
      streams.all fun s => s.rest.isEmpty := by
    intro streams
    simp [List.all_map, Function.comp_def, mapMembers]
  induction streams using onsets.induct with
  | case1 streams hall =>
    rw [onsets_eq, onsets_eq streams, hempty, if_pos hall, if_pos hall]
    rfl
  | case2 streams hall hnone =>
    rw [onsets_eq, onsets_eq streams, hempty, if_neg hall, if_neg hall, earliest?_map, hnone]
    rfl
  | case3 streams hall start hs breach hadv =>
    rw [onsets_eq, onsets_eq streams, hempty, if_neg hall, if_neg hall, earliest?_map, hs]
    simp only [advance_map, hadv]
    rfl
  | case4 streams hall start hs members later hadv ih =>
    rw [onsets_eq, onsets_eq streams, hempty, if_neg hall, if_neg hall, earliest?_map, hs]
    simp only [advance_map, hadv, Except.map, bind, Except.bind] at ih ⊢
    rw [ih]
    cases onsets later <;> rfl

end Stream

theorem Onset.chords_map (g : Member → Member) (packing : Float) (length : Time) (os : List Onset) :
    Onset.chords packing length (os.map (Onset.mapMembers g)) =
      (Onset.chords packing length os).map (List.map (Chord.mapMembers g)) := by
  induction os with
  | nil => rfl
  | cons o rest ih =>
    have hnext : (rest.map (Onset.mapMembers g)).head?.map (·.start) = rest.head?.map (·.start) := by
      cases rest <;> rfl
    have hstart : (Onset.mapMembers g o).start = o.start := rfl
    simp only [List.map_cons, Onset.chords, hnext, hstart, ih]
    split
    · rfl
    · split
      · rfl
      · cases Onset.chords packing length rest <;> rfl

theorem Stream.chords_map (g : Member → Member) (packing : Float) (length : Time)
    (streams : List (List Beat)) :
    Stream.chords packing length (streams.map (List.map (Beat.mapMember g))) =
      (Stream.chords packing length streams).map (List.map (Chord.mapMembers g)) := by
  have hempty : (streams.map (List.map (Beat.mapMember g))).any List.isEmpty =
      streams.any List.isEmpty := by
    simp [List.any_map, Function.comp_def]
  have honsets := Stream.onsets_map g (streams.map fun rest => { rest })
  rw [List.map_map] at honsets
  have hstreams : (streams.map (List.map (Beat.mapMember g))).map (fun rest => ({ rest } : Stream)) =
      streams.map (Stream.mapMembers g ∘ fun rest => { rest }) := by
    rw [List.map_map]
    rfl
  unfold Stream.chords
  rw [hempty, hstreams, honsets]
  split
  · rfl
  · cases Stream.onsets (streams.map fun rest => { rest }) with
    | error e => rfl
    | ok x =>
      have hlate : (x.2.map (Stream.mapMembers g)).find? (fun s => s.elapsed != length) =
          (x.2.find? fun s => s.elapsed != length).map (Stream.mapMembers g) := by
        rw [List.find?_map]
        rfl
      simp only [Except.map, bind, Except.bind, hlate, Onset.chords_map]
      cases x.2.find? fun s => s.elapsed != length <;> rfl

/-! ## Other keys -/

/-- Other keys for groups and for syllables. -/
structure Renaming where
  group : GroupKey → GroupKey
  syllable : SyllableKey → SyllableKey
  injective : Function.Injective group

namespace Renaming

variable (r : Renaming)

def member : Member → Member
  | .group key => .group (r.group key)
  | .syllable key => .syllable (r.syllable key)

def chord (c : Chord) : Chord := c.mapMembers r.member

def stave (st : Stave) : Stave :=
  { st with
    voices := st.voices.map (Option.map (List.map r.group))
    verses := st.verses.map (List.map r.syllable) }

def measure (m : Measure) : Measure :=
  { m with staves := m.staves.map r.stave, chords := m.chords.map r.chord }

def item : Item → Item
  | .change c => .change c
  | .measure m => .measure (r.measure m)

def placed (p : Placed) : Placed := { p with measure := r.measure p.measure }

/-- The groups that a hand has of the voices. -/
def voices (p : PerVoice (Option GroupKey)) : PerVoice (Option GroupKey) :=
  p.map (Option.map r.group)

def seats (seats : Hand.Seats) : Hand.Seats := seats.map fun x => (x.1, r.voices x.2)

def hand (h : Hand) : Hand := { h with voices := r.voices h.voices }

def stop (x : Stop) : Stop := { x with key := r.group x.key }

def layout (l : Layout) : Layout :=
  { hands := l.hands.map r.hand, lines := l.lines.map (List.map r.stop) }

end Renaming

/-- The second arena holds under the new keys what the first one holds. -/
def Renaming.Carries (r : Renaming) (groups groups' : Arena Group) : Prop :=
  ∀ k, groups'.get? (r.group k) = groups.get? k

/-- The score `s'` is `s` under other keys. -/
structure Score.Renamed (r : Renaming) (s s' : Score) : Prop where
  header : s'.header = s.header
  items : s'.items = s.items.map r.item
  groups : r.Carries s.groups s'.groups
  syllables : ∀ k, s'.syllables.get? (r.syllable k) = s.syllables.get? k

/-! ## Voices -/

namespace PerVoice

variable {α β : Type}

theorem map_set (p : PerVoice α) (f : α → β) (v : Nat) (x : α) :
    (p.set v x).map f = (p.map f).set v (f x) := by
  unfold set
  split <;> rfl

end PerVoice

namespace Renaming

variable {r : Renaming}

@[simp] theorem group_inj {k l : GroupKey} : r.group k = r.group l ↔ k = l := r.injective.eq_iff

theorem Carries.get {groups groups' : Arena Group} (h : r.Carries groups groups') (k : GroupKey) :
    groups'.get (r.group k) = groups.get k := by
  rw [Arena.get, Arena.get, h k]

theorem voice?_voices (p : PerVoice (Option GroupKey)) (v : Nat) :
    ((r.voices p).get? v).join = (p.get? v).join.map r.group := by
  rw [voices, PerVoice.get?_map]
  cases p.get? v <;> rfl

theorem list?_stave (st : Stave) (v : Nat) :
    (r.stave st).list? v = (st.list? v).map (List.map r.group) := by
  simp only [Stave.list?, stave, PerVoice.get?_map]
  cases st.voices.get? v <;> rfl

theorem present_stave (st : Stave) :
    (r.stave st).present = st.present.map fun x => (x.1, x.2.map r.group) :=
  Stave.present_mapLists (f := List.map r.group)

theorem setList_stave (st : Stave) (v : Nat) (list : Option (List GroupKey)) :
    r.stave (st.setList v list) = (r.stave st).setList v (list.map (List.map r.group)) := by
  simp [stave, Stave.setList, PerVoice.map_set]

theorem stave?_measure (m : Measure) (staff : Nat) :
    (r.measure m).stave? staff = (m.stave? staff).map r.stave := by
  simp only [Measure.stave?, measure, List.find?_map]
  rfl

theorem groups_chord (c : Chord) : (r.chord c).groups = c.groups.map r.group := by
  simp only [Chord.groups, chord, Chord.mapMembers, List.filterMap_map, List.map_filterMap]
  refine List.filterMap_congr fun m _ => ?_
  cases m <;> rfl

theorem voice?_hand (h : Hand) (v : Nat) : (r.hand h).voice? v = (h.voice? v).map r.group :=
  voice?_voices h.voices v

theorem holds_hand (h : Hand) (key : GroupKey) : (r.hand h).holds (r.group key) = h.holds key := by
  have hsame : ∀ x : Option GroupKey, (x.map r.group == some (r.group key)) = (x == some key) := by
    intro x
    cases x <;> simp
  simp only [Hand.holds, hand, voices, PerVoice.map, hsame]

theorem voiceBeats_eq {groups groups' : Arena Group} (hgroups : r.Carries groups groups')
    (list : List GroupKey) : Chording.voiceBeats groups' (list.map r.group) =
      (Chording.voiceBeats groups list).map (Beat.mapMember r.member) := by
  simp only [Chording.voiceBeats, List.filter_map, List.map_map, Function.comp_def, hgroups.get]
  rfl

theorem streams_eq {groups groups' : Arena Group} {syllables syllables' : Arena Syllable}
    (hgroups : r.Carries groups groups')
    (hsyllables : ∀ k, syllables'.get? (r.syllable k) = syllables.get? k) (f : InForce)
    (staves : List Stave) : Chording.streams groups' syllables' f (staves.map r.stave) =
      (Chording.streams groups syllables f staves).map (List.map (Beat.mapMember r.member)) := by
  have hverse : ∀ list, Chording.verseBeats syllables' (list.map r.syllable) =
      (Chording.verseBeats syllables list).map (Beat.mapMember r.member) := by
    intro list
    simp only [Chording.verseBeats, List.map_map, Function.comp_def, Arena.get, hsyllables]
    rfl
  simp only [Chording.streams, List.filter_map, List.flatMap_map, List.map_flatMap]
  refine List.flatMap_congr fun st _ => ?_
  simp only [Chording.staveStreams, present_stave, List.map_append, List.map_map, Function.comp_def,
    voiceBeats_eq hgroups]
  simp only [stave, List.map_map, Function.comp_def, hverse]

end Renaming

namespace Score.Renamed

variable {r : Renaming} {s s' : Score}

theorem get (h : s.Renamed r s') (k : GroupKey) : s'.groups.get (r.group k) = s.groups.get k :=
  h.groups.get k

theorem measures (h : s.Renamed r s') : s'.measures = s.measures.map r.measure := by
  simp only [Score.measures, h.items, List.filterMap_map, List.map_filterMap]
  refine List.filterMap_congr fun i _ => ?_
  cases i <;> rfl

theorem measureAt? (h : s.Renamed r s') (i : Nat) :
    s'.measureAt? i = (s.measureAt? i).map r.measure := by
  simp only [Score.measureAt?, h.items, List.getElem?_map]
  cases s.items[i]? with
  | none => rfl
  | some i => cases i <;> rfl

theorem list? (h : s.Renamed r s') (layer : Layer) :
    s'.list? layer = (s.list? layer).map (List.map r.group) := by
  unfold Score.list?
  rw [h.measureAt?]
  cases s.measureAt? layer.item with
  | none => rfl
  | some m =>
    simp only [Option.map_some, Option.bind_some, Renaming.stave?_measure]
    cases m.stave? layer.staff with
    | none => rfl
    | some st => exact Renaming.list?_stave st layer.voice

theorem voiceList (h : s.Renamed r s') (i staff v : Nat) :
    s'.voiceList i staff v = (s.voiceList i staff v).map (List.map r.group) := by
  unfold Score.voiceList
  rw [h.measureAt?]
  cases s.measureAt? i with
  | none => rfl
  | some m =>
    simp only [Option.map_some, Renaming.stave?_measure]
    cases m.stave? staff with
    | none => rfl
    | some st =>
      simp only [Option.map_some, Option.bind_some, Renaming.list?_stave]
      cases st.list? v <;> rfl

theorem placed (h : s.Renamed r s') : s'.placed = s.placed.map r.placed := by
  have halong : ∀ (items : List Item) (i : Nat) (f : InForce),
      Placed.along i f (items.map r.item) = (Placed.along i f items).map r.placed := by
    intro items
    induction items with
    | nil => intro i f; rfl
    | cons x rest ih =>
      intro i f
      cases x with
      | change c => exact ih (i + 1) (f.apply c)
      | measure m => exact congrArg _ (ih (i + 1) f)
  rw [Score.placed, h.items, halong]
  rfl

end Score.Renamed

/-! ## Hands -/

namespace Renaming

variable {r : Renaming} {groups groups' : Arena Group}

theorem take_seats (staff voice : Nat) (key : GroupKey) (seats : Hand.Seats) :
    (r.seats seats).take staff voice (r.group key) = (seats.take staff voice key).map r.seats := by
  have hnew : (PerVoice.all none).set voice (some (r.group key)) =
      r.voices ((PerVoice.all none).set voice (some key)) := by
    rw [voices, PerVoice.map_set]
    rfl
  induction seats with
  | nil => simp only [seats, List.map_nil, Hand.Seats.take, hnew]; rfl
  | cons x rest ih =>
    obtain ⟨other, vs⟩ := x
    have hcons : r.seats ((other, vs) :: rest) = (other, r.voices vs) :: r.seats rest := rfl
    simp only [hcons, Hand.Seats.take, hnew]
    split
    · rfl
    · split
      · rw [voice?_voices, Option.isSome_map]
        split
        · rfl
        · have hset : (r.voices vs).set voice (some (r.group key)) =
              r.voices (vs.set voice (some key)) := (PerVoice.map_set vs _ voice (some key)).symm
          rw [hset]
          rfl
      · rw [ih, Option.map_map, Option.map_map]
        rfl

theorem seat_eq (hgroups : r.Carries groups groups') (measure : Nat)
    (start : Time) (seats : Hand.Seats) (key : GroupKey) :
    Hand.seat groups' measure start (r.seats seats) (r.group key) =
      (Hand.seat groups measure start seats key).map r.seats := by
  unfold Hand.seat
  rw [hgroups key]
  cases groups.get? key with
  | none => rfl
  | some group =>
    simp only [take_seats]
    split
    · rfl
    · cases seats.take group.staff group.voice key <;> rfl

theorem ofChord_eq (hgroups : r.Carries groups groups') (p : Placed)
    (c : Chord) (index : Nat) : Hand.ofChord groups' (r.placed p) (r.chord c) index =
      (Hand.ofChord groups p c index).map (List.map r.hand) := by
  unfold Hand.ofChord
  have hseats := foldlM_map_eq (seat_eq hgroups p.measure.number c.start) c.groups []
  rw [groups_chord]
  refine (congrArg (· >>= _) hseats).trans ?_
  cases c.groups.foldlM (Hand.seat groups p.measure.number c.start) [] with
  | error e => rfl
  | ok seats =>
    refine congrArg Except.ok ?_
    simp only [Renaming.seats, List.map_map]
    rfl

theorem ofMeasure_eq (hgroups : r.Carries groups groups') (p : Placed) :
    Hand.ofMeasure groups' (r.placed p) = (Hand.ofMeasure groups p).map (List.map r.hand) := by
  have hzip : (r.placed p).measure.chords.zipIdx =
      p.measure.chords.zipIdx.map fun x => (r.chord x.1, x.2) := by
    rw [placed, measure, List.zipIdx_map]
    rfl
  have hchords : (p.measure.chords.zipIdx.map fun x => (r.chord x.1, x.2)).mapM
      (fun x => Hand.ofChord groups' (r.placed p) x.1 x.2) =
        (p.measure.chords.zipIdx.mapM fun x => Hand.ofChord groups p x.1 x.2).map
          (List.map (List.map r.hand)) :=
    mapM_map_eq (fun x => ofChord_eq hgroups p x.1 x.2) _
  unfold Hand.ofMeasure
  rw [hzip]
  refine (congrArg (· >>= _) hchords).trans ?_
  cases p.measure.chords.zipIdx.mapM fun x => Hand.ofChord groups p x.1 x.2 with
  | error e => rfl
  | ok hands => exact congrArg Except.ok List.map_flatten.symm

theorem handOf?_eq (hands : List Hand) (key : GroupKey) :
    Layout.handOf? (hands.map r.hand) (r.group key) = Layout.handOf? hands key := by
  simp only [Layout.handOf?, List.findIdx?_map, Function.comp_def, holds_hand]

end Renaming

/-! ## Lines -/

namespace Score.Renamed

variable {r : Renaming} {s s' : Score}

theorem line (h : s.Renamed r s') (hands : List Hand) (staff voice : Nat) :
    Layout.line s' (hands.map r.hand) staff voice =
      (Layout.line s hands staff voice).map r.stop := by
  have hstops : ∀ (m : Measure) (ordinal : Nat),
      Layout.stops s'.groups (hands.map r.hand) staff voice (r.measure m) ordinal =
        (Layout.stops s.groups hands staff voice m ordinal).map r.stop := by
    intro m ordinal
    simp only [Layout.stops, Renaming.measure, List.filter_map, List.flatMap_map, List.map_flatMap]
    refine List.flatMap_congr fun st _ => ?_
    have hkeys : ((r.stave st).list? voice).getD [] = ((st.list? voice).getD []).map r.group := by
      rw [Renaming.list?_stave]
      cases st.list? voice <;> rfl
    simp only [hkeys, List.filter_map, List.map_map, Function.comp_def, h.get, Renaming.handOf?_eq]
    rfl
  simp only [Layout.line, h.measures, List.zipIdx_map, List.flatMap_map, List.map_flatMap,
    Prod.map, id, hstops]

theorem staffs (h : s.Renamed r s') : Layout.staffs s' = Layout.staffs s := by
  simp only [Layout.staffs, h.measures, List.flatMap_map, Renaming.measure, List.map_map]
  rfl

theorem lines (h : s.Renamed r s') (hands : List Hand) :
    ((Layout.staffs s').flatMap fun staff =>
        [1, 2, 3].map (Layout.line s' (hands.map r.hand) staff)) =
      ((Layout.staffs s).flatMap fun staff => [1, 2, 3].map (Layout.line s hands staff)).map
        (List.map r.stop) := by
  simp only [h.staffs, List.map_flatMap, List.map_map]
  exact List.flatMap_congr fun staff _ => List.map_congr_left fun voice _ => h.line _ _ _

theorem layout (h : s.Renamed r s') : Layout.of s' = (Layout.of s).map r.layout := by
  unfold Layout.of
  have hhands := mapM_map_eq (Renaming.ofMeasure_eq h.groups) s.placed
  rw [h.placed]
  refine (congrArg (· >>= _) hhands).trans ?_
  cases s.placed.mapM (Hand.ofMeasure s.groups) with
  | error e => rfl
  | ok hands =>
    refine congrArg Except.ok ?_
    have hflat : (hands.map (List.map r.hand)).flatten = hands.flatten.map r.hand :=
      List.map_flatten.symm
    simp only [Renaming.layout, hflat, h.lines]

end Score.Renamed

end Divisi
