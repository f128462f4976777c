/-
The chords of a score, told by what was written.

The strands of a measure are what has to fill it: the voices present on the staffs
that are shown, and their verses; a hidden voice counts as one space as long
as the measure. Building goes through the measures in order (`Raises`). It makes
the chords that align the strands of a measure as long as these fill it and the times
between them can be formed (`Placed.Buildable`), and stops at the first measure where it
is otherwise (`Score.Parsed.chords_of_strands`).
-/
import Divisi.Chording
import Divisi.Validation
import Divisi.Proofs.Alignment
import Divisi.Proofs.Loaded
import Divisi.Proofs.Shown

namespace Divisi

/-! ## The strands of a measure -/

/-- A voice or a verse that has to fill its measure. -/
inductive Strand where
  | voice (staff voice : Nat) (list : List GroupKey)
  | verse (list : List SyllableKey)

namespace Strand

/-- The lengths that follow one another on a strand, grace notes left out. -/
def lengths (s : Score) (f : InForce) : Strand → List Time
  | voice staff v list =>
    if f.voiceVisible staff v then (s.timed list).map (·.duration) else [f.time.duration]
  | verse list => list.map fun key => (s.syllables.get key).duration

/-- The beats of a strand; that of a hidden voice is its space. -/
def beats (s : Score) (f : InForce) (space : Nat → Nat → GroupKey) : Strand → List Beat
  | voice staff v list =>
    if f.voiceVisible staff v then Chording.voiceBeats s.groups list
    else [{ member := .group (space staff v), duration := f.time.duration }]
  | verse list => Chording.verseBeats s.syllables list

@[simp] theorem map_duration_beats (s : Score) (f : InForce) (space : Nat → Nat → GroupKey)
    (strand : Strand) : (strand.beats s f space).map (·.duration) = strand.lengths s f := by
  cases strand with
  | voice staff v list =>
    simp only [beats, lengths]
    split
    · simp only [Chording.voiceBeats, Score.timed, Score.groupsOf, List.map_map, List.filter_map]
      rfl
    · rfl
  | verse list => simp [beats, lengths, Chording.verseBeats, Function.comp_def]

end Strand

/-- The strands of a stave: its voices from the first to the third, then its
verses. -/
def Stave.strands (s : Stave) : List Strand :=
  ([1, 2, 3].filterMap fun v => (s.list? v).map (.voice s.staff v)) ++ s.verses.map .verse

namespace Placed

def length (p : Placed) : Time := p.inForce.time.duration

/-- The strands of the staffs that are shown, in the order of the staffs. -/
def strands (p : Placed) : List Strand :=
  (p.measure.staves.filter fun s => p.inForce.staffVisible s.staff).flatMap Stave.strands

/-- Each strand has something besides grace notes; all of it takes time, and as
long as the measure. -/
def Filled (s : Score) (p : Placed) : Prop :=
  ∀ strand ∈ p.strands, Fills p.length (strand.lengths s p.inForce)

instance (s : Score) (p : Placed) : Decidable (p.Filled s) :=
  inferInstanceAs (Decidable (∀ strand ∈ p.strands, Fills p.length (strand.lengths s p.inForce)))

/-- The times of the measure can be formed. -/
def InRange (s : Score) (p : Placed) : Prop :=
  Stream.InRange p.length (p.strands.map (Strand.lengths s p.inForce))

instance (s : Score) (p : Placed) : Decidable (p.InRange s) :=
  inferInstanceAs (Decidable (Stream.InRange _ _))

/-- The measure has chords. -/
def Buildable (s : Score) (p : Placed) : Prop := p.Filled s ∧ p.InRange s

/-- The measure has none, by this breach. -/
def FailsBy (s : Score) (p : Placed) (breach : Breach) : Prop :=
  ∃ space, Stream.chords s.header.options.packing p.length
    (p.strands.map (Strand.beats s p.inForce space)) = .error breach

end Placed

/-! ## Streams from strands -/

theorem Stave.present_eq (s : Stave) :
    s.present = [1, 2, 3].filterMap fun v => (s.list? v).map fun keys => (v, keys) := rfl

namespace Chording

variable {groups groups' : Arena Group} {s : Score} {f : InForce}

theorem voiceBeats_congr {list : List GroupKey} (h : SameAt groups groups' list) :
    voiceBeats groups' list = voiceBeats groups list := by
  have hget : ∀ k ∈ list, groups'.get k = groups.get k := fun k hk => by simp [Arena.get, h k hk]
  unfold voiceBeats
  rw [List.filter_congr fun k hk => by rw [hget k hk]]
  exact List.map_congr_left fun k hk => by rw [hget k (List.mem_of_mem_filter hk)]

theorem staveStreams_eq {measure : Nat} {st st' : Stave} {space : Nat → Nat → GroupKey}
    (h : st.Shown (Erasing.hides f st.staff) measure f.time.duration s.groups groups' st')
    (hvisible : f.staffVisible st.staff = true)
    (hspace : ∀ v k, f.voiceVisible st.staff v = false → st'.list? v = some [k] →
      space st.staff v = k) :
    staveStreams groups' s.syllables st' = st.strands.map (Strand.beats s f space) := by
  have hhides : ∀ v, Erasing.hides f st.staff v = !f.voiceVisible st.staff v := by
    simp [Erasing.hides, hvisible]
  have hvoice : ∀ v, (st'.list? v).map (voiceBeats groups') =
      (st.list? v).map fun list => Strand.beats s f space (.voice st.staff v list) := by
    intro v
    cases hl : st.list? v with
    | none => rw [h.absent v hl, Option.map_none, Option.map_none]
    | some list =>
      cases hv : f.voiceVisible st.staff v with
      | true =>
        obtain ⟨heq, hkept⟩ := h.kept v (by simp [hhides, hv])
        rw [heq, hl, Option.map_some, Option.map_some, voiceBeats_congr (hkept list hl),
          Strand.beats, if_pos hv]
      | false =>
        obtain ⟨k, hk, hg⟩ := h.hidden v (by simp [hhides, hv]) list hl
        rw [hk, Option.map_some, Option.map_some, Strand.beats, if_neg (by simp [hv]),
          hspace v k hv hk]
        simp [voiceBeats, Arena.get, hg, Group.measureSpace]
  simp only [staveStreams, Stave.present_eq, Stave.strands, h.verses, List.map_append, List.map_map,
    List.map_filterMap, Option.map_map, Function.comp_def]
  congr 1
  exact List.filterMap_congr fun v _ => hvoice v

theorem streams_eq {measure : Nat} {ss ss' : List Stave} {space : Nat → Nat → GroupKey}
    (h : Erasing.Shows f measure s.groups groups' ss ss')
    (hspace : ∀ st ∈ ss', ∀ v k, f.voiceVisible st.staff v = false → st.list? v = some [k] →
      space st.staff v = k) :
    streams groups' s.syllables f ss' =
      ((ss.filter fun st => f.staffVisible st.staff).flatMap Stave.strands).map
        (Strand.beats s f space) := by
  induction h with
  | nil => rfl
  | @cons st st' rest rest' hst _ ih =>
    simp only [List.mem_cons, forall_eq_or_imp, hst.staff] at hspace
    have ih := ih hspace.2
    unfold streams at ih ⊢
    rw [List.filter_cons, List.filter_cons, hst.staff]
    split
    next hv =>
      rw [List.flatMap_cons, List.flatMap_cons, List.map_append, ih,
        staveStreams_eq hst hv hspace.1]
    next => exact ih

theorem streams_congr {syllables : Arena Syllable} {measure : Nat} {ss : List Stave}
    (h : SameAt groups groups' ((ss.flatMap (Stave.postings measure)).map (·.key))) :
    streams groups' syllables f ss = streams groups syllables f ss := by
  unfold streams
  rw [List.flatMap_def, List.flatMap_def]
  refine congrArg List.flatten (List.map_congr_left fun st hst => ?_)
  unfold staveStreams
  refine congrArg (· ++ _) (List.map_congr_left fun ⟨v, list⟩ hlist => ?_)
  refine voiceBeats_congr (h.mono fun k hk => ?_)
  refine List.mem_map.mpr ⟨⟨measure, st.staff, v, k⟩, ?_, rfl⟩
  refine List.mem_flatMap.mpr ⟨st, List.mem_of_mem_filter hst, ?_⟩
  exact Stave.mem_postings.mpr ⟨rfl, rfl, list, Stave.mem_present.mp hlist, hk⟩

/-! ## Building item by item -/

/-- What building makes of items, with the groups that it finds and those that it
leaves: hidden voices are replaced, and each measure receives the chords of its
streams, up to the first that has none. -/
inductive Raises (syllables : Arena Syllable) (packing : Float) (groups groups' : Arena Group) :
    InForce → List Item → List Item → Option Fault → Prop where
  | nil {f : InForce} : Raises syllables packing groups groups' f [] [] none
  | change {f : InForce} {c : Change} {rest rest' : List Item} {fault : Option Fault} :
    Raises syllables packing groups groups' (f.apply c) rest rest' fault →
    Raises syllables packing groups groups' f (.change c :: rest) (.change c :: rest') fault
  | built {f : InForce} {m m' : Measure} {rest rest' : List Item} {fault : Option Fault} :
    m'.number = m.number → Erasing.Shows f m.number groups groups' m.staves m'.staves →
    Stream.chords packing f.time.duration (streams groups' syllables f m'.staves) = .ok m'.chords →
    Raises syllables packing groups groups' f rest rest' fault →
    Raises syllables packing groups groups' f (.measure m :: rest) (.measure m' :: rest') fault
  | failed {f : InForce} {m m' : Measure} {rest : List Item} {breach : Breach} :
    m'.number = m.number → Erasing.Shows f m.number groups groups' m.staves m'.staves →
    Stream.chords packing f.time.duration (streams groups' syllables f m'.staves) = .error breach →
    Raises syllables packing groups groups' f (.measure m :: rest) (.measure m' :: rest)
      (some (.inconsistent m.number breach))

section Items

variable {syllables : Arena Syllable} {packing : Float} {its its' : List Item} {stock : Stock}
  {ps : List Posting} {vs : List SyllableKey} {fault : Option Fault}

theorem items_raises (syllables : Arena Syllable) (packing : Float) {start : Arena Group}
    (h : (stock.on s).Stocked Group.Written ((measuresOf its).flatMap Measure.postings ++ ps) vs)
    (hs : ∀ m ∈ measuresOf its, m.Sound) (hf : f.Sound)
    (hc : ∀ c, Item.change c ∈ its → c.settings.Sound)
    (hsame : SameAt start stock.groups (((measuresOf its).flatMap Measure.postings).map (·.key))) :
    let b := items syllables packing f stock its
    Raises syllables packing start b.stock.groups f its b.now b.fault ∧
      (b.stock.on s).Stocked Group.Written ((measuresOf b.now).flatMap Measure.postings ++ ps) vs ∧
      SameAt stock.groups b.stock.groups (ps.map (·.key)) := by
  induction its generalizing f stock ps with
  | nil => exact ⟨.nil, h, .refl⟩
  | cons i rest ih =>
    have hrest : ∀ c, Item.change c ∈ rest → c.settings.Sound := fun c h => hc c (by simp [h])
    cases i with
    | change c =>
      obtain ⟨hraises, hstocked, hothers⟩ := ih h hs (hf.apply (hc c (by simp))) hrest hsame
      exact ⟨.change hraises, hstocked, hothers⟩
    | measure m =>
      simp only [measuresOf_measure, List.mem_cons, forall_eq_or_imp, List.flatMap_cons,
        List.map_append] at h hs hsame
      rw [List.append_assoc] at h
      obtain ⟨hstocked, hshows, hothers⟩ := Erasing.staves_shows h hs.1.staves hf.duration_pos
      generalize hfirst : Erasing.staves m.number f stock m.staves = erased at hstocked hshows hothers
      simp only [List.map_append] at hothers
      have hearlier := hshows.earlier (hsame.mono fun _ => List.mem_append_left _)
      cases hchords : Stream.chords packing f.time.duration
          (streams erased.stock.groups syllables f erased.now) with
      | error breach =>
        have hmeasure : measure syllables packing f stock m =
            { stock := erased.stock, now := { m with staves := erased.now },
              events := erased.events, fault := some (.inconsistent m.number breach) } := by
          simp only [measure, hfirst, hchords]
        simp only [items, hmeasure]
        refine ⟨.failed rfl hearlier hchords, ?_, ?_⟩
        · rw [measuresOf_measure, List.flatMap_cons, List.append_assoc]
          exact hstocked
        · exact hothers.mono fun _ => List.mem_append_right _
      | ok chords =>
        have hmeasure : measure syllables packing f stock m =
            { stock := erased.stock, now := { m with staves := erased.now, chords },
              events := erased.events ++ [.chordsBuilt m.number chords.length] } := by
          simp only [measure, hfirst, hchords]
        simp only [items, hmeasure]
        have hperm : (erased.now.flatMap (Stave.postings m.number) ++
            ((measuresOf rest).flatMap Measure.postings ++ ps)).Perm
            ((measuresOf rest).flatMap Measure.postings ++
              (erased.now.flatMap (Stave.postings m.number) ++ ps)) := by
          rw [← List.append_assoc, ← List.append_assoc]
          exact List.perm_append_comm.append_right ps
        obtain ⟨hraises, hstocked', hothers'⟩ := ih (hstocked.perm hperm (.refl _)) hs.2 hf hrest
          ((hsame.mono fun _ => List.mem_append_right _).trans
            (hothers.mono fun _ => List.mem_append_left _))
        simp only [List.map_append] at hothers'
        have hlater := hothers'.mono fun _ => List.mem_append_left _
        refine ⟨.built rfl (hearlier.later hlater) ?_ hraises, ?_, ?_⟩
        · rw [streams_congr hlater]
          exact hchords
        · refine hstocked'.perm ?_ (.refl _)
          rw [measuresOf_measure, List.flatMap_cons, ← List.append_assoc]
          exact List.perm_append_comm.append_right ps
        · exact (hothers.mono fun _ => List.mem_append_right _).trans
            (hothers'.mono fun _ => List.mem_append_right _)

end Items

namespace Raises

variable {syllables : Arena Syllable} {packing : Float} {its its' : List Item} {fault : Option Fault}

theorem changesOf_eq (h : Raises syllables packing groups groups' f its its' fault) :
    changesOf its' = changesOf its := by
  induction h with
  | nil => rfl
  | change _ ih => exact congrArg (_ :: ·) ih
  | built _ _ _ _ ih => exact ih
  | failed => rfl

theorem map_number (h : Raises syllables packing groups groups' f its its' fault) :
    (measuresOf its').map (·.number) = (measuresOf its).map (·.number) := by
  induction h with
  | nil => rfl
  | change _ ih => exact ih
  | built hnumber _ _ _ ih =>
    rw [measuresOf_measure, measuresOf_measure, List.map_cons, List.map_cons, hnumber, ih]
  | failed hnumber => rw [measuresOf_measure, measuresOf_measure, List.map_cons, hnumber]; rfl

theorem flatMap_sung (h : Raises syllables packing groups groups' f its its' fault) :
    (measuresOf its').flatMap Measure.sung = (measuresOf its).flatMap Measure.sung := by
  induction h with
  | nil => rfl
  | change _ ih => exact ih
  | built _ hshows _ _ ih =>
    rw [measuresOf_measure, measuresOf_measure, List.flatMap_cons, List.flatMap_cons, ih,
      Measure.sung, hshows.flatMap_sung, Measure.sung]
  | failed _ hshows =>
    rw [measuresOf_measure, measuresOf_measure, List.flatMap_cons, List.flatMap_cons,
      Measure.sung, hshows.flatMap_sung, Measure.sung]

theorem sound (h : Raises syllables packing groups groups' f its its' fault)
    (hs : ∀ m ∈ measuresOf its, m.Sound) : ∀ m ∈ measuresOf its', m.Sound := by
  have hmeasure : ∀ {f : InForce} {m m' : Measure},
      Erasing.Shows f m.number groups groups' m.staves m'.staves → m.Sound → m'.Sound :=
    fun hshows hm => ⟨hshows.sound hm.staves, by rw [hshows.map_staff]; exact hm.ascending⟩
  induction h with
  | nil => exact hs
  | change _ ih => exact ih hs
  | built _ hshows _ _ ih =>
    simp only [measuresOf_measure, List.mem_cons, forall_eq_or_imp] at hs ⊢
    exact ⟨hmeasure hshows hs.1, ih hs.2⟩
  | failed _ hshows =>
    simp only [measuresOf_measure, List.mem_cons, forall_eq_or_imp] at hs ⊢
    exact ⟨hmeasure hshows hs.1, hs.2⟩

end Raises

end Chording

open Chording

/-- What building makes of a sound score is sound, as far as it got. -/
theorem Score.Sound.buildChords {s : Score} (h : s.Sound Group.Written) :
    Raises s.syllables s.header.options.packing s.groups s.buildChords.now.groups .start s.items
      s.buildChords.now.items s.buildChords.fault ∧ s.buildChords.now.Sound Group.Written := by
  have hstock : (Stock.on { groups := s.groups, tags := s.tags } s).Stocked Group.Written
      ((measuresOf s.items).flatMap Measure.postings ++ []) s.sung := by
    rw [List.append_nil]
    exact h.stocked
  obtain ⟨hraises, hstocked, -⟩ := items_raises s.syllables s.header.options.packing
    hstock h.measures InForce.Sound.start h.changes .refl
  refine ⟨hraises, ?_, hraises.sound h.measures, ?_, ?_⟩
  · have hsung : s.buildChords.now.sung = s.sung := hraises.flatMap_sung
    rw [hsung]
    rw [List.append_nil] at hstocked
    exact ⟨hstocked.groups, hstocked.named, hstocked.fits, hstocked.syllables, hstocked.timed,
      hstocked.tags⟩
  · have hnumber := hraises.map_number
    have hlength : s.buildChords.now.measures.length = s.measures.length := by
      have := congrArg List.length hnumber
      rwa [List.length_map, List.length_map] at this
    rw [hlength, ← h.numbered]
    exact hnumber
  · intro c hc
    rw [← mem_changesOf, show changesOf s.buildChords.now.items = changesOf s.items from
      hraises.changesOf_eq, mem_changesOf] at hc
    exact h.changes c hc

/-! ## Measure by measure -/

/-- The first group of a voice on a staff. -/
def Measure.firstOf (m : Measure) (staff voice : Nat) : GroupKey :=
  (((m.stave? staff).bind (·.list? voice)).bind List.head?).getD default

/-- What has been made of a measure that its strands fill, `m` being the measure as it
now stands. -/
structure Placed.Built (s : Score) (groups' : Arena Group) (p : Placed) (m : Measure) : Prop where
  number : m.number = p.measure.number
  shows : Erasing.Shows p.inForce p.measure.number s.groups groups' p.measure.staves m.staves
  chords : Stream.chords s.header.options.packing p.length (p.strands.map
    (Strand.beats s p.inForce m.firstOf)) = .ok m.chords

namespace Chording.Raises

variable {s : Score} {groups' : Arena Group} {f : InForce} {its its' : List Item}
  {fault : Option Fault} {i : Nat}

theorem streams_eq_strands {m : Measure} {ss : List Stave} (hm : m.Sound)
    (h : Erasing.Shows f m.number s.groups groups' m.staves ss) (number : Nat)
    (chords : List Chord) :
    streams groups' s.syllables f ss = (Placed.strands ⟨i, f, m⟩).map
      (Strand.beats s f (Measure.firstOf ⟨number, ss, chords⟩)) := by
  refine streams_eq h fun st hst v k _ hk => ?_
  have hasc : ((⟨number, ss, chords⟩ : Measure).staves.map (·.staff)).Pairwise (· < ·) := by
    change (ss.map (·.staff)).Pairwise (· < ·)
    rw [h.map_staff]
    exact hm.ascending
  simp [Measure.firstOf, Measure.stave?_of_mem hasc hst, hk]

theorem buildable_iff {m : Measure} {ss : List Stave} (packing : Float) (hm : m.Sound)
    (h : Erasing.Shows f m.number s.groups groups' m.staves ss) :
    (∃ cs, Stream.chords packing f.time.duration (streams groups' s.syllables f ss) = .ok cs) ↔
      Placed.Buildable s ⟨i, f, m⟩ := by
  rw [streams_eq_strands (i := i) hm h 0 [], Stream.exists_chords_iff, List.map_map]
  simp only [List.mem_map, forall_exists_index, and_imp, forall_apply_eq_imp_iff₂,
    Function.comp_def, Strand.map_duration_beats]
  rfl

/-- Building comes to a measure as long as those before it can be built. It stops there unless
the measure can be built too. -/
theorem reaches (h : Raises s.syllables s.header.options.packing s.groups groups' f its its' fault)
    (hs : ∀ m ∈ measuresOf its, m.Sound) {before after : List Placed} {p : Placed}
    (hplaced : Placed.along i f its = before ++ p :: after) (hbefore : ∀ q ∈ before, q.Buildable s) :
    (¬p.Buildable s →
        ∃ breach, fault = some (.inconsistent p.measure.number breach) ∧ p.FailsBy s breach) ∧
      (p.Buildable s → ∃ n m, p.item = i + n ∧ its'[n]? = some (.measure m) ∧ p.Built s groups' m) := by
  induction h generalizing i before with
  | nil => simp [Placed.along] at hplaced
  | change _ ih =>
    obtain ⟨hstop, hgo⟩ := ih hs hplaced hbefore
    refine ⟨hstop, fun hp => ?_⟩
    obtain ⟨n, m, hitem, hm, hbuilt⟩ := hgo hp
    exact ⟨n + 1, m, by omega, by simpa using hm, hbuilt⟩
  | @built f m m' rest rest' fault hnumber hshows hchords _ ih =>
    simp only [measuresOf_measure, List.mem_cons, forall_eq_or_imp] at hs
    have hbuildable : Placed.Buildable s ⟨i, f, m⟩ := (buildable_iff _ hs.1 hshows).mp ⟨_, hchords⟩
    cases before with
    | nil =>
      simp only [Placed.along, List.nil_append, List.cons.injEq] at hplaced
      obtain ⟨rfl, -⟩ := hplaced
      refine ⟨fun hp => absurd hbuildable hp, fun _ => ⟨0, m', rfl, rfl, hnumber, hshows, ?_⟩⟩
      rw [streams_eq_strands (i := i) hs.1 hshows m'.number m'.chords] at hchords
      exact hchords
    | cons q before =>
      simp only [Placed.along, List.cons_append, List.cons.injEq] at hplaced
      obtain ⟨hstop, hgo⟩ := ih hs.2 hplaced.2 fun q hq => hbefore q (by simp [hq])
      refine ⟨hstop, fun hp => ?_⟩
      obtain ⟨n, m, hitem, hm, hbuilt⟩ := hgo hp
      exact ⟨n + 1, m, by omega, by simpa using hm, hbuilt⟩
  | @failed f m m' rest breach hnumber hshows hchords =>
    simp only [measuresOf_measure, List.mem_cons, forall_eq_or_imp] at hs
    have hnot : ¬Placed.Buildable s ⟨i, f, m⟩ := by
      rw [← buildable_iff s.header.options.packing hs.1 hshows, hchords]
      simp
    cases before with
    | nil =>
      simp only [Placed.along, List.nil_append, List.cons.injEq] at hplaced
      obtain ⟨rfl, -⟩ := hplaced
      rw [streams_eq_strands (i := i) hs.1 hshows m'.number m'.chords] at hchords
      exact ⟨fun _ => ⟨breach, rfl, _, hchords⟩, fun hp => absurd hp hnot⟩
    | cons q before =>
      simp only [Placed.along, List.cons_append, List.cons.injEq] at hplaced
      obtain ⟨rfl, -⟩ := hplaced
      exact absurd (hbefore _ (by simp)) hnot

/-- Building stops at the first measure that cannot be built, if there is one. -/
theorem fault_cases
    (h : Raises s.syllables s.header.options.packing s.groups groups' f its its' fault)
    (hs : ∀ m ∈ measuresOf its, m.Sound) (i : Nat) :
    (fault = none ∧ ∀ p ∈ Placed.along i f its, p.Buildable s) ∨
      ∃ before p after breach, Placed.along i f its = before ++ p :: after ∧
        (∀ q ∈ before, q.Buildable s) ∧ ¬p.Buildable s ∧
        fault = some (.inconsistent p.measure.number breach) := by
  induction h generalizing i with
  | nil => simp [Placed.along]
  | change _ ih => exact ih hs (i + 1)
  | @built f m m' rest rest' fault hnumber hshows hchords _ ih =>
    simp only [measuresOf_measure, List.mem_cons, forall_eq_or_imp] at hs
    have hbuildable : Placed.Buildable s ⟨i, f, m⟩ := (buildable_iff _ hs.1 hshows).mp ⟨_, hchords⟩
    rcases ih hs.2 (i + 1) with ⟨hnone, hall⟩ | ⟨before, p, after, breach, halong, hbefore, hp⟩
    · exact .inl ⟨hnone, by simpa [Placed.along] using ⟨hbuildable, hall⟩⟩
    · refine .inr ⟨⟨i, f, m⟩ :: before, p, after, breach, ?_, ?_, hp⟩
      · rw [Placed.along, halong, List.cons_append]
      · simpa using ⟨hbuildable, hbefore⟩
  | @failed f m m' rest breach hnumber hshows hchords =>
    simp only [measuresOf_measure, List.mem_cons, forall_eq_or_imp] at hs
    refine .inr ⟨[], ⟨i, f, m⟩, _, breach, rfl, by simp, ?_, rfl⟩
    rw [← buildable_iff s.header.options.packing hs.1 hshows, hchords]
    simp

end Chording.Raises

namespace Score.Sound

variable {s : Score}

/-- Building goes well exactly if every measure can be built. -/
theorem fault_eq_none_iff (h : s.Sound Group.Written) :
    s.buildChords.fault = none ↔ ∀ p ∈ s.placed, p.Buildable s := by
  rcases h.buildChords.1.fault_cases h.measures 0 with
    ⟨hnone, hall⟩ | ⟨before, p, after, breach, hplaced, -, hp, hfault⟩
  · exact ⟨fun _ => hall, fun _ => hnone⟩
  · refine ⟨fun hnone => ?_, fun hall => absurd (hall p ?_) hp⟩
    · rw [hnone] at hfault
      cases hfault
    · rw [Score.placed, hplaced]
      simp

theorem fault_of_first (h : s.Sound Group.Written) {before after : List Placed} {p : Placed}
    (hplaced : s.placed = before ++ p :: after) (hbefore : ∀ q ∈ before, q.Buildable s)
    (hp : ¬p.Buildable s) : ∃ breach, s.buildChords.fault =
      some (.inconsistent p.measure.number breach) ∧ p.FailsBy s breach :=
  (h.buildChords.1.reaches h.measures hplaced hbefore).1 hp

/-- A measure that building comes to has its chords if they can be built. -/
theorem built_of_buildable (h : s.Sound Group.Written) {before after : List Placed} {p : Placed}
    (hplaced : s.placed = before ++ p :: after) (hbefore : ∀ q ∈ before, q.Buildable s)
    (hp : p.Buildable s) : ∃ m, s.buildChords.now.measureAt? p.item = some m ∧
      p.Built s s.buildChords.now.groups m := by
  obtain ⟨n, m, hitem, hm, hbuilt⟩ := (h.buildChords.1.reaches h.measures hplaced hbefore).2 hp
  rw [Nat.zero_add] at hitem
  exact ⟨m, by rw [measureAt?, hitem, hm], hbuilt⟩

theorem built_at (h : s.Sound Group.Written) (hfault : s.buildChords.fault = none) {p : Placed}
    (hp : p ∈ s.placed) : ∃ m, s.buildChords.now.measureAt? p.item = some m ∧
      p.Built s s.buildChords.now.groups m := by
  have hbuildable := h.fault_eq_none_iff.mp hfault
  obtain ⟨before, after, hplaced⟩ := List.append_of_mem hp
  exact h.built_of_buildable hplaced (fun q hq => hbuildable q (by simp [hplaced, hq]))
    (hbuildable p hp)

end Score.Sound

end Divisi
