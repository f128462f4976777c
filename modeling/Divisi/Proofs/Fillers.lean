/-
Entries that fill their measure.

Loading keeps the settings in force while the score that they are to be replayed on is still being
built; checking and building replay them from the start. They come to each measure with the same
ones (`Placed.ReadBy`). So an entry written `m`, which takes its length from the time
signature that loading had, fills the measure that checking and building find
(`Score.fillers_fill`).
-/
import Divisi.Proofs.Halting
import Divisi.Proofs.Processed
import Divisi.Proofs.Transcribed

namespace Divisi

namespace Description

/-- All that is written for a voice besides grace notes is one entry `m`, in a tuplet or not. -/
def FillsVoice (groups : List Group) : Prop :=
  ∃ g, groups.filter (fun g => !g.grace) = [g] ∧ Text.trim g.time.toList = ['m']

/-- All that is written for a verse is one syllable `m`. -/
def FillsVerse (syllables : List Syllable) : Prop :=
  ∃ x, syllables = [x] ∧ Text.trim x.time.toList = ['m']

theorem fillsVoice_iff {groups : List Group} : FillsVoice groups ↔
    (groups.filter fun g => !g.grace).length = 1 ∧
      ∀ g ∈ groups, g.grace = false → Text.trim g.time.toList = ['m'] := by
  rw [List.length_eq_one_iff]
  constructor
  · rintro ⟨g, hg, hm⟩
    refine ⟨⟨g, hg⟩, fun g' hmem hgrace => ?_⟩
    have : g' ∈ groups.filter fun g => !g.grace := List.mem_filter.mpr ⟨hmem, by simp [hgrace]⟩
    rw [hg, List.mem_singleton] at this
    exact this ▸ hm
  · rintro ⟨⟨g, hg⟩, hm⟩
    have hmem : g ∈ groups.filter fun g => !g.grace := by simp [hg]
    obtain ⟨hmem, hgrace⟩ := List.mem_filter.mp hmem
    exact ⟨g, hg, hm g hmem (by simpa using hgrace)⟩

theorem fillsVerse_iff {syllables : List Syllable} : FillsVerse syllables ↔
    syllables.length = 1 ∧ ∀ x ∈ syllables, Text.trim x.time.toList = ['m'] := by
  rw [List.length_eq_one_iff]
  constructor
  · rintro ⟨x, rfl, hm⟩
    exact ⟨⟨x, rfl⟩, by simpa using hm⟩
  · rintro ⟨⟨x, rfl⟩, hm⟩
    exact ⟨x, rfl, hm x (by simp)⟩

instance (groups : List Group) : Decidable (FillsVoice groups) :=
  decidable_of_iff _ fillsVoice_iff.symm

instance (syllables : List Syllable) : Decidable (FillsVerse syllables) :=
  decidable_of_iff _ fillsVerse_iff.symm

/-- Whatever is written for a staff fills the measure. -/
structure Stave.Fills (d : Stave) : Prop where
  voices : ∀ v groups, (v, groups) ∈ d.voices → groups ≠ [] → FillsVoice groups
  verses : ∀ syllables ∈ d.verses, syllables ≠ [] → FillsVerse syllables

instance (d : Stave) : Decidable d.Fills :=
  decidable_of_iff ((∀ x ∈ d.voices, x.2.isEmpty = false → FillsVoice x.2) ∧
      ∀ syllables ∈ d.verses, syllables.isEmpty = false → FillsVerse syllables)
    ⟨fun ⟨hvoices, hverses⟩ =>
      ⟨fun v groups hv hne => hvoices (v, groups) hv (by simpa using hne),
        fun syllables hmem hne => hverses syllables hmem (by simpa using hne)⟩,
      fun ⟨hvoices, hverses⟩ => ⟨fun x hx hne => hvoices x.1 x.2 hx (by simpa using hne),
        fun syllables hmem hne => hverses syllables hmem (by simpa using hne)⟩⟩

end Description

theorem WrittenTime.parse_wholeMeasure {text : String} (h : Text.trim text.toList = ['m']) :
    parse text = .ok .wholeMeasure := by
  rw [parse, h]
  rfl

/-- Related lists have related elements left where the same ones are left out. -/
theorem filter_singleton_of_forall₂ {α β : Type} {R : α → β → Prop} {xs : List α} {ys : List β}
    {p : α → Bool} {q : β → Bool} (h : List.Forall₂ R xs ys) (hpq : ∀ x y, R x y → p x = q y)
    {x : α} (hx : xs.filter p = [x]) : ∃ y, ys.filter q = [y] ∧ R x y := by
  have hrel : List.Forall₂ R (xs.filter p) (ys.filter q) :=
    List.rel_filter (fun x y hxy => by simp [hpq x y hxy]) h
  rw [hx] at hrel
  obtain ⟨y, rest, hy, hrest, hys⟩ := List.forall₂_cons_left_iff.mp hrel
  rw [List.forall₂_nil_left_iff.mp hrest] at hys
  exact ⟨y, hys, hy⟩

namespace Score

variable {s : Score} {time : Signature} {measure staff v verse : Nat}

theorem HasGroup.grace {d : Description.Group} {k : GroupKey}
    (h : s.HasGroup time measure staff v d k) : (s.groups.get k).grace = d.grace := by
  obtain ⟨g, tags, hg, hget⟩ := h
  obtain ⟨-, -, -, -, hgrace, -⟩ := Loading.group_timing hg
  rw [Arena.get_of_get? hget, hgrace]

/-- What is written `m` lasts as long as a measure, whatever tuplet it is in. -/
theorem HasGroup.duration_of_filler {d : Description.Group} {k : GroupKey}
    (h : s.HasGroup time measure staff v d k) (hgrace : d.grace = false)
    (hd : Text.trim d.time.toList = ['m']) : (s.groups.get k).duration = time.duration := by
  obtain ⟨g, tags, hg, hget⟩ := h
  obtain ⟨written, tuplet, hwritten, -, -, -, -, hduration⟩ := Loading.group_timing hg
  rw [WrittenTime.parse_wholeMeasure hd] at hwritten
  cases hwritten
  rw [Arena.get_of_get? hget, hduration, hgrace]
  rfl

theorem voiceBeats_of_filler {groups : List Description.Group} {list : List GroupKey}
    (h : List.Forall₂ (s.HasGroup time measure staff v) groups list)
    (hfills : Description.FillsVoice groups) : ∃ k, k ∈ list ∧
      Chording.voiceBeats s.groups list = [{ member := .group k, duration := time.duration }] := by
  obtain ⟨d, hd, hm⟩ := hfills
  obtain ⟨k, hk, hhas⟩ := filter_singleton_of_forall₂ h (q := fun k => !(s.groups.get k).grace)
    (fun d k hk => by rw [hk.grace]) hd
  have hgrace : d.grace = false := by
    have : d ∈ groups.filter fun g => !g.grace := by simp [hd]
    simpa using (List.mem_filter.mp this).2
  refine ⟨k, (List.mem_filter.mp (hk ▸ List.mem_singleton_self k)).1, ?_⟩
  rw [Chording.voiceBeats, hk, List.map_singleton, hhas.duration_of_filler hgrace hm]

theorem verseBeats_of_filler {syllables : List Description.Syllable} {list : List SyllableKey}
    (h : List.Forall₂ (s.HasSyllable time measure staff verse) syllables list)
    (hfills : Description.FillsVerse syllables) : ∃ k, list = [k] ∧
      Chording.verseBeats s.syllables list =
        [{ member := .syllable k, duration := time.duration }] := by
  obtain ⟨d, rfl, hm⟩ := hfills
  obtain ⟨k, rest, ⟨written, hwritten, hget⟩, hrest, rfl⟩ := List.forall₂_cons_left_iff.mp h
  rw [List.forall₂_nil_left_iff.mp hrest]
  rw [WrittenTime.parse_wholeMeasure hm] at hwritten
  cases hwritten
  refine ⟨k, rfl, ?_⟩
  rw [Chording.verseBeats, List.map_singleton, Arena.get_of_get? hget]
  rfl

end Score

namespace Placed

/-- Loading, which had the settings of `q`, read the measure with those that are in force where it
stands: so they are told by the changes before it, and building makes its chords with them. -/
structure ReadBy (p : Placed) (s : Score) (q : Loading.Progress)
    (written : List Description.Stave) : Prop where
  loaded : ∃ t, Loading.addMeasure q.inForce.time p.measure.number q.score written =
    .ok (t, p.measure)
  agrees : q.inForce = p.inForce
  replayed : q.inForce = InForce.after (changesOf (s.items.take p.item))
  built : let b := s.buildItems (s.items.take p.item)
    b.fault = none → s.buildChords.now.items[p.item]? = some (.measure
      (Chording.measure s.syllables s.header.options.packing q.inForce b.stock p.measure).now)

/-- The voice passes the check. Its stream is one beat, which ends where the measure does; and
hidden or not, it makes a strand that does. -/
structure FitsVoice (p : Placed) (s : Score) (staff v : Nat) (list : List GroupKey) : Prop where
  checked : Validation.voice s staff p.length (v, list) = .ok ()
  beats : ∃ k ∈ list, Chording.voiceBeats s.groups list =
    [{ member := .group k, duration := p.length }]
  strand : (Strand.voice staff v list).lengths s p.inForce = [p.length]

/-- The verse passes the check, whichever it is, and its stream is one beat, which ends where the
measure does. -/
structure FitsVerse (p : Placed) (s : Score) (staff : Nat) (verse : List SyllableKey) : Prop where
  checked : ∀ n, Validation.verse s staff p.length (verse, n) = .ok ()
  beats : ∃ k, verse = [k] ∧ Chording.verseBeats s.syllables verse =
    [{ member := .syllable k, duration := p.length }]
  strand : (Strand.verse verse).lengths s p.inForce = [p.length]

variable {p : Placed} {s : Score} {staff v measure verse : Nat}

theorem fitsVoice_of_filler (hp : p.inForce.Sound) {groups : List Description.Group} {list : List GroupKey}
    (h : List.Forall₂ (s.HasGroup p.inForce.time measure staff v) groups list)
    (hfills : Description.FillsVoice groups) : p.FitsVoice s staff v list := by
  obtain ⟨k, hk, hbeats⟩ := Score.voiceBeats_of_filler h hfills
  have hlengths : (s.timed list).map (·.duration) = [p.length] := by
    have hmap := congrArg (List.map (·.duration)) hbeats
    simpa [Chording.voiceBeats, Score.timed, Score.groupsOf, List.filter_map, Function.comp_def,
      length] using hmap
  constructor
  case checked =>
    have hne : s.timed list ≠ [] := fun hnil => by simp [hnil] at hlengths
    rw [Validation.voice, if_neg hne, Validation.length_eq_ok, Score.voiceSpans, hlengths]
    exact ⟨hp.time.addable, add_zero _⟩
  case beats => exact ⟨k, hk, hbeats⟩
  case strand =>
    rw [Strand.lengths]
    split
    · exact hlengths
    · rfl

theorem fitsVerse_of_filler (hp : p.inForce.Sound) {syllables : List Description.Syllable} {list : List SyllableKey}
    (h : List.Forall₂ (s.HasSyllable p.inForce.time measure staff verse) syllables list)
    (hfills : Description.FillsVerse syllables) : p.FitsVerse s staff list := by
  obtain ⟨k, hk, hbeats⟩ := Score.verseBeats_of_filler h hfills
  have hlengths : (Strand.verse list).lengths s p.inForce = [p.length] := by
    have hmap := congrArg (List.map (·.duration)) hbeats
    simpa [Chording.verseBeats, Strand.lengths, Function.comp_def, length] using hmap
  refine ⟨fun n => ?_, ⟨k, hk, hbeats⟩, hlengths⟩
  rw [Validation.verse, Validation.length_eq_ok]
  change Time.Addable 0 ((Strand.verse list).lengths s p.inForce) ∧
    Time.total ((Strand.verse list).lengths s p.inForce) = p.length
  rw [hlengths]
  exact ⟨hp.time.addable, add_zero _⟩

section Stave

variable {st : Stave} {d : Description.Stave}

theorem exists_fitsVoice (hp : p.inForce.Sound) (h : st.Transcribes s p.inForce.time measure d)
    {groups : List Description.Group} (hv : (v, groups) ∈ d.voices)
    (hfills : Description.FillsVoice groups) :
    ∃ list, st.list? v = some list ∧ p.FitsVoice s st.staff v list := by
  have hne : groups ≠ [] := by
    obtain ⟨g, hg, -⟩ := hfills
    rintro rfl
    cases hg
  obtain ⟨list, hlist, hall⟩ := h.voices v groups hv hne
  exact ⟨list, hlist, fitsVoice_of_filler hp hall hfills⟩

theorem exists_fitsVerse (hp : p.inForce.Sound) (h : st.Transcribes s p.inForce.time measure d)
    {syllables : List Description.Syllable} (hmem : syllables ∈ d.verses)
    (hfills : Description.FillsVerse syllables) :
    ∃ verse ∈ st.verses, p.FitsVerse s st.staff verse := by
  have hne : syllables ≠ [] := by
    obtain ⟨x, rfl, -⟩ := hfills
    simp
  obtain ⟨i, hi⟩ := List.getElem?_of_mem hmem
  obtain ⟨verse, hverse, hall⟩ := h.exists_verse hi hne
  exact ⟨verse, hverse, fitsVerse_of_filler hp hall hfills⟩

end Stave

theorem filled_of_fillers (hp : p.inForce.Sound) {written : List Description.Stave}
    (h : p.measure.Transcribes s p.inForce.time written) (hfills : ∀ d ∈ written, d.Fills) :
    Validation.measure s p = .ok () ∧ p.Filled s ∧ p.InRange s := by
  have hvoice : ∀ st ∈ p.measure.staves, ∀ v list, st.list? v = some list →
      p.FitsVoice s st.staff v list := by
    intro st hst v list hlist
    obtain ⟨d, hd, hst⟩ := h.only st hst
    obtain ⟨groups, hgroups, hne⟩ := hst.only v list hlist
    obtain ⟨list', hlist', hall⟩ := hst.voices v groups hgroups hne
    obtain rfl := Option.some.inj (hlist.symm.trans hlist')
    exact fitsVoice_of_filler hp hall ((hfills d hd).voices v groups hgroups hne)
  have hverse : ∀ st ∈ p.measure.staves, ∀ verse ∈ st.verses, p.FitsVerse s st.staff verse := by
    intro st hst verse hverse
    obtain ⟨d, hd, hst⟩ := h.only st hst
    obtain ⟨n, hn⟩ := List.getElem?_of_mem hverse
    obtain ⟨x, hx, hall⟩ := exists_of_forall₂ (List.Forall₂.flip hst.verses) hn
    obtain ⟨hx, hne⟩ := List.mem_filter.mp (List.mem_of_getElem? hx)
    exact fitsVerse_of_filler hp hall ((hfills d hd).verses x.1 (List.fst_mem_of_mem_zipIdx hx)
      (by simpa using hne))
  have hlength : ∀ strand ∈ p.strands, strand.lengths s p.inForce = [p.length] := by
    intro strand hstrand
    obtain ⟨st, hst, -, ⟨v, list, hlist, rfl⟩ | ⟨verse, hmem, rfl⟩⟩ := mem_strands.mp hstrand
    · exact (hvoice st hst v list hlist).strand
    · exact (hverse st hst verse hmem).strand
  refine ⟨?_, fun strand hstrand => ?_, ?_⟩
  · have hstave : p.measure.staves.forM (Validation.stave s p.length) = .ok () := by
      refine forM_eq_ok.mpr fun st hst => ?_
      rw [Validation.stave, bind_eq_ok]
      refine ⟨(), forM_eq_ok.mpr ?_, forM_eq_ok.mpr ?_⟩
      · rintro ⟨v, list⟩ hlist
        exact (hvoice st hst v list (Stave.mem_present.mp hlist)).checked
      · rintro ⟨verse, n⟩ hmem
        exact (hverse st hst verse (List.fst_mem_of_mem_zipIdx hmem)).checked n
    rw [Validation.measure, ← length, hstave]
    rfl
  · have hpos : 0 < p.length := hp.duration_pos
    rw [hlength strand hstrand]
    exact ⟨by simp, by simpa using hpos, add_zero _⟩
  · -- the signature is a common denominator
    have hgrid : p.length.OnGrid p.inForce.time.unit := hp.time.onGrid
    refine Stream.inRange_of_onGrid hgrid ?_ ?_ <;>
      simp only [List.mem_map, forall_exists_index, and_imp, forall_apply_eq_imp_iff₂] <;>
      intro strand hstrand <;> rw [hlength strand hstrand]
    · simpa using ⟨hgrid.nonneg, hgrid.dvd⟩
    · simpa using hgrid.le

end Placed

namespace Score

variable {s : Score}

/-- What building makes of a measure, once all before it has gone well. -/
theorem buildChords_measure {pre rest : List Item} {m : Measure}
    (hitems : s.items = pre ++ .measure m :: rest) (hpre : (s.buildItems pre).fault = none) :
    s.buildChords.now.items[pre.length]? = some (.measure (Chording.measure s.syllables
      s.header.options.packing (InForce.after (changesOf pre)) (s.buildItems pre).stock m).now) := by
  have hnow := congrArg Chording.Built.now (Chording.items_append hpre (.measure m :: rest))
  have hlength : (s.buildItems pre).now.length = pre.length := Chording.length_items _ _ _
  have hbuilt : s.buildChords.now.items = (s.buildItems pre).now ++ (Chording.items s.syllables
      s.header.options.packing (InForce.after (changesOf pre)) (s.buildItems pre).stock
        (.measure m :: rest)).now := by
    change (s.buildItems s.items).now = _
    rw [hitems]
    exact hnow
  rw [hbuilt, List.getElem?_append_right hlength.le, hlength, Nat.sub_self, Chording.items]
  split <;> rfl

/-- Loading read each measure with the settings that are in force where it stands. -/
theorem load_readBy {d : Description} (hordered : d.Ordered) (hs : load d = .ok s)
    {before after : List Description.Entry} {entry : Description.Entry}
    (hd : d.music = before ++ entry :: after) {written : List Description.Stave}
    (hwritten : entry.measure = some written) : ∃ q p, Loading.upTo d before = .ok q ∧
      p ∈ s.placed ∧ p.item = before.length + 1 ∧ p.ReadBy s q written ∧
      p.measure.Transcribes s p.inForce.time written := by
  obtain ⟨q, p, later, hq, hp, hitem, hlength, hforce, hitems, hreplayed, hnumber, hloaded,
    htranscribes⟩ := load_measure hordered hs hd hwritten
  have htake : s.items.take p.item = q.score.items := by rw [hlength, hitems, List.take_left]
  refine ⟨q, p, hq, hp, hitem, ?_, htranscribes⟩
  constructor
  case loaded => exact hnumber ▸ hloaded
  case agrees => exact hforce.symm
  case replayed => rw [htake, hreplayed]
  case built =>
    intro b hb
    simp only [b, htake] at hb ⊢
    rw [hreplayed, hlength]
    exact buildChords_measure hitems hb

/-- **What is written to fill its measure does.** Loading reads each measure with the settings
that checking and building replay there, though it keeps its own while the score is being built. So
whatever changes the time signature, a voice with one entry `m` besides its grace notes, in a tuplet
or not, and a verse of one syllable `m` pass the check and end exactly where the measure ends. A
measure with nothing else in it passes the check and has chords to make; a score of such
measures is checked and built without a fault. -/
theorem fillers_fill {d : Description} (hordered : d.Ordered) (hs : load d = .ok s) :
    (∀ p ∈ s.placed, ∃ before entry after, d.music = before ++ entry :: after ∧
      entry.measure.isSome = true ∧ p.item = before.length + 1) ∧
    (∀ before entry after written, d.music = before ++ entry :: after →
      entry.measure = some written → ∃ q p, Loading.upTo d before = .ok q ∧ p ∈ s.placed ∧
        p.item = before.length + 1 ∧ p.ReadBy s q written ∧
        (∀ sd ∈ written, ∃ st ∈ p.measure.staves, st.staff = sd.staff ∧
          (∀ v groups, (v, groups) ∈ sd.voices → Description.FillsVoice groups →
            ∃ list, st.list? v = some list ∧ p.FitsVoice s st.staff v list) ∧
          ∀ syllables ∈ sd.verses, Description.FillsVerse syllables →
            ∃ verse ∈ st.verses, p.FitsVerse s st.staff verse) ∧
        ((∀ sd ∈ written, sd.Fills) →
          Validation.measure s p = .ok () ∧ p.Filled s ∧ p.InRange s)) ∧
    ((∀ entry ∈ d.music, ∀ written ∈ entry.measure, ∀ sd ∈ written, sd.Fills) →
      s.validate = .ok () ∧ s.buildChords.fault = none) := by
  have hsound : s.Sound Group.Written := (load_sound hordered hs).1
  refine ⟨fun p hp => ?_, fun before entry after written hmusic hwritten => ?_, fun hall => ?_⟩
  · obtain ⟨before, entry, after, written, hmusic, hwritten, hitem⟩ :=
      exists_entry_of_placed hordered hs hp
    exact ⟨before, entry, after, hmusic, by simp [hwritten], hitem⟩
  · obtain ⟨q, p, hq, hp, hitem, hread, htranscribes⟩ := load_readBy hordered hs hmusic hwritten
    refine ⟨q, p, hq, hp, hitem, hread, fun sd hsd => ?_, fun hfills =>
      Placed.filled_of_fillers (hsound.inForce p hp) htranscribes hfills⟩
    obtain ⟨st, hst, hsd⟩ := htranscribes.staves sd hsd
    exact ⟨st, hst, hsd.staff, fun _ _ => Placed.exists_fitsVoice (hsound.inForce p hp) hsd,
      fun _ => Placed.exists_fitsVerse (hsound.inForce p hp) hsd⟩
  · have hfilled : ∀ p ∈ s.placed,
        Validation.measure s p = .ok () ∧ p.Filled s ∧ p.InRange s := by
      intro p hp
      obtain ⟨before, entry, after, written, hmusic, hwritten, -, htranscribes⟩ :=
        transcribes_of_placed hordered hs hp
      exact Placed.filled_of_fillers (hsound.inForce p hp) htranscribes
        (hall entry (by simp [hmusic]) written hwritten)
    exact ⟨forM_eq_ok.mpr fun p hp => (hfilled p hp).1,
      hsound.fault_eq_none_iff.mpr fun p hp => (hfilled p hp).2⟩

/-- Two measures whose entries fill them, the signature changed between them. In the second a
voice is hidden, and the other has a grace note and its entry in a tuplet. -/
def fillersThroughChange : String :=
  "time: 3/4\nmusic:\n- measure:\n  - voices:\n     1:\n     - time: m\n       rest: true\n" ++
  "- params: \x7btime: 5/16\x7d\n- params: \x7bstaff: 1, voice: 2, visible: false\x7d\n" ++
  "- measure:\n  - voices:\n     1:\n     - time: 8\n       grace: true\n" ++
  "       notes: [d5]\n     - time: m\n       notes: [c5]\n       tuplet:\n        num: 3\n" ++
  "     2:\n     - time: m\n       notes: [e4]\n    verses:\n    - - time: m\n        text: la\n"

theorem filled_fillersThroughChange : ∃ d s, Description.ofText? fillersThroughChange = some d ∧
    load d = .ok s ∧ s.placed.map (·.length) = [3 / 4, 5 / 16] ∧ s.validate = .ok () ∧
    s.buildChords.fault = none ∧ ∃ p ∈ s.placed, p.item = 4 ∧ ∃ st ∈ p.measure.staves,
      ∃ list, st.list? 1 = some list ∧ p.FitsVoice s 1 1 list := by
  obtain ⟨d, s, hd, hs, hlengths, hfills, hvoice⟩ := exists_of_description fillersThroughChange
    (.append (.append (.append (.append (.ofList _) (.ofList _)) (.ofList _)) (.ofList _)) (.ofList _))
    (P := fun d s => s.placed.map (·.length) = [3 / 4, 5 / 16] ∧
      (∀ entry ∈ d.music, ∀ written ∈ entry.measure, ∀ sd ∈ written, sd.Fills) ∧
      ∃ written ∈ d.music[3]?.bind (·.measure), ∃ sd ∈ written, sd.staff = 1 ∧
        ∃ x ∈ sd.voices, x.1 = 1 ∧ Description.FillsVoice x.2) (by decide +kernel)
  obtain ⟨-, hentries, hall⟩ := fillers_fill (Description.ordered_of_ofText? hd) hs
  obtain ⟨written, hwritten, sd, hsd, hstaff, ⟨v, groups⟩, hv, rfl, hgroups⟩ := hvoice
  obtain ⟨entry, hentry, hwritten⟩ := Option.bind_eq_some_iff.mp hwritten
  obtain ⟨hlt, rfl⟩ := List.getElem?_eq_some_iff.mp hentry
  have hsplit : d.music = d.music.take 3 ++ d.music[3] :: d.music.drop 4 := by
    rw [List.getElem_cons_drop, List.take_append_drop]
  obtain ⟨q, p, -, hp, hitem, -, hstaves, -⟩ := hentries _ _ _ written hsplit hwritten
  obtain ⟨st, hst, hstaff', hvoices, -⟩ := hstaves sd hsd
  obtain ⟨list, hlist, hfits⟩ := hvoices 1 groups hv hgroups
  rw [hstaff', hstaff] at hfits
  obtain ⟨hvalid, hfault⟩ := hall hfills
  refine ⟨d, s, hd, hs, hlengths, hvalid, hfault, p, hp, ?_, st, hst, list, hlist, hfits⟩
  rw [hitem, List.length_take]
  omega

end Score

end Divisi
