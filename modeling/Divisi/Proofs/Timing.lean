/-
Combining changes no timing.

A merge puts notes into another voice, leaves a space where they were, and moves grace notes.
What takes time stays where it stands, and lasts as long (`Combination.Of.keepsTime`): the two
groups of a merge were found to take the same time in the same notation, and what has become of
either in the meantime still does. So the chords of every measure stay as they are, the check
of a score says the same before and after, and so does what is reported of its chords.
-/
import Divisi.Proofs.Faults

namespace Divisi

/-! ## Groups -/

/-- Two groups in one place that take the same time in the same notation. -/
structure Group.SameTime (g g' : Group) : Prop where
  duration : g'.duration = g.duration
  value : g'.value = g.value
  dots : g'.dots = g.dots
  grace : g'.grace = g.grace
  staff : g'.staff = g.staff
  voice : g'.voice = g.voice

namespace Group.SameTime

variable {a b c : Group}

theorem refl (a : Group) : SameTime a a := ⟨rfl, rfl, rfl, rfl, rfl, rfl⟩

theorem trans (h : SameTime a b) (h' : SameTime b c) : SameTime a c :=
  ⟨h'.duration.trans h.duration, h'.value.trans h.value, h'.dots.trans h.dots,
    h'.grace.trans h.grace, h'.staff.trans h.staff, h'.voice.trans h.voice⟩

theorem toSpace (a : Group) : SameTime a a.toSpace := ⟨rfl, rfl, rfl, rfl, rfl, rfl⟩

theorem beam (a : Group) (beam : Span) : SameTime a { a with beam } := ⟨rfl, rfl, rfl, rfl, rfl, rfl⟩

theorem blend (hduration : b.duration = a.duration) (hvalue : b.value = a.value)
    (hdots : b.dots = a.dots) (hgrace : b.grace = a.grace) : SameTime a (a.blend b).group := by
  unfold Group.blend
  split
  · exact refl a
  · split
    · exact ⟨hduration, hvalue, hdots, hgrace, rfl, rfl⟩
    · split
      · exact ⟨rfl, rfl, rfl, rfl, rfl, rfl⟩
      · exact ⟨rfl, rfl, rfl, rfl, rfl, rfl⟩

end Group.SameTime

/-! ## Scores -/

/-- What is left of a voice list without its grace notes. -/
def Score.mains (s : Score) (list : List GroupKey) : List GroupKey :=
  list.filter fun key => !s.graceAt key

theorem Score.mains_mains (s : Score) (list : List GroupKey) :
    s.mains (s.mains list) = s.mains list := by
  rw [mains, mains, List.filter_filter]
  simp

/-- The timing of `t` is that of `s` too. -/
structure Score.KeepsTime (t s : Score) : Prop where
  frame : s.frame = t.frame
  graces : s.graceAt = t.graceAt
  lists : ∀ layer, (s.list? layer).map s.mains = (t.list? layer).map t.mains
  groups : ∀ k g, t.groups.get? k = some g → g.grace = false →
    ∃ g', s.groups.get? k = some g' ∧ g.SameTime g'

namespace Merging

variable {s s' t : Score} {h : Hand} {m : Merge} {x y k d e : GroupKey} {ld le : List GroupKey}

theorem main_of_zip (hde : (d, e) ∈ (column s.graceAt ld x).zip (column s.graceAt le y))
    (hd : s.graceAt d = false) : d = x ∧ e = y := by
  rw [column, column, List.zip_cons_cons] at hde
  rcases List.mem_cons.mp hde with heq | hrest
  · cases heq
    exact ⟨rfl, rfl⟩
  · have hgrace := grace_of_runOf (List.mem_reverse.mp (List.of_mem_zip hrest).1)
    rw [hd] at hgrace
    cases hgrace

/-- A merge moves grace notes only. -/
theorem Merged.map_mains (hm : Merged h m x y ld le s s') (hp : Paired s h m x y ld le)
    (hs : s.Tidy) (layer : Layer) :
    (s'.list? layer).map s'.mains = (s.list? layer).map s.mains := by
  have hmains : s'.mains = s.mains := by
    funext list
    rw [Score.mains, Score.mains, hm.graceAt_eq hp hs]
  have hnone : ∀ keys : List GroupKey, (∀ k ∈ keys, s.graceAt k = true) →
      keys.filter (fun key => !s.graceAt key) = [] := fun keys hkeys =>
    List.filter_eq_nil_iff.mpr fun k hk => by simp [hkeys k hk]
  have hmoved := hnone ((column s.graceAt le y).drop (column s.graceAt ld x).length).reverse
    fun k hk => grace_of_drop (List.mem_reverse.mp hk)
  obtain ⟨before, after, before', after', hld, hle, -, -, hdest, hsrc⟩ := hm.lists
  rw [hmains]
  by_cases hd : layer = h.layer m.dest
  · rw [hd, hdest, hp.destList, Option.map_some, Option.map_some]
    conv_rhs => rw [hld]
    simp only [Score.mains, List.filter_append, List.reverse_append, hmoved, List.nil_append]
  by_cases he : layer = h.layer m.src
  · rw [he, hsrc, hp.srcList, Option.map_some, Option.map_some]
    conv_rhs => rw [hle, ← List.take_append_drop (column s.graceAt ld x).length
      (column s.graceAt le y)]
    simp only [Score.mains, List.filter_append, List.reverse_append, hmoved, List.nil_append]
  · rw [hm.elsewhere layer hd he]

end Merging

namespace Score.KeepsTime

variable {s s' t : Score} {h : Hand} {m : Merge} {x y : GroupKey} {ld le : List GroupKey}

theorem refl (t : Score) : t.KeepsTime t :=
  ⟨rfl, rfl, fun _ => rfl, fun _ g hk _ => ⟨g, hk, .refl g⟩⟩

/-- A merge of two groups that took the same time to begin with. -/
theorem merge (hk : t.KeepsTime s) (hm : Merging.Merged h m x y ld le s s')
    (hp : Merging.Paired s h m x y ld le) (hs : s.Tidy) {a b : Group}
    (hx : t.groups.get? x = some a) (hy : t.groups.get? y = some b)
    (htime : a.sameTiming b = true) : t.KeepsTime s' := by
  refine ⟨hm.frame.trans hk.frame, (hm.graceAt_eq hp hs).trans hk.graces,
    fun layer => (hm.map_mains hp hs layer).trans (hk.lists layer), fun k g hg hgrace => ?_⟩
  obtain ⟨g₁, hg₁, hsame⟩ := hk.groups k g hg hgrace
  have hmain : s.graceAt k = false := by
    rw [Score.graceAt_of_get? hg₁, hsame.grace, hgrace]
  obtain ⟨e, beam, hke, hg'⟩ | ⟨d, -, hg'⟩ | ⟨hmoved, -⟩ | ⟨-, beam, hg'⟩ := hm.becomes hg₁
  · -- the two groups of the merge, which may both have changed since they were compared
    obtain ⟨rfl, rfl⟩ := Merging.main_of_zip hke hmain
    cases hx.symm.trans hg
    have hmain' : b.grace = false := by
      rw [← Arena.get_of_get? hy]
      exact (congrFun hk.graces e).symm.trans hp.srcMain
    obtain ⟨b₁, hb₁, hsame'⟩ := hk.groups e b hy hmain'
    simp only [Group.sameTiming, Bool.and_eq_true, beq_iff_eq] at htime
    obtain ⟨⟨⟨⟨⟨⟨hduration, hvalue⟩, hdots⟩, -⟩, -⟩, -⟩, -⟩ := htime
    have hblend : g₁.SameTime (g₁.blend (s.groups.get e)).group := by
      rw [Arena.get_of_get? hb₁]
      refine .blend ?_ ?_ ?_ ?_
      · rw [hsame'.duration, hsame.duration, hduration]
      · rw [hsame'.value, hsame.value, hvalue]
      · rw [hsame'.dots, hsame.dots, hdots]
      · rw [hsame'.grace, hsame.grace, hgrace, hmain']
    exact ⟨_, hg', hsame.trans (hblend.trans (.beam _ beam))⟩
  · exact ⟨_, hg', hsame.trans (.toSpace g₁)⟩
  · have hmoves : s.graceAt k = true := Merging.grace_of_drop hmoved
    rw [hmain] at hmoves
    cases hmoves
  · exact ⟨_, hg', hsame.trans (.beam g₁ beam)⟩

end Score.KeepsTime

/-- **A combination keeps all timing.** -/
theorem Combination.Of.keepsTime {c : Combination} {t : Score} (hc : c.Of t) :
    t.KeepsTime c.score := by
  refine hc.induction (fun h m s s' hp hs => ?_) (.refl t)
  obtain ⟨x, y, ld, le, hpaired, hmerged, hh, hstands, q, hjudged⟩ := hc.merged hp
  obtain ⟨-, list, hlist, hxl⟩ := hc.stands.main h hh _ _ hpaired.destVoice
  obtain ⟨-, list', hlist', hyl⟩ := hc.stands.main h hh _ _ hpaired.srcVoice
  obtain ⟨a, ha⟩ := hc.stands.tidy.live _ _ x hlist hxl
  obtain ⟨b, hb⟩ := hc.stands.tidy.live _ _ y hlist' hyl
  have hcompatible : c.layout.compatible t q x y = true := by
    refine hjudged (x, y) ?_
    rw [Score.columnAt_eq hpaired.destVoice hlist, Score.columnAt_eq hpaired.srcVoice hlist']
    exact List.mem_cons_self
  refine hs.merge hmerged hpaired hstands.tidy ha hb ?_
  simp only [Layout.compatible, Bool.and_eq_true, Arena.get_of_get? ha,
    Arena.get_of_get? hb] at hcompatible
  exact hcompatible.1.1.1

/-! ## The check of a score -/

namespace Validation

variable {s t : Score} {p : Placed} {f : List GroupKey → List GroupKey}

theorem timed_eq (s : Score) (list : List GroupKey) :
    s.timed list = (s.mains list).map s.groups.get := by
  rw [Score.timed, Score.groupsOf, List.filter_map]
  rfl

theorem voice_congr {list list' : List GroupKey}
    (h : (s.timed list').map (·.duration) = (t.timed list).map (·.duration)) (staff v : Nat)
    (expected : Time) : voice s staff expected (v, list') = voice t staff expected (v, list) := by
  have hnone : s.timed list' = [] ↔ t.timed list = [] := by
    rw [← List.map_eq_nil_iff (f := (·.duration)), h, List.map_eq_nil_iff]
  simp only [voice, hnone, Score.voiceSpans, h]

theorem measure_congr (hsyllables : s.syllables = t.syllables)
    (h : ∀ st ∈ p.measure.staves, ∀ v list, st.list? v = some list →
      (s.timed (f list)).map (·.duration) = (t.timed list).map (·.duration)) :
    measure s (p.mapLists f) = measure t p := by
  have hstave : ∀ st ∈ p.measure.staves, ∀ expected,
      stave s expected (st.mapLists f) = stave t expected st := by
    intro st hst expected
    have hverse : verse s st.staff expected = verse t st.staff expected := by
      funext x
      simp only [verse, Score.verseSpans, hsyllables]
    have hvoices : (st.mapLists f).present.forM (voice s st.staff expected) =
        st.present.forM (voice t st.staff expected) := by
      rw [Stave.present_mapLists]
      refine forM_map_congr fun x hx => ?_
      exact voice_congr (h st hst x.1 x.2 (Stave.mem_present.mp hx)) st.staff x.1 expected
    simp only [stave, Stave.staff_mapLists, Stave.verses_mapLists, hvoices, hverse]
  have hstaves : (p.mapLists f).measure.staves.forM (stave s p.inForce.time.duration) =
      p.measure.staves.forM (stave t p.inForce.time.duration) :=
    forM_map_congr fun st hst => hstave st hst _
  exact congrArg (Except.mapError _) hstaves

end Validation

namespace Score.KeepsTime

variable {fits : Group → Prop} {s t : Score}

theorem mains (h : t.KeepsTime s) : s.mains = t.mains := by
  funext list
  rw [Score.mains, Score.mains, h.graces]

theorem items (h : t.KeepsTime s) (ht : t.Sound fits) :
    s.items.map (Item.mapLists t.mains) = t.items.map (Item.mapLists t.mains) := by
  refine mapLists_items_congr h.frame (fun m hm => (ht.measures m hm).ascending) fun layer => ?_
  have hlayer := h.lists layer
  rwa [h.mains] at hlayer

theorem group_of_mains (h : t.KeepsTime s) (ht : t.Tidy) {layer : Layer} {list : List GroupKey}
    {k : GroupKey} (hlist : t.list? layer = some list) (hk : k ∈ t.mains list) :
    ∃ g g', t.groups.get? k = some g ∧ s.groups.get? k = some g' ∧ g.SameTime g' := by
  obtain ⟨hmem, hmain⟩ := List.mem_filter.mp hk
  obtain ⟨g, hg⟩ := ht.live layer list k hlist hmem
  have hgrace : g.grace = false := by
    rw [← graceAt_of_get? hg]
    simpa using hmain
  obtain ⟨g', hg', hsame⟩ := h.groups k g hg hgrace
  exact ⟨g, g', hg, hg', hsame⟩

theorem durations (h : t.KeepsTime s) (ht : t.Tidy) {layer : Layer} {list : List GroupKey}
    (hlist : t.list? layer = some list) :
    (s.timed (t.mains list)).map (·.duration) = (t.timed list).map (·.duration) := by
  rw [Validation.timed_eq, Validation.timed_eq, h.mains, mains_mains, List.map_map, List.map_map]
  refine List.map_congr_left fun k hk => ?_
  obtain ⟨g, g', hg, hg', hsame⟩ := h.group_of_mains ht hlist hk
  rw [Function.comp_apply, Function.comp_apply, Arena.get_of_get? hg, Arena.get_of_get? hg']
  exact hsame.duration

theorem validate (h : t.KeepsTime s) (ht : t.Sound fits) : s.validate = t.validate := by
  have hplaced : s.placed.map (Placed.mapLists t.mains) = t.placed.map (Placed.mapLists t.mains) := by
    rw [placed, placed, ← Placed.along_mapLists, ← Placed.along_mapLists, h.items ht]
  have hs : (s.placed.map (Placed.mapLists t.mains)).forM (Validation.measure s) = s.validate := by
    refine forM_map_congr fun p _ => Validation.measure_congr rfl fun st _ v list _ => ?_
    rw [Validation.timed_eq, Validation.timed_eq, h.mains, mains_mains]
  have ht : (t.placed.map (Placed.mapLists t.mains)).forM (Validation.measure s) = t.validate := by
    refine forM_map_congr fun p hp => Validation.measure_congr (syllables_of_frame h.frame)
      fun st hst v list hlist => ?_
    have hlayer : t.list? ⟨p.item, st.staff, v⟩ = some list := Score.list?_eq_some.mpr
      ⟨p.measure, st, Placed.measureAt?_item hp, Measure.stave?_of_mem
        (ht.measures _ (Placed.measure_mem hp)).ascending hst, hlist⟩
    exact h.durations ht.tidy hlayer
  rw [← hs, hplaced, ht]

/-! ## Chords -/

theorem chords (h : t.KeepsTime s) : s.measures.map (fun m => (m.number, m.chords)) =
    t.measures.map fun m => (m.number, m.chords) := by
  have hmeasures := congrArg (List.map fun m : Measure => (m.number, m.chords))
    (measures_of_frame h.frame)
  simpa only [List.map_map, Function.comp_def, Measure.number_mapLists, Measure.chords_mapLists]
    using hmeasures

theorem report_chord (h : t.KeepsTime s) (ht : t.Sound fits) (hc : t.Charted) {p : Placed}
    (hp : p ∈ t.placed) {c : Chord} (hmem : c ∈ p.measure.chords) :
    Report.chord s c = Report.chord t c := by
  have hmembers : c.members.map (Report.memberName s) = c.members.map (Report.memberName t) := by
    refine List.map_congr_left fun member hmember => ?_
    cases member with
    | syllable key => simp only [Report.memberName, syllables_of_frame h.frame]
    | group key =>
      obtain ⟨g, list, hbegins⟩ := hc.begins ht hp hmem (Chord.mem_groups.mpr hmember)
      obtain ⟨g', hg', hsame⟩ := h.groups key g hbegins.get hbegins.grace
      simp only [Report.memberName, Arena.get_of_get? hbegins.get, Arena.get_of_get? hg', hsame.staff,
        hsame.voice]
  simp only [Report.chord, hmembers]

theorem report_chords (h : t.KeepsTime s) (ht : t.Sound fits) (hc : t.Charted) :
    (Report.ofScore s).measures.map (fun m => (m.number, m.chords)) =
      (Report.ofScore t).measures.map fun m => (m.number, m.chords) := by
  have hs : (Report.ofScore s).measures.map (fun m => (m.number, m.chords)) =
      (s.measures.map fun m => (m.number, m.chords)).map fun x =>
        (x.1, x.2.map (Report.chord s)) := by
    simp only [Report.ofScore, List.map_map]
    rfl
  rw [hs, h.chords, ← map_measure_placed]
  simp only [Report.ofScore, ← map_measure_placed, List.map_map]
  refine List.map_congr_left fun p hp => ?_
  exact congrArg (Prod.mk _) (List.map_congr_left fun c hmem => h.report_chord ht hc hp hmem)

end Score.KeepsTime

/-! ## With other options -/

namespace Score

variable {fits : Group → Prop} {s : Score}

theorem Sound.withOptions (h : s.Sound fits) (options : Options) :
    (s.withOptions options).Sound fits :=
  ⟨⟨h.stocked.groups, h.stocked.named, h.stocked.fits, h.stocked.syllables, h.stocked.timed,
    h.stocked.tags⟩, h.measures, h.numbered, h.changes⟩

/-- Whether the chords of a score can be built does not depend on its options. -/
theorem Sound.fault_withOptions (h : s.Sound Group.Written) (options : Options)
    (hfault : s.buildChords.fault = none) : (s.withOptions options).buildChords.fault = none :=
  (h.withOptions options).fault_eq_none_iff.mpr (h.fault_eq_none_iff.mp hfault)

end Score

/-- **Combining changes no timing.** In every score with its chords built, each measure keeps its
number and its chords. Each voice list keeps its groups that are no grace notes, in order, and
each of those its length, notation and place. So the check of the score says what it said
before, and whatever the options, its chords are reported the same with voices combined or not. -/
theorem Score.Parsed.timing_of_combined {s : Score} (h : s.Parsed)
    (hfault : s.buildChords.fault = none) :
    (∃ c, s.buildChords.now.combineVoices = .ok c ∧
      c.score.measures.map (fun m => (m.number, m.chords)) =
        s.buildChords.now.measures.map (fun m => (m.number, m.chords)) ∧
      (∀ layer, (c.score.list? layer).map c.score.mains =
        (s.buildChords.now.list? layer).map s.buildChords.now.mains) ∧
      (∀ layer list k, s.buildChords.now.list? layer = some list →
        k ∈ s.buildChords.now.mains list → ∃ g g', s.buildChords.now.groups.get? k = some g ∧
          c.score.groups.get? k = some g' ∧ g.SameTime g') ∧
      c.score.validate = s.buildChords.now.validate) ∧
    ∀ options : Options, ∃ on off,
      (s.withOptions { options with combine := true }).process.result = .ok on ∧
      (s.withOptions { options with combine := false }).process.result = .ok off ∧
      (Report.ofScore on).measures.map (fun m => (m.number, m.chords)) =
        (Report.ofScore off).measures.map fun m => (m.number, m.chords) := by
  have hs := h.sound
  constructor
  · have hsound := hs.buildChords.2
    have hcharted := hs.charted_buildChords hfault
    obtain ⟨c, hcombine, hc⟩ := hcharted.combined hsound
    have hkeeps := hc.keepsTime
    exact ⟨c, hcombine, hkeeps.chords, hkeeps.lists,
      fun layer list k hlist hk => hkeeps.group_of_mains hsound.tidy hlist hk,
      hkeeps.validate hsound⟩
  · intro options
    have hon := hs.withOptions { options with combine := true }
    have hfaultOn := hs.fault_withOptions { options with combine := true } hfault
    have hfaultOff := hs.fault_withOptions { options with combine := false } hfault
    have hcharted := hon.charted_buildChords hfaultOn
    obtain ⟨c, hcombine, hc⟩ := hcharted.combined hon.buildChords.2
    refine ⟨c.score, (s.withOptions { options with combine := false }).buildChords.now, ?_,
      process_result hfaultOff, ?_⟩
    · rw [process_result hfaultOn, hcombine]
      rfl
    · -- the two runs differ in their options only, which no report shows
      exact hc.keepsTime.report_chords hon.buildChords.2 hcharted

/-- A space, and below it a note with a grace note. -/
def graceBelow : String :=
  "vcombine:\n voices: [1,2]\nmusic:\n- measure:\n  - voices:\n     1:\n     - time: 1\n" ++
  "       space: true\n     2:\n     - time: 16\n       grace: true\n       notes: [d4]\n" ++
  "     - time: 1\n       notes: [c4]\n"

/-- The grace note moves to the voice that was silent; what took time there still does. -/
theorem timing_of_graceBelow : ∃ s : Score, s.Parsed ∧ s.buildChords.fault = none ∧
    ∃ c, s.buildChords.now.combineVoices = .ok c ∧ c.merges = 1 ∧
      (c.score.list? ⟨1, 1, 1⟩).map List.length = some 2 ∧
      (s.buildChords.now.list? ⟨1, 1, 1⟩).map List.length = some 1 ∧
      (c.score.list? ⟨1, 1, 1⟩).map c.score.mains =
        (s.buildChords.now.list? ⟨1, 1, 1⟩).map s.buildChords.now.mains ∧
      c.score.validate = .ok () := by
  obtain ⟨s, hs, hfault, hvalid, hbefore, hafter⟩ := Score.exists_of_spelled graceBelow
    (.append (.append (.ofList _) (.ofList _)) (.ofList _))
    (P := fun s => s.buildChords.fault = none ∧ s.buildChords.now.validate = .ok () ∧
      (s.buildChords.now.list? ⟨1, 1, 1⟩).map List.length = some 1 ∧
      (s.buildChords.now.combineVoices.toOption.any fun c =>
        c.merges == 1 && (c.score.list? ⟨1, 1, 1⟩).map List.length == some 2) = true)
    (by decide +kernel)
  obtain ⟨⟨c, hc, -, hlists, -, hvalidate⟩, -⟩ := Score.Parsed.timing_of_combined (.of_text hs) hfault
  simp only [hc, Except.toOption, Option.any_some, Bool.and_eq_true, beq_iff_eq] at hafter
  exact ⟨s, .of_text hs, hfault, c, hc, hafter.1, hafter.2, hbefore, hlists _, hvalidate.trans hvalid⟩

end Divisi
