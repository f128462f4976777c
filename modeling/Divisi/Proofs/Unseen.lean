/-
What hidden voices hold makes no difference.

A voice that is hidden on a staff that is shown is left with one space as long as its measure,
whatever it held. So what building makes of two scores that differ in such voices only
(`Score.seen`) holds the same, and it is combined and printed alike
(`Score.Parsed.unseen_without_effect`).
-/
import Divisi.Proofs.Contents
import Divisi.Proofs.Faults

namespace Divisi

/-- What is seen of items, with the settings `f` in force before them: what hidden voices hold is
left out. -/
def Item.views (groups : Arena Group) (syllables : Arena Syllable) :
    InForce → List Item → List Item.View
  | _, [] => []
  | f, .change c :: rest => .change c :: views groups syllables (f.apply c) rest
  | f, .measure m :: rest =>
    (Item.measure m).view groups syllables (Erasing.hides f) :: views groups syllables f rest

/-- What is seen of a score. -/
def Score.seen (s : Score) : List Item.View := Item.views s.groups s.syllables .start s.items

/-! ## Staves -/

/-- A stave with a space for each voice that is not seen. -/
def Stave.View.filled (measure : Nat) (length : Time) (x : Stave.View) : Stave.View :=
  { x with
    voices := x.voices.map fun v =>
      (v.1, some (v.2.getD [.measureSpace x.staff v.1 measure length])) }

section Stave

variable {hide : Nat → Bool} {measure : Nat} {length : Time} {groups groups' : Arena Group}
  {f : InForce}

/-- What erasing leaves of a stave is what was seen of it, and the spaces. -/
theorem Stave.Shown.whole {st st' : Stave} (h : st.Shown hide measure length groups groups' st')
    (syllables : Arena Syllable) :
    st'.whole groups' syllables = (st.view groups syllables hide).filled measure length := by
  have hvoices : st'.present.map (fun x => (x.1, some (x.2.map groups'.get))) =
      (st.view groups syllables hide).voices.map fun v =>
        (v.1, some (v.2.getD [.measureSpace st.staff v.1 measure length])) := by
    simp only [Stave.view, Stave.present_eq, List.map_filterMap, Option.map_map]
    refine List.filterMap_congr fun v _ => ?_
    cases hl : st.list? v with
    | none => rw [h.absent v hl]; rfl
    | some list =>
      cases hv : hide v with
      | false =>
        obtain ⟨hlist, hkept⟩ := h.kept v hv
        have hget : list.map groups'.get = list.map groups.get :=
          List.map_congr_left fun k hk => by rw [Arena.get, Arena.get, hkept list hl k hk]
        simp [hlist, hl, hv, hget]
      | true =>
        obtain ⟨k, hk, hspace⟩ := h.hidden v hv list hl
        simp [hk, hv, Arena.get_of_get? hspace]
  simp only [Stave.whole, Stave.View.filled]
  rw [Stave.view, Stave.View.mk.injEq]
  exact ⟨h.staff, hvoices, congrArg _ h.verses⟩

theorem Erasing.Shows.whole {ss ss' : List Stave} (h : Erasing.Shows f measure groups groups' ss ss')
    (syllables : Arena Syllable) : ss'.map (Stave.whole groups' syllables) =
      (ss.map fun st => st.view groups syllables (Erasing.hides f st.staff)).map
        (Stave.View.filled measure f.time.duration) := by
  induction h with
  | nil => rfl
  | cons hst _ ih => rw [List.map_cons, List.map_cons, List.map_cons, ih, hst.whole]

end Stave

/-! ## Streams -/

/-- The lengths that follow one another in each voice and in each verse. -/
def Stave.View.spans (x : Stave.View) : List (List Time) :=
  x.voices.map (fun v => ((v.2.getD []).filter fun g => !g.grace).map (·.duration)) ++
    x.verses.map (List.map (·.duration))

theorem Chording.map_duration_streams (groups : Arena Group) (syllables : Arena Syllable)
    (f : InForce) (ss : List Stave) :
    (streams groups syllables f ss).map (List.map (·.duration)) =
      ((ss.map (Stave.whole groups syllables)).filter fun x => f.staffVisible x.staff).flatMap
        Stave.View.spans := by
  simp only [streams, List.filter_map, List.map_flatMap, List.flatMap_map]
  refine List.flatMap_congr fun st _ => ?_
  simp only [staveStreams, Stave.View.spans, Stave.whole, Stave.view, List.map_append, List.map_map]
  congr 1
  · refine List.map_congr_left fun x _ => ?_
    simp [voiceBeats, List.filter_map, Function.comp_def]
  · refine List.map_congr_left fun verse _ => ?_
    simp [verseBeats, Function.comp_def]

/-- Whether streams have chords, and which fault stops them, is a matter of lengths alone. -/
theorem Stream.fault_congr {streams streams' : List (List Beat)} (packing : Float) (length : Time)
    (h : streams'.map (List.map (·.duration)) = streams.map (List.map (·.duration))) :
    (Stream.chords packing length streams').map (fun _ => ()) =
      (Stream.chords packing length streams).map fun _ => () := by
  have hblank : ∀ streams : List (List Beat),
      streams.map (List.map (Beat.mapMember fun _ => .group default)) =
        (streams.map (List.map (·.duration))).map (List.map fun d => ⟨.group default, d⟩) := by
    intro streams
    simp only [List.map_map, Function.comp_def]
    rfl
  have hforget : ∀ streams : List (List Beat),
      (Stream.chords packing length streams).map (fun _ => ()) =
        (Stream.chords packing length
          (streams.map (List.map (Beat.mapMember fun _ => .group default)))).map fun _ => () := by
    intro streams
    rw [Stream.chords_map]
    cases Stream.chords packing length streams <;> rfl
  rw [hforget, hforget streams, hblank, hblank, h]

/-! ## Building -/

namespace Chording.Raises

variable {groups groups' built built' : Arena Group} {syllables syllables' : Arena Syllable}
  {f : InForce}

/-- Of measures that look the same erasing makes measures that hold the same, with chords or
without. -/
theorem measure_agree (packing : Float) {m m' : Measure} {ss ss' : List Stave}
    (hshows : Erasing.Shows f m.number groups built m.staves ss)
    (hshows' : Erasing.Shows f m'.number groups' built' m'.staves ss')
    (hview : (Item.measure m').view groups' syllables' (Erasing.hides f) =
      (Item.measure m).view groups syllables (Erasing.hides f)) :
    m'.number = m.number ∧
      ss'.map (Stave.whole built' syllables') = ss.map (Stave.whole built syllables) ∧
      (Stream.chords packing f.time.duration (streams built' syllables' f ss')).map (fun _ => ()) =
        (Stream.chords packing f.time.duration (streams built syllables f ss)).map fun _ => () := by
  obtain ⟨hnumber, hstaves⟩ := Item.View.measure.inj hview
  have hwhole : ss'.map (Stave.whole built' syllables') = ss.map (Stave.whole built syllables) := by
    rw [hshows.whole, hshows'.whole, hstaves, hnumber]
  refine ⟨hnumber, hwhole, Stream.fault_congr packing f.time.duration ?_⟩
  rw [map_duration_streams, map_duration_streams, hwhole]

/-- Of items that look the same building makes items that hold the same, or stops at the same
fault. -/
theorem agree {packing : Float} {its its₁ its' its₁' : List Item} {fault fault' : Option Fault}
    (h : Raises syllables packing groups built f its its₁ fault)
    (h' : Raises syllables' packing groups' built' f its' its₁' fault')
    (hviews : Item.views groups' syllables' f its' = Item.views groups syllables f its) :
    fault' = fault ∧ (fault = none →
      its₁'.map (Item.whole built' syllables') = its₁.map (Item.whole built syllables)) := by
  induction h generalizing its' its₁' fault' with
  | nil =>
    cases h' with
    | nil => exact ⟨rfl, fun _ => rfl⟩
    | change => cases hviews
    | built => cases hviews
    | failed => cases hviews
  | change _ ih =>
    cases h' with
    | nil => cases hviews
    | change hrest' =>
      obtain ⟨hchange, hviews⟩ := List.cons.inj hviews
      obtain rfl := Item.View.change.inj hchange
      obtain ⟨hfault, hrest⟩ := ih hrest' hviews
      exact ⟨hfault, fun hnone => congrArg _ (hrest hnone)⟩
    | built => cases (List.cons.inj hviews).1
    | failed => cases (List.cons.inj hviews).1
  | @built f m m₁ rest rest₁ fault hnumber hshows hchords _ ih =>
    cases h' with
    | nil => cases hviews
    | change => cases (List.cons.inj hviews).1
    | built hnumber' hshows' hchords' hrest' =>
      obtain ⟨hview, hviews⟩ := List.cons.inj hviews
      obtain ⟨hsame, hwhole, -⟩ := measure_agree packing hshows hshows' hview
      obtain ⟨hfault, hrest⟩ := ih hrest' hviews
      refine ⟨hfault, fun hnone => ?_⟩
      rw [List.map_cons, List.map_cons, hrest hnone]
      refine congrArg (· :: _) ?_
      exact congrArg₂ Item.View.measure (hnumber'.trans (hsame.trans hnumber.symm)) hwhole
    | failed hnumber' hshows' hchords' =>
      obtain ⟨hview, -⟩ := List.cons.inj hviews
      obtain ⟨-, -, hsame⟩ := measure_agree packing hshows hshows' hview
      rw [hchords, hchords'] at hsame
      cases hsame
  | @failed f m m₁ rest breach hnumber hshows hchords =>
    cases h' with
    | nil => cases hviews
    | change => cases (List.cons.inj hviews).1
    | built hnumber' hshows' hchords' hrest' =>
      obtain ⟨hview, -⟩ := List.cons.inj hviews
      obtain ⟨-, -, hsame⟩ := measure_agree packing hshows hshows' hview
      rw [hchords, hchords'] at hsame
      cases hsame
    | failed hnumber' hshows' hchords' =>
      obtain ⟨hview, -⟩ := List.cons.inj hviews
      obtain ⟨hsame, -, hbreach⟩ := measure_agree packing hshows hshows' hview
      rw [hchords, hchords'] at hbreach
      cases hbreach
      exact ⟨by rw [hsame], nofun⟩

end Chording.Raises

/-! ## Processing -/

namespace Score

variable {s s' : Score}

/-- **What hidden voices hold makes no difference.** Two scores that were read may differ in the
groups of voices that are hidden in a measure on a staff that is shown, and in their tags. Building
chords of them stops at the same fault or makes of them one score under two sets of keys; the same
pairs of voices are tested and the same merges made; and processing ends in the same fault or in
scores that print the same. -/
theorem Parsed.unseen_without_effect (hs : s.Parsed) (hs' : s'.Parsed)
    (hheader : s'.header = s.header) (hseen : s'.seen = s.seen) :
    s'.buildChords.fault = s.buildChords.fault ∧
    (s.buildChords.fault = none → ∃ r, s.buildChords.now.Renamed r s'.buildChords.now) ∧
    (s.buildChords.fault = none → s'.buildChords.now.combineVoices.map Combination.events =
      s.buildChords.now.combineVoices.map Combination.events) ∧
    s'.process.result.map Report.ofScore = s.process.result.map Report.ofScore := by
  obtain ⟨hraises, hsound⟩ := hs.sound.buildChords
  obtain ⟨hraises', hsound'⟩ := hs'.sound.buildChords
  rw [hheader] at hraises'
  obtain ⟨hfault, hcontents⟩ := hraises.agree hraises' hseen
  cases hnone : s.buildChords.fault with
  | some fault =>
    rw [hnone] at hfault
    refine ⟨hfault, nofun, nofun, ?_⟩
    rw [process_of_fault hnone, process_of_fault hfault]
  | none =>
    rw [hnone] at hfault
    obtain ⟨r, hr⟩ := hsound.exists_renamed hsound' (hs.sound.charted_buildChords hnone)
      (hs'.sound.charted_buildChords hfault) hheader (hcontents hnone)
    have hchorded : s.buildChords.now.Chorded := ⟨s, hs, hnone, rfl⟩
    obtain ⟨c, hc, -⟩ := hchorded.combined
    obtain ⟨c', hc', hevents, hscore⟩ := hr.combine hc
    refine ⟨hfault, fun _ => ⟨r, hr⟩, fun _ => ?_, ?_⟩
    · rw [hc, hc']
      exact congrArg Except.ok hevents
    · rw [process_result hnone, process_result hfault, hheader, hc, hc']
      split
      · exact congrArg Except.ok hscore.report
      · exact congrArg Except.ok hr.report

end Score

/-- A voice that is hidden, holding what is given, above one that is shown. -/
def hiddenOver (held : String) : String :=
  "vcombine:\n voices: [1,2]\nmusic:\n- params: {staff: 1, voice: 1, visible: false}\n" ++
  "- measure:\n  - voices:\n     1:\n" ++ held ++ "     2:\n     - time: 1\n       notes: [c4]\n"

def oneNote : String := "     - time: 1\n       notes: [g5]\n"

/-- Too short for its measure, and tagged. -/
def taggedAndShort : String :=
  "     - time: 16\n       grace: true\n       notes: [d5]\n" ++
  "     - time: 2\n       tag: x\n       notes: [e5]\n"

/-- What is hidden may be more or less, of another length, or tagged. -/
theorem unseen_hiddenOver : ∃ s s' : Score, s.Parsed ∧ s'.Parsed ∧ s'.header = s.header ∧
    s'.seen = s.seen ∧ s.groups.size = 2 ∧ s'.groups.size = 3 ∧ s.buildChords.fault = none ∧
    s'.process.result.map Report.ofScore = s.process.result.map Report.ofScore := by
  obtain ⟨s, s', hs, hs', hheader, hseen, hsize, hsize', hfault⟩ := Score.exists_two_of_spelled
    (hiddenOver oneNote) (hiddenOver taggedAndShort)
    (.append (.append (.append (.ofList _) (.ofList _)) (.ofList _)) (.ofList _))
    (.append (.append (.append (.ofList _) (.ofList _)) (.append (.ofList _) (.ofList _))) (.ofList _))
    (P := fun s s' => (s'.header.title = s.header.title ∧ s'.header.composer = s.header.composer ∧
      s'.header.staffs = s.header.staffs ∧ s'.header.options.packing = s.header.options.packing ∧
        s'.header.options.combine = s.header.options.combine) ∧
      s'.seen = s.seen ∧ s.groups.size = 2 ∧ s'.groups.size = 3 ∧ s.buildChords.fault = none)
    (by decide +kernel)
  have hheader : s'.header = s.header := by
    generalize s.header = x, s'.header = x' at hheader
    obtain ⟨title, composer, staffs, packing, combine⟩ := x
    obtain ⟨title', composer', staffs', packing', combine'⟩ := x'
    obtain ⟨rfl, rfl, rfl, rfl, rfl⟩ := hheader
    rfl
  exact ⟨s, s', .of_text hs, .of_text hs', hheader, hseen, hsize, hsize', hfault,
    (Score.Parsed.unseen_without_effect (.of_text hs) (.of_text hs') hheader hseen).2.2.2⟩

end Divisi
