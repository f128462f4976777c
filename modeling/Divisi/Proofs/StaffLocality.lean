/-
What stands on other staffs makes no difference to a staff.

Chords are shared by all staffs, so that with another staff the chords of a score, its hands and
the rounds in which its merges settle become others too. The voices of a staff are printed alike
all the same where the staff has the same voices and the same changes concern it
(`Score.Parsed.staff_local`): what building makes of the staff is told by these alone
(`Score.Sound.onStaff_buildChords`), and so is what combining makes of an excerpt.
-/
import Divisi.Proofs.ExcerptCombined
import Divisi.Proofs.Unseen

namespace Divisi

/-! ## Settings of one staff -/

/-- A change of this scope can make a difference to the voices of a staff. -/
def Scope.concerns (staff : Nat) : Scope → Bool
  | .score => true
  | .staff other => other == staff
  | .voice other _ => other == staff

namespace InForce

/-- The settings that concern a staff. -/
def on (staff : Nat) (f : InForce) : InForce :=
  { settings := fun scope => if scope.concerns staff then f.settings scope else {} }

variable {staff : Nat} {f : InForce} {c : Change}

theorem on_start : start.on staff = start := by
  simp only [on, start, ite_self]

theorem on_apply (h : c.scope.concerns staff = true) : (f.apply c).on staff = (f.on staff).apply c := by
  simp only [on, apply, mk.injEq]
  funext scope
  by_cases heq : scope = c.scope <;> simp [heq, h]

theorem on_apply_of_not (h : c.scope.concerns staff = false) : (f.apply c).on staff = f.on staff := by
  simp only [on, apply, mk.injEq]
  funext scope
  by_cases heq : scope = c.scope <;> simp [heq, h]

theorem time_on : (f.on staff).time = f.time := by
  simp [on, time, Scope.concerns]

theorem staffVisible_on : (f.on staff).staffVisible staff = f.staffVisible staff := by
  simp [on, staffVisible, Scope.concerns]

theorem request_on : (f.on staff).request staff = f.request staff := by
  simp [on, request, Scope.concerns]

theorem voiceVisible_on (voice : Nat) :
    (f.on staff).voiceVisible staff voice = f.voiceVisible staff voice := by
  rw [voiceVisible, voiceVisible, staffVisible_on]
  simp [on, Scope.concerns]

theorem hides_on : Erasing.hides (f.on staff) staff = Erasing.hides f staff := by
  funext voice
  rw [Erasing.hides, Erasing.hides, staffVisible_on, voiceVisible_on]

end InForce

/-! ## One staff of a score -/

/-- The voices of a staff in one measure. -/
def Stave.View.part (staff : Nat) (staves : List Stave.View) : List Stave.View :=
  (staves.filter fun st => st.staff == staff).map Stave.View.unsung

/-- What an item is to the voices of a staff. -/
def Item.View.onStaff? (staff : Nat) : Item.View → Option Item.View
  | .change c => if c.scope.concerns staff then some (.change c) else none
  | .measure number staves => some (.measure number (Stave.View.part staff staves))

/-- The voices of a staff, measure by measure, among the changes that concern them. -/
def Score.onStaff (s : Score) (staff : Nat) : List Item.View :=
  s.contents.filterMap (Item.View.onStaff? staff)

/-! ## Building -/

/-- A stave some of whose voices are hidden. -/
def Stave.View.hiding (hide : Nat → Bool) (x : Stave.View) : Stave.View :=
  { x with voices := x.voices.map fun v => (v.1, if hide v.1 then none else v.2) }

theorem Stave.view_eq_hiding (groups : Arena Group) (syllables : Arena Syllable) (hide : Nat → Bool)
    (st : Stave) : st.view groups syllables hide = (st.whole groups syllables).hiding hide := by
  simp only [view, whole, View.hiding, List.map_map]
  rfl

/-- What building makes of a stave, with the settings `f` in force. -/
def Stave.View.built (f : InForce) (measure : Nat) (x : Stave.View) : Stave.View :=
  (x.hiding (Erasing.hides f x.staff)).filled measure f.time.duration

theorem Stave.View.part_built (staff : Nat) (f : InForce) (measure : Nat) (staves : List Stave.View) :
    part staff (staves.map (built f measure)) = (part staff staves).map (built (f.on staff) measure) := by
  have hstaff : ((fun st : Stave.View => st.staff == staff) ∘ built f measure) =
      fun st => st.staff == staff := rfl
  rw [part, part, List.filter_map, hstaff, List.map_map, List.map_map]
  refine List.map_congr_left fun st hst => ?_
  obtain rfl : st.staff = staff := by simpa using (List.mem_filter.mp hst).2
  simp only [Function.comp_apply, built, unsung, InForce.hides_on, InForce.time_on]
  rfl

namespace Item.View

variable {staff : Nat}

/-- What building makes of items that begin with the settings `f`. -/
def built : InForce → List Item.View → List Item.View
  | _, [] => []
  | f, .change c :: rest => .change c :: built (f.apply c) rest
  | f, .measure number staves :: rest =>
    .measure number (staves.map (Stave.View.built f number)) :: built f rest

/-- A staff is built of what concerns it. -/
theorem onStaff_built (f : InForce) (vs : List Item.View) :
    (built f vs).filterMap (onStaff? staff) = built (f.on staff) (vs.filterMap (onStaff? staff)) := by
  induction vs generalizing f with
  | nil => rfl
  | cons v rest ih =>
    cases v with
    | change c =>
      cases hc : c.scope.concerns staff with
      | true => simp [built, onStaff?, hc, ih, InForce.on_apply hc]
      | false => simp [built, onStaff?, hc, ih, InForce.on_apply_of_not hc]
    | measure number staves =>
      exact congrArg₂ (fun staves rest => measure number staves :: rest)
        (Stave.View.part_built staff f number staves) (ih f)

theorem on_inForces (staff : Nat) (f : InForce) (vs : List Item.View) :
    (inForces f vs).map (InForce.on staff) = inForces (f.on staff) (vs.filterMap (onStaff? staff)) := by
  induction vs generalizing f with
  | nil => rfl
  | cons v rest ih =>
    cases v with
    | change c =>
      cases hc : c.scope.concerns staff with
      | true => simp [inForces, onStaff?, hc, ih, InForce.on_apply hc]
      | false => simp [inForces, onStaff?, hc, ih, InForce.on_apply_of_not hc]
    | measure number staves => simp [inForces, onStaff?, ih]

theorem staves_onStaff (vs : List Item.View) :
    (vs.filterMap (onStaff? staff)).filterMap staves? =
      (vs.filterMap staves?).map (Stave.View.part staff) := by
  induction vs with
  | nil => rfl
  | cons v rest ih =>
    cases v with
    | change c =>
      have hrest : ∀ rest, (change c :: rest).filterMap staves? = rest.filterMap staves? :=
        fun _ => rfl
      cases hc : c.scope.concerns staff with
      | true => simpa [onStaff?, hc, hrest] using ih
      | false => simpa [onStaff?, hc, hrest] using ih
    | measure number staves => exact congrArg (Stave.View.part staff staves :: ·) ih

end Item.View

/-- What building makes of items is told by what they hold. -/
theorem Chording.Raises.contents {syllables : Arena Syllable} {packing : Float}
    {groups groups' : Arena Group} {f : InForce} {its its' : List Item} {fault : Option Fault}
    (h : Raises syllables packing groups groups' f its its' fault) (hfault : fault = none) :
    its'.map (Item.whole groups' syllables) =
      Item.View.built f (its.map (Item.whole groups syllables)) := by
  induction h with
  | nil => rfl
  | change _ ih => exact congrArg _ (ih hfault)
  | @built f m m' rest rest' fault hnumber hshows _ _ ih =>
    have hstaves : m'.staves.map (Stave.whole groups' syllables) =
        (m.staves.map (Stave.whole groups syllables)).map (Stave.View.built f m.number) := by
      rw [hshows.whole, List.map_map, List.map_map]
      exact List.map_congr_left fun st _ => congrArg _ (Stave.view_eq_hiding _ _ _ st)
    simp only [List.map_cons, ih hfault]
    refine congrArg (· :: _) ?_
    rw [Item.whole, Item.view, hnumber]
    exact congrArg (Item.View.measure m.number) hstaves
  | failed => cases hfault

namespace Score

variable {s s' t t' u u' : Score} {staff : Nat}

theorem Sound.onStaff_buildChords (h : s.Sound Group.Written) (hfault : s.buildChords.fault = none) :
    s.buildChords.now.onStaff staff = Item.View.built .start (s.onStaff staff) := by
  have hcontents : s.buildChords.now.contents = Item.View.built .start s.contents :=
    h.buildChords.1.contents hfault
  rw [onStaff, hcontents, Item.View.onStaff_built, InForce.on_start, onStaff]

/-! ## Combining -/

/-- The excerpt of one staff. -/
def solo (s : Score) (staff : Nat) : Excerpt := ⟨s, s.measures.length, (· == staff)⟩

theorem parts_solo (s : Score) (staff : Nat) :
    (s.solo staff).parts = (s.onStaff staff).filterMap Item.View.staves? := by
  have hlength : s.measures.length = (s.contents.filterMap Item.View.staves?).length := by
    rw [← map_whole_measures, List.length_map]
  rw [Excerpt.parts_eq, onStaff, Item.View.staves_onStaff]
  simp only [solo, hlength, List.take_length]
  rfl

theorem length_solo (s : Score) (staff : Nat) : (s.solo staff).length = (s.solo staff).parts.length := by
  rw [parts_solo, onStaff, Item.View.staves_onStaff, List.length_map, ← map_whole_measures,
    List.length_map, solo]

theorem on_inForce {n : Nat} {p : Placed} (hp : s.placed[n]? = some p) :
    (Item.View.inForces .start (s.onStaff staff))[n]? = some (p.inForce.on staff) := by
  have h := Item.View.on_inForces staff .start s.contents
  rw [InForce.on_start, ← map_inForce_placed, List.map_map] at h
  rw [onStaff, ← h, List.getElem?_map, hp]
  rfl

theorem sameSettings_solo (h : t'.onStaff staff = t.onStaff staff) :
    (t.solo staff).SameSettings (t'.solo staff) := by
  refine ⟨by rw [length_solo, length_solo, parts_solo, parts_solo, h], rfl,
    fun n p p' hp hp' _ other hother => ?_⟩
  obtain rfl : other = staff := by simpa [solo] using hother
  have hinForce : some (p'.inForce.on other) = some (p.inForce.on other) := by
    rw [← on_inForce hp, ← on_inForce hp']
    exact congrArg (fun vs => (Item.View.inForces .start vs)[n]?) h
  rw [Option.some.injEq] at hinForce
  constructor
  · rw [← InForce.staffVisible_on, hinForce, InForce.staffVisible_on]
  · rw [← InForce.request_on, hinForce, InForce.request_on]

/-- Combining makes the same of a staff. -/
theorem Chorded.parts_solo_combined (ht : t.Chorded) (ht' : t'.Chorded)
    (h : t'.onStaff staff = t.onStaff staff) : ∃ c c',
      t.combineVoices = .ok c ∧ t'.combineVoices = .ok c' ∧
        (c'.score.solo staff).parts = (c.score.solo staff).parts := by
  -- the excerpt goes to the end of the score: nothing is left for a way to lead on into
  have hclosed : ∀ s : Score, (s.solo staff).Closes := fun s hlt => absurd hlt (lt_irrefl _)
  obtain ⟨c, c', hc, hc', hframe, hframe', hparts⟩ := Excerpt.parts_combined ht.sound ht.charted
    (hclosed t) ht'.sound ht'.charted (hclosed t') (sameSettings_solo h)
    (by rw [parts_solo, parts_solo, h])
  have hof : ∀ {s u : Score}, u.frame = s.frame → (s.solo staff).of u = u.solo staff := by
    intro s u hframe
    have hlength := congrArg List.length (measures_of_frame hframe)
    rw [List.length_map, List.length_map] at hlength
    simp only [Excerpt.of, solo, hlength]
  rw [hof (s := t) hframe, hof (s := t') hframe'] at hparts
  exact ⟨c, c', hc, hc', hparts⟩

end Score

/-! ## Printing -/

/-- The voices of a staff as they are printed, measure by measure. -/
def Report.part (r : Report) (staff : Nat) : List (List (List (Nat × List String))) :=
  r.measures.map fun m => (m.staves.filter fun st => st.staff == staff).map (·.voices)

/-- The voices of a stave as they are printed. -/
def Stave.View.printed (x : Stave.View) : List (Nat × List String) :=
  x.voices.map fun v => (v.1, (v.2.getD []).map Group.describe)

namespace Score

variable {s s' u u' : Score} {staff : Nat}

theorem part_ofScore (s : Score) (staff : Nat) :
    (Report.ofScore s).part staff = (s.solo staff).parts.map (List.map Stave.View.printed) := by
  have hprinted : ∀ st : Stave, (Report.stave s st).voices = ((st.whole s.groups {}).printed) := by
    intro st
    simp only [Report.stave, Stave.View.printed, Stave.whole, Stave.view, List.map_map,
      Function.comp_def, Bool.false_eq_true, if_false, Option.getD_some]
  rw [Excerpt.parts, Excerpt.measures]
  simp only [solo, List.take_length, Report.part, Report.ofScore, List.map_map]
  refine List.map_congr_left fun m _ => ?_
  simp only [Function.comp_apply, Excerpt.measure, Report.measure, List.map_map, List.filter_map]
  exact List.map_congr_left fun st _ => hprinted st

/-- **What stands on other staffs makes no difference to a staff.** Two scores that were read may
have the same voices on some staff, measure by measure, and the same changes among them that
concern the score, the staff or one of its voices. Where both are processed, the voices of the
staff are printed alike, whatever other staffs hold and are set to. -/
theorem Parsed.staff_local (hs : s.Parsed) (hs' : s'.Parsed)
    (hsame : s'.onStaff staff = s.onStaff staff)
    (hu : s.process.result = .ok u) (hu' : s'.process.result = .ok u') :
    (Report.ofScore u').part staff = (Report.ofScore u).part staff := by
  have hfault := fault_of_process hu
  have hfault' := fault_of_process hu'
  have hbuilt : s'.buildChords.now.onStaff staff = s.buildChords.now.onStaff staff := by
    rw [hs.sound.onStaff_buildChords hfault, hs'.sound.onStaff_buildChords hfault', hsame]
  obtain ⟨c, c', hc, hc', hparts⟩ := Chorded.parts_solo_combined ⟨s, hs, hfault, rfl⟩
    ⟨s', hs', hfault', rfl⟩ hbuilt
  rw [process_result hfault, if_pos hs.combine, hc] at hu
  rw [process_result hfault', if_pos hs'.combine, hc'] at hu'
  cases hu
  cases hu'
  rw [part_ofScore, part_ofScore, hparts]

end Score

/-- Two voices that go together, what changes before them and what stands on the second staff. -/
def aboveOther (change other : String) : String :=
  "staffs: 2\nvcombine:\n voices: [1,2]\nmusic:\n" ++ change ++
  "- measure:\n  - voices:\n     1:\n     - time: 1\n       notes: [e5]\n" ++
  "     2:\n     - time: 1\n       notes: [c5]\n" ++ other

def otherAsks : String := "- params: {staff: 2, vcombine: {voices: [1,2], qualifier: overlap}}\n"

def otherHolds : String :=
  "  - staff: 2\n    voices:\n     1:\n     - time: 2\n       notes: [e3]\n     - time: 2\n" ++
  "       notes: [e3]\n     2:\n     - time: 2\n       notes: [c3]\n     - time: 2\n" ++
  "       notes: [e3]\n"

/-- The second staff may hold nothing, or voices that are combined as well. -/
theorem staff_local_otherHolds : ∃ s s' u u' : Score, s.Parsed ∧ s'.Parsed ∧
    s.process.result = .ok u ∧ s'.process.result = .ok u' ∧
    s'.onStaff 1 = s.onStaff 1 ∧ s'.onStaff 2 ≠ s.onStaff 2 ∧
    s.buildChords.now.combineVoices.map Combination.merges = .ok 1 ∧
    s'.buildChords.now.combineVoices.map Combination.merges = .ok 3 ∧
    (Report.ofScore u').part 1 = (Report.ofScore u).part 1 := by
  obtain ⟨s, s', hs, hs', hfault, hfault', hsame, hother, hmerges, hmerges'⟩ :=
    Score.exists_two_of_spelled (aboveOther "" "") (aboveOther otherAsks otherHolds)
      (.append (.append (.append (.append (.ofList _) (.ofList _)) (.ofList _)) (.ofList _)) (.ofList _))
      (.append (.append (.append (.append (.ofList _) (.ofList _)) (.ofList _)) (.ofList _))
        (.append (.append (.ofList _) (.ofList _)) (.ofList _)))
      (P := fun s s' => s.buildChords.fault = none ∧ s'.buildChords.fault = none ∧
        s'.onStaff 1 = s.onStaff 1 ∧ s'.onStaff 2 ≠ s.onStaff 2 ∧
        s.buildChords.now.combineVoices.toOption.map Combination.merges = some 1 ∧
        s'.buildChords.now.combineVoices.toOption.map Combination.merges = some 3)
      (by decide +kernel)
  obtain ⟨u, hu⟩ := Score.Parsed.exists_process (.of_text hs) hfault
  obtain ⟨u', hu'⟩ := Score.Parsed.exists_process (.of_text hs') hfault'
  have hmade : ∀ {s : Score} {n : Nat},
      s.combineVoices.toOption.map Combination.merges = some n →
        s.combineVoices.map Combination.merges = .ok n := by
    intro s n h
    cases hc : s.combineVoices with
    | error fault => simp [hc, Except.toOption] at h
    | ok c => simpa [hc, Except.toOption, Except.map] using h
  exact ⟨s, s', u, u', .of_text hs, .of_text hs', hu, hu', hsame, hother, hmade hmerges, hmade hmerges',
    Score.Parsed.staff_local (.of_text hs) (.of_text hs') hsame hu hu'⟩

end Divisi
