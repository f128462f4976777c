/-
What stands behind a barline makes no difference before it.

Where no voice of a measure leads on over its barline, combining does the same to all measures up
to it, whatever follows (`Score.Chorded.barline_local`): these measures are an excerpt that is
closed, and where they are the same two scores have the same excerpt.
-/
import Divisi.Proofs.ExcerptCombined

namespace Divisi

/-! ## Measures that end with their barline -/

/-- No voice leads on from its last group, grace notes apart. -/
def Stave.View.Ends (x : Stave.View) : Prop :=
  ∀ v ∈ x.voices, ∀ gs, v.2 = some gs → ∀ g, (gs.filter fun g => !g.grace).getLast? = some g →
    g.continuesOnward = false

/-- No last group of a voice of the measure, grace notes apart, leads on. -/
def Measure.Ends (groups : Arena Group) (m : Measure) : Prop :=
  ∀ st ∈ m.staves, ∀ x ∈ st.present, ∀ k ∈ (x.2.filter fun k => !(groups.get k).grace).getLast?,
    (groups.get k).continuesOnward = false

instance (groups : Arena Group) (m : Measure) : Decidable (m.Ends groups) :=
  inferInstanceAs (Decidable (∀ st ∈ m.staves, ∀ x ∈ st.present,
    ∀ k ∈ (x.2.filter fun k => !(groups.get k).grace).getLast?,
      (groups.get k).continuesOnward = false))

theorem getLast?_filter_map (groups : Arena Group) (list : List GroupKey) :
    ((list.map groups.get).filter fun g => !g.grace).getLast? =
      (list.filter fun k => !(groups.get k).grace).getLast?.map groups.get := by
  rw [List.filter_map, List.getLast?_map]
  rfl

theorem Measure.ends_iff (groups : Arena Group) (syllables : Arena Syllable) (m : Measure) :
    m.Ends groups ↔ ∀ st ∈ m.staves.map (Stave.whole groups syllables), st.Ends := by
  rw [List.forall_mem_map]
  refine forall₂_congr fun st _ => ?_
  have hvoices : (st.whole groups syllables).voices =
      st.present.map fun x => (x.1, some (x.2.map groups.get)) := rfl
  rw [Stave.View.Ends, hvoices, List.forall_mem_map]
  refine forall₂_congr fun x _ => ?_
  simp only [Option.some.injEq, forall_eq', getLast?_filter_map, Option.map_eq_some_iff,
    Option.mem_def, forall_exists_index, and_imp, forall_apply_eq_imp_iff₂]

namespace Excerpt

variable {x x' : Excerpt}

/-- An excerpt is closed where its last measure ends with its barline. -/
theorem closes_of_ends (h : ∀ n staves, n + 1 = x.length →
    (x.whole.contents.filterMap Item.View.staves?)[n]? = some staves → ∀ st ∈ staves, st.Ends) :
    x.Closes := by
  intro _ n staff voice k hn _ hlast
  obtain ⟨m, st, list, hm, hst, hlist, -, -⟩ := Score.mem_beatsAt.mp (List.mem_of_getLast? hlast)
  have hstaves : (x.whole.contents.filterMap Item.View.staves?)[n]? =
      some (m.staves.map (Stave.whole x.whole.groups x.whole.syllables)) := by
    rw [← Score.map_whole_measures, List.getElem?_map, hm, Option.map_some]
  have hends := (Measure.ends_iff _ _ m).mpr (h n _ hn hstaves)
  refine hends st (Measure.mem_of_stave? hst).1 (voice, list) (Stave.mem_present.mpr hlist) k ?_
  simpa [Score.beatsAt, hm, hst, hlist] using hlast

end Excerpt

/-! ## The first items of a score -/

theorem take_length_filterMap {α β : Type} (f : α → Option β) (xs : List α) (n : Nat) :
    (xs.filterMap f).take ((xs.take n).filterMap f).length = (xs.take n).filterMap f := by
  conv_lhs => rw [← List.take_append_drop n xs, List.filterMap_append]
  simp

theorem Stave.View.eq_of_unsung {xs xs' : List Stave.View}
    (hunsung : xs'.map unsung = xs.map unsung) (hverses : xs'.map (·.verses) = xs.map (·.verses)) :
    xs' = xs := by
  have hpairs : xs'.map (fun st => (st.unsung, st.verses)) = xs.map fun st => (st.unsung, st.verses) := by
    rw [← List.zip_map', ← List.zip_map', hverses]
    exact congrArg (List.zip · _) hunsung
  have hinjective : Function.Injective fun st : Stave.View => (st.unsung, st.verses) := by
    rintro ⟨staff, voices, verses⟩ ⟨staff', voices', verses'⟩ h
    simpa [unsung, and_assoc] using h
  exact hinjective.list_map hpairs

namespace Item.View

theorem take_inForces (f : InForce) (vs : List Item.View) (n : Nat) :
    (inForces f vs).take ((vs.take n).filterMap staves?).length = inForces f (vs.take n) := by
  induction vs generalizing f n with
  | nil => simp [inForces]
  | cons v rest ih =>
    cases n with
    | zero => simp [inForces]
    | succ n =>
      cases v with
      | change c => exact ih (f.apply c) n
      | measure number staves => simpa [inForces, staves?] using ih f n

/-- What is left of an item without the groups of its voices. -/
def skeleton : Item.View → Item.View
  | .change c => .change c
  | .measure number staves => .measure number (staves.map fun st =>
      { st with voices := st.voices.map fun v => (v.1, none) })

theorem eq_of_skeleton {vs vs' : List Item.View} (hskeleton : vs'.map skeleton = vs.map skeleton)
    (hvoices : (vs'.filterMap staves?).map (List.map Stave.View.unsung) =
      (vs.filterMap staves?).map (List.map Stave.View.unsung)) : vs' = vs := by
  induction vs generalizing vs' with
  | nil => simpa using hskeleton
  | cons v rest ih =>
    cases vs' with
    | nil => cases hskeleton
    | cons v' rest' =>
      obtain ⟨hv, hrest⟩ := List.cons.inj hskeleton
      cases v with
      | change c =>
        cases v' with
        | change c' => rw [ih hrest hvoices, View.change.inj hv]
        | measure number' staves' => cases hv
      | measure number staves =>
        cases v' with
        | change c' => cases hv
        | measure number' staves' =>
          obtain ⟨hstaves, hvoices⟩ := List.cons.inj hvoices
          obtain ⟨hnumber, hv⟩ := View.measure.inj hv
          have hverses : staves'.map (·.verses) = staves.map (·.verses) := by
            have h := congrArg (List.map (·.verses)) hv
            simp only [List.map_map] at h
            exact h
          rw [ih hrest hvoices, hnumber, Stave.View.eq_of_unsung hstaves hverses]

end Item.View

/-- What a score of the same frame holds differs in the groups of its voices at most. -/
theorem Score.skeleton_of_frame {s s' : Score} (h : s'.frame = s.frame) :
    s'.contents.map Item.View.skeleton = s.contents.map Item.View.skeleton := by
  have hskeleton : ∀ (groups : Arena Group) (syllables : Arena Syllable) (i : Item),
      (i.whole groups syllables).skeleton =
        ((i.mapLists fun _ => []).whole {} syllables).skeleton := by
    intro groups syllables i
    cases i with
    | change c => rfl
    | measure m =>
      simp only [Item.whole, Item.mapLists, Item.view, Item.View.skeleton, Measure.mapLists, List.map_map]
      refine congrArg (Item.View.measure m.number) (List.map_congr_left fun st _ => ?_)
      simp only [Function.comp_apply, Stave.view, Stave.present_mapLists, List.map_map]
      rfl
  have hcontents : ∀ s : Score, s.contents.map Item.View.skeleton =
      ((s.items.map (Item.mapLists fun _ => [])).map (Item.whole {} s.syllables)).map
        Item.View.skeleton := by
    intro s
    rw [Score.contents, List.map_map, List.map_map, List.map_map]
    exact List.map_congr_left fun i _ => hskeleton s.groups s.syllables i
  rw [hcontents, hcontents, items_of_frame h, syllables_of_frame h]

namespace Score

variable {s s' t t' : Score} {i n : Nat} {m : Measure}

/-- All voices of the measures among the first items. -/
def upTo (s : Score) (n : Nat) : Excerpt :=
  ⟨s, ((s.contents.take n).filterMap Item.View.staves?).length, fun _ => true⟩

theorem take_upTo (s : Score) (n : Nat) :
    (s.contents.filterMap Item.View.staves?).take (s.upTo n).length =
      (s.contents.take n).filterMap Item.View.staves? :=
  take_length_filterMap _ s.contents n

theorem parts_upTo (s : Score) (n : Nat) : (s.upTo n).parts =
    ((s.contents.take n).filterMap Item.View.staves?).map (List.map Stave.View.unsung) := by
  have hall : ∀ staves : List Stave.View, (staves.filter fun _ => true) = staves :=
    fun staves => List.filter_eq_self.mpr fun _ _ => rfl
  rw [Excerpt.parts_eq]
  simp only [show (s.upTo n).whole = s from rfl, show (s.upTo n).staffs = fun _ => true from rfl,
    hall, take_upTo]

theorem of_upTo (h : s'.frame = s.frame) : (s.upTo n).of s' = s'.upTo n := by
  have hlength : ∀ s : Score, ((s.contents.take n).filterMap Item.View.staves?).length =
      (((s.contents.map Item.View.skeleton).take n).filterMap Item.View.staves?).length := by
    intro s
    rw [← List.map_take, List.filterMap_map, List.length_filterMap_eq_countP,
      List.length_filterMap_eq_countP]
    exact congrArg (List.countP · _) (funext fun v => by cases v <;> rfl)
  simp only [Excerpt.of, upTo, hlength, skeleton_of_frame h]

theorem inForce_upTo {p : Placed} {k : Nat} (hp : s.placed[k]? = some p)
    (hk : k < (s.upTo n).length) :
    (Item.View.inForces .start (s.contents.take n))[k]? = some p.inForce := by
  rw [upTo] at hk
  rw [← Item.View.take_inForces, List.getElem?_take_of_lt hk, ← map_inForce_placed,
    List.getElem?_map, hp, Option.map_some]

theorem sameSettings_upTo (h : t'.contents.take n = t.contents.take n) :
    (t.upTo n).SameSettings (t'.upTo n) := by
  have hlength : (t'.upTo n).length = (t.upTo n).length := by simp only [upTo, h]
  refine ⟨hlength, rfl, fun k p p' hp hp' hk staff _ => ?_⟩
  have hinForce : some p'.inForce = some p.inForce := by
    rw [← inForce_upTo hp hk, ← inForce_upTo hp' (hlength.symm ▸ hk)]
    exact congrArg (fun vs => (Item.View.inForces .start vs)[k]?) h
  rw [Option.some.inj hinForce]
  exact ⟨rfl, rfl⟩

theorem closes_upTo (hm : t.measureAt? i = some m) (hends : m.Ends t.groups)
    (h : s.contents.take (i + 1) = t.contents.take (i + 1)) : (s.upTo (i + 1)).Closes := by
  have hitem : t.items[i]? = some (.measure m) := by
    unfold measureAt? at hm
    split at hm
    · next heq => rw [heq, Option.some.inj hm]
    · cases hm
  have hlast : (s.contents.take (i + 1)).filterMap Item.View.staves? =
      (t.contents.take i).filterMap Item.View.staves? ++
        [m.staves.map (Stave.whole t.groups t.syllables)] := by
    rw [h, List.take_add_one, contents, List.getElem?_map, hitem, List.filterMap_append]
    rfl
  -- the last measure of the excerpt is this one
  refine Excerpt.closes_of_ends fun k staves hk hstaves => ?_
  rw [← List.getElem?_take_of_lt (j := (s.upTo (i + 1)).length) (by omega)] at hstaves
  rw [show (s.upTo (i + 1)).whole = s from rfl, take_upTo, hlast] at hstaves
  have hlength : k = ((t.contents.take i).filterMap Item.View.staves?).length := by
    simpa [upTo, hlast] using hk
  rw [hlength, List.getElem?_concat_length, Option.some.injEq] at hstaves
  exact hstaves ▸ (Measure.ends_iff t.groups t.syllables m).mp hends

/-- **What stands behind a barline makes no difference before it.** Two scores with their chords
built may hold the same up to some measure, whose voices all end with it: neither tie, slur nor
beam leads on from the last group of a voice that is no grace note. Then combining leaves the same
in both up to that measure. -/
theorem Chorded.barline_local (ht : t.Chorded) (ht' : t'.Chorded)
    (hm : t.measureAt? i = some m) (hends : m.Ends t.groups)
    (hsame : t'.contents.take (i + 1) = t.contents.take (i + 1)) : ∃ c c',
      t.combineVoices = .ok c ∧ t'.combineVoices = .ok c' ∧
        c'.score.contents.take (i + 1) = c.score.contents.take (i + 1) := by
  have hparts : (t'.upTo (i + 1)).parts = (t.upTo (i + 1)).parts := by
    rw [parts_upTo, parts_upTo, hsame]
  obtain ⟨c, c', hc, hc', hframe, hframe', hcombined⟩ := Excerpt.parts_combined ht.sound ht.charted
    (closes_upTo hm hends rfl) ht'.sound ht'.charted (closes_upTo hm hends hsame)
    (sameSettings_upTo hsame) hparts
  have hof : (t.upTo (i + 1)).of c.score = c.score.upTo (i + 1) := of_upTo hframe
  have hof' : (t'.upTo (i + 1)).of c'.score = c'.score.upTo (i + 1) := of_upTo hframe'
  rw [hof, hof', parts_upTo, parts_upTo] at hcombined
  refine ⟨c, c', hc, hc', Item.View.eq_of_skeleton ?_ hcombined⟩
  rw [List.map_take, List.map_take, skeleton_of_frame (s := t') hframe',
    skeleton_of_frame (s := t) hframe, ← List.map_take, ← List.map_take, hsame]

end Score

/-- Two voices that each tie two notes together, up to the barline, and what follows it. -/
def barredThen (behind : String) : String :=
  "vcombine:\n voices: [1,2]\nmusic:\n- measure:\n  - voices:\n     1:\n     - time: 2\n" ++
  "       notes: [[e5,true]]\n     - time: 2\n       notes: [e5]\n     2:\n     - time: 2\n" ++
  "       notes: [[c5,true]]\n     - time: 2\n       notes: [c5]\n" ++ behind

/-- A measure in which the second voice lies above the first. -/
def crossing : String :=
  "- measure:\n  - voices:\n     1:\n     - time: 1\n       notes: [c5]\n" ++
  "     2:\n     - time: 1\n       notes: [e5]\n"

/-- What goes together before the barline goes together whatever follows. -/
theorem barline_local_crossing : ∃ t t' : Score, t.Chorded ∧ t'.Chorded ∧
    t'.contents.take 2 = t.contents.take 2 ∧ t.contents.length = 2 ∧ t'.contents.length = 3 ∧
    ∃ c c', t.combineVoices = .ok c ∧ t'.combineVoices = .ok c' ∧
      c.merges = 2 ∧ c'.merges = 2 ∧ c'.score.contents.take 2 = c.score.contents.take 2 := by
  obtain ⟨s, s', hs, hs', hfault, hfault', hends, hsame, hlength, hlength', hmerges,
    hmerges'⟩ := Score.exists_two_of_spelled (barredThen "") (barredThen crossing)
    (.append (.append (.append (.ofList _) (.ofList _)) (.ofList _)) (.ofList _))
    (.append (.append (.append (.ofList _) (.ofList _)) (.ofList _)) (.append (.ofList _) (.ofList _)))
    (P := fun s s' => s.buildChords.fault = none ∧ s'.buildChords.fault = none ∧
      ((s.buildChords.now.measureAt? 1).any fun m => m.Ends s.buildChords.now.groups) = true ∧
      s'.buildChords.now.contents.take 2 = s.buildChords.now.contents.take 2 ∧
      s.buildChords.now.contents.length = 2 ∧ s'.buildChords.now.contents.length = 3 ∧
      (s.buildChords.now.combineVoices.toOption.any fun c => c.merges == 2) = true ∧
      (s'.buildChords.now.combineVoices.toOption.any fun c => c.merges == 2) = true)
    (by decide +kernel)
  have ht : s.buildChords.now.Chorded := ⟨s, .of_text hs, hfault, rfl⟩
  have ht' : s'.buildChords.now.Chorded := ⟨s', .of_text hs', hfault', rfl⟩
  obtain ⟨m, hm, hends⟩ := (Option.any_eq_true _ _).mp hends
  obtain ⟨c, c', hc, hc', hlocal⟩ := Score.Chorded.barline_local ht ht' hm (of_decide_eq_true hends) hsame
  simp only [hc, hc', Except.toOption, Option.any_some, beq_iff_eq] at hmerges hmerges'
  exact ⟨_, _, ht, ht', hsame, hlength, hlength', c, c', hc, hc', hmerges, hmerges', hlocal⟩

end Divisi
