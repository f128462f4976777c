/-
The frame of a score: all but its groups, its tags, and what stands in its voice lists.

Another list for a voice that is present leaves the frame as it is (`Score.frame_setVoiceList`),
and scores of one frame whose layers agree have the same items (`Score.mapLists_items_congr`),
also where only a part of each list is looked at.
-/
import Divisi.Proofs.Layers

namespace Divisi

theorem PerVoice.get?_map {α β : Type} (p : PerVoice α) (f : α → β) (v : Nat) :
    (p.map f).get? v = (p.get? v).map f := by
  unfold get?
  split <;> rfl

theorem PerVoice.ext_join {α : Type} {p q : PerVoice (Option α)}
    (h : ∀ v, (p.get? v).join = (q.get? v).join) : p = q := by
  have hone : p.one = q.one := by simpa [get?] using h 1
  have htwo : p.two = q.two := by simpa [get?] using h 2
  have hthree : p.three = q.three := by simpa [get?] using h 3
  obtain ⟨one, two, three⟩ := p
  obtain ⟨one', two', three'⟩ := q
  simp only at hone htwo hthree
  rw [hone, htwo, hthree]

/-! ## Items with other lists -/

/-- The stave with each of its voice lists changed by `f`. -/
def Stave.mapLists (f : List GroupKey → List GroupKey) (st : Stave) : Stave :=
  { st with voices := st.voices.map (Option.map f) }

def Measure.mapLists (f : List GroupKey → List GroupKey) (m : Measure) : Measure :=
  { m with staves := m.staves.map (Stave.mapLists f) }

def Item.mapLists (f : List GroupKey → List GroupKey) : Item → Item
  | .change c => .change c
  | .measure m => .measure (m.mapLists f)

/-- The item without its voices and its chords: a change, or the staffs of a measure and their
verses. -/
def Item.outline : Item → Item
  | .change c => .change c
  | .measure m => .measure { m with
      staves := m.staves.map fun st => { st with voices := .all none }
      chords := [] }

/-- The measure at its place with other lists. -/
def Placed.mapLists (f : List GroupKey → List GroupKey) (p : Placed) : Placed :=
  { p with measure := p.measure.mapLists f }

theorem Placed.along_mapLists (f : List GroupKey → List GroupKey) (items : List Item) :
    ∀ (item : Nat) (inForce : InForce), along item inForce (items.map (Item.mapLists f)) =
      (along item inForce items).map (Placed.mapLists f) := by
  induction items with
  | nil => exact fun _ _ => rfl
  | cons i rest ih =>
    intro item inForce
    cases i with
    | change c => exact ih (item + 1) (inForce.apply c)
    | measure m => exact congrArg _ (ih (item + 1) inForce)

section MapLists

variable {f : List GroupKey → List GroupKey} {st st' : Stave} {m m' : Measure} {v : Nat}

@[simp] theorem Stave.staff_mapLists : (st.mapLists f).staff = st.staff := rfl

@[simp] theorem Stave.verses_mapLists : (st.mapLists f).verses = st.verses := rfl

theorem Stave.present_mapLists :
    (st.mapLists f).present = st.present.map fun x => (x.1, f x.2) := by
  unfold present
  rw [List.map_filterMap]
  simp only [PerVoice.toList, mapLists, PerVoice.map, List.filterMap_cons, List.filterMap_nil]
  cases st.voices.one <;> cases st.voices.two <;> cases st.voices.three <;> rfl

theorem Stave.list?_mapLists : (st.mapLists f).list? v = (st.list? v).map f := by
  rw [list?, mapLists, PerVoice.get?_map, list?]
  cases st.voices.get? v <;> rfl

@[simp] theorem Item.mapLists_id (i : Item) : i.mapLists id = i := by
  have hstave : Stave.mapLists id = id := funext fun st => by simp [Stave.mapLists, PerVoice.map]
  cases i with
  | change c => rfl
  | measure m => simp [mapLists, Measure.mapLists, hstave]

@[simp] theorem Item.outline_mapLists (i : Item) : (i.mapLists f).outline = i.outline := by
  cases i with
  | change c => rfl
  | measure m => simp [mapLists, outline, Measure.mapLists, Stave.mapLists, Function.comp_def]

theorem Measure.stave?_mapLists (m : Measure) (staff : Nat) :
    (m.mapLists f).stave? staff = (m.stave? staff).map (Stave.mapLists f) := by
  rw [stave?, mapLists, List.find?_map]
  rfl

@[simp] theorem Measure.number_mapLists : (m.mapLists f).number = m.number := rfl

@[simp] theorem Measure.chords_mapLists : (m.mapLists f).chords = m.chords := rfl

theorem Stave.mapLists_congr (hframe : st'.mapLists (fun _ => []) = st.mapLists fun _ => [])
    (hlists : ∀ v, (st'.list? v).map f = (st.list? v).map f) : st'.mapLists f = st.mapLists f := by
  have hone := hlists 1
  have htwo := hlists 2
  have hthree := hlists 3
  obtain ⟨staff, ⟨one, two, three⟩, verses⟩ := st
  obtain ⟨staff', ⟨one', two', three'⟩, verses'⟩ := st'
  simp only [mapLists, mk.injEq] at hframe
  simp only [list?, PerVoice.get?, Option.join_some] at hone htwo hthree
  simp only [mapLists, PerVoice.map, hframe.1, hframe.2.2, hone, htwo, hthree]

/-- A list in the place of one that `f` does not tell from it. -/
theorem Stave.mapLists_setList {old new : List GroupKey} (hold : st.list? v = some old)
    (hf : f new = f old) : (st.setList v (some new)).mapLists f = st.mapLists f := by
  obtain ⟨staff, ⟨one, two, three⟩, verses⟩ := st
  obtain rfl | rfl | rfl : v = 1 ∨ v = 2 ∨ v = 3 := by
    have := Stave.le_of_list? hold
    omega
  all_goals
    simp only [list?, PerVoice.get?, Option.join_some] at hold
    simp [mapLists, setList, PerVoice.set, PerVoice.map, hold, hf]

theorem Measure.map_staff_of_frame
    (hframe : m'.mapLists (fun _ => []) = m.mapLists fun _ => []) :
    m'.staves.map (·.staff) = m.staves.map (·.staff) := by
  have hstaves := congrArg (fun m : Measure => m.staves.map (·.staff)) hframe
  simpa [mapLists, Function.comp_def] using hstaves

theorem Measure.mapLists_congr (hframe : m'.mapLists (fun _ => []) = m.mapLists fun _ => [])
    (hlists : ∀ st' ∈ m'.staves, ∀ st ∈ m.staves, st'.staff = st.staff →
      ∀ v, (st'.list? v).map f = (st.list? v).map f) : m'.mapLists f = m.mapLists f := by
  obtain ⟨number, staves, chords⟩ := m
  obtain ⟨number', staves', chords'⟩ := m'
  simp only [mapLists, mk.injEq] at hframe hlists ⊢
  refine ⟨hframe.1, List.ext_getElem? fun j => ?_, hframe.2.2⟩
  have hstave := congrArg (·[j]?) hframe.2.1
  simp only [List.getElem?_map] at hstave ⊢
  cases hj : staves[j]? with
  | none =>
    rw [hj, Option.map_none, Option.map_eq_none_iff] at hstave
    rw [hstave]
  | some st =>
    rw [hj, Option.map_some, Option.map_eq_some_iff] at hstave
    obtain ⟨st', hj', heq⟩ := hstave
    have hstaff : (st'.mapLists fun _ => []).staff = (st.mapLists fun _ => []).staff :=
      congrArg Stave.staff heq
    rw [hj', Option.map_some, Option.map_some, Stave.mapLists_congr heq]
    exact hlists st' (List.mem_of_getElem? hj') st (List.mem_of_getElem? hj) hstaff

end MapLists

/-! ## Frames -/

/-- A score without its groups, its tags and what stands in its lists. -/
def Score.frame (s : Score) : Score :=
  { s with items := s.items.map (Item.mapLists fun _ => []), groups := {}, tags := [] }

/-- What is changed at one place, where `g` does not see it. -/
theorem map_modify_eq {α β : Type} {f : α → α} {g : α → β} {xs : List α} {i : Nat}
    (h : ∀ x, xs[i]? = some x → g (f x) = g x) : (xs.modify i f).map g = xs.map g := by
  refine List.ext_getElem? fun j => ?_
  rw [List.getElem?_map, List.getElem?_map, List.getElem?_modify]
  by_cases hij : i = j
  · subst hij
    cases hx : xs[i]? with
    | none => rfl
    | some x => simp [h x hx]
  · cases xs[j]? <;> simp [hij]

namespace Score

variable {s s' : Score} {layer : Layer} {old new : List GroupKey} {f : List GroupKey → List GroupKey}
  {i : Nat}

theorem mapLists_setVoiceList (h : s.list? layer = some old) (hf : f new = f old) :
    (s.setVoiceList layer.item layer.staff layer.voice (some new)).items.map (Item.mapLists f) =
      s.items.map (Item.mapLists f) := by
  obtain ⟨m, st, hm, hst, hlist⟩ := list?_eq_some.mp h
  refine map_modify_eq fun x hx => ?_
  have hitem : x = .measure m := by
    cases x with
    | change c => simp [measureAt?, hx] at hm
    | measure m' => simpa [measureAt?, hx] using hm
  subst hitem
  refine congrArg (fun staves => Item.measure { m with staves }) (map_modify_eq fun st' hst' => ?_)
  rw [Measure.stave?, List.find?_eq_getElem?_findIdx, hst'] at hst
  cases hst
  exact Stave.mapLists_setList hlist hf

theorem frame_setVoiceList (h : s.list? layer = some old) (new : List GroupKey) :
    (s.setVoiceList layer.item layer.staff layer.voice (some new)).frame = s.frame := by
  have hitems : (s.setVoiceList layer.item layer.staff layer.voice (some new)).items.map
      (Item.mapLists fun _ => []) = s.items.map (Item.mapLists fun _ => []) :=
    mapLists_setVoiceList h rfl
  rw [frame, hitems]
  rfl

theorem items_of_frame (h : s'.frame = s.frame) :
    s'.items.map (Item.mapLists fun _ => []) = s.items.map (Item.mapLists fun _ => []) :=
  congrArg Score.items h

theorem syllables_of_frame (h : s'.frame = s.frame) : s'.syllables = s.syllables := by
  have hsyllables := congrArg Score.syllables h
  exact hsyllables

/-- Changes, staffs and verses belong to the frame. -/
theorem outline_of_frame (h : s'.frame = s.frame) :
    s'.items.map Item.outline = s.items.map Item.outline := by
  have hitems := congrArg (List.map Item.outline) (items_of_frame h)
  simpa only [List.map_map, Function.comp_def, Item.outline_mapLists] using hitems

theorem measures_of_frame (h : s'.frame = s.frame) :
    s'.measures.map (Measure.mapLists fun _ => []) = s.measures.map (Measure.mapLists fun _ => []) := by
  have hmeasures : ∀ items : List Item, measuresOf (items.map (Item.mapLists fun _ => [])) =
      (measuresOf items).map (Measure.mapLists fun _ => []) := by
    intro items
    induction items with
    | nil => rfl
    | cons i rest ih =>
      cases i with
      | change c => exact ih
      | measure m => exact congrArg _ ih
  have hitems := congrArg measuresOf (items_of_frame h)
  rwa [hmeasures, hmeasures] at hitems

theorem sung_of_frame (h : s'.frame = s.frame) : s'.sung = s.sung := by
  have hsung : ∀ m : Measure, (m.mapLists fun _ => []).sung = m.sung := fun m => by
    rw [Measure.mapLists, Measure.sung, List.flatMap_map]
    rfl
  have hmeasures := congrArg (List.flatMap Measure.sung) (measures_of_frame h)
  rw [List.flatMap_map, List.flatMap_map] at hmeasures
  simp only [hsung] at hmeasures
  exact hmeasures

theorem measureAt?_of_frame (h : s'.frame = s.frame) (i : Nat) :
    (s'.measureAt? i).map (Measure.mapLists fun _ => []) =
      (s.measureAt? i).map (Measure.mapLists fun _ => []) := by
  have hitem := congrArg (·[i]?) (items_of_frame h)
  simp only [List.getElem?_map] at hitem
  unfold measureAt?
  cases hi : s.items[i]? with
  | none =>
    rw [hi, Option.map_none, Option.map_eq_none_iff] at hitem
    rw [hitem]
  | some x =>
    rw [hi, Option.map_some, Option.map_eq_some_iff] at hitem
    obtain ⟨x', hx', heq⟩ := hitem
    rw [hx']
    cases x <;> cases x' <;> simp_all [Item.mapLists]

theorem isSome_list?_of_frame (h : s'.frame = s.frame) (layer : Layer) :
    (s'.list? layer).isSome = (s.list? layer).isSome := by
  have hlists : ∀ s : Score, (s.list? layer).map (fun _ => ([] : List GroupKey)) =
      (((s.measureAt? layer.item).map (Measure.mapLists fun _ => [])).bind
        (·.stave? layer.staff)).bind (·.list? layer.voice) := by
    intro s
    rw [list?]
    cases s.measureAt? layer.item with
    | none => rfl
    | some m =>
      rw [Option.bind_some, Option.map_some, Option.bind_some, Measure.stave?_mapLists]
      cases m.stave? layer.staff with
      | none => rfl
      | some st => exact Stave.list?_mapLists.symm
  have hsame := hlists s'
  rw [measureAt?_of_frame h, ← hlists s] at hsame
  simpa using congrArg Option.isSome hsame

theorem placed_of_frame (h : s'.frame = s.frame) :
    s'.placed.map (Placed.mapLists fun _ => []) = s.placed.map (Placed.mapLists fun _ => []) := by
  rw [placed, placed, ← Placed.along_mapLists, ← Placed.along_mapLists, items_of_frame h]

theorem mapLists_items_congr (h : s'.frame = s.frame)
    (hs : ∀ m ∈ s.measures, (m.staves.map (·.staff)).Pairwise (· < ·))
    (hlists : ∀ layer, (s'.list? layer).map f = (s.list? layer).map f) :
    s'.items.map (Item.mapLists f) = s.items.map (Item.mapLists f) := by
  refine List.ext_getElem? fun i => ?_
  have hitem := congrArg (·[i]?) (items_of_frame h)
  simp only [List.getElem?_map] at hitem ⊢
  cases hi : s.items[i]? with
  | none =>
    rw [hi, Option.map_none, Option.map_eq_none_iff] at hitem
    rw [hitem]
  | some x =>
    rw [hi, Option.map_some, Option.map_eq_some_iff] at hitem
    obtain ⟨x', hi', heq⟩ := hitem
    rw [hi', Option.map_some, Option.map_some]
    cases x with
    | change c =>
      cases x' with
      | change c' => exact congrArg some heq
      | measure m' => cases heq
    | measure m =>
      cases x' with
      | change c' => cases heq
      | measure m' =>
        have heq : m'.mapLists (fun _ => []) = m.mapLists fun _ => [] := Item.measure.inj heq
        have hm : s.measureAt? i = some m := by rw [measureAt?, hi]
        have hm' : s'.measureAt? i = some m' := by rw [measureAt?, hi']
        have hasc := hs m (mem_measuresOf.mpr (List.mem_of_getElem? hi))
        have hasc' := Measure.map_staff_of_frame heq ▸ hasc
        refine congrArg (fun m => some (Item.measure m))
          (Measure.mapLists_congr heq fun st' hst' st hst hstaff v => ?_)
        have hlayer := hlists ⟨i, st.staff, v⟩
        rwa [list?, list?, hm, hm', Option.bind_some, Option.bind_some,
          Measure.stave?_of_mem hasc hst, ← hstaff, Measure.stave?_of_mem hasc' hst',
          Option.bind_some, Option.bind_some] at hlayer

end Score

end Divisi
