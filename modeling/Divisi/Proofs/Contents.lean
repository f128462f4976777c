/-
What a score holds, told without keys.

A view of a score lists its changes and measures, the voices and verses of each staff by what
their groups and syllables are; it may leave out what some voices hold. Two scores with their
chords built whose views leave out nothing and agree are one score under two sets of keys
(`Score.Sound.exists_renamed`).
-/
import Divisi.Proofs.Chorded
import Divisi.Proofs.Renamed

namespace Divisi

/-! ## Views -/

/-- What is seen of a stave. -/
structure Stave.View where
  staff : Nat
  /-- The voices present, each with its groups unless these are not to be seen. -/
  voices : List (Nat × Option (List Group))
  verses : List (List Syllable)
  deriving DecidableEq

/-- What is seen of an item. -/
inductive Item.View where
  | change (change : Change)
  | measure (number : Nat) (staves : List Stave.View)
  deriving DecidableEq

section View

variable (groups : Arena Group) (syllables : Arena Syllable)

/-- A stave of which some voices are not to be seen. -/
def Stave.view (hide : Nat → Bool) (st : Stave) : Stave.View :=
  { staff := st.staff
    voices := st.present.map fun x => (x.1, if hide x.1 then none else some (x.2.map groups.get))
    verses := st.verses.map (List.map syllables.get) }

def Item.view (hide : Nat → Nat → Bool) : Item → Item.View
  | .change c => .change c
  | .measure m => .measure m.number (m.staves.map fun st => st.view groups syllables (hide st.staff))

/-- A stave that is seen whole. -/
def Stave.whole (st : Stave) : Stave.View := st.view groups syllables fun _ => false

def Item.whole : Item → Item.View := Item.view groups syllables fun _ _ => false

end View

/-- All that a score holds, chords apart. -/
def Score.contents (s : Score) : List Item.View := s.items.map (Item.whole s.groups s.syllables)

/-! ## Along a score -/

/-- A stave without its verses. -/
def Stave.View.unsung (x : Stave.View) : Stave.View := { x with verses := [] }

namespace Item.View

/-- The staves of an item that is a measure. -/
def staves? : Item.View → Option (List Stave.View)
  | .change _ => none
  | .measure _ staves => some staves

/-- The settings in force at each measure of items that begin with the settings `f`. -/
def inForces : InForce → List Item.View → List InForce
  | _, [] => []
  | f, .change c :: rest => inForces (f.apply c) rest
  | f, .measure _ _ :: rest => f :: inForces f rest

end Item.View

section Along

variable (groups : Arena Group) (syllables : Arena Syllable)

theorem Placed.map_inForce_along (item : Nat) (f : InForce) (its : List Item) :
    (along item f its).map (·.inForce) =
      Item.View.inForces f (its.map (Item.whole groups syllables)) := by
  induction its generalizing item f with
  | nil => rfl
  | cons i rest ih =>
    cases i with
    | change c => exact ih (item + 1) (f.apply c)
    | measure m => exact congrArg _ (ih (item + 1) f)

theorem map_whole_measuresOf (its : List Item) :
    (measuresOf its).map (fun m => m.staves.map (Stave.whole groups syllables)) =
      (its.map (Item.whole groups syllables)).filterMap Item.View.staves? := by
  induction its with
  | nil => rfl
  | cons i rest ih =>
    cases i with
    | change c => exact ih
    | measure m => exact congrArg _ ih

end Along

theorem Score.map_inForce_placed (s : Score) :
    s.placed.map (·.inForce) = Item.View.inForces .start s.contents :=
  Placed.map_inForce_along s.groups s.syllables 0 .start s.items

theorem Score.map_whole_measures (s : Score) :
    s.measures.map (fun m => m.staves.map (Stave.whole s.groups s.syllables)) =
      s.contents.filterMap Item.View.staves? :=
  map_whole_measuresOf s.groups s.syllables s.items

/-! ## Keys by place -/

section Lists

variable {α : Type} {a a' : Arena α} {keys keys' : List (Key α)}

/-- Lists of keys that name the same values in two arenas go together by a renaming. Keys that
name nothing are sent out of the way. -/
theorem Arena.Lists.exists_renaming [Inhabited α] (h : a.Lists keys) (h' : a'.Lists keys')
    (heq : keys'.map a'.get = keys.map a.get) :
    ∃ f : Key α → Key α, Function.Injective f ∧ keys' = keys.map f ∧
      ∀ k, a'.get? (f k) = a.get? k := by
  have hlength : keys'.length = keys.length := by simpa using congrArg List.length heq
  let f : Key α → Key α := fun k =>
    if k ∈ keys then keys'.getD (keys.idxOf k) default else ⟨a'.slots.size + k.slot⟩
  have hin : ∀ i (hi : i < keys.length), f keys[i] = keys'[i] := by
    intro i hi
    simp only [f, if_pos (List.getElem_mem hi), h.nodup.idxOf_getElem]
    exact (List.getElem_eq_getD default).symm
  have hout : ∀ k, k ∉ keys → f k = ⟨a'.slots.size + k.slot⟩ := fun k hk => if_neg hk
  have hlive : ∀ i (hi : i < keys.length), (f keys[i]).slot < a'.slots.size := by
    intro i hi
    obtain ⟨x, hx⟩ := h'.get? (List.getElem_mem (hlength ▸ hi : i < keys'.length))
    rw [hin i hi]
    exact Arena.lt_size_of_get? hx
  refine ⟨f, fun k l hkl => ?_, ?_, fun k => ?_⟩
  · by_cases hk : k ∈ keys
    · obtain ⟨i, hi, rfl⟩ := List.getElem_of_mem hk
      by_cases hl : l ∈ keys
      · obtain ⟨j, hj, rfl⟩ := List.getElem_of_mem hl
        rw [hin i hi, hin j hj] at hkl
        obtain rfl := h'.nodup.getElem_inj_iff.mp hkl
        rfl
      · have hlt := hlive i hi
        rw [hkl, hout l hl] at hlt
        simp at hlt
    · by_cases hl : l ∈ keys
      · obtain ⟨j, hj, rfl⟩ := List.getElem_of_mem hl
        have hlt := hlive j hj
        rw [← hkl, hout k hk] at hlt
        simp at hlt
      · rw [hout k hk, hout l hl, Key.mk.injEq] at hkl
        obtain ⟨n⟩ := k
        obtain ⟨m⟩ := l
        simpa using hkl
  · refine List.ext_getElem (by rw [hlength, List.length_map]) fun i hi hi' => ?_
    rw [List.getElem_map, hin i (by simpa using hi')]
  · by_cases hk : k ∈ keys
    · obtain ⟨i, hi, rfl⟩ := List.getElem_of_mem hk
      obtain ⟨x, hx⟩ := h.get? hk
      obtain ⟨x', hx'⟩ := h'.get? (List.getElem_mem (hlength ▸ hi : i < keys'.length))
      have hvalue := congrArg (·[i]?) heq
      simp only [List.getElem?_map, List.getElem?_eq_getElem hi,
        List.getElem?_eq_getElem (hlength ▸ hi : i < keys'.length), Option.map_some,
        Option.some.injEq, Arena.get_of_get? hx, Arena.get_of_get? hx'] at hvalue
      rw [hin i hi, hx', hx, hvalue]
    · have hdead : a.get? k = none := by
        rw [h.mem_iff, Arena.contains, Option.not_isSome_iff_eq_none] at hk
        exact hk
      rw [hout k hk, hdead, Arena.get?, Array.getElem?_eq_none (by simp)]
      rfl

end Lists

/-- Where two rows of things look the same, and all keys of the one are those of the other under
other names, so are the keys of each thing. -/
theorem keys_of_flatMap {α β γ : Type} {view view' : α → γ} {keys keys' : α → List β} {f : β → β}
    {xs xs' : List α} (hview : xs'.map view' = xs.map view)
    (hlength : ∀ x x', view' x' = view x → (keys' x').length = (keys x).length)
    (hkeys : xs'.flatMap keys' = (xs.flatMap keys).map f) :
    ∀ p ∈ xs.zip xs', view' p.2 = view p.1 ∧ keys' p.2 = (keys p.1).map f := by
  induction xs generalizing xs' with
  | nil => simp
  | cons x rest ih =>
    cases xs' with
    | nil => simp
    | cons x' rest' =>
      simp only [List.map_cons, List.cons.injEq, List.flatMap_cons, List.map_append] at hview hkeys
      have hsplit := List.append_inj hkeys (by rw [List.length_map, hlength x x' hview.1])
      intro p hp
      rcases List.mem_cons.mp hp with rfl | hp
      · exact ⟨hview.1, hsplit.1⟩
      · exact ih hview.2 hsplit.2 p hp

theorem map_eq_of_zip {α β : Type} {xs xs' : List α} {f g : α → β} (hlength : xs'.length = xs.length)
    (h : ∀ p ∈ xs.zip xs', g p.2 = f p.1) : xs'.map g = xs.map f := by
  induction xs generalizing xs' with
  | nil =>
    obtain rfl := List.eq_nil_of_length_eq_zero hlength
    rfl
  | cons x rest ih =>
    cases xs' with
    | nil => simp at hlength
    | cons x' rest' =>
      simp only [List.zip_cons_cons, List.mem_cons, forall_eq_or_imp] at h
      rw [List.map_cons, List.map_cons, h.1, ih (by simpa using hlength) h.2]

theorem eq_map_of_zip {α : Type} {xs xs' : List α} {f : α → α} (hlength : xs'.length = xs.length)
    (h : ∀ p ∈ xs.zip xs', p.2 = f p.1) : xs' = xs.map f :=
  (List.map_id xs').symm.trans (map_eq_of_zip hlength h)

/-! ## Staves -/

/-- The groups of a stave, voice by voice. -/
def Stave.keys (st : Stave) : List GroupKey := st.present.flatMap Prod.snd

theorem Stave.map_key_postings (measure : Nat) (st : Stave) :
    (st.postings measure).map (·.key) = st.keys := by
  simp only [postings, keys, List.map_flatMap, map_key_postingsOf]

theorem Stave.eq_of_present {st st' : Stave} (hstaff : st'.staff = st.staff)
    (hpresent : st'.present = st.present) (hverses : st'.verses = st.verses) : st' = st := by
  have hlists : ∀ v, st'.list? v = st.list? v := fun v =>
    Option.ext fun list => by rw [← mem_present, ← mem_present, hpresent]
  have hvoices : st'.voices = st.voices := PerVoice.ext_join hlists
  obtain ⟨staff, voices, verses⟩ := st
  obtain ⟨staff', voices', verses'⟩ := st'
  simp only at hstaff hvoices hverses
  rw [hstaff, hvoices, hverses]

/-- The groups of a stave, as its view has them. -/
def Stave.View.groups (x : Stave.View) : List Group := x.voices.flatMap fun v => v.2.getD []

def Stave.View.sung (x : Stave.View) : List Syllable := x.verses.flatten

section Whole

variable {r : Renaming} {groups groups' : Arena Group} {syllables syllables' : Arena Syllable}
  {st st' : Stave}

theorem Stave.map_get_keys (groups : Arena Group) (syllables : Arena Syllable) (st : Stave) :
    st.keys.map groups.get = (st.whole groups syllables).groups := by
  simp only [keys, whole, view, View.groups, List.map_flatMap, List.flatMap_map]
  rfl

theorem Stave.map_get_sung (groups : Arena Group) (syllables : Arena Syllable) (st : Stave) :
    st.sung.map syllables.get = (st.whole groups syllables).sung :=
  List.map_flatten

/-- Staves that look the same are told apart by their keys. -/
theorem Stave.eq_of_whole (hview : st'.whole groups' syllables' = st.whole groups syllables)
    (hkeys : st'.keys = st.keys.map r.group) (hsung : st'.sung = st.sung.map r.syllable) :
    st' = r.stave st := by
  have hvoices : st'.present.map (fun x => (x.1, some (x.2.map groups'.get))) =
      st.present.map fun x => (x.1, some (x.2.map groups.get)) := congrArg View.voices hview
  have hverses : st'.verses.map (List.map syllables'.get) = st.verses.map (List.map syllables.get) :=
    congrArg View.verses hview
  refine eq_of_present (congrArg View.staff hview) ?_ ?_
  · rw [Renaming.present_stave]
    refine eq_map_of_zip (by simpa using congrArg List.length hvoices) fun p hp => ?_
    obtain ⟨hsame, hlist⟩ := keys_of_flatMap hvoices (fun x x' hsame => by
      simpa using congrArg (fun v => (v.2.getD []).length) hsame) hkeys p hp
    exact Prod.ext (Prod.mk.inj hsame).1 hlist
  · refine eq_map_of_zip (by simpa using congrArg List.length hverses) fun p hp => ?_
    have hflat : st'.verses.flatMap id = (st.verses.flatMap id).map r.syllable := by
      rw [List.flatMap_id, List.flatMap_id]
      exact hsung
    refine (keys_of_flatMap hverses (fun x x' hsame => ?_) hflat p hp).2
    simpa using congrArg List.length hsame

end Whole

/-! ## Items -/

namespace Item

def keys : Item → List GroupKey
  | .change _ => []
  | .measure m => m.staves.flatMap Stave.keys

def sung : Item → List SyllableKey
  | .change _ => []
  | .measure m => m.sung

/-- An item without the chords of its measure. -/
def bare : Item → Item
  | .change c => .change c
  | .measure m => .measure { m with chords := [] }

namespace View

def groups : Item.View → List Group
  | .change _ => []
  | .measure _ staves => staves.flatMap Stave.View.groups

def sung : Item.View → List Syllable
  | .change _ => []
  | .measure _ staves => staves.flatMap Stave.View.sung

end View

theorem map_get_keys (groups : Arena Group) (syllables : Arena Syllable) (i : Item) :
    i.keys.map groups.get = (i.whole groups syllables).groups := by
  cases i with
  | change c => rfl
  | measure m =>
    simp only [keys, whole, view, View.groups, List.map_flatMap, List.flatMap_map]
    exact List.flatMap_congr fun st _ => Stave.map_get_keys groups syllables st

theorem map_get_sung (groups : Arena Group) (syllables : Arena Syllable) (i : Item) :
    i.sung.map syllables.get = (i.whole groups syllables).sung := by
  cases i with
  | change c => rfl
  | measure m =>
    simp only [sung, Measure.sung, whole, view, View.sung, List.map_flatMap, List.flatMap_map]
    exact List.flatMap_congr fun st _ => Stave.map_get_sung groups syllables st

section Whole

variable {r : Renaming} {groups groups' : Arena Group} {syllables syllables' : Arena Syllable}

/-- Items that look the same are told apart by their keys and their chords. -/
theorem bare_eq_of_whole {i i' : Item} (hview : i'.whole groups' syllables' = i.whole groups syllables)
    (hkeys : i'.keys = i.keys.map r.group) (hsung : i'.sung = i.sung.map r.syllable) :
    i'.bare = (r.item i).bare := by
  cases i with
  | change c =>
    cases i' with
    | change c' => exact congrArg Item.change (View.change.inj hview)
    | measure m' => cases hview
  | measure m =>
    cases i' with
    | change c' => cases hview
    | measure m' =>
      obtain ⟨hnumber, hstaves⟩ := View.measure.inj hview
      have hstaves : m'.staves.map (Stave.whole groups' syllables') =
          m.staves.map (Stave.whole groups syllables) := hstaves
      have hsame : m'.staves = m.staves.map r.stave := by
        refine eq_map_of_zip (by simpa using congrArg List.length hstaves) fun p hp => ?_
        obtain ⟨hstave, hk⟩ := keys_of_flatMap hstaves (fun x x' hsame => by
          simpa [← Stave.map_get_keys] using congrArg (fun v => v.groups.length) hsame) hkeys p hp
        obtain ⟨-, hs⟩ := keys_of_flatMap hstaves (fun x x' hsame => by
          simpa [← Stave.map_get_sung] using congrArg (fun v => v.sung.length) hsame) hsung p hp
        exact Stave.eq_of_whole hstave hk hs
      simp only [bare, Renaming.item, Renaming.measure, hnumber, hsame]

end Whole

end Item

/-! ## Scores -/

namespace Score

theorem flatMap_measures {α : Type} {f : Measure → List α} {g : Item → List α} (s : Score)
    (hchange : ∀ c, g (.change c) = []) (hmeasure : ∀ m, g (.measure m) = f m) :
    s.measures.flatMap f = s.items.flatMap g := by
  unfold measures
  induction s.items with
  | nil => rfl
  | cons i rest ih =>
    cases i with
    | change c => simp only [List.filterMap_cons, List.flatMap_cons, hchange, List.nil_append, ih]
    | measure m => simp only [List.filterMap_cons, List.flatMap_cons, hmeasure, ih]

theorem map_key_postings (s : Score) : s.postings.map (·.key) = s.items.flatMap Item.keys := by
  rw [postings, List.map_flatMap]
  refine s.flatMap_measures (fun _ => rfl) fun m => ?_
  simp only [Item.keys, Measure.postings, List.map_flatMap, Stave.map_key_postings]

theorem sung_eq (s : Score) : s.sung = s.items.flatMap Item.sung :=
  s.flatMap_measures (fun _ => rfl) fun _ => rfl

/-- Under other keys the streams have the same chords, under those keys. So items whose chords are
those of their streams are told by the rest. -/
theorem items_eq_of_bare {r : Renaming} {groups groups' : Arena Group}
    {syllables syllables' : Arena Syllable} {packing : Float} {items items' : List Item}
    (hgroups : r.Carries groups groups')
    (hsyllables : ∀ k, syllables'.get? (r.syllable k) = syllables.get? k) (i : Nat) (f : InForce)
    (hchords : ∀ p ∈ Placed.along i f items, Stream.chords packing p.length
      (Chording.streams groups syllables p.inForce p.measure.staves) = .ok p.measure.chords)
    (hchords' : ∀ p ∈ Placed.along i f items', Stream.chords packing p.length
      (Chording.streams groups' syllables' p.inForce p.measure.staves) = .ok p.measure.chords)
    (hbare : items'.map Item.bare = items.map fun x => (r.item x).bare) :
    items' = items.map r.item := by
  induction items generalizing items' i f with
  | nil => simpa using hbare
  | cons x rest ih =>
    cases items' with
    | nil => simp at hbare
    | cons x' rest' =>
      simp only [List.map_cons, List.cons.injEq] at hbare ⊢
      cases x with
      | change c =>
        cases x' with
        | change c' =>
          obtain rfl := Item.change.inj hbare.1
          exact ⟨rfl, ih (i + 1) (f.apply c') hchords hchords' hbare.2⟩
        | measure m' => cases hbare.1
      | measure m =>
        cases x' with
        | change c' => cases hbare.1
        | measure m' =>
          simp only [Placed.along, List.mem_cons, forall_eq_or_imp] at hchords hchords'
          refine ⟨?_, ih (i + 1) f hchords.2 hchords'.2 hbare.2⟩
          obtain ⟨number, staves, chords⟩ := m
          obtain ⟨number', staves', chords'⟩ := m'
          obtain ⟨rfl, rfl⟩ : number' = number ∧ staves' = staves.map r.stave := by
            simpa [Item.bare, Renaming.item, Renaming.measure] using hbare.1
          have hold : Stream.chords packing f.time.duration
              (Chording.streams groups syllables f staves) = .ok chords := hchords.1
          have hnew : Stream.chords packing f.time.duration
              (Chording.streams groups' syllables' f (staves.map r.stave)) = .ok chords' := hchords'.1
          rw [Renaming.streams_eq hgroups hsyllables, Stream.chords_map, hold] at hnew
          cases hnew
          rfl

/-- The keys of scores that hold the same stand for each other, chords apart. -/
theorem Sound.exists_bare {fits fits' : Group → Prop} {s s' : Score} (hs : s.Sound fits)
    (hs' : s'.Sound fits') (hcontents : s'.contents = s.contents) : ∃ r : Renaming,
      r.Carries s.groups s'.groups ∧ (∀ k, s'.syllables.get? (r.syllable k) = s.syllables.get? k) ∧
        s'.items.map Item.bare = s.items.map fun i => (r.item i).bare := by
  have hkeys : (s'.postings.map (·.key)).map s'.groups.get =
      (s.postings.map (·.key)).map s.groups.get := by
    have hgroups := congrArg (List.flatMap Item.View.groups) hcontents
    simp only [contents, List.flatMap_map, ← Item.map_get_keys] at hgroups
    rw [map_key_postings, map_key_postings, List.map_flatMap, List.map_flatMap]
    exact hgroups
  have hsung : s'.sung.map s'.syllables.get = s.sung.map s.syllables.get := by
    have hsyllables := congrArg (List.flatMap Item.View.sung) hcontents
    simp only [contents, List.flatMap_map, ← Item.map_get_sung] at hsyllables
    rw [sung_eq, sung_eq, List.map_flatMap, List.map_flatMap]
    exact hsyllables
  obtain ⟨f, hf, hkeys', hgroups⟩ := hs.stocked.groups.exists_renaming hs'.stocked.groups hkeys
  obtain ⟨g, -, hsung', hsyllables⟩ :=
    hs.stocked.syllables.exists_renaming hs'.stocked.syllables hsung
  rw [map_key_postings, map_key_postings] at hkeys'
  rw [sung_eq, sung_eq] at hsung'
  refine ⟨⟨f, g, hf⟩, hgroups, hsyllables, ?_⟩
  refine map_eq_of_zip (by simpa [contents] using congrArg List.length hcontents) fun p hp => ?_
  obtain ⟨hitem, hk⟩ := keys_of_flatMap hcontents (fun x x' hsame => by
    simpa [← Item.map_get_keys] using congrArg (fun v => v.groups.length) hsame) hkeys' p hp
  obtain ⟨-, hg⟩ := keys_of_flatMap hcontents (fun x x' hsame => by
    simpa [← Item.map_get_sung] using congrArg (fun v => v.sung.length) hsame) hsung' p hp
  exact Item.bare_eq_of_whole hitem hk hg

/-- Scores that hold the same are one score under two sets of keys. -/
theorem Sound.exists_renamed {fits fits' : Group → Prop} {s s' : Score} (hs : s.Sound fits)
    (hs' : s'.Sound fits') (hc : s.Charted) (hc' : s'.Charted) (hheader : s'.header = s.header)
    (hcontents : s'.contents = s.contents) : ∃ r, s.Renamed r s' := by
  obtain ⟨r, hgroups, hsyllables, hbare⟩ := hs.exists_bare hs' hcontents
  refine ⟨r, hheader, ?_, hgroups, hsyllables⟩
  unfold Charted at hc'
  rw [hheader] at hc'
  exact items_eq_of_bare hgroups hsyllables 0 .start hc hc' hbare

end Score

end Divisi
