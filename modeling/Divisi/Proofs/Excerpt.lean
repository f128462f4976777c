/-
An excerpt of a score: some of its staffs, up to a barline.

An excerpt has the voices of its staffs under the keys that they have in the whole score,
measure by measure, and nothing else (`Excerpt.score`).
-/
import Divisi.Proofs.Contents

namespace Divisi

/-! ## Parts of an arena -/

namespace Arena

variable {α : Type}

/-- The arena without all values but those of the keys. -/
def restrict (a : Arena α) (keys : List (Key α)) : Arena α :=
  ⟨a.slots.mapIdx fun i x => if ⟨i⟩ ∈ keys then x else none⟩

theorem get?_restrict (a : Arena α) (keys : List (Key α)) (k : Key α) :
    (a.restrict keys).get? k = if k ∈ keys then a.get? k else none := by
  obtain ⟨i⟩ := k
  simp only [get?, restrict, Array.getElem?_mapIdx]
  cases a.slots[i]? <;> simp

theorem Lists.restrict {a : Arena α} {all keys : List (Key α)} (h : a.Lists all)
    (hsub : keys.Sublist all) : (a.restrict keys).Lists keys := by
  refine ⟨h.nodup.sublist hsub, fun k => ?_⟩
  have hall := h.mem_iff k
  simp only [contains, get?_restrict] at hall ⊢
  split
  next hk => simpa [hk] using hall.mp (hsub.subset hk)
  next hk => simp [hk]

end Arena

/-! ## Excerpts -/

/-- The staffs of a score for which `staffs` holds, in the first `length` measures. -/
structure Excerpt where
  whole : Score
  length : Nat
  staffs : Nat → Bool

namespace Excerpt

variable (x : Excerpt)

/-- A stave without its verses. -/
def stave (st : Stave) : Stave := { st with verses := [] }

/-- A measure without its chords, and with staves of the excerpt only. -/
def measure (m : Measure) : Measure :=
  { number := m.number, staves := (m.staves.filter fun st => x.staffs st.staff).map stave }

def measures : List Measure := (x.whole.measures.take x.length).map x.measure

/-- The groups of the excerpt. -/
def keys : List GroupKey := x.measures.flatMap fun m => m.staves.flatMap Stave.keys

/-- The excerpt as a score. -/
def score : Score :=
  { items := x.measures.map .measure, groups := x.whole.groups.restrict x.keys }

/-- How many measures stand before an item that is a measure. -/
def ordinal (item : Nat) : Nat := x.whole.placed.findIdx (·.item == item)

/-- A layer of the whole score is one of the excerpt. -/
def Holds (layer : Layer) : Prop := x.ordinal layer.item < x.length ∧ x.staffs layer.staff = true

/-- Where a layer stands in the excerpt. -/
def layer (layer : Layer) : Layer := { layer with item := x.ordinal layer.item }

end Excerpt

namespace Excerpt

variable {x : Excerpt} {fits : Group → Prop} {n : Nat} {p : Placed} {layer : Layer} {k : GroupKey}
  {list : List GroupKey}

/-! ## Its layers -/

theorem getElem?_measures (hp : x.whole.placed[n]? = some p) (hn : n < x.length) :
    x.measures[n]? = some (x.measure p.measure) := by
  rw [measures, List.getElem?_map, List.getElem?_take_of_lt hn, Score.getElem?_measures hp,
    Option.map_some]

theorem ordinal_item (hp : x.whole.placed[n]? = some p) : x.ordinal p.item = n := by
  obtain ⟨hlt, rfl⟩ := List.getElem?_eq_some_iff.mp hp
  refine (List.findIdx_eq hlt).mpr ⟨by simp, fun j hj => ?_⟩
  have hasc := List.pairwise_iff_getElem.mp (Placed.ascending_along 0 .start x.whole.items)
  have := hasc j n (hj.trans hlt) hlt hj
  simp only [beq_eq_false_iff_ne]
  exact Nat.ne_of_lt this

theorem ordinal_inj {p q : Placed} (hp : p ∈ x.whole.placed) (hq : q ∈ x.whole.placed)
    (h : x.ordinal p.item = x.ordinal q.item) : p = q := by
  obtain ⟨n, hn⟩ := List.getElem?_of_mem hp
  obtain ⟨n', hn'⟩ := List.getElem?_of_mem hq
  rw [ordinal_item hn, ordinal_item hn'] at h
  subst h
  exact Option.some.inj (hn.symm.trans hn')

theorem list?_stave (st : Stave) (v : Nat) : (stave st).list? v = st.list? v := rfl

theorem stave?_measure (m : Measure) (staff : Nat) : (x.measure m).stave? staff =
    if x.staffs staff then (m.stave? staff).map stave else none := by
  have hstaff : ((fun st : Stave => st.staff == staff) ∘ stave) = fun st => st.staff == staff := rfl
  rw [Measure.stave?, measure, List.find?_map, hstaff, List.find?_filter, Measure.stave?]
  induction m.staves with
  | nil => simp
  | cons st rest ih =>
    by_cases heq : st.staff = staff
    · subst heq
      by_cases hst : x.staffs st.staff = true <;> simp_all
    · simpa [heq] using ih

theorem mem_staves_measure {m : Measure} {st' : Stave} : st' ∈ (x.measure m).staves ↔
    ∃ st ∈ m.staves, x.staffs st.staff = true ∧ stave st = st' := by
  simp [measure, and_assoc]

theorem measureAt?_score (hp : x.whole.placed[n]? = some p) (hn : n < x.length) :
    x.score.measureAt? n = some (x.measure p.measure) := by
  rw [Score.measureAt?, score, List.getElem?_map, getElem?_measures hp hn]
  rfl

theorem list?_score (hlist : x.whole.list? layer = some list) (h : x.Holds layer) :
    x.score.list? (x.layer layer) = some list := by
  obtain ⟨m, st, hm, hst, hvoice⟩ := Score.list?_eq_some.mp hlist
  obtain ⟨p, hp, hitem, rfl⟩ := Placed.exists_of_measureAt? hm
  obtain ⟨n, hn⟩ := List.getElem?_of_mem hp
  have hordinal : x.ordinal layer.item = n := hitem ▸ ordinal_item hn
  have hlt : n < x.length := hordinal ▸ h.1
  refine Score.list?_eq_some.mpr ⟨x.measure p.measure, stave st, ?_, ?_, hvoice⟩
  · rw [Excerpt.layer, hordinal]
    exact measureAt?_score hn hlt
  · rw [Excerpt.layer, stave?_measure, if_pos h.2, hst, Option.map_some]

theorem mem_keys (hs : x.whole.Sound fits) : k ∈ x.keys ↔
    ∃ layer list, x.Holds layer ∧ x.whole.list? layer = some list ∧ k ∈ list := by
  simp only [keys, measures, List.mem_flatMap, List.mem_map]
  constructor
  · rintro ⟨-, ⟨m, hm, rfl⟩, st', hst', hk⟩
    obtain ⟨st, hst, hstaff, rfl⟩ := mem_staves_measure.mp hst'
    obtain ⟨⟨v, list⟩, hlist, hk⟩ := List.mem_flatMap.mp hk
    obtain ⟨n, hn⟩ := List.getElem?_of_mem hm
    obtain ⟨hlt, hn⟩ : n < x.length ∧ x.whole.measures[n]? = some m := by
      simpa [List.getElem?_take, and_comm] using hn
    rw [← Score.map_measure_placed, List.getElem?_map] at hn
    obtain ⟨p, hp, rfl⟩ := Option.map_eq_some_iff.mp hn
    have hmem := List.mem_of_getElem? hp
    have hm := hs.measures _ (Placed.measure_mem hmem)
    refine ⟨⟨p.item, st.staff, v⟩, list, ⟨?_, hstaff⟩, Score.list?_eq_some.mpr ⟨p.measure, st,
      Placed.measureAt?_item hmem, Measure.stave?_of_mem hm.ascending hst, ?_⟩, hk⟩
    · rw [ordinal_item hp]
      exact hlt
    · exact Stave.mem_present.mp hlist
  · rintro ⟨layer, list, h, hlist, hk⟩
    obtain ⟨m, st, hm, hst, hvoice⟩ := Score.list?_eq_some.mp hlist
    obtain ⟨p, hp, hitem, rfl⟩ := Placed.exists_of_measureAt? hm
    obtain ⟨n, hn⟩ := List.getElem?_of_mem hp
    have hlt : n < x.length := by
      rw [← ordinal_item hn, hitem]
      exact h.1
    obtain ⟨hst, hstaff⟩ := Measure.mem_of_stave? hst
    refine ⟨_, ⟨p.measure, ?_, rfl⟩, stave st, mem_staves_measure.mpr ⟨st, hst, hstaff ▸ h.2, rfl⟩,
      List.mem_flatMap.mpr ⟨_, Stave.mem_present.mpr hvoice, hk⟩⟩
    refine List.mem_of_getElem? (i := n) ?_
    rw [List.getElem?_take_of_lt hlt, Score.getElem?_measures hn]

/-! ## It is sound -/

theorem measures_score : x.score.measures = x.measures := by
  simp only [Score.measures, score, List.filterMap_map]
  exact List.filterMap_some

theorem keys_measure_sublist (m : Measure) :
    ((x.measure m).staves.flatMap Stave.keys).Sublist (m.staves.flatMap Stave.keys) := by
  rw [measure, List.flatMap_map]
  exact List.Sublist.flatMap List.filter_sublist Stave.keys

theorem keys_sublist : x.keys.Sublist (x.whole.postings.map (·.key)) := by
  have hall : x.whole.postings.map (·.key) =
      x.whole.measures.flatMap fun m => m.staves.flatMap Stave.keys := by
    rw [Score.map_key_postings]
    exact (x.whole.flatMap_measures (g := Item.keys) (fun _ => rfl) fun _ => rfl).symm
  rw [hall, keys, measures, List.flatMap_map]
  exact (List.Sublist.flatMap_right _ fun m _ => keys_measure_sublist m).trans
    (List.Sublist.flatMap (List.take_sublist _ _) _)

theorem map_key_postings_score : x.score.postings.map (·.key) = x.keys := by
  rw [Score.map_key_postings, ← x.score.flatMap_measures (g := Item.keys) (fun _ => rfl) fun _ => rfl,
    measures_score]
  rfl

theorem get?_of_mem_keys (hk : k ∈ x.keys) : x.score.groups.get? k = x.whole.groups.get? k := by
  rw [score, Arena.get?_restrict, if_pos hk]

theorem mem_postings_whole {q : Posting} (hq : q ∈ x.score.postings) : q ∈ x.whole.postings := by
  obtain ⟨m, hm, hq⟩ := List.mem_flatMap.mp hq
  rw [measures_score] at hm
  obtain ⟨m₀, hm₀, rfl⟩ := List.mem_map.mp hm
  obtain ⟨st, hst, hq⟩ := List.mem_flatMap.mp hq
  obtain ⟨st₀, hst₀, -, rfl⟩ := mem_staves_measure.mp hst
  exact List.mem_flatMap.mpr
    ⟨m₀, List.mem_of_mem_take hm₀, List.mem_flatMap.mpr ⟨st₀, hst₀, hq⟩⟩

/-- **An excerpt of a sound score is sound.** -/
theorem sound (hs : x.whole.Sound fits) : x.score.Sound fits := by
  have hkey : ∀ q ∈ x.score.postings, q.key ∈ x.keys := fun q hq =>
    map_key_postings_score ▸ List.mem_map_of_mem hq
  -- an excerpt has neither verses nor tags nor changes
  have hsung : x.score.sung = [] := by
    rw [Score.sung, measures_score, List.flatMap_eq_nil_iff]
    intro m hm
    obtain ⟨m₀, -, rfl⟩ := List.mem_map.mp hm
    rw [Measure.sung, List.flatMap_eq_nil_iff]
    intro st hst
    obtain ⟨st₀, -, -, rfl⟩ := mem_staves_measure.mp hst
    rfl
  refine ⟨⟨?_, fun q hq => ?_, fun k g hg => ?_, ?_, fun k y hy => ?_, by simp [score]⟩,
    fun m hm => ?_, ?_, fun c hc => ?_⟩
  · rw [map_key_postings_score]
    exact hs.stocked.groups.restrict keys_sublist
  · obtain ⟨g, hg, hnames⟩ := hs.stocked.named q (mem_postings_whole hq)
    exact ⟨g, (get?_of_mem_keys (hkey q hq)).trans hg, hnames⟩
  · rw [score, Arena.get?_restrict] at hg
    split at hg
    · exact hs.stocked.fits k g hg
    · cases hg
  · rw [hsung]
    exact Arena.Lists.empty
  · simp [score, Arena.get?] at hy
  · rw [measures_score] at hm
    obtain ⟨m₀, hm₀, rfl⟩ := List.mem_map.mp hm
    have hsound := hs.measures m₀ (List.mem_of_mem_take hm₀)
    refine ⟨fun st hst => ?_, ?_⟩
    · obtain ⟨st₀, hst₀, -, rfl⟩ := mem_staves_measure.mp hst
      exact ⟨(hsound.staves st₀ hst₀).lists, by simp [stave]⟩
    · have hstaffs : (x.measure m₀).staves.map (·.staff) =
          (m₀.staves.filter fun st => x.staffs st.staff).map (·.staff) := by
        rw [measure, List.map_map]
        rfl
      rw [hstaffs]
      exact hsound.ascending.sublist (List.filter_sublist.map _)
  · have hnumbers : x.measures.map (·.number) =
        (x.whole.measures.map (·.number)).take x.length := by
      rw [measures, List.map_map, ← List.map_take]
      rfl
    rw [measures_score, hnumbers, hs.numbered]
    exact List.ext_getElem (by simp [measures]) (by simp)
  · simp [score] at hc

end Excerpt

end Divisi
