/-
Combining scores that have an excerpt in common.

Where two scores have the same voices on some staffs up to a barline, with the same settings in
force, and nothing leads on over that barline, combining does the same to these voices
(`Excerpt.parts_combined`).
-/
import Divisi.Proofs.ExcerptHands
import Divisi.Proofs.ExcerptPlans

namespace Divisi

namespace Excerpt

variable {x x' : Excerpt} {fits fits' : Group → Prop} {s u u' : Score} {r : Renaming}

/-! ## The voices of an excerpt -/

/-- The voices of an excerpt with their groups, measure by measure. -/
def parts (x : Excerpt) : List (List Stave.View) :=
  x.measures.map fun m => m.staves.map (Stave.whole x.whole.groups {})

/-- The voices of an excerpt, read off what the whole score holds. -/
theorem parts_eq (x : Excerpt) : x.parts =
    ((x.whole.contents.filterMap Item.View.staves?).take x.length).map fun staves =>
      (staves.filter fun st => x.staffs st.staff).map Stave.View.unsung := by
  rw [← Score.map_whole_measures, ← List.map_take, List.map_map, parts, measures, List.map_map]
  refine List.map_congr_left fun m _ => ?_
  simp only [Function.comp_apply, measure, List.map_map, List.filter_map]
  rfl

theorem whole_staves {m : Measure} (hm : m ∈ x.measures) :
    m.staves.map (Stave.whole x.score.groups {}) = m.staves.map (Stave.whole x.whole.groups {}) := by
  refine List.map_congr_left fun st hst => ?_
  have hkeys : ∀ v ∈ st.present, v.2.map x.score.groups.get = v.2.map x.whole.groups.get := by
    intro v hv
    refine List.map_congr_left fun k hk => of_whole.get ?_
    exact List.mem_flatMap.mpr ⟨m, hm, List.mem_flatMap.mpr ⟨st, hst,
      List.mem_flatMap.mpr ⟨v, hv, hk⟩⟩⟩
  simp only [Stave.whole, Stave.view, Bool.false_eq_true, if_false]
  rw [List.map_congr_left fun v hv => by rw [hkeys v hv]]

theorem contents_score (hs : x.whole.Sound fits) : x.score.contents =
    List.zipWith Item.View.measure (List.range' 1 x.parts.length) x.parts := by
  have hnumbers : x.measures.map (·.number) = List.range' 1 x.parts.length := by
    have hnumbered := (sound (x := x) hs).numbered
    rw [measures_score] at hnumbered
    rw [hnumbered, parts, List.length_map]
  rw [← hnumbers, parts, List.zipWith_map, List.zipWith_self, Score.contents, score, List.map_map]
  exact List.map_congr_left fun m hm => congrArg (Item.View.measure m.number) (whole_staves hm)

/-- Excerpts with the same voices are one score under two sets of keys. -/
theorem exists_renamed (hs : x.whole.Sound fits) (hs' : x'.whole.Sound fits')
    (hparts : x'.parts = x.parts) : ∃ r, x.score.Renamed r x'.score := by
  have hcontents : x'.score.contents = x.score.contents := by
    rw [contents_score hs, contents_score hs', hparts]
  obtain ⟨r, hgroups, hsyllables, hbare⟩ := (sound (x := x) hs).exists_bare (sound (x := x') hs') hcontents
  have hsame : ∀ x : Excerpt, x.score.items.map Item.bare = x.score.items := by
    intro x
    simp only [score, measures, List.map_map]
    rfl
  have hchords : ∀ i ∈ x.score.items, (r.item i).bare = r.item i := by
    intro i hi
    simp only [score, measures, List.map_map, List.mem_map] at hi
    obtain ⟨m, -, rfl⟩ := hi
    rfl
  refine ⟨r, rfl, ?_, hgroups, hsyllables⟩
  rw [← hsame x', hbare]
  exact List.map_congr_left hchords

/-! ## What a score has in the place of another -/

/-- The excerpt of another score. -/
def of (x : Excerpt) (s : Score) : Excerpt := { x with whole := s }

theorem frame_of (h : s.frame = x.whole.frame) : (x.of s).score.frame = x.score.frame := by
  have hmeasure : ∀ m, (x.measure m).mapLists (fun _ => []) =
      x.measure (m.mapLists fun _ => []) := by
    intro m
    simp only [Measure.mapLists, measure, List.map_map, List.filter_map]
    rfl
  have hmeasures : ∀ s, ((x.of s).measures.map (Measure.mapLists fun _ => [])) =
      ((s.measures.map (Measure.mapLists fun _ => [])).take x.length).map x.measure := by
    intro s
    simp only [measures, of, List.map_map, ← List.map_take]
    exact List.map_congr_left fun m _ => hmeasure m
  have hsame : (x.of s).measures.map (Measure.mapLists fun _ => []) =
      (x.of x.whole).measures.map (Measure.mapLists fun _ => []) := by
    rw [hmeasures, hmeasures, Score.measures_of_frame h]
  have hitems := congrArg (List.map Item.measure) hsame
  simp only [List.map_map] at hitems
  simp only [Score.frame, score, List.map_map]
  exact congrArg (fun items => ({ items } : Score)) hitems

theorem exists_of_list? (h : s.frame = x.whole.frame) {layer : Layer} {list : List GroupKey}
    (hlist : (x.of s).score.list? layer = some list) :
    ∃ other, x.Holds other ∧ x.layer other = layer ∧ s.list? other = some list := by
  obtain ⟨p, hp, hlt, hstaff, hwhole⟩ := list?_score_eq_some hlist
  obtain ⟨q, hq, hitem⟩ : ∃ q, x.whole.placed[layer.item]? = some q ∧ q.item = p.item := by
    have hplaced := congrArg (·[layer.item]?) (Score.placed_of_frame h)
    simp only [List.getElem?_map] at hplaced
    rw [show s.placed[layer.item]? = some p from hp, Option.map_some, eq_comm,
      Option.map_eq_some_iff] at hplaced
    obtain ⟨q, hq, heq⟩ := hplaced
    have hitem : (Placed.mapLists (fun _ => []) q).item = (Placed.mapLists (fun _ => []) p).item :=
      congrArg Placed.item heq
    exact ⟨q, hq, hitem⟩
  have hordinal : x.ordinal p.item = layer.item := hitem ▸ ordinal_item hq
  exact ⟨⟨p.item, layer.staff, layer.voice⟩, ⟨hordinal.symm ▸ hlt, hstaff⟩,
    by rw [Excerpt.layer, hordinal], hwhole⟩

namespace Of

theorem list? (ho : x.Of s u) (layer : Layer) : u.list? layer = (x.of s).score.list? layer := by
  cases hlist : (x.of s).score.list? layer with
  | some list =>
    obtain ⟨other, hholds, rfl, hwhole⟩ := exists_of_list? ho.frame hlist
    exact ho.lists other list hholds hwhole
  | none =>
    have hsome := Score.isSome_list?_of_frame (ho.excerpt.trans (frame_of ho.frame).symm) layer
    rwa [hlist, Option.isSome_none, Option.isSome_eq_false_iff, Option.isNone_iff_eq_none] at hsome

theorem ascending (ho : x.Of s u) (hs : x.whole.Sound fits) :
    ∀ m ∈ u.measures, (m.staves.map (·.staff)).Pairwise (· < ·) := by
  intro m hm
  have hmem := List.mem_map_of_mem (f := Measure.mapLists fun _ => []) hm
  rw [Score.measures_of_frame ho.excerpt] at hmem
  obtain ⟨m₀, hm₀, heq⟩ := List.mem_map.mp hmem
  rw [← Measure.map_staff_of_frame heq]
  exact ((sound hs).measures m₀ hm₀).ascending

theorem measures (ho : x.Of s u) (hs : x.whole.Sound fits) : u.measures = (x.of s).measures := by
  have hframe : (x.of s).score.frame = u.frame := (frame_of ho.frame).trans ho.excerpt.symm
  have hitems := Score.mapLists_items_congr (f := id) hframe (ho.ascending hs) fun layer => by
    rw [ho.list?]
  rw [show Item.mapLists id = id from funext Item.mapLists_id, List.map_id, List.map_id] at hitems
  rw [← measures_score, Score.measures, Score.measures, hitems]

theorem parts (ho : x.Of s u) (hf : x.Fits s) (hs : x.whole.Sound fits) :
    (x.of s).parts = u.measures.map fun m => m.staves.map (Stave.whole u.groups {}) := by
  have hasc := ho.ascending hs
  rw [ho.measures hs] at hasc ⊢
  refine List.map_congr_left fun m hm => List.map_congr_left fun st hst => ?_
  obtain ⟨n, hn⟩ := List.getElem?_of_mem hm
  have hget : ∀ v ∈ st.present, v.2.map s.groups.get = v.2.map u.groups.get := by
    rintro ⟨v, list⟩ hv
    have hlist : (x.of s).score.list? ⟨n, st.staff, v⟩ = some list := by
      refine Score.list?_eq_some.mpr ⟨m, st, ?_, Measure.stave?_of_mem (hasc m hm) hst,
        Stave.mem_present.mp hv⟩
      rw [Score.measureAt?, score, List.getElem?_map, hn]
      rfl
    obtain ⟨other, hholds, -, hwhole⟩ := exists_of_list? ho.frame hlist
    exact List.map_congr_left fun k hk => (ho.get ((hf other list k hwhole hk).mpr hholds)).symm
  simp only [Stave.whole, Stave.view, Bool.false_eq_true, if_false]
  rw [List.map_congr_left fun v hv => by rw [show v.2.map (x.of s).whole.groups.get = _ from hget v hv]]

end Of

/-! ## Combining -/

theorem parts_renamed (hr : u.Renamed r u') :
    (u'.measures.map fun m => m.staves.map (Stave.whole u'.groups {})) =
      u.measures.map fun m => m.staves.map (Stave.whole u.groups {}) := by
  have hsyllable : ({} : Arena Syllable).get = fun _ => default := funext fun k => by
    simp [Arena.get, Arena.get?]
  rw [hr.measures, List.map_map]
  refine List.map_congr_left fun m _ => ?_
  simp only [Function.comp_apply, Renaming.measure, List.map_map]
  refine List.map_congr_left fun st _ => ?_
  simp only [Function.comp_apply, Stave.whole, Stave.view, Renaming.present_stave, List.map_map,
    Function.comp_def, hr.get]
  simp only [Renaming.stave, List.map_map, Function.comp_def, hsyllable]

/-- **Combining is the same for the same voices.** -/
theorem parts_combined (hs : x.whole.Sound fits) (hc : x.whole.Charted) (hclose : x.Closes)
    (hs' : x'.whole.Sound fits') (hc' : x'.whole.Charted) (hclose' : x'.Closes)
    (hsame : x.SameSettings x') (hparts : x'.parts = x.parts) : ∃ c c',
      x.whole.combineVoices = .ok c ∧ x'.whole.combineVoices = .ok c' ∧
        c.score.frame = x.whole.frame ∧ c'.score.frame = x'.whole.frame ∧
        (x'.of c'.score).parts = (x.of c.score).parts := by
  obtain ⟨c, hcombine, hof⟩ := hc.combined hs
  obtain ⟨c', hcombine', hof'⟩ := hc'.combined hs'
  obtain ⟨hf, verdicts, u, hjudge, hu, ho⟩ := hof.of_excerpt hs hc hclose hcombine
  obtain ⟨hf', verdicts', u', hjudge', hu', ho'⟩ := hof'.of_excerpt hs' hc' hclose' hcombine'
  obtain ⟨r, hr⟩ := exists_renamed hs hs' hparts
  -- both are laid out alike, hence judged, planned and carried out alike
  have hlayout : x'.layout c'.layout = r.layout (x.layout c.layout) := by
    have hhands := hands_eq hof.laidOut hs hc hof'.laidOut hs' hc' hr hsame
    simp only [Excerpt.layout, Renaming.layout, ← hhands, hr.lines]
  rw [hlayout, hr.judge] at hjudge'
  cases hjudge.symm.trans hjudge'
  rw [hlayout, hr.plan] at hu'
  obtain ⟨u'', hu'', hrenamed⟩ := hr.perform hu
  cases hu''.symm.trans hu'
  exact ⟨c, c', hcombine, hcombine', ho.frame, ho'.frame,
    by rw [ho.parts hf hs, ho'.parts hf' hs', parts_renamed hrenamed]⟩

end Excerpt

end Divisi
