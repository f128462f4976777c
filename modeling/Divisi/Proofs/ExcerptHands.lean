/-
The hands of an excerpt, told by what sounds when.

A hand has the groups that begin on its staff at one moment (`Excerpt.Timed`), and the hands stand
in the order of these moments. So two excerpts that are the same under other keys, with the same
settings in force, have the same hands (`Excerpt.hands_eq`), whatever else begins with them
in the scores that they are from.
-/
import Divisi.Proofs.ExcerptWays

namespace Divisi

/-! ## Moments -/

theorem map_snd_timeline (t : Time) (beats : List Beat) :
    (timeline t beats).map Prod.snd = beats.map (·.member) := by
  induction beats generalizing t with
  | nil => rfl
  | cons b rest ih => simp only [timeline, List.map_cons, ih]

theorem timeline_map (g : Member → Member) (t : Time) (beats : List Beat) :
    timeline t (beats.map (Beat.mapMember g)) = (timeline t beats).map (Prod.map id g) := by
  induction beats generalizing t with
  | nil => rfl
  | cons b rest ih =>
    have hduration : (b.mapMember g).duration = b.duration := rfl
    simp only [timeline, List.map_cons, hduration, ih]
    rfl

/-- A group of a voice begins at this moment of the measure. -/
def Score.SoundsAt (s : Score) (layer : Layer) (t : Time) (k : GroupKey) : Prop :=
  ∃ list, s.list? layer = some list ∧
    (t, Member.group k) ∈ timeline 0 (Chording.voiceBeats s.groups list)

namespace Score

variable {fits : Group → Prop} {s s' : Score} {layer other : Layer} {t t' : Time} {k : GroupKey}

theorem SoundsAt.mem (h : s.SoundsAt layer t k) : ∃ list, s.list? layer = some list ∧ k ∈ list := by
  obtain ⟨list, hlist, hk⟩ := h
  have hmem := mem_of_timeline hk
  simp only [Chording.voiceBeats, List.map_map, List.mem_map, List.mem_filter] at hmem
  obtain ⟨k', ⟨hk', -⟩, heq⟩ := hmem
  cases heq
  exact ⟨list, hlist, hk'⟩

/-- A group begins once. -/
theorem SoundsAt.unique (h : s.SoundsAt layer t k) (h' : s.SoundsAt other t' k)
    (hs : s.Sound fits) : layer = other ∧ t = t' := by
  obtain ⟨list, hlist, hk⟩ := h.mem
  obtain ⟨list', hlist', hk'⟩ := h'.mem
  obtain rfl := hs.layer_unique hlist hk hlist' hk'
  obtain ⟨list, hlist, hk⟩ := h
  obtain ⟨list', hlist', hk'⟩ := h'
  cases hlist.symm.trans hlist'
  have hnodup : ((timeline 0 (Chording.voiceBeats s.groups list)).map Prod.snd).Nodup := by
    rw [map_snd_timeline, Chording.voiceBeats, List.map_map]
    exact ((hs.list_nodup hlist).filter _).map fun k k' heq => Member.group.inj heq
  exact ⟨rfl, (Prod.mk.inj (List.inj_on_of_nodup_map hnodup hk hk' rfl)).1⟩

theorem Renamed.soundsAt_iff {r : Renaming} (h : s.Renamed r s') {k' : GroupKey} :
    s'.SoundsAt layer t k' ↔ ∃ k, s.SoundsAt layer t k ∧ r.group k = k' := by
  unfold SoundsAt
  rw [h.list?]
  cases s.list? layer with
  | none => simp
  | some list =>
    simp only [Option.map_some, Option.some.injEq, exists_eq_left']
    rw [Renaming.voiceBeats_eq h.groups, timeline_map]
    simp only [List.mem_map, Prod.exists, Prod.map, id, Prod.mk.injEq]
    constructor
    · rintro ⟨t, m, hm, rfl, heq⟩
      cases m with
      | group k => exact ⟨k, hm, Member.group.inj heq⟩
      | syllable k => cases heq
    · rintro ⟨k, hk, rfl⟩
      exact ⟨t, .group k, hk, rfl, rfl⟩

theorem Charted.mem_groups (hc : s.Charted) {p : Placed} {c : Chord} {staff v : Nat}
    (hp : p ∈ s.placed) (hchord : c ∈ p.measure.chords)
    (hvisible : p.inForce.staffVisible staff = true)
    (hk : s.SoundsAt ⟨p.item, staff, v⟩ c.start k) : k ∈ c.groups := by
  obtain ⟨list, hlist, hk⟩ := hk
  have haligned := Stream.aligned_of_chords (hc p hp)
  rw [Chord.mem_groups, haligned.members c hchord]
  exact List.mem_flatMap.mpr ⟨_, Placed.voiceBeats_mem hp hvisible hlist,
    mem_beginningAt.mpr hk⟩

theorem Charted.exists_chord (hc : s.Charted) {p : Placed} {staff v : Nat} (hp : p ∈ s.placed)
    (hvisible : p.inForce.staffVisible staff = true) (hk : s.SoundsAt ⟨p.item, staff, v⟩ t k) :
    ∃ c ∈ p.measure.chords, c.start = t := by
  obtain ⟨list, hlist, hk⟩ := hk
  have haligned := Stream.aligned_of_chords (hc p hp)
  refine List.mem_map.mp ((haligned.mem_starts t).mpr ⟨_, Placed.voiceBeats_mem hp hvisible hlist, ?_⟩)
  exact List.mem_map_of_mem hk

theorem Charted.soundsAt_of_seated (hc : s.Charted) (hs : s.Sound fits) {p : Placed} {c : Chord}
    {h : Hand} {v : Nat} (hp : p ∈ s.placed) (hseated : h.Seated s p c) (hk : h.voice? v = some k) :
    p.inForce.staffVisible h.staff = true ∧ s.SoundsAt ⟨p.item, h.staff, v⟩ c.start k := by
  obtain ⟨hkc, hplace⟩ := (hseated.voice?_iff v k).mp hk
  obtain ⟨g, list, hbegins⟩ := hc.begins hs hp (List.mem_of_getElem? hseated.chord) hkc
  rw [Hand.placeOf, Arena.get_of_get? hbegins.get, Prod.mk.injEq] at hplace
  obtain ⟨hstaff, rfl⟩ := hplace
  exact ⟨hstaff ▸ hbegins.visible, list, hstaff ▸ hbegins.layer, hbegins.begins⟩

/-- A hand has what begins on its staff with its chord. -/
theorem Charted.voice?_iff_of_seated (hc : s.Charted) (hs : s.Sound fits) {p : Placed} {c : Chord}
    {h : Hand} {v : Nat} (hp : p ∈ s.placed) (hseated : h.Seated s p c)
    (hvisible : p.inForce.staffVisible h.staff = true) :
    h.voice? v = some k ↔ s.SoundsAt ⟨p.item, h.staff, v⟩ c.start k := by
  refine ⟨fun hk => (hc.soundsAt_of_seated hs hp hseated hk).2, fun hk =>
    (hseated.voice?_iff v k).mpr ⟨?_, ?_⟩⟩
  · exact hc.mem_groups hp (List.mem_of_getElem? hseated.chord) hvisible hk
  · obtain ⟨list, hlist, hmem⟩ := hk.mem
    obtain ⟨g, -, hg, -, -, hstaff, hvoice⟩ := hs.get?_of_mem hlist hmem
    rw [Hand.placeOf, Arena.get_of_get? hg, hstaff, hvoice]

theorem Sound.number_placed (hs : s.Sound fits) {p : Placed} {n : Nat} (hn : s.placed[n]? = some p) :
    p.measure.number = n + 1 := by
  have hlength : n < s.measures.length := by
    rw [← map_measure_placed, List.length_map]
    exact (List.getElem?_eq_some_iff.mp hn).1
  have hnumber : (s.measures.map (·.number))[n]? = some (n + 1) := by
    rw [hs.numbered, List.getElem?_range' hlength]
    simp [Nat.add_comm]
  rw [← map_measure_placed, List.map_map, List.getElem?_map, hn] at hnumber
  exact Option.some.inj hnumber

end Score

namespace Excerpt

variable {x x' : Excerpt} {fits fits' : Group → Prop} {l l' : Layout} {h h' : Hand} {n : Nat}
  {p : Placed} {layer : Layer} {list : List GroupKey} {k : GroupKey} {t t' : Time} {r : Renaming}

/-! ## What sounds in an excerpt -/

theorem list?_score_eq_some (hlist : x.score.list? layer = some list) : ∃ p,
    x.whole.placed[layer.item]? = some p ∧ layer.item < x.length ∧ x.staffs layer.staff = true ∧
      x.whole.list? ⟨p.item, layer.staff, layer.voice⟩ = some list := by
  obtain ⟨m, st, hm, hst, hvoice⟩ := Score.list?_eq_some.mp hlist
  have hmeasure : x.measures[layer.item]? = some m := by
    simp only [Score.measureAt?, score, List.getElem?_map] at hm
    cases hat : x.measures[layer.item]? with
    | none => simp [hat] at hm
    | some m' =>
      simp only [hat, Option.map_some, Option.some.injEq] at hm
      rw [hm]
  rw [measures, List.getElem?_map] at hmeasure
  obtain ⟨m₀, hm₀, rfl⟩ := Option.map_eq_some_iff.mp hmeasure
  obtain ⟨hlt, hm₀⟩ : layer.item < x.length ∧ x.whole.measures[layer.item]? = some m₀ := by
    simpa [List.getElem?_take, and_comm] using hm₀
  rw [← Score.map_measure_placed, List.getElem?_map] at hm₀
  obtain ⟨p, hp, rfl⟩ := Option.map_eq_some_iff.mp hm₀
  rw [stave?_measure] at hst
  split at hst
  next hstaff =>
    obtain ⟨st₀, hst₀, rfl⟩ := Option.map_eq_some_iff.mp hst
    exact ⟨p, hp, hlt, hstaff, Score.list?_eq_some.mpr
      ⟨p.measure, st₀, Placed.measureAt?_item (List.mem_of_getElem? hp), hst₀, hvoice⟩⟩
  next => cases hst

theorem length_measures (x : Excerpt) :
    x.measures.length = min x.length x.whole.placed.length := by
  rw [measures, List.length_map, List.length_take, ← Score.map_measure_placed, List.length_map]

/-- What sounds in the excerpt sounds in the whole score. -/
theorem soundsAt_iff (hs : x.whole.Sound fits) (hp : x.whole.placed[n]? = some p)
    (hn : n < x.length) {staff v : Nat} (hstaff : x.staffs staff = true) :
    x.score.SoundsAt ⟨n, staff, v⟩ t k ↔ x.whole.SoundsAt ⟨p.item, staff, v⟩ t k := by
  have hlayer : x.layer ⟨p.item, staff, v⟩ = ⟨n, staff, v⟩ := by rw [Excerpt.layer, ordinal_item hp]
  have hholds : x.Holds ⟨p.item, staff, v⟩ := by
    refine ⟨?_, hstaff⟩
    rw [ordinal_item hp]
    exact hn
  have hbeats : ∀ {list}, x.whole.list? ⟨p.item, staff, v⟩ = some list →
      Chording.voiceBeats x.score.groups list = Chording.voiceBeats x.whole.groups list := by
    intro list hlist
    have hkeys : ∀ k ∈ list, k ∈ x.keys := fun k hk => (fits_whole hs _ list k hlist hk).mpr hholds
    rw [Chording.voiceBeats, Chording.voiceBeats, filter_grace hkeys]
    refine List.map_congr_left fun k hk => ?_
    rw [of_whole.get (hkeys k (List.mem_of_mem_filter hk))]
  constructor
  · rintro ⟨list, hlist, hk⟩
    obtain ⟨q, hq, -, -, hwhole⟩ := list?_score_eq_some hlist
    cases hp.symm.trans hq
    exact ⟨list, hwhole, hbeats hwhole ▸ hk⟩
  · rintro ⟨list, hlist, hk⟩
    exact ⟨list, hlayer ▸ list?_score hlist hholds, (hbeats hlist).symm ▸ hk⟩

/-! ## The moment of a hand -/

/-- The hand has what begins on its staff at moment `t`. -/
structure Timed (x : Excerpt) (h : Hand) (t : Time) : Prop where
  inside : h.item < x.length ∧ x.staffs h.staff = true
  placed : ∃ p, x.whole.placed[h.item]? = some p ∧ p.inForce.staffVisible h.staff = true ∧
    h.request = p.inForce.request h.staff
  measure : h.measure = h.item + 1
  chord : h.chord = 0
  sounds : ∃ v k, h.voice? v = some k
  voice?_iff : ∀ v k, h.voice? v = some k ↔ x.score.SoundsAt ⟨h.item, h.staff, v⟩ t k

theorem Timed.time_unique (ht : x.Timed h t) (ht' : x.Timed h t') (hs : x.whole.Sound fits) :
    t = t' := by
  obtain ⟨v, k, hk⟩ := ht.sounds
  exact (((ht.voice?_iff v k).mp hk).unique ((ht'.voice?_iff v k).mp hk) (sound hs)).2

theorem Timed.unique (ht : x.Timed h t) (ht' : x.Timed h' t) (hitem : h'.item = h.item)
    (hstaff : h'.staff = h.staff) : h' = h := by
  have hvoice : ∀ v, h'.voice? v = h.voice? v := fun v => Option.ext fun k => by
    rw [ht.voice?_iff, ht'.voice?_iff, hitem, hstaff]
  have hvoices : h'.voices = h.voices := PerVoice.ext_join hvoice
  obtain ⟨p, hp, -, hrequest⟩ := ht.placed
  obtain ⟨p', hp', -, hrequest'⟩ := ht'.placed
  rw [hitem, hp] at hp'
  cases hp'
  rw [hstaff] at hrequest'
  have hmeasure : h'.measure = h.measure := by rw [ht.measure, ht'.measure, hitem]
  have hchord : h'.chord = h.chord := by rw [ht.chord, ht'.chord]
  obtain ⟨item, measure, chord, staff, voices, request⟩ := h
  obtain ⟨item', measure', chord', staff', voices', request'⟩ := h'
  simp only at hitem hstaff hmeasure hchord hvoices hrequest hrequest'
  rw [hitem, hstaff, hmeasure, hchord, hvoices, hrequest', hrequest]

/-- A hand of the excerpt has what begins on its staff with its chord. -/
theorem timed_of_seated (hs : x.whole.Sound fits) (hc : x.whole.Charted) {c : Chord}
    (hp : p ∈ x.whole.placed) (hseated : h.Seated x.whole p c) (hsounds : ∃ v k, h.voice? v = some k)
    (hholds : x.holds h = true) : x.Timed (x.hand h) c.start := by
  obtain ⟨n, hn⟩ := List.getElem?_of_mem hp
  obtain ⟨hlt, hstaff⟩ : x.ordinal h.item < x.length ∧ x.staffs h.staff = true := by
    simpa [holds] using hholds
  have hitem : (x.hand h).item = n := by
    rw [hand, hseated.item, ordinal_item hn]
  rw [hseated.item, ordinal_item hn] at hlt
  obtain ⟨v₀, k₀, hk₀⟩ := hsounds
  have hvisible := (hc.soundsAt_of_seated hs hp hseated hk₀).1
  refine ⟨⟨hitem ▸ hlt, hstaff⟩, ⟨p, hitem ▸ hn, hvisible, hseated.request⟩, ?_, rfl,
    ⟨v₀, k₀, hk₀⟩, fun v k => ?_⟩
  · rw [hitem, ← hs.number_placed hn]
    exact hseated.measure
  · rw [hitem]
    exact (hc.voice?_iff_of_seated hs hp hseated hvisible).trans (soundsAt_iff hs hn hlt hstaff).symm

theorem exists_timed (hl : l.LaidOut x.whole) (hs : x.whole.Sound fits) (hc : x.whole.Charted)
    (hh : h ∈ x.hands l.hands) : ∃ t, x.Timed h t := by
  obtain ⟨h₀, hh₀, rfl⟩ := List.mem_map.mp hh
  obtain ⟨hh₀, hholds⟩ := List.mem_filter.mp hh₀
  obtain ⟨p, hp, c, hseated⟩ := hl.seated h₀ hh₀
  exact ⟨_, timed_of_seated hs hc hp hseated (hl.sounds h₀ hh₀) hholds⟩

theorem exists_of_soundsAt (hl : l.LaidOut x.whole) (hs : x.whole.Sound fits)
    (hc : x.whole.Charted) (hp : x.whole.placed[layer.item]? = some p)
    (hvisible : p.inForce.staffVisible layer.staff = true) (hk : x.score.SoundsAt layer t k) :
    ∃ h ∈ x.hands l.hands, x.Timed h t ∧ h.item = layer.item ∧ h.staff = layer.staff := by
  have hmem := List.mem_of_getElem? hp
  obtain ⟨list, hlist, hkl⟩ := hk.mem
  obtain ⟨q, hq, hlt, hstaff, hwhole⟩ := list?_score_eq_some hlist
  cases hp.symm.trans hq
  have hsound := (soundsAt_iff hs hp hlt hstaff).mp hk
  obtain ⟨c, hchord, hstart⟩ := hc.exists_chord hmem hvisible hsound
  obtain ⟨h, hh, hv⟩ := hl.complete p hmem c hchord k
    (hc.mem_groups hmem hchord hvisible (hstart ▸ hsound))
  obtain ⟨p', hp', c', hseated⟩ := hl.seated h hh
  have hholds : x.holds h = true := (mem_keys_iff hl hs hc hh hv).mp
    ((mem_keys hs).mpr ⟨⟨p.item, layer.staff, layer.voice⟩, list,
      ⟨(ordinal_item hp).symm ▸ hlt, hstaff⟩, hwhole, hkl⟩)
  have htimed := timed_of_seated hs hc hp' hseated (hl.sounds h hh) hholds
  obtain ⟨hlayer, rfl⟩ := ((htimed.voice?_iff _ k).mp hv).unique hk (sound hs)
  exact ⟨x.hand h, List.mem_map_of_mem (List.mem_filter.mpr ⟨hh, hholds⟩), htimed,
    congrArg Layer.item hlayer, congrArg Layer.staff hlayer⟩

/-- **The hands of an excerpt** are what begins on a staff at a moment. -/
theorem mem_hands_iff (hl : l.LaidOut x.whole) (hs : x.whole.Sound fits) (hc : x.whole.Charted) :
    h ∈ x.hands l.hands ↔ ∃ t, x.Timed h t := by
  refine ⟨exists_timed hl hs hc, fun ⟨t, ht⟩ => ?_⟩
  obtain ⟨v, k, hk⟩ := ht.sounds
  obtain ⟨p, hp, hvisible, -⟩ := ht.placed
  obtain ⟨h', hh', ht', hitem, hstaff⟩ :=
    exists_of_soundsAt hl hs hc hp hvisible ((ht.voice?_iff v k).mp hk)
  exact ht.unique ht' hitem hstaff ▸ hh'

/-! ## The order of hands -/

/-- One hand comes before another: in time, and from the first staff down. -/
def Earlier (x : Excerpt) (h h' : Hand) : Prop := ∃ t t', x.Timed h t ∧ x.Timed h' t' ∧
  (h.item < h'.item ∨ h.item = h'.item ∧ (t < t' ∨ t = t' ∧ h.staff < h'.staff))

theorem not_earlier_of_earlier (hs : x.whole.Sound fits) (he : x.Earlier h h') :
    ¬x.Earlier h' h := by
  rintro ⟨u', u, hu', hu, he'⟩
  obtain ⟨t, t', ht, ht', he⟩ := he
  cases ht.time_unique hu hs
  cases ht'.time_unique hu' hs
  rcases he with he | ⟨heq, hlt | ⟨rfl, hlt⟩⟩ <;> rcases he' with he' | ⟨heq', hlt' | ⟨heq'', hlt'⟩⟩
  all_goals first
    | omega
    | exact lt_asymm hlt hlt'
    | exact absurd hlt (heq'' ▸ lt_irrefl _)
    | exact absurd hlt' (lt_irrefl _)

theorem ordinal_lt {q : Placed} (hp : p ∈ x.whole.placed) (hq : q ∈ x.whole.placed)
    (hlt : p.item < q.item) : x.ordinal p.item < x.ordinal q.item := by
  obtain ⟨i, hi⟩ := List.getElem?_of_mem hp
  obtain ⟨j, hj⟩ := List.getElem?_of_mem hq
  rw [ordinal_item hi, ordinal_item hj]
  exact lt_of_pairwise (Placed.ascending_along 0 .start x.whole.items) (Nat.lt_asymm hlt)
    (fun heq => Nat.ne_of_lt hlt (congrArg Placed.item heq)) hi hj

theorem pairwise_earlier (hl : l.LaidOut x.whole) (hs : x.whole.Sound fits)
    (hc : x.whole.Charted) : (x.hands l.hands).Pairwise x.Earlier := by
  refine List.pairwise_map.mpr ((hl.ordered.sublist List.filter_sublist).imp_of_mem ?_)
  intro h h' hh hh' hbefore
  obtain ⟨hh, hholds⟩ := List.mem_filter.mp hh
  obtain ⟨hh', hholds'⟩ := List.mem_filter.mp hh'
  obtain ⟨p, hp, c, hseated⟩ := hl.seated h hh
  obtain ⟨p', hp', c', hseated'⟩ := hl.seated h' hh'
  refine ⟨_, _, timed_of_seated hs hc hp hseated (hl.sounds h hh) hholds,
    timed_of_seated hs hc hp' hseated' (hl.sounds h' hh') hholds', ?_⟩
  have hitem := hseated.item
  have hitem' := hseated'.item
  rcases hbefore with hlt | ⟨heq, hbefore⟩
  · left
    rw [hand, hand, hitem, hitem']
    exact ordinal_lt hp hp' (by omega)
  right
  obtain rfl : p = p' := Placed.eq_of_item hp hp' (by omega)
  refine ⟨by rw [hand, hand, heq], ?_⟩
  have hchord := hseated.chord
  have hchord' := hseated'.chord
  rcases hbefore with hlt | ⟨heq, hlt⟩
  · left
    have hasc : p.measure.chords.Pairwise fun c c' => c.start < c'.start :=
      List.pairwise_map.mp (Stream.aligned_of_chords (hc p hp)).ascending
    exact (rel_of_pairwise hasc hchord hchord' hlt :)
  · right
    rw [heq] at hchord
    cases hchord.symm.trans hchord'
    exact ⟨rfl, hlt⟩

/-! ## Two excerpts -/

/-- The excerpts are of the same staffs, as long, and the same settings are in force in them. -/
structure SameSettings (x x' : Excerpt) : Prop where
  length : x'.length = x.length
  staffs : x'.staffs = x.staffs
  inForce : ∀ n p p', x.whole.placed[n]? = some p → x'.whole.placed[n]? = some p' → n < x.length →
    ∀ staff, x.staffs staff = true → p'.inForce.staffVisible staff = p.inForce.staffVisible staff ∧
      p'.inForce.request staff = p.inForce.request staff

theorem Timed.renamed (ht : x.Timed h t) (hr : x.score.Renamed r x'.score)
    (hsame : x.SameSettings x') : x'.Timed (r.hand h) t := by
  have hitem : (r.hand h).item = h.item := rfl
  have hstaff : (r.hand h).staff = h.staff := rfl
  obtain ⟨hlt, hkept⟩ := ht.inside
  obtain ⟨p, hp, hvisible, hrequest⟩ := ht.placed
  obtain ⟨p', hp'⟩ : ∃ p', x'.whole.placed[h.item]? = some p' := by
    have hlength := congrArg List.length hr.measures
    rw [measures_score, measures_score, List.length_map, length_measures, length_measures,
      hsame.length] at hlength
    have := (List.getElem?_eq_some_iff.mp hp).1
    exact ⟨_, List.getElem?_eq_getElem (by omega)⟩
  obtain ⟨hvisible', hrequest'⟩ := hsame.inForce _ p p' hp hp' hlt h.staff hkept
  refine ⟨?_, ⟨p', hp', hvisible'.trans hvisible, hrequest.trans hrequest'.symm⟩, ht.measure,
    ht.chord, ?_, fun v k' => ?_⟩
  · rw [hitem, hstaff, hsame.length, hsame.staffs]
    exact ht.inside
  · obtain ⟨v, k, hk⟩ := ht.sounds
    exact ⟨v, r.group k, by rw [Renaming.voice?_hand, hk, Option.map_some]⟩
  · rw [hitem, hstaff, hr.soundsAt_iff, Renaming.voice?_hand, Option.map_eq_some_iff]
    simp only [ht.voice?_iff]

/-- **Excerpts that are the same have the same hands**, in the same order. -/
theorem hands_eq (hl : l.LaidOut x.whole) (hs : x.whole.Sound fits) (hc : x.whole.Charted)
    (hl' : l'.LaidOut x'.whole) (hs' : x'.whole.Sound fits') (hc' : x'.whole.Charted)
    (hr : x.score.Renamed r x'.score) (hsame : x.SameSettings x') :
    (x.hands l.hands).map r.hand = x'.hands l'.hands := by
  have : Std.Antisymm x'.Earlier := ⟨fun _ _ he he' => absurd he' (not_earlier_of_earlier hs' he)⟩
  have : Std.Irrefl x'.Earlier := ⟨fun _ he => not_earlier_of_earlier hs' he he⟩
  have hpairs : ((x.hands l.hands).map r.hand).Pairwise x'.Earlier := by
    refine List.pairwise_map.mpr ((pairwise_earlier hl hs hc).imp ?_)
    rintro h h' ⟨t, t', ht, ht', he⟩
    exact ⟨t, t', ht.renamed hr hsame, ht'.renamed hr hsame, he⟩
  refine hpairs.eq_of_mem_iff (pairwise_earlier hl' hs' hc') fun h' => ?_
  rw [mem_hands_iff hl' hs' hc', List.mem_map]
  constructor
  · rintro ⟨h, hh, rfl⟩
    exact ((mem_hands_iff hl hs hc).mp hh).imp fun _ ht => ht.renamed hr hsame
  · rintro ⟨t, ht'⟩
    -- a hand at the same moment, which becomes this one
    obtain ⟨v, k', hk'⟩ := ht'.sounds
    obtain ⟨k, hk, -⟩ := hr.soundsAt_iff.mp ((ht'.voice?_iff v k').mp hk')
    obtain ⟨list, hlist, -⟩ := hk.mem
    obtain ⟨p, hp, hlt, hstaff, -⟩ := list?_score_eq_some hlist
    obtain ⟨p', hp', hvisible, -⟩ := ht'.placed
    rw [(hsame.inForce _ p p' hp hp' hlt _ hstaff).1] at hvisible
    obtain ⟨h, hh, ht, hitem, hsame'⟩ := exists_of_soundsAt hl hs hc hp hvisible hk
    exact ⟨h, hh, ht'.unique (ht.renamed hr hsame) hitem hsame'⟩

end Excerpt

end Divisi
