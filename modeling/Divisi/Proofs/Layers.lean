/-
Voice lists by their place: the layers of a score.

A layer names a voice of a staff in one measure. In a sound score a group stands in
one layer, once, and names it; giving a layer another list touches no other layer.
-/
import Divisi.Edit
import Divisi.Proofs.Chorded

namespace Divisi

namespace Placed

variable {s : Score} {p : Placed}

theorem measureAt?_item (h : p ∈ s.placed) : s.measureAt? p.item = some p.measure := by
  obtain ⟨before, after, hitems, hitem, -⟩ := mem_along h
  simp [Score.measureAt?, hitems, hitem]

theorem measure_mem (h : p ∈ s.placed) : p.measure ∈ s.measures := by
  rw [← Score.map_measure_placed]
  exact List.mem_map_of_mem h

theorem ascending_along (item : Nat) (f : InForce) (its : List Item) :
    (along item f its).Pairwise fun p q => p.item < q.item := by
  induction its generalizing item f with
  | nil => exact List.Pairwise.nil
  | cons i rest ih =>
    cases i with
    | change c => exact ih (item + 1) (f.apply c)
    | measure m =>
      refine List.pairwise_cons.mpr ⟨fun q hq => ?_, ih (item + 1) f⟩
      obtain ⟨before, -, -, hitem, -⟩ := mem_along hq
      change item < q.item
      omega

theorem nodup_items (s : Score) : (s.placed.map (·.item)).Nodup :=
  List.pairwise_map.mpr ((ascending_along 0 .start s.items).imp Nat.ne_of_lt)

theorem eq_of_item {q : Placed} (hp : p ∈ s.placed) (hq : q ∈ s.placed) (h : p.item = q.item) :
    p = q :=
  List.inj_on_of_nodup_map (nodup_items s) hp hq h

theorem exists_along (item : Nat) {n : Nat} (f : InForce) {its : List Item} {m : Measure}
    (h : its[n]? = some (.measure m)) : ∃ g, (⟨item + n, g, m⟩ : Placed) ∈ along item f its := by
  induction its generalizing item n f with
  | nil => simp at h
  | cons i rest ih =>
    cases n with
    | zero =>
      simp only [List.getElem?_cons_zero, Option.some.injEq] at h
      subst h
      exact ⟨f, by simp [along]⟩
    | succ n =>
      rw [List.getElem?_cons_succ] at h
      cases i with
      | change c =>
        obtain ⟨g, hg⟩ := ih (item + 1) (f.apply c) h
        exact ⟨g, by simpa [along, Nat.add_assoc, Nat.add_comm 1] using hg⟩
      | measure m' =>
        obtain ⟨g, hg⟩ := ih (item + 1) f h
        exact ⟨g, List.mem_cons_of_mem _ (by rwa [Nat.add_assoc, Nat.add_comm 1] at hg)⟩

theorem exists_of_measureAt? {item : Nat} {m : Measure} (h : s.measureAt? item = some m) :
    ∃ p ∈ s.placed, p.item = item ∧ p.measure = m := by
  unfold Score.measureAt? at h
  split at h
  next m' hm =>
    cases h
    obtain ⟨g, hg⟩ := exists_along 0 .start hm
    exact ⟨_, hg, Nat.zero_add item, rfl⟩
  next => cases h

end Placed

namespace Score

variable {s : Score} {layer other : Layer} {list : List GroupKey}

theorem list?_eq_some : s.list? layer = some list ↔ ∃ m st, s.measureAt? layer.item = some m ∧
    m.stave? layer.staff = some st ∧ st.list? layer.voice = some list := by
  simp only [list?, Option.bind_eq_some_iff]
  constructor
  · rintro ⟨st, ⟨m, hm, hst⟩, hlist⟩
    exact ⟨m, st, hm, hst, hlist⟩
  · rintro ⟨m, st, hm, hst, hlist⟩
    exact ⟨st, ⟨m, hm, hst⟩, hlist⟩

theorem voiceList_eq_ok : s.voiceList layer.item layer.staff layer.voice = .ok list ↔
    s.list? layer = some list := by
  unfold voiceList list?
  cases s.measureAt? layer.item with
  | none => simp
  | some m =>
    simp only [Option.bind_some]
    cases (m.stave? layer.staff).bind (·.list? layer.voice) <;> simp

theorem le_of_list? (h : s.list? layer = some list) : 1 ≤ layer.voice ∧ layer.voice ≤ 3 := by
  obtain ⟨m, st, -, -, hlist⟩ := list?_eq_some.mp h
  exact Stave.le_of_list? hlist

end Score

/-! ## Layers after a change -/

theorem Measure.stave?_modifyStave (m : Measure) (staff : Nat) {f : Stave → Stave}
    (hf : ∀ st, (f st).staff = st.staff) (other : Nat) :
    (m.modifyStave staff f).stave? other =
      if other = staff then (m.stave? staff).map f else m.stave? other := by
  simp only [stave?, modifyStave]
  generalize m.staves = staves
  induction staves with
  | nil => simp
  | cons st rest ih =>
    by_cases hst : st.staff = staff
    · subst hst
      rw [List.findIdx_cons, beq_self_eq_true, cond_true, List.modify_zero_cons, List.find?_cons,
        List.find?_cons, List.find?_cons, hf, beq_self_eq_true]
      by_cases hother : other = st.staff
      · simp [hother]
      · simp [hother, beq_false_of_ne (Ne.symm hother)]
    · rw [List.findIdx_cons, beq_false_of_ne hst, cond_false, List.modify_succ_cons, List.find?_cons,
        List.find?_cons, List.find?_cons, beq_false_of_ne hst, ih]
      by_cases hother : st.staff = other
      · subst hother
        simp [hst]
      · simp [beq_false_of_ne hother]

namespace Score

theorem measureAt?_modifyMeasure (s : Score) (item : Nat) (f : Measure → Measure) (i : Nat) :
    (s.modifyMeasure item f).measureAt? i =
      if i = item then (s.measureAt? item).map f else s.measureAt? i := by
  simp only [measureAt?, modifyMeasure, List.getElem?_modify]
  by_cases h : i = item
  · subst h
    cases s.items[i]? with
    | none => simp
    | some x => cases x <;> simp
  · cases s.items[i]? with
    | none => simp [h]
    | some x => simp [h, Ne.symm h]

/-- Another list for a layer touches no other layer. -/
theorem list?_setVoiceList {s : Score} {layer : Layer} {old : List GroupKey}
    (h : s.list? layer = some old) (new : Option (List GroupKey)) (other : Layer) :
    (s.setVoiceList layer.item layer.staff layer.voice new).list? other =
      if other = layer then new else s.list? other := by
  obtain ⟨m, st, hm, hst, hlist⟩ := list?_eq_some.mp h
  have hv := Stave.le_of_list? hlist
  rw [list?, setVoiceList, measureAt?_modifyMeasure]
  by_cases hitem : other.item = layer.item
  · rw [if_pos hitem, hm, Option.map_some, Option.bind_some, Measure.stave?_modifyStave _ _ (by simp)]
    by_cases hstaff : other.staff = layer.staff
    · rw [if_pos hstaff, hst, Option.map_some, Option.bind_some, Stave.list?_setList hv]
      by_cases hvoice : layer.voice = other.voice
      · rw [if_pos hvoice, if_pos]
        cases other
        cases layer
        simp_all
      · rw [if_neg hvoice, if_neg (fun he => hvoice (by rw [he])), list?, hitem, hm,
          Option.bind_some, hstaff, hst, Option.bind_some]
    · rw [if_neg hstaff, if_neg (fun he => hstaff (by rw [he])), list?, hitem, hm, Option.bind_some]
  · rw [if_neg hitem, if_neg (fun he => hitem (by rw [he])), list?]

end Score

namespace Score.Sound

variable {fits : Group → Prop} {s : Score} {layer other : Layer} {list list' : List GroupKey}
  {k : GroupKey}

theorem get?_of_mem (h : s.Sound fits) (hlist : s.list? layer = some list) (hk : k ∈ list) :
    ∃ g m, s.groups.get? k = some g ∧ s.measureAt? layer.item = some m ∧ g.measure = m.number ∧
      g.staff = layer.staff ∧ g.voice = layer.voice := by
  obtain ⟨m, st, hm, hst, hvoice⟩ := list?_eq_some.mp hlist
  obtain ⟨hst, hstaff⟩ := Measure.mem_of_stave? hst
  obtain ⟨p, hp, -, rfl⟩ := Placed.exists_of_measureAt? hm
  have hposting : (⟨p.measure.number, st.staff, layer.voice, k⟩ : Posting) ∈ s.postings :=
    List.mem_flatMap.mpr ⟨p.measure, Placed.measure_mem hp, List.mem_flatMap.mpr
      ⟨st, hst, Stave.mem_postings.mpr ⟨rfl, rfl, list, hvoice, hk⟩⟩⟩
  obtain ⟨g, hg, hmeasure, hgstaff, hgvoice⟩ := h.stocked.named _ hposting
  exact ⟨g, p.measure, hg, hm, hmeasure, hgstaff.trans hstaff, hgvoice⟩

/-- A group stands in one layer only. -/
theorem layer_unique (h : s.Sound fits) (hlist : s.list? layer = some list) (hk : k ∈ list)
    (hlist' : s.list? other = some list') (hk' : k ∈ list') : layer = other := by
  obtain ⟨g, m, hg, hm, hmeasure, hstaff, hvoice⟩ := h.get?_of_mem hlist hk
  obtain ⟨g', m', hg', hm', hmeasure', hstaff', hvoice'⟩ := h.get?_of_mem hlist' hk'
  cases hg.symm.trans hg'
  obtain ⟨p, hp, hitem, rfl⟩ := Placed.exists_of_measureAt? hm
  obtain ⟨q, hq, hitem', rfl⟩ := Placed.exists_of_measureAt? hm'
  have hpq : p = q := h.measure_eq hp hq (hmeasure.symm.trans hmeasure')
  cases layer
  cases other
  simp_all

theorem list_nodup (h : s.Sound fits) (hlist : s.list? layer = some list) : list.Nodup := by
  obtain ⟨m, st, hm, hst, hvoice⟩ := list?_eq_some.mp hlist
  obtain ⟨p, hp, -, rfl⟩ := Placed.exists_of_measureAt? hm
  refine (h.keys_nodup (Placed.measure_mem hp)).sublist ?_
  rw [Measure.postings, List.map_flatMap, List.flatMap_def]
  refine List.Sublist.trans ?_ (List.sublist_flatten_of_mem
    (List.mem_map_of_mem (Measure.mem_of_stave? hst).1))
  rw [Stave.postings, List.map_flatMap, List.flatMap_def]
  refine List.Sublist.trans ?_ (List.sublist_flatten_of_mem
    (List.mem_map_of_mem (Stave.mem_present.mpr hvoice)))
  simp

end Score.Sound

/-! ## The groups of a chord -/

/-- What a group of a chord is: it takes time, stands in the list that it names, on a
staff that is shown, and begins with the chord. -/
structure Placed.Begins (s : Score) (p : Placed) (c : Chord) (k : GroupKey) (g : Group)
    (list : List GroupKey) : Prop where
  get : s.groups.get? k = some g
  measure : g.measure = p.measure.number
  grace : g.grace = false
  visible : p.inForce.staffVisible g.staff = true
  layer : s.list? ⟨p.item, g.staff, g.voice⟩ = some list
  mem : k ∈ list
  begins : (c.start, Member.group k) ∈ timeline 0 (Chording.voiceBeats s.groups list)

theorem Chord.mem_groups {c : Chord} {k : GroupKey} : k ∈ c.groups ↔ .group k ∈ c.members := by
  simp only [groups, List.mem_filterMap]
  constructor
  · rintro ⟨m, hm, h⟩
    cases m <;> simp_all
  · exact fun h => ⟨_, h, rfl⟩

theorem mem_beginningAt {t : Time} {beats : List Beat} {m : Member} :
    m ∈ beginningAt t beats ↔ (t, m) ∈ timeline 0 beats := by
  simp only [beginningAt, List.mem_map, List.mem_filter, decide_eq_true_eq, Prod.exists]
  constructor
  · rintro ⟨u, m, ⟨h, rfl⟩, rfl⟩
    exact h
  · exact fun h => ⟨t, m, ⟨h, rfl⟩, rfl⟩

theorem mem_of_timeline {t u : Time} {beats : List Beat} {m : Member}
    (h : (u, m) ∈ timeline t beats) : m ∈ beats.map (·.member) := by
  induction beats generalizing t with
  | nil => simp [timeline] at h
  | cons b rest ih =>
    rcases List.mem_cons.mp h with h | h
    · simp [(Prod.mk.inj h).2]
    · simp [ih h]

theorem ascending_timeline {t : Time} {beats : List Beat} (h : ∀ b ∈ beats, 0 < b.duration) :
    (∀ x ∈ timeline t beats, t ≤ x.1) ∧ (timeline t beats).Pairwise fun x y => x.1 < y.1 := by
  induction beats generalizing t with
  | nil => simp [timeline]
  | cons b rest ih =>
    simp only [List.mem_cons, forall_eq_or_imp] at h
    obtain ⟨hle, hasc⟩ := ih (t := t + b.duration) h.2
    simp only [timeline, List.mem_cons, forall_eq_or_imp, List.pairwise_cons]
    refine ⟨⟨le_refl t, fun x hx => ?_⟩, fun x hx => ?_, hasc⟩
    · linarith [hle x hx]
    · linarith [hle x hx]

theorem Placed.voiceBeats_mem {s : Score} {p : Placed} {staff v : Nat} {list : List GroupKey}
    (hp : p ∈ s.placed) (hvisible : p.inForce.staffVisible staff = true)
    (hlist : s.list? ⟨p.item, staff, v⟩ = some list) : Chording.voiceBeats s.groups list ∈
      Chording.streams s.groups s.syllables p.inForce p.measure.staves := by
  obtain ⟨m, st, hm, hst, hlist⟩ := Score.list?_eq_some.mp hlist
  cases (Placed.measureAt?_item hp).symm.trans hm
  obtain ⟨hmem, rfl⟩ : st ∈ p.measure.staves ∧ st.staff = staff := Measure.mem_of_stave? hst
  exact List.mem_flatMap.mpr ⟨st, List.mem_filter.mpr ⟨hmem, hvisible⟩, List.mem_append_left _
    (List.mem_map.mpr ⟨_, Stave.mem_present.mpr hlist, rfl⟩)⟩

namespace Score.Charted

variable {fits : Group → Prop} {s : Score} {p : Placed} {c : Chord} {k l : GroupKey}

theorem begins (h : s.Charted) (hs : s.Sound fits) (hp : p ∈ s.placed)
    (hc : c ∈ p.measure.chords) (hk : k ∈ c.groups) : ∃ g list, p.Begins s c k g list := by
  have haligned := Stream.aligned_of_chords (h p hp)
  rw [Chord.mem_groups, haligned.members c hc] at hk
  obtain ⟨beats, hbeats, hk⟩ := List.mem_flatMap.mp hk
  rw [mem_beginningAt] at hk
  obtain ⟨st, hst, hbeats⟩ := List.mem_flatMap.mp hbeats
  obtain ⟨hst, hvisible⟩ := List.mem_filter.mp hst
  have hm := hs.measures _ (Placed.measure_mem hp)
  rcases List.mem_append.mp hbeats with hbeats | hbeats
  · obtain ⟨⟨v, list⟩, hlist, rfl⟩ := List.mem_map.mp hbeats
    have hlist := Stave.mem_present.mp hlist
    have hmem : k ∈ list ∧ (s.groups.get k).grace = false := by
      simpa [Chording.voiceBeats] using mem_of_timeline hk
    have hlayer : s.list? ⟨p.item, st.staff, v⟩ = some list := Score.list?_eq_some.mpr
      ⟨p.measure, st, Placed.measureAt?_item hp, Measure.stave?_of_mem hm.ascending hst, hlist⟩
    obtain ⟨g, m, hg, hpm, hmeasure, hstaff, hvoice⟩ := hs.get?_of_mem hlayer hmem.1
    rw [Placed.measureAt?_item hp, Option.some.injEq] at hpm
    simp only at hstaff hvoice
    refine ⟨g, list, hg, hpm ▸ hmeasure, ?_, hstaff ▸ hvisible, ?_, hmem.1, hk⟩
    · rw [← Arena.get_of_get? hg]
      exact hmem.2
    · rw [hstaff, hvoice]
      exact hlayer
  · obtain ⟨verse, -, rfl⟩ := List.mem_map.mp hbeats
    have := mem_of_timeline hk
    simp [Chording.verseBeats] at this

theorem begins_unique (h : s.Charted) (hp : p ∈ s.placed) {g g' : Group}
    {list list' : List GroupKey} (hk : p.Begins s c k g list) (hl : p.Begins s c l g' list')
    (hstaff : g.staff = g'.staff) (hvoice : g.voice = g'.voice) :
    k = l := by
  have heq : list = list' := by
    have := hk.layer
    rw [hstaff, hvoice, hl.layer] at this
    exact (Option.some.inj this).symm
  subst heq
  have hstream := Placed.voiceBeats_mem hp hk.visible hk.layer
  obtain ⟨-, hpos, -⟩ := Stream.fills_of_chords (h p hp) _ hstream
  have hasc := (ascending_timeline (t := 0) fun b hb => hpos _ (List.mem_map_of_mem hb)).2
  have hnodup : ((timeline 0 (Chording.voiceBeats s.groups list)).map Prod.fst).Nodup :=
    List.pairwise_map.mpr (hasc.imp ne_of_lt)
  simpa using List.inj_on_of_nodup_map hnodup hk.begins hl.begins rfl

end Score.Charted

end Divisi
