/-
What a loaded score holds of its description.

Loading only ever adds: a group or a syllable once put into its arena stays what it was
(`Score.Grows`), and the items of a score half loaded are the first of the whole one
(`Score.load_split`). So each list of the score holds, key by key, what was written for its voice
or its verse (`Measure.Transcribes`), read with the time signature that was in force when loading
came to the measure.
-/
import Divisi.Proofs.Layers
import Divisi.Proofs.Loaded

namespace Divisi

/-- What a carried map makes of each element is related to it in the state at the end, if it was
in the state just after it and nothing later undoes that. -/
theorem mapCarrying_forall₂ {σ α β ε : Type} {f : σ → α → Except ε (σ × β)} {G : σ → σ → Prop}
    {R : σ → α → β → Prop} (hrefl : ∀ s, G s s) (htrans : ∀ {s t u}, G s t → G t u → G s u)
    (hmono : ∀ {s t x y}, G s t → R s x y → R t x y)
    (step : ∀ {s x t y}, f s x = .ok (t, y) → G s t ∧ R t x y) {xs : List α} {s t : σ} {ys : List β}
    (h : mapCarrying f s xs = .ok (t, ys)) : G s t ∧ List.Forall₂ (R t) xs ys := by
  induction xs generalizing s ys with
  | nil =>
    cases h
    exact ⟨hrefl _, .nil⟩
  | cons x rest ih =>
    simp only [mapCarrying, bind_eq_ok, pure_eq_ok, Prod.mk.injEq, Prod.exists] at h
    obtain ⟨u, y, hu, v, zs, hv, rfl, rfl⟩ := h
    obtain ⟨hfirst, hy⟩ := step hu
    obtain ⟨hothers, hzs⟩ := ih hv
    exact ⟨htrans hfirst hothers, .cons (hmono hothers hy) hzs⟩

/-! ## Growing -/

/-- All groups and syllables of one score are in the other, under the same keys. -/
structure Score.Grows (s t : Score) : Prop where
  groups : ∀ {k g}, s.groups.get? k = some g → t.groups.get? k = some g
  syllables : ∀ {k x}, s.syllables.get? k = some x → t.syllables.get? k = some x

namespace Score.Grows

theorem refl (s : Score) : s.Grows s := ⟨id, id⟩

theorem trans {s t u : Score} (h : s.Grows t) (h' : t.Grows u) : s.Grows u :=
  ⟨h'.groups ∘ h.groups, h'.syllables ∘ h.syllables⟩

end Score.Grows

theorem Arena.get?_insert_of_get? {α : Type} {a : Arena α} {k : Key α} {x y : α}
    (h : a.get? k = some x) : (a.insert y).get? k = some x := by
  rw [get?_insert, if_neg]
  · exact h
  · rintro rfl
    rw [get?_fresh] at h
    cases h

/-! ## Lists of keys -/

namespace Score

/-- The group at a key is the one that was written. -/
def HasGroup (s : Score) (time : Signature) (measure staff voice : Nat) (d : Description.Group)
    (key : GroupKey) : Prop :=
  ∃ g tags, Loading.group time measure staff voice d = .ok (g, tags) ∧ s.groups.get? key = some g

/-- The syllable at a key is the one that was written. -/
def HasSyllable (s : Score) (time : Signature) (measure staff verse : Nat)
    (d : Description.Syllable) (key : SyllableKey) : Prop :=
  ∃ written, WrittenTime.parse d.time = .ok written ∧
    s.syllables.get? key = some
      { staff, verse, measure, duration := Loading.duration time none written, text := d.text }

variable {s t : Score} {time : Signature} {measure staff voice verse : Nat}

theorem HasGroup.mono {d : Description.Group} {k : GroupKey} (h : s.Grows t)
    (hk : s.HasGroup time measure staff voice d k) : t.HasGroup time measure staff voice d k := by
  obtain ⟨g, tags, hg, hget⟩ := hk
  exact ⟨g, tags, hg, h.groups hget⟩

theorem HasSyllable.mono {d : Description.Syllable} {k : SyllableKey} (h : s.Grows t)
    (hk : s.HasSyllable time measure staff verse d k) :
    t.HasSyllable time measure staff verse d k := by
  obtain ⟨written, hw, hget⟩ := hk
  exact ⟨written, hw, h.syllables hget⟩

end Score

/-- The stave holds what was written: the voices that have something, under their numbers, and the
verses that do, each syllable with the number that its verse was written as. -/
structure Stave.Transcribes (st : Stave) (s : Score) (time : Signature) (measure : Nat)
    (d : Description.Stave) : Prop where
  staff : st.staff = d.staff
  voices : ∀ v groups, (v, groups) ∈ d.voices → groups ≠ [] → ∃ list, st.list? v = some list ∧
    List.Forall₂ (s.HasGroup time measure st.staff v) groups list
  only : ∀ v list, st.list? v = some list → ∃ groups, (v, groups) ∈ d.voices ∧ groups ≠ []
  verses : List.Forall₂
    (fun x list => List.Forall₂ (s.HasSyllable time measure st.staff (x.2 + 1)) x.1 list)
    (d.verses.zipIdx.filter fun x => !x.1.isEmpty) st.verses

/-- A verse that has something is there, its syllables numbered as it was written. -/
theorem Stave.Transcribes.exists_verse {st : Stave} {s : Score} {time : Signature} {measure : Nat}
    {d : Description.Stave} (h : st.Transcribes s time measure d) {i : Nat}
    {syllables : List Description.Syllable} (hi : d.verses[i]? = some syllables)
    (hne : syllables ≠ []) : ∃ verse ∈ st.verses,
      List.Forall₂ (s.HasSyllable time measure st.staff (i + 1)) syllables verse := by
  have hkept : (syllables, i) ∈ d.verses.zipIdx.filter fun x => !x.1.isEmpty :=
    List.mem_filter.mpr ⟨List.mk_mem_zipIdx_iff_getElem?.mpr hi, by simpa using hne⟩
  obtain ⟨n, hn⟩ := List.getElem?_of_mem hkept
  obtain ⟨verse, hverse, hall⟩ := exists_of_forall₂ h.verses hn
  exact ⟨verse, List.mem_of_getElem? hverse, hall⟩

/-- The measure holds what was written, a stave for each staff that was. -/
structure Measure.Transcribes (m : Measure) (s : Score) (time : Signature)
    (written : List Description.Stave) : Prop where
  staves : ∀ d ∈ written, ∃ st ∈ m.staves, st.Transcribes s time m.number d
  only : ∀ st ∈ m.staves, ∃ d ∈ written, st.Transcribes s time m.number d

section Mono

variable {s t : Score} {time : Signature}

theorem Stave.Transcribes.mono {st : Stave} {measure : Nat} {d : Description.Stave}
    (h : s.Grows t) (hst : st.Transcribes s time measure d) : st.Transcribes t time measure d where
  staff := hst.staff
  voices v groups hv hne := by
    obtain ⟨list, hlist, hall⟩ := hst.voices v groups hv hne
    exact ⟨list, hlist, hall.imp fun _ _ => .mono h⟩
  only := hst.only
  verses := hst.verses.imp fun _ _ hall => hall.imp fun _ _ => .mono h

theorem Measure.Transcribes.mono {m : Measure} {written : List Description.Stave} (h : s.Grows t)
    (hm : m.Transcribes s time written) : m.Transcribes t time written where
  staves d hd := by
    obtain ⟨st, hst, hd⟩ := hm.staves d hd
    exact ⟨st, hst, hd.mono h⟩
  only st hst := by
    obtain ⟨d, hd, hst⟩ := hm.only st hst
    exact ⟨d, hd, hst.mono h⟩

end Mono

namespace Loading

/-! ## One addition after the other -/

section Adding

variable {s t : Score} {time : Signature} {measure staff voice verse : Nat}

/-- How long a group lasts, told by what was written. -/
theorem group_timing {d : Description.Group} {g : Group} {tags : List (Option String)}
    (h : group time measure staff voice d = .ok (g, tags)) :
    ∃ written tuplet, WrittenTime.parse d.time = .ok written ∧
      given (Loading.tuplet measure) d.tuplet = .ok tuplet ∧ g.grace = d.grace ∧
      g.wholeMeasure = (written == .wholeMeasure) ∧
      (∀ value dots, written = .note value dots → g.value = value ∧ g.dots = dots) ∧
      g.duration = if d.grace then 0 else duration time tuplet written := by
  simp only [group, bind_eq_ok, pure_eq_ok, Prod.mk.injEq] at h
  obtain ⟨-, -, tuplet, htuplet, written, hwritten, -, -, -, -, rfl, -⟩ := h
  refine ⟨written, tuplet, hwritten, htuplet, rfl, rfl, ?_, rfl⟩
  rintro value dots rfl
  exact ⟨rfl, rfl⟩

theorem grows_addTag? {name : Option String} {tag : Tag} (h : addTag? s name tag = .ok t) :
    s.Grows t := by
  unfold addTag? at h
  split at h
  · cases h
    exact .refl s
  · unfold addTag at h
    split at h <;> cases h
    exact ⟨id, id⟩

theorem hasGroup_addGroup {d : Description.Group} {key : GroupKey}
    (h : addGroup time measure staff voice s d = .ok (t, key)) :
    s.Grows t ∧ t.HasGroup time measure staff voice d key := by
  simp only [addGroup, bind_eq_ok, pure_eq_ok, Prod.exists, Prod.mk.injEq] at h
  obtain ⟨g, noteTags, hg, s₁, h₁, s₂, h₂, rfl, rfl⟩ := h
  have htags : s₁.Grows s₂ := foldlM_induction (P := fun _ u => s₁.Grows u)
    (fun _ _ _ _ hu hv => hu.trans (grows_addTag? hv)) (.refl s₁) h₂
  have hall := (grows_addTag? h₁).trans htags
  refine ⟨⟨fun hk => hall.groups (Arena.get?_insert_of_get? hk), hall.syllables⟩,
    g, noteTags, hg, hall.groups ?_⟩
  exact Arena.get?_insert_fresh ..

theorem hasSyllable_addSyllable {d : Description.Syllable} {key : SyllableKey}
    (h : addSyllable time measure staff verse s d = .ok (t, key)) :
    s.Grows t ∧ t.HasSyllable time measure staff verse d key := by
  simp only [addSyllable, bind_eq_ok, pure_eq_ok, Prod.mk.injEq] at h
  obtain ⟨written, hw, rfl, rfl⟩ := h
  exact ⟨⟨id, Arena.get?_insert_of_get?⟩, written, hw, Arena.get?_insert_fresh ..⟩

theorem transcribes_addVoice {stave stave' : Stave} {groups : List Description.Group}
    (h : addVoice time measure staff s stave voice groups = .ok (t, stave')) :
    s.Grows t ∧ stave'.staff = stave.staff ∧
      (groups ≠ [] → ∃ list, stave'.list? voice = some list ∧
        List.Forall₂ (t.HasGroup time measure staff voice) groups list) ∧
      (groups = [] → stave' = stave) ∧ ∀ v, v ≠ voice → stave'.list? v = stave.list? v := by
  simp only [addVoice, bind_eq_ok] at h
  obtain ⟨v, hv, h⟩ := h
  obtain ⟨rfl, hrange⟩ := voice_eq_ok hv
  split at h
  next hempty =>
    cases h
    rw [List.isEmpty_iff] at hempty
    exact ⟨.refl s, rfl, fun hne => absurd hempty hne, fun _ => rfl, fun _ _ => rfl⟩
  next hne =>
    simp only [bind_eq_ok, pure_eq_ok, Prod.exists, Prod.mk.injEq] at h
    obtain ⟨u, list, hlist, rfl, rfl⟩ := h
    obtain ⟨hgrows, hall⟩ := mapCarrying_forall₂ (G := Score.Grows)
      (R := fun u => u.HasGroup time measure staff v) .refl .trans .mono hasGroup_addGroup hlist
    refine ⟨hgrows, rfl, fun _ => ⟨list, ?_, hall⟩, fun hnil => absurd hnil (by simpa using hne),
      fun w hw => ?_⟩
    · rw [Stave.list?_setList hrange, if_pos rfl]
    · rw [Stave.list?_setList hrange, if_neg (Ne.symm hw)]

theorem transcribes_addVoices {voices : List (Nat × List Description.Group)}
    (hordered : (voices.map Prod.fst).Pairwise (· < ·)) {stave stave' : Stave}
    (h : voices.foldlM (fun ((s, stave) : Score × Stave) (voice, groups) =>
      addVoice time measure staff s stave voice groups) (s, stave) = .ok (t, stave')) :
    s.Grows t ∧ stave'.staff = stave.staff ∧
      (∀ v groups, (v, groups) ∈ voices → groups ≠ [] → ∃ list, stave'.list? v = some list ∧
        List.Forall₂ (t.HasGroup time measure staff v) groups list) ∧
      ∀ v, stave'.list? v = stave.list? v ∨ ∃ groups, (v, groups) ∈ voices ∧ groups ≠ [] := by
  induction voices generalizing s stave with
  | nil =>
    cases h
    exact ⟨.refl _, rfl, by simp, fun _ => .inl rfl⟩
  | cons x rest ih =>
    obtain ⟨voice, groups⟩ := x
    simp only [List.foldlM_cons, bind_eq_ok, Prod.exists] at h
    obtain ⟨u, stave₁, hu, h⟩ := h
    simp only [List.map_cons, List.pairwise_cons] at hordered
    obtain ⟨hfirst, hstaff₁, hgiven₁, hempty₁, hothers₁⟩ := transcribes_addVoice hu
    obtain ⟨hrest, hstaff, hgiven, honly⟩ := ih hordered.2 h
    refine ⟨hfirst.trans hrest, hstaff.trans hstaff₁, fun v gs hv hne => ?_, fun v => ?_⟩
    · rcases List.mem_cons.mp hv with heq | hv
      · -- the voices still to come are above this one
        obtain ⟨rfl, rfl⟩ := Prod.mk.inj heq
        obtain ⟨list, hlist, hall⟩ := hgiven₁ hne
        refine ⟨list, ?_, hall.imp fun _ _ => .mono hrest⟩
        rcases honly v with hkept | ⟨gs', hgs', -⟩
        · exact hkept.trans hlist
        · exact absurd (hordered.1 v (List.mem_map_of_mem hgs')) (Nat.lt_irrefl v)
      · exact hgiven v gs hv hne
    · rcases honly v with hkept | ⟨gs, hgs, hne⟩
      · rcases eq_or_ne v voice with rfl | hv
        · rcases eq_or_ne groups [] with hnil | hne
          · exact .inl (hkept.trans (congrArg (·.list? v) (hempty₁ hnil)))
          · exact .inr ⟨groups, List.mem_cons_self, hne⟩
        · exact .inl (hkept.trans (hothers₁ v hv))
      · exact .inr ⟨gs, List.mem_cons_of_mem _ hgs, hne⟩

theorem hasSyllable_addVerses {ds : List (List Description.Syllable × Nat)}
    {verses : List (List SyllableKey)}
    (h : mapCarrying (fun s x => mapCarrying (addSyllable time measure staff (x.2 + 1)) s x.1) s ds =
      .ok (t, verses)) :
    s.Grows t ∧ List.Forall₂
      (fun x list => List.Forall₂ (t.HasSyllable time measure staff (x.2 + 1)) x.1 list) ds verses :=
  mapCarrying_forall₂ (G := Score.Grows)
    (R := fun u x list => List.Forall₂ (u.HasSyllable time measure staff (x.2 + 1)) x.1 list)
    .refl .trans (fun h hall => hall.imp fun _ _ => .mono h)
    (mapCarrying_forall₂ (G := Score.Grows)
      (R := fun u => u.HasSyllable time measure staff _) .refl .trans .mono hasSyllable_addSyllable) h

theorem transcribes_addStave {d : Description.Stave} {stave : Stave}
    (hordered : (d.voices.map Prod.fst).Pairwise (· < ·))
    (h : addStave time measure d.staff s d = .ok (t, stave)) :
    s.Grows t ∧ stave.Transcribes t time measure d := by
  simp only [addStave, bind_eq_ok, pure_eq_ok, Prod.exists, Prod.mk.injEq] at h
  obtain ⟨s₁, stave₁, hvoices, s₂, verses, hverses, rfl, rfl⟩ := h
  obtain ⟨hfirst, hstaff, hgiven, honly⟩ := transcribes_addVoices hordered hvoices
  obtain ⟨hsecond, hsung⟩ := hasSyllable_addVerses hverses
  have hstaff : stave₁.staff = d.staff := hstaff
  have hempty : ∀ {x : List Description.Syllable × Nat} {list : List SyllableKey},
      List.Forall₂ (s₂.HasSyllable time measure d.staff (x.2 + 1)) x.1 list →
        ((!x.1.isEmpty) = true ↔ (!list.isEmpty) = true) := fun hall => by
    simp only [Bool.not_eq_true', List.isEmpty_eq_false_iff, ← List.length_pos_iff, hall.length_eq]
  refine ⟨hfirst.trans hsecond, ?_⟩
  constructor
  case staff => exact hstaff
  case voices =>
    intro v groups hv hne
    obtain ⟨list, hlist, hall⟩ := hgiven v groups hv hne
    refine ⟨list, hlist, hall.imp fun _ _ hk => ?_⟩
    exact hstaff ▸ hk.mono hsecond
  case only =>
    intro v list hlist
    rcases honly v with hkept | hwritten
    · exact absurd (hkept.symm.trans hlist) (by simp [list?_empty])
    · exact hwritten
  case verses =>
    change List.Forall₂ (fun (x : List Description.Syllable × Nat) list =>
      List.Forall₂ (s₂.HasSyllable time measure stave₁.staff (x.2 + 1)) x.1 list) _ _
    rw [hstaff]
    refine List.rel_filter ?_ hsung
    exact fun _ _ => hempty

theorem mem_insertStave {stave other : Stave} {staves : List Stave} :
    other ∈ insertStave stave staves ↔ other = stave ∨ other ∈ staves :=
  (insertStave_perm stave staves).mem_iff.trans List.mem_cons

theorem staff_eq_ok {last number staff : Nat} (h : Loading.staff last number = .ok staff) :
    staff = number := by
  unfold Loading.staff at h
  split at h <;> cases h
  rfl

theorem transcribes_addMeasure {number : Nat} {written : List Description.Stave} {m : Measure}
    (hordered : ∀ d ∈ written, (d.voices.map Prod.fst).Pairwise (· < ·))
    (h : addMeasure time number s written = .ok (t, m)) :
    s.Grows t ∧ m.number = number ∧ m.Transcribes t time written := by
  unfold addMeasure at h
  have hloaded := foldlM_induction (P := fun rest (x : Score × Measure) =>
      s.Grows x.1 ∧ x.2.number = number ∧ ∃ done, written = done ++ rest ∧
        (∀ d ∈ done, ∃ st ∈ x.2.staves, st.Transcribes x.1 time number d) ∧
        ∀ st ∈ x.2.staves, ∃ d ∈ done, st.Transcribes x.1 time number d)
    ?_ ⟨.refl s, rfl, [], rfl, by simp, by simp⟩ h
  · obtain ⟨hgrows, hnumber, done, rfl, hgiven, honly⟩ := hloaded
    rw [List.append_nil]
    exact ⟨hgrows, hnumber, hnumber ▸ hgiven, hnumber ▸ honly⟩
  · rintro d rest ⟨u, n⟩ ⟨v, n'⟩ ⟨hgrows, hnumber, done, rfl, hgiven, honly⟩ hv
    simp only at hgrows hnumber hgiven honly hv
    simp only [bind_eq_ok] at hv
    obtain ⟨staff, hstaff, hv⟩ := hv
    obtain rfl := staff_eq_ok hstaff
    split at hv
    next => cases hv
    next =>
      simp only [bind_eq_ok, pure_eq_ok, Prod.exists, Prod.mk.injEq] at hv
      obtain ⟨w, stave, hstave, rfl, rfl⟩ := hv
      obtain ⟨hfirst, hd⟩ := transcribes_addStave (hordered d (by simp)) hstave
      refine ⟨hgrows.trans hfirst, hnumber, done ++ [d], by simp, fun e he => ?_, fun st hst => ?_⟩
      · rcases List.mem_append.mp he with he | he
        · obtain ⟨st, hst, he⟩ := hgiven e he
          exact ⟨st, mem_insertStave.mpr (.inr hst), he.mono hfirst⟩
        · rw [List.mem_singleton.mp he]
          exact ⟨stave, mem_insertStave.mpr (.inl rfl), hd⟩
      · rcases mem_insertStave.mp hst with rfl | hst
        · exact ⟨d, by simp, hd⟩
        · obtain ⟨e, he, hst⟩ := honly st hst
          exact ⟨e, by simp [he], hst.mono hfirst⟩

end Adding

/-! ## Half a score -/

/-- What is there once the settings at the head and the first entries have been loaded. -/
def upTo (d : Description) (entries : List Description.Entry) : Except Flaw Progress := do
  let c ← opening d
  entries.foldlM addEntry (addChange { score := { header := header d } } c)

/-- The voices of every staff of an entry are given in ascending order. -/
def InOrder (entry : Description.Entry) : Prop :=
  ∀ staves, entry.measure = some staves →
    ∀ stave ∈ staves, (stave.voices.map Prod.fst).Pairwise (· < ·)

/-- The items of one score are the first of the other, and what they hold has not changed. -/
structure Continues (s t : Score) : Prop where
  items : ∃ rest, t.items = s.items ++ rest
  grows : s.Grows t

theorem Continues.refl (s : Score) : Continues s s := ⟨⟨[], by simp⟩, .refl s⟩

theorem Continues.trans {s t u : Score} (h : Continues s t) (h' : Continues t u) :
    Continues s u := by
  obtain ⟨rest, hrest⟩ := h.items
  obtain ⟨rest', hrest'⟩ := h'.items
  exact ⟨⟨rest ++ rest', by rw [hrest', hrest, List.append_assoc]⟩, h.grows.trans h'.grows⟩

section Entries

variable {d : Description} {p q : Progress} {entries : List Description.Entry}
  {entry : Description.Entry}

theorem upTo_append {later : List Description.Entry} :
    upTo d (entries ++ later) = .ok q ↔
      ∃ p, upTo d entries = .ok p ∧ later.foldlM addEntry p = .ok q := by
  simp only [upTo, bind_eq_ok, List.foldlM_append]
  exact ⟨fun ⟨c, hc, p, hp, hq⟩ => ⟨p, ⟨c, hc, hp⟩, hq⟩, fun ⟨p, ⟨c, hc, hp⟩, hq⟩ => ⟨c, hc, p, hp, hq⟩⟩

/-- An entry adds a measure or a change. The measure is read with the time signature in force. -/
theorem addEntry_cases (h : p.Sound) (hordered : InOrder entry) (hq : addEntry p entry = .ok q) :
    (∃ d c, entry.change = some d ∧ entry.measure = none ∧ change p.score.header.staffs d = .ok c ∧
      q = addChange p c) ∨
    ∃ written m t, entry.change = none ∧ entry.measure = some written ∧
      addMeasure p.inForce.time (p.measures + 1) p.score written = .ok (t, m) ∧
      q.inForce = p.inForce ∧ q.score.items = p.score.items ++ [.measure m] ∧
      p.score.Grows q.score ∧ m.number = p.measures + 1 ∧
      m.Transcribes q.score p.inForce.time written := by
  unfold addEntry at hq
  split at hq
  next d hc hm =>
    simp only [bind_eq_ok, pure_eq_ok] at hq
    obtain ⟨c, hc', rfl⟩ := hq
    exact .inl ⟨d, c, hc, hm, hc', rfl⟩
  next written hc hwritten =>
    simp only [bind_eq_ok, pure_eq_ok, Prod.exists] at hq
    obtain ⟨t, m, hm, rfl⟩ := hq
    obtain ⟨-, ⟨-, hitems⟩, -, -⟩ :=
      addMeasure_stocked h.settings.time (hordered written hwritten) h.score.stocked hm
    obtain ⟨hgrows, hnumber, htranscribes⟩ := transcribes_addMeasure (hordered written hwritten) hm
    have hlast : t.Grows { t with items := t.items ++ [.measure m] } := ⟨id, id⟩
    exact .inr ⟨written, m, t, hc, hwritten, hm, rfl, by rw [hitems], hgrows.trans hlast, hnumber,
      htranscribes.mono hlast⟩
  next => cases hq

theorem continues_addEntry (h : p.Sound) (hordered : InOrder entry)
    (hq : addEntry p entry = .ok q) :
    Continues p.score q.score ∧ q.score.items.length = p.score.items.length + 1 := by
  rcases addEntry_cases h hordered hq with
    ⟨_, c, -, -, -, rfl⟩ | ⟨_, m, _, -, -, -, -, hitems, hgrows, -⟩
  · exact ⟨⟨⟨[.change c], rfl⟩, id, id⟩, by simp [addChange]⟩
  · exact ⟨⟨⟨_, hitems⟩, hgrows⟩, by simp [hitems]⟩

/-- Loading further entries keeps what there is, and each adds an item. -/
theorem continues_addEntries (h : p.Sound) (hordered : ∀ entry ∈ entries, InOrder entry)
    (hq : entries.foldlM addEntry p = .ok q) : q.Sound ∧ Continues p.score q.score ∧
      q.score.items.length = p.score.items.length + entries.length := by
  have hloaded := foldlM_induction (P := fun rest (u : Progress) =>
      (u.Sound ∧ Continues p.score u.score ∧ u.score.items.length + rest.length =
        p.score.items.length + entries.length) ∧ ∀ entry ∈ rest, InOrder entry)
    (fun x rest u v hu hv => ?_) ⟨⟨h, .refl _, rfl⟩, hordered⟩ hq
  · exact hloaded.1
  · obtain ⟨⟨hu, hcontinues, hlength⟩, hrest⟩ := hu
    have hx := hrest x List.mem_cons_self
    obtain ⟨hcontinues', hlength'⟩ := continues_addEntry hu hx hv
    refine ⟨⟨(addEntry_sound hu hx hv).1, hcontinues.trans hcontinues', ?_⟩,
      fun y hy => hrest y (List.mem_cons_of_mem x hy)⟩
    rw [List.length_cons] at hlength
    omega

theorem upTo_sound (hordered : ∀ entry ∈ entries, InOrder entry) (h : upTo d entries = .ok q) :
    q.Sound ∧ q.score.items.length = entries.length + 1 := by
  simp only [upTo, bind_eq_ok] at h
  obtain ⟨c, hc, h⟩ := h
  obtain ⟨hsound, -, hlength⟩ := continues_addEntries
    (addChange_sound (.empty _) (opening_sound hc)) hordered h
  exact ⟨hsound, by simpa [addChange, Nat.add_comm] using hlength⟩

end Entries

end Loading

/-! ## Whole scores -/

/-- The group is written somewhere in the description. -/
def Description.WritesGroup (d : Description) (g : Group) : Prop :=
  ∃ entry ∈ d.music, ∃ written ∈ entry.measure, ∃ sd ∈ written, ∃ x ∈ sd.voices, g ∈ x.2

/-- The syllable is written somewhere in the description. -/
def Description.WritesSyllable (d : Description) (x : Syllable) : Prop :=
  ∃ entry ∈ d.music, ∃ written ∈ entry.measure, ∃ sd ∈ written, ∃ syllables ∈ sd.verses,
    x ∈ syllables

/-- The description that a document of these characters holds. -/
def Description.ofChars? (cs : List Char) : Option Description :=
  let glyphs := Yaml.Glyph.dropMark (Yaml.Glyph.along 0 0 (Yaml.Glyph.unifyBreaks cs))
  let glyphs := if cs.all Yaml.isAllowed then some glyphs else none
  (glyphs.bind fun glyphs => (Yaml.Token.ofGlyphs? glyphs).bind Yaml.Node.ofTokens?).bind ofNode?

theorem Description.ofText?_eq_ofChars? {text : String} {cs : List Char} (h : Spells text cs) :
    ofText? text = ofChars? cs := by
  unfold Spells at h
  rw [ofText?, Yaml.Node.ofText?, Yaml.Glyph.ofText?, h]
  rfl

namespace Score

variable {d : Description} {s : Score}

/-- A text that holds a description of some kind, which loads as a score of some kind. -/
theorem exists_of_description (text : String) {cs : List Char} (hcs : Spells text cs)
    {P : Description → Score → Prop} [∀ d s, Decidable (P d s)]
    (h : ((Description.ofChars? cs).any fun d => (load d).toOption.any fun s => decide (P d s)) =
      true) : ∃ d s, Description.ofText? text = some d ∧ load d = .ok s ∧ P d s := by
  rw [← Description.ofText?_eq_ofChars? hcs] at h
  obtain ⟨d, hd, h⟩ := (Option.any_eq_true ..).mp h
  cases hload : load d with
  | error e => simp [hload, Except.toOption] at h
  | ok s => exact ⟨d, s, hd, hload, by simpa [hload, Except.toOption] using h⟩

/-- A loaded score goes on from what was there at any of its entries. -/
theorem load_split (hordered : d.Ordered) (h : load d = .ok s)
    {before after : List Description.Entry} {entry : Description.Entry}
    (hd : d.music = before ++ entry :: after) : ∃ q r, Loading.upTo d before = .ok q ∧
      q.Sound ∧ q.score.items.length = before.length + 1 ∧ Loading.addEntry q entry = .ok r ∧
      Loading.Continues r.score s := by
  simp only [load] at h
  split at h
  next => cases h
  next =>
    simp only [bind_eq_ok, pure_eq_ok] at h
    obtain ⟨c, hc, p, hp, rfl⟩ := h
    have hall : Loading.upTo d (before ++ entry :: after) = .ok p := by
      rw [← hd, Loading.upTo, hc]
      exact hp
    obtain ⟨q, hq, hrest⟩ := Loading.upTo_append.mp hall
    simp only [List.foldlM_cons, bind_eq_ok] at hrest
    obtain ⟨r, hr, hrest⟩ := hrest
    have hin : ∀ x ∈ d.music, Loading.InOrder x := hordered
    rw [hd] at hin
    obtain ⟨hqsound, hlength⟩ := Loading.upTo_sound (fun x hx => hin x (by simp [hx])) hq
    have hrsound := (Loading.addEntry_sound hqsound (hin entry (by simp)) hr).1
    exact ⟨q, r, hq, hqsound, hlength, hr,
      (Loading.continues_addEntries hrsound (fun x hx => hin x (by simp [hx])) hrest).2.1⟩

/-- A measure was read with the settings that are in force where it stands. -/
theorem load_measure (hordered : d.Ordered) (h : load d = .ok s)
    {before after : List Description.Entry} {entry : Description.Entry}
    (hd : d.music = before ++ entry :: after) {written : List Description.Stave}
    (hwritten : entry.measure = some written) : ∃ q p later, Loading.upTo d before = .ok q ∧
      p ∈ s.placed ∧ p.item = before.length + 1 ∧ p.item = q.score.items.length ∧
      p.inForce = q.inForce ∧ s.items = q.score.items ++ .measure p.measure :: later ∧
      q.inForce = InForce.after (changesOf q.score.items) ∧ p.measure.number = q.measures + 1 ∧
      (∃ t, Loading.addMeasure q.inForce.time (q.measures + 1) q.score written =
        .ok (t, p.measure)) ∧ p.measure.Transcribes s p.inForce.time written := by
  obtain ⟨q, r, hq, hsound, hlength, hr, hcontinues⟩ := load_split hordered h hd
  have hin : Loading.InOrder entry := hordered entry (by simp [hd])
  rcases Loading.addEntry_cases hsound hin hr with
    ⟨_, _, -, hnone, -⟩ | ⟨written', m, t, -, hsome, hm, -, hitems, -, hnumber, htranscribes⟩
  · exact absurd (hnone.symm.trans hwritten) (by simp)
  · obtain rfl := Option.some.inj (hsome.symm.trans hwritten)
    obtain ⟨later, hlater⟩ := hcontinues.items
    rw [hitems, List.append_assoc, List.singleton_append] at hlater
    refine ⟨q, ⟨before.length + 1, q.inForce, m⟩, later, hq, ?_, rfl, hlength.symm, rfl, hlater,
      hsound.inForce, hnumber, ⟨t, hm⟩, htranscribes.mono hcontinues.grows⟩
    rw [placed, hlater, Placed.along_append, hlength, hsound.inForce, Nat.zero_add]
    exact List.mem_append_right _ List.mem_cons_self

/-- The first item is the settings at the head, and every entry adds one. -/
theorem load_items (hordered : d.Ordered) (h : load d = .ok s) :
    ∃ c rest, s.items = .change c :: rest ∧ rest.length = d.music.length := by
  simp only [load] at h
  split at h
  next => cases h
  next =>
    simp only [bind_eq_ok, pure_eq_ok] at h
    obtain ⟨c, hc, p, hp, rfl⟩ := h
    obtain ⟨-, ⟨⟨rest, hrest⟩, -⟩, hlength⟩ := Loading.continues_addEntries
      (Loading.addChange_sound (.empty _) (Loading.opening_sound hc)) hordered hp
    have hitems : p.score.items = .change c :: rest := hrest
    refine ⟨c, rest, hitems, ?_⟩
    rw [hitems] at hlength
    exact Nat.add_right_cancel (hlength.trans (Nat.add_comm 1 _))

theorem exists_entry_of_placed (hordered : d.Ordered) (h : load d = .ok s) {p : Placed}
    (hp : p ∈ s.placed) : ∃ before entry after written, d.music = before ++ entry :: after ∧
      entry.measure = some written ∧ p.item = before.length + 1 := by
  obtain ⟨c, rest, hrest, hlength⟩ := load_items hordered h
  obtain ⟨pre, post, hitems, hitem, -⟩ := Placed.mem_along hp
  rw [Nat.zero_add] at hitem
  cases pre with
  | nil => cases hrest.symm.trans hitems
  | cons first pre =>
    have hlt : pre.length < d.music.length := by
      have := congrArg List.length (hrest.symm.trans hitems)
      simp only [List.length_append, List.length_cons] at this
      omega
    have hsplit : d.music = d.music.take pre.length ++ d.music[pre.length] ::
        d.music.drop (pre.length + 1) := by
      rw [List.getElem_cons_drop, List.take_append_drop]
    have htake : (d.music.take pre.length).length = pre.length := by
      rw [List.length_take]
      omega
    obtain ⟨q, u, -, hq, hqlength, hu, hcontinues⟩ := load_split hordered h hsplit
    rw [htake] at hqlength
    obtain ⟨later, hlater⟩ := hcontinues.items
    have hmeasure : s.items[pre.length + 1]? = some (.measure p.measure) := by
      rw [hitems]
      simp
    rcases Loading.addEntry_cases hq (hordered _ (List.getElem_mem hlt)) hu with
      ⟨_, c', -, -, -, rfl⟩ | ⟨written, -, -, -, hwritten, -⟩
    · -- a change does not stand where a measure does
      have hchange : s.items[pre.length + 1]? = some (.change c') := by
        rw [hlater]
        simp [Loading.addChange, ← hqlength]
      cases hchange.symm.trans hmeasure
    · exact ⟨_, _, _, written, hsplit, hwritten, by rw [htake, hitem, List.length_cons]⟩

theorem transcribes_of_placed (hordered : d.Ordered) (h : load d = .ok s) {p : Placed}
    (hp : p ∈ s.placed) : ∃ before entry after written, d.music = before ++ entry :: after ∧
      entry.measure = some written ∧ p.item = before.length + 1 ∧
      p.measure.Transcribes s p.inForce.time written := by
  obtain ⟨before, entry, after, written, hmusic, hwritten, hitem⟩ :=
    exists_entry_of_placed hordered h hp
  obtain ⟨-, p', -, -, hp', hitem', -, -, -, -, -, -, htranscribes⟩ :=
    load_measure hordered h hmusic hwritten
  obtain rfl := Placed.eq_of_item hp hp' (hitem.trans hitem'.symm)
  exact ⟨before, entry, after, written, hmusic, hwritten, hitem, htranscribes⟩

theorem exists_written (hordered : d.Ordered) (h : load d = .ok s) {k : GroupKey} {g : Group}
    (hk : s.groups.get? k = some g) : ∃ dg, d.WritesGroup dg ∧ ∃ p ∈ s.placed, ∃ staff v,
      s.HasGroup p.inForce.time p.measure.number staff v dg k := by
  have hsound : s.Sound Group.Written := (load_sound hordered h).1
  have hkeys : k ∈ s.postings.map (·.key) :=
    (hsound.stocked.groups.mem_iff k).mpr (Arena.contains_iff.mpr ⟨g, hk⟩)
  obtain ⟨posting, hposting, rfl⟩ := List.mem_map.mp hkeys
  obtain ⟨m, hm, hposting⟩ := List.mem_flatMap.mp hposting
  rw [← map_measure_placed] at hm
  obtain ⟨p, hp, rfl⟩ := List.mem_map.mp hm
  obtain ⟨st, hst, hposting⟩ := List.mem_flatMap.mp hposting
  obtain ⟨-, -, list, hlist, hkl⟩ := Stave.mem_postings.mp hposting
  obtain ⟨before, entry, after, written, hmusic, hwritten, -, htranscribes⟩ :=
    transcribes_of_placed hordered h hp
  obtain ⟨sd, hsd, hst⟩ := htranscribes.only st hst
  obtain ⟨groups, hgroups, hne⟩ := hst.only _ list hlist
  obtain ⟨list', hlist', hall⟩ := hst.voices _ groups hgroups hne
  obtain rfl := Option.some.inj (hlist.symm.trans hlist')
  obtain ⟨n, hn⟩ := List.getElem?_of_mem hkl
  obtain ⟨dg, hdg, hhas⟩ := exists_of_forall₂ (List.Forall₂.flip hall) hn
  exact ⟨dg, ⟨entry, by simp [hmusic], written, hwritten, sd, hsd, (_, groups), hgroups,
    List.mem_of_getElem? hdg⟩, p, hp, st.staff, posting.voice, hhas⟩

theorem hasGroup_of_writes (hordered : d.Ordered) (h : load d = .ok s) {dg : Description.Group}
    (hd : d.WritesGroup dg) : ∃ p ∈ s.placed, ∃ staff v k,
      s.HasGroup p.inForce.time p.measure.number staff v dg k := by
  obtain ⟨entry, hentry, written, hwritten, sd, hsd, ⟨v, groups⟩, hgroups, hdg⟩ := hd
  obtain ⟨before, after, hmusic⟩ := List.append_of_mem hentry
  obtain ⟨-, p, -, -, hp, -, -, -, -, -, -, -, htranscribes⟩ :=
    load_measure hordered h hmusic hwritten
  obtain ⟨st, -, hst⟩ := htranscribes.staves sd hsd
  obtain ⟨list, -, hall⟩ := hst.voices v groups hgroups (List.ne_nil_of_mem hdg)
  obtain ⟨n, hn⟩ := List.getElem?_of_mem hdg
  obtain ⟨k, -, hhas⟩ := exists_of_forall₂ hall hn
  exact ⟨p, hp, st.staff, v, k, hhas⟩

theorem hasSyllable_of_writes (hordered : d.Ordered) (h : load d = .ok s)
    {x : Description.Syllable} (hd : d.WritesSyllable x) : ∃ p ∈ s.placed, ∃ staff verse k,
      s.HasSyllable p.inForce.time p.measure.number staff verse x k := by
  obtain ⟨entry, hentry, written, hwritten, sd, hsd, syllables, hsyllables, hx⟩ := hd
  obtain ⟨before, after, hmusic⟩ := List.append_of_mem hentry
  obtain ⟨-, p, -, -, hp, -, -, -, -, -, -, -, htranscribes⟩ :=
    load_measure hordered h hmusic hwritten
  obtain ⟨st, -, hst⟩ := htranscribes.staves sd hsd
  obtain ⟨i, hi⟩ := List.getElem?_of_mem hsyllables
  obtain ⟨list, -, hall⟩ := hst.exists_verse hi (List.ne_nil_of_mem hx)
  obtain ⟨n, hn⟩ := List.getElem?_of_mem hx
  obtain ⟨k, -, hhas⟩ := exists_of_forall₂ hall hn
  exact ⟨p, hp, st.staff, i + 1, k, hhas⟩

end Score

end Divisi
