/-
The representation of a score is consistent.

A score as it is read, a score with its chords built and a score with its voices combined all
keep what the arena, the voice lists and the tags say about each other
(`Score.Parsed.stays_consistent`). For the last of them this is an invariant of single merges
(`Score.Consistent.merge`): a blend keeps its notes in order, the groups of a merge stay in
lists that they name, and the tags of a note follow it to where it now stands.
-/
import Divisi.Proofs.Combined

namespace Divisi

/-! ## Blends -/

namespace Blend

variable {notes : List Note}

/-- Gathering loses no note of the destination, and sends each of the source to one that is
there. -/
theorem gather_slots (ours theirs : List Note) :
    ours.length ≤ (gather ours theirs).notes.length ∧
      ∀ j ∈ (gather ours theirs).slots, j < (gather ours theirs).notes.length := by
  induction theirs generalizing ours with
  | nil => simp [gather]
  | cons n rest ih =>
    rw [gather]
    cases hslot : ours.findIdx? (·.samePosition n) with
    | some slot =>
      obtain ⟨hlt, -⟩ := List.findIdx?_eq_some_iff_getElem.mp hslot
      obtain ⟨hle, hslots⟩ := ih (ours.modify slot (unison · n))
      rw [List.length_modify] at hle
      exact ⟨hle, List.forall_mem_cons.mpr ⟨Nat.lt_of_lt_of_le hlt hle, hslots⟩⟩
    | none =>
      obtain ⟨hle, hslots⟩ := ih (ours ++ [n])
      rw [List.length_append, List.length_singleton] at hle
      exact ⟨Nat.le_of_succ_le hle, List.forall_mem_cons.mpr ⟨hle, hslots⟩⟩

theorem length_order (notes : List Note) : (order notes).length = notes.length := by
  rw [order, List.length_mergeSort, List.length_zipIdx]

theorem placeIn_lt {slot : Nat} (h : slot < notes.length) :
    placeIn (order notes) slot < (order notes).length := by
  refine List.findIdx_lt_length_of_exists ⟨(notes[slot], slot), ?_, by simp⟩
  rw [order, List.mem_mergeSort]
  exact List.mem_zipIdx_iff_getElem?.mpr (List.getElem?_eq_getElem h)

end Blend

namespace Group

variable {a b : Group}

/-- What the notes and the time of a group are like. -/
structure Consistent (g : Group) : Prop where
  printed : g.notes ≠ [] ↔ ∃ heads, g.content = .notes heads
  /-- The highest note comes first. -/
  sorted : g.notes.Pairwise fun x y => y.step ≤ x.step
  grace : g.grace = true → g.duration = 0

theorem Sound.consistent (h : a.Sound) : a.Consistent := by
  refine ⟨h.printed.trans ?_, h.sorted, h.grace⟩
  simp [content_eq_notes]

namespace Consistent

theorem printed_iff (h : a.Consistent) : a.notes ≠ [] ↔ a.kind = .notes :=
  h.printed.trans (by simp [content_eq_notes])

theorem printsAll (h : a.Consistent) : a.PrintsAll := fun hk =>
  Classical.not_not.mp fun hne => hk (h.printed_iff.mp hne)

theorem congr (h : a.Consistent) (hsame : b.SamePrint a) (hgrace : b.grace = a.grace)
    (hduration : b.duration = a.duration) : b.Consistent := by
  obtain ⟨hkind, hnotes⟩ := hsame
  refine ⟨?_, ?_, ?_⟩
  · simp only [content_eq_notes, hnotes, hkind, h.printed_iff, exists_and_left, exists_eq', and_true]
  · rw [hnotes]
    exact h.sorted
  · rw [hgrace, hduration]
    exact h.grace

theorem toSpace (h : a.Consistent) : a.toSpace.Consistent :=
  ⟨by simp [content_eq_notes, Group.toSpace], List.Pairwise.nil, h.grace⟩

theorem blend (ha : a.Consistent) (hb : b.Consistent) : (a.blend b).group.Consistent := by
  unfold Group.blend
  split
  · exact ha
  split
  · exact hb.congr ⟨rfl, rfl⟩ rfl rfl
  split
  next hours htheirs =>
    refine ⟨⟨fun _ => ⟨_, content_eq_notes.mpr ⟨hours, rfl⟩⟩, fun _ => ?_⟩,
      Note.sorted_highestFirst _, ha.grace⟩
    have hpos := List.length_pos_iff.mpr (ha.printed_iff.mpr hours)
    have hlength := Blend.gather_slots a.notes b.notes
    refine List.length_pos_iff.mp ?_
    rw [List.length_map, Blend.length_order]
    omega
  next => exact ha.congr ⟨rfl, rfl⟩ rfl rfl

end Consistent

theorem destSlots_lt (hprints : a.PrintsAll) {i : Nat} (h : i < a.notes.length) :
    (a.blend b).destSlots[i]?.getD i < (a.blend b).group.notes.length := by
  have hstays : (List.range a.notes.length)[i]?.getD i = i := by simp [h]
  unfold blend
  split
  · rwa [hstays]
  split
  next hspace =>
    rw [hprints (by simp_all [isSpace])] at h
    cases h
  split
  next =>
    obtain ⟨hle, -⟩ := Blend.gather_slots a.notes b.notes
    have hplace := Blend.placeIn_lt (Nat.lt_of_lt_of_le h hle)
    simpa [h] using hplace
  next =>
    rw [hstays]
    exact h

theorem srcSlots_lt {i j : Nat} (h : (a.blend b).srcSlots[i]? = some j) :
    j < (a.blend b).group.notes.length := by
  have hmem := List.mem_of_getElem? h
  revert hmem
  unfold blend
  split
  · simp
  split
  · intro hmem
    exact List.mem_range.mp hmem
  split
  next =>
    intro hmem
    obtain ⟨slot, hslot, rfl⟩ := List.mem_map.mp hmem
    obtain ⟨-, hslots⟩ := Blend.gather_slots a.notes b.notes
    have hplace := Blend.placeIn_lt (hslots slot hslot)
    simpa using hplace
  next => simp

end Group

/-! ## Tags -/

namespace Tag

variable {groups : Arena Group} {pairs : List (GroupKey × GroupKey)} {p : GroupKey × GroupKey} {t : Tag}

/-- The tag names a group that is there, and if it names a note, one that the group has. -/
def Points (groups : Arena Group) (t : Tag) : Prop :=
  ∃ g, groups.get? t.group = some g ∧ ∀ i, t.note = some i → i < g.notes.length

theorem relinkAll_of_notMem (hfst : t.group ∉ pairs.map Prod.fst)
    (hsnd : t.group ∉ pairs.map Prod.snd) : t.relinkAll groups pairs = t := by
  induction pairs with
  | nil => rfl
  | cons p rest ih =>
    simp only [List.map_cons, List.mem_cons, not_or] at hfst hsnd
    have hone : t.relink p.1 p.2 ((groups.get p.1).blend (groups.get p.2)) = t := by
      rw [relink, if_neg hfst.1, if_neg hsnd.1]
    rw [relinkAll_cons, hone]
    exact ih hfst.2 hsnd.2

/-- Where no group is in two pairs, a tag is moved by one of them at most. -/
theorem relinkAll_of_mem (hnodup : (pairs.map Prod.fst ++ pairs.map Prod.snd).Nodup)
    (hp : p ∈ pairs) (ht : t.group = p.1 ∨ t.group = p.2) : t.relinkAll groups pairs =
      t.relink p.1 p.2 ((groups.get p.1).blend (groups.get p.2)) := by
  induction pairs with
  | nil => cases hp
  | cons q rest ih =>
    obtain ⟨hfst, hsnd, hcross⟩ := List.nodup_append.mp hnodup
    simp only [List.map_cons, List.nodup_cons, List.mem_cons] at hfst hsnd hcross
    rw [relinkAll_cons]
    rcases List.mem_cons.mp hp with rfl | hp
    · have hgroup : (t.relink p.1 p.2 ((groups.get p.1).blend (groups.get p.2))).group = p.1 := by
        unfold relink
        split
        next hdest => exact hdest
        next hdest => rw [if_pos (ht.resolve_left hdest)]
      refine relinkAll_of_notMem ?_ ?_ <;> rw [hgroup]
      · exact hfst.1
      · exact fun hmem => hcross p.1 (.inl rfl) p.1 (.inr hmem) rfl
    · have h₁ : p.1 ∈ rest.map Prod.fst := List.mem_map_of_mem hp
      have h₂ : p.2 ∈ rest.map Prod.snd := List.mem_map_of_mem hp
      have hdest : t.group ≠ q.1 := by
        rcases ht with ht | ht <;> rw [ht]
        · exact fun he => hfst.1 (he ▸ h₁)
        · exact (hcross q.1 (.inl rfl) p.2 (.inr h₂)).symm
      have hsrc : t.group ≠ q.2 := by
        rcases ht with ht | ht <;> rw [ht]
        · exact hcross p.1 (.inr h₁) q.2 (.inl rfl)
        · exact fun he => hsnd.1 (he ▸ h₂)
      have hone : t.relink q.1 q.2 ((groups.get q.1).blend (groups.get q.2)) = t := by
        rw [relink, if_neg hdest, if_neg hsrc]
      rw [hone]
      refine ih (List.nodup_append.mpr ⟨hfst.2, hsnd.2, fun v hv w hw => ?_⟩) hp
      exact hcross v (.inr hv) w (.inr hw)

theorem relinkAll_cases (hnodup : (pairs.map Prod.fst ++ pairs.map Prod.snd).Nodup) (t : Tag) :
    (∃ p ∈ pairs, t.group = p.1 ∧ t.relinkAll groups pairs = ⟨t.group, t.note.map fun i =>
      ((groups.get p.1).blend (groups.get p.2)).destSlots[i]?.getD i⟩) ∨
    (∃ p ∈ pairs, t.group = p.2 ∧ t.relinkAll groups pairs = ⟨p.1, t.note.bind fun i =>
      ((groups.get p.1).blend (groups.get p.2)).srcSlots[i]?⟩) ∨
    t.group ∉ pairs.map Prod.fst ∧ t.group ∉ pairs.map Prod.snd ∧ t.relinkAll groups pairs = t := by
  by_cases hd : t.group ∈ pairs.map Prod.fst
  · obtain ⟨p, hp, hgroup⟩ := List.mem_map.mp hd
    refine .inl ⟨p, hp, hgroup.symm, ?_⟩
    rw [relinkAll_of_mem hnodup hp (.inl hgroup.symm), relink, if_pos hgroup.symm]
  by_cases he : t.group ∈ pairs.map Prod.snd
  · obtain ⟨p, hp, hgroup⟩ := List.mem_map.mp he
    have hne : t.group ≠ p.1 := fun heq => hd (heq ▸ List.mem_map_of_mem hp)
    refine .inr (.inl ⟨p, hp, hgroup.symm, ?_⟩)
    rw [relinkAll_of_mem hnodup hp (.inr hgroup.symm), relink, if_neg hne, if_pos hgroup.symm]
  · exact .inr (.inr ⟨hd, he, relinkAll_of_notMem hd he⟩)

end Tag

namespace Merging

variable {s s' : Score} {h : Hand} {m : Merge} {x y k : GroupKey} {ld le : List GroupKey}

/-- The groups that a merge pairs are all different. -/
theorem Paired.pairs_nodup (hp : Paired s h m x y ld le) (hs : s.Tidy) :
    (((column s.graceAt ld x).zip (column s.graceAt le y)).map Prod.fst ++
      ((column s.graceAt ld x).zip (column s.graceAt le y)).map Prod.snd).Nodup := by
  rw [map_fst_zip, map_snd_zip]
  have hd : (column s.graceAt ld x).Nodup := column_nodup (hs.nodup _ _ hp.destList) hp.destMem
  have he : (column s.graceAt le y).Nodup := column_nodup (hs.nodup _ _ hp.srcList) hp.srcMem
  refine List.nodup_append.mpr ⟨hd.sublist (List.take_sublist _ _),
    he.sublist (List.take_sublist _ _), fun v hv w hw heq => ?_⟩
  exact hp.apart hs (List.mem_of_mem_take hv) (heq ▸ List.mem_of_mem_take hw)

theorem Paired.relinkAll_cases (hp : Paired s h m x y ld le) (hs : s.Tidy) (t : Tag) :
    (∃ e, (t.group, e) ∈ (column s.graceAt ld x).zip (column s.graceAt le y) ∧
      t.relinkAll s.groups ((runOf s.graceAt ld x).reverse.zip (runOf s.graceAt le y).reverse ++
        [(x, y)]) = ⟨t.group, t.note.map fun i =>
          ((s.groups.get t.group).blend (s.groups.get e)).destSlots[i]?.getD i⟩) ∨
    (∃ d, (d, t.group) ∈ (column s.graceAt ld x).zip (column s.graceAt le y) ∧
      t.relinkAll s.groups ((runOf s.graceAt ld x).reverse.zip (runOf s.graceAt le y).reverse ++
        [(x, y)]) = ⟨d, t.note.bind fun i =>
          ((s.groups.get d).blend (s.groups.get t.group)).srcSlots[i]?⟩) ∨
    t.group ∉ ((column s.graceAt ld x).zip (column s.graceAt le y)).map Prod.fst ∧
      t.group ∉ ((column s.graceAt ld x).zip (column s.graceAt le y)).map Prod.snd ∧
      t.relinkAll s.groups ((runOf s.graceAt ld x).reverse.zip (runOf s.graceAt le y).reverse ++
        [(x, y)]) = t := by
  have hperm : ((runOf s.graceAt ld x).reverse.zip (runOf s.graceAt le y).reverse ++
      [(x, y)]).Perm ((column s.graceAt ld x).zip (column s.graceAt le y)) := by
    rw [column, column, List.zip_cons_cons]
    exact List.perm_append_singleton _ _
  -- the pairs are folded from the grace notes on, and no group is in two of them
  have hnodup := ((hperm.map Prod.fst).append (hperm.map Prod.snd)).nodup_iff.mpr (hp.pairs_nodup hs)
  obtain ⟨group, note⟩ := t
  obtain ⟨⟨d, e⟩, hde, rfl, ht⟩ | ⟨⟨d, e⟩, hde, rfl, ht⟩ | ⟨hd, he, ht⟩ :=
    @Tag.relinkAll_cases s.groups _ hnodup ⟨group, note⟩
  · exact .inl ⟨e, hperm.mem_iff.mp hde, ht⟩
  · exact .inr (.inl ⟨d, hperm.mem_iff.mp hde, ht⟩)
  · rw [(hperm.map Prod.fst).mem_iff] at hd
    rw [(hperm.map Prod.snd).mem_iff] at he
    exact .inr (.inr ⟨hd, he, ht⟩)

/-- The tags of a note follow it. -/
theorem Merged.points (hm : Merged h m x y ld le s s') (hp : Paired s h m x y ld le) (hs : s.Tidy)
    (hprints : ∀ k g, s.groups.get? k = some g → g.PrintsAll) {t : Tag} (ht : t.Points s.groups) : (t.relinkAll s.groups
      ((runOf s.graceAt ld x).reverse.zip (runOf s.graceAt le y).reverse ++ [(x, y)])).Points
        s'.groups := by
  obtain ⟨g, hg, hnote⟩ := ht
  have hget := Arena.get_of_get? hg
  obtain ⟨e, hde, heq⟩ | ⟨d, hde, heq⟩ | ⟨hd, he, heq⟩ := hp.relinkAll_cases hs t <;> rw [heq]
  · obtain ⟨beam, hd'⟩ := hm.folded hde
    refine ⟨_, hd', fun j hj => ?_⟩
    obtain ⟨i, hi, rfl⟩ := Option.map_eq_some_iff.mp hj
    have hlt := hnote i hi
    rw [← hget] at hlt
    exact Group.destSlots_lt (hget ▸ hprints _ g hg) hlt
  · obtain ⟨beam, hd'⟩ := hm.folded hde
    refine ⟨_, hd', fun j hj => ?_⟩
    obtain ⟨i, -, hslot⟩ := Option.bind_eq_some_iff.mp hj
    exact Group.srcSlots_lt hslot
  · obtain ⟨voice, beam, hg'⟩ := hm.unfolded hg hd he
    exact ⟨_, hg', hnote⟩

/-! ## Lists -/

theorem Merged.stays (hm : Merged h m x y ld le s s') (hp : Paired s h m x y ld le)
    {layer : Layer} {list : List GroupKey} (hlist : s.list? layer = some list) (hk : k ∈ list)
    (hmoved : k ∉ (column s.graceAt le y).drop (column s.graceAt ld x).length) :
    ∃ list', s'.list? layer = some list' ∧ k ∈ list' := by
  obtain ⟨before, after, before', after', hld, hle, -, -, hdest, hsrc⟩ := hm.lists
  by_cases hd : layer = h.layer m.dest
  · subst hd
    cases hp.destList.symm.trans hlist
    refine ⟨_, hdest, ?_⟩
    rw [hld] at hk
    simp only [List.mem_append, List.mem_reverse] at hk ⊢
    tauto
  by_cases he : layer = h.layer m.src
  · subst he
    cases hp.srcList.symm.trans hlist
    refine ⟨_, hsrc, ?_⟩
    rw [hle, ← List.take_append_drop (column s.graceAt ld x).length (column s.graceAt le y)] at hk
    simp only [List.mem_append, List.mem_reverse] at hk ⊢
    tauto
  · exact ⟨list, (hm.elsewhere layer hd he).trans hlist, hk⟩

theorem Merged.arrives (hm : Merged h m x y ld le s s')
    (hmoved : k ∈ (column s.graceAt le y).drop (column s.graceAt ld x).length) :
    ∃ list', s'.list? (h.layer m.dest) = some list' ∧ k ∈ list' := by
  obtain ⟨before, after, before', after', -, -, -, -, hdest, -⟩ := hm.lists
  refine ⟨_, hdest, ?_⟩
  simp only [List.mem_append, List.mem_reverse]
  tauto

/-- No list runs empty. -/
theorem Merged.full (hm : Merged h m x y ld le s s') (hp : Paired s h m x y ld le) (hs : s.Tidy)
    (hfull : ∀ layer list, s.list? layer = some list → list ≠ []) (layer : Layer)
    (list : List GroupKey) (hlist : s'.list? layer = some list) : list ≠ [] := by
  by_cases hd : layer = h.layer m.dest
  · obtain ⟨list', hlist', hx, -⟩ := hm.dest hp hs
    rw [hd, hlist', Option.some.injEq] at hlist
    exact List.ne_nil_of_mem (hlist ▸ hx)
  by_cases he : layer = h.layer m.src
  · obtain ⟨list', hlist', hy, -⟩ := hm.src hp hs
    rw [he, hlist', Option.some.injEq] at hlist
    exact List.ne_nil_of_mem (hlist ▸ hy)
  · exact hfull layer list ((hm.elsewhere layer hd he).symm.trans hlist)

end Merging

/-! ## Scores -/

/-- The group names the layer. -/
structure Score.Names (s : Score) (g : Group) (layer : Layer) : Prop where
  measure : ∃ m, s.measureAt? layer.item = some m ∧ g.measure = m.number
  staff : g.staff = layer.staff
  voice : g.voice = layer.voice

/-- What the arena, the voice lists and the tags of a score say about each other. -/
structure Score.Consistent (s : Score) : Prop where
  /-- A group stands in one list, once, and names it. -/
  listed : ∀ k g, s.groups.get? k = some g → ∃ layer list, s.list? layer = some list ∧
    list.count k = 1 ∧ s.Names g layer ∧
      ∀ other list', s.list? other = some list' → k ∈ list' → other = layer
  live : ∀ layer list k, s.list? layer = some list → k ∈ list → ∃ g, s.groups.get? k = some g
  sung : ∀ k ∈ s.sung, ∃ x, s.syllables.get? k = some x
  full : ∀ layer list, s.list? layer = some list → list ≠ []
  groups : ∀ k g, s.groups.get? k = some g → g.Consistent
  tags : ∀ tag ∈ s.tags, tag.2.Points s.groups
  ascending : ∀ m ∈ s.measures, (m.staves.map (·.staff)).Pairwise (· < ·)
  numbered : s.measures.map (·.number) = List.range' 1 s.measures.length

namespace Score

variable {fits : Group → Prop} {s s' : Score} {a b g : Group} {layer other : Layer}

theorem Sound.consistent (h : s.Sound fits) (hfits : ∀ g, fits g → g.Sound) : s.Consistent := by
  refine ⟨fun k g hg => ?_, h.tidy.live, fun k hk => h.stocked.syllables.get? hk,
    fun layer list hlist => ?_,
    fun k g hg => (hfits g (h.stocked.fits k g hg)).consistent, h.stocked.tags,
    fun m hm => (h.measures m hm).ascending, h.numbered⟩
  · have hkey : k ∈ s.postings.map (·.key) :=
      (h.stocked.groups.mem_iff k).mpr (Arena.contains_iff.mpr ⟨g, hg⟩)
    obtain ⟨posting, hposting, rfl⟩ := List.mem_map.mp hkey
    obtain ⟨m, hm, hposting⟩ := List.mem_flatMap.mp hposting
    obtain ⟨st, hst, hposting⟩ := List.mem_flatMap.mp hposting
    obtain ⟨-, -, list, hvoice, hk⟩ := Stave.mem_postings.mp hposting
    rw [← map_measure_placed] at hm
    obtain ⟨p, hp, rfl⟩ := List.mem_map.mp hm
    have hstave := Measure.stave?_of_mem (h.measures _ (Placed.measure_mem hp)).ascending hst
    have hlist : s.list? ⟨p.item, st.staff, posting.voice⟩ = some list :=
      list?_eq_some.mpr ⟨p.measure, st, Placed.measureAt?_item hp, hstave, hvoice⟩
    obtain ⟨g', m, hg', hm, hmeasure, hstaff, hnumber⟩ := h.get?_of_mem hlist hk
    cases hg.symm.trans hg'
    exact ⟨_, list, hlist, List.count_eq_one_of_mem (h.list_nodup hlist) hk,
      ⟨⟨m, hm, hmeasure⟩, hstaff, hnumber⟩,
      fun other list' hlist' hk' => h.layer_unique hlist' hk' hlist hk⟩
  · obtain ⟨m, st, hm, hst, hvoice⟩ := list?_eq_some.mp hlist
    obtain ⟨p, hp, -, rfl⟩ := Placed.exists_of_measureAt? hm
    have hstave := (h.measures _ (Placed.measure_mem hp)).staves st (Measure.mem_of_stave? hst).1
    exact hstave.lists _ list hvoice

namespace Names

theorem congr (h : s.Names a layer) (hmeasure : b.measure = a.measure) (hstaff : b.staff = a.staff)
    (hvoice : b.voice = a.voice) : s.Names b layer :=
  ⟨hmeasure ▸ h.measure, hstaff.trans h.staff, hvoice.trans h.voice⟩

theorem blend (ha : s.Names a layer) (hb : s.Names b other) (hitem : other.item = layer.item) :
    s.Names (a.blend b).group layer := by
  unfold Group.blend
  split
  · exact ha
  split
  · -- a space gives way to a group of the same measure
    exact ⟨hitem ▸ hb.measure, ha.staff, ha.voice⟩
  split
  · exact ha.congr rfl rfl rfl
  · exact ha.congr rfl rfl rfl

theorem of_frame (h : s.Names g layer) (hframe : s'.frame = s.frame) : s'.Names g layer := by
  obtain ⟨m, hm, hmeasure⟩ := h.measure
  have hat := measureAt?_of_frame hframe layer.item
  rw [hm, Option.map_some, Option.map_eq_some_iff] at hat
  obtain ⟨m', hm', hsame⟩ := hat
  exact ⟨⟨m', hm', hmeasure.trans (congrArg Measure.number hsame).symm⟩, h.staff, h.voice⟩

end Names

namespace Consistent

variable {h : Hand} {m : Merge} {x y k : GroupKey} {ld le list : List GroupKey}

theorem names (hc : s.Consistent) (hlist : s.list? layer = some list) (hk : k ∈ list)
    (hg : s.groups.get? k = some g) : s.Names g layer := by
  obtain ⟨home, -, -, -, hnames, honly⟩ := hc.listed k g hg
  rw [honly layer list hlist hk]
  exact hnames

/-- A group of the score that a merge leaves is in order, and stands in a list that it names. -/
theorem group_of_merge (hc : s.Consistent) (hm : Merging.Merged h m x y ld le s s')
    (hp : Merging.Paired s h m x y ld le) (hs : s.Tidy) (hg : s.groups.get? k = some g) :
    ∃ g' layer list, s'.groups.get? k = some g' ∧ g'.Consistent ∧ s'.list? layer = some list ∧
      k ∈ list ∧ s'.Names g' layer := by
  obtain ⟨layer, list, hlist, hcount, hnames, -⟩ := hc.listed k g hg
  have hk : k ∈ list := List.count_pos_iff.mp (by omega)
  have hgroup := hc.groups k g hg
  have hnames' := hnames.of_frame hm.frame
  obtain ⟨e, beam, hke, hg'⟩ | ⟨d, hdk, hg'⟩ | ⟨hmoved, beam, hg'⟩ | ⟨hmoved, beam, hg'⟩ :=
    hm.becomes hg
  · -- a blend: both groups are of this measure, and the destination stays where it is
    obtain ⟨hkd, hel⟩ := List.of_mem_zip hke
    have hkd' := Merging.mem_of_column hp.destMem hkd
    have hel' := Merging.mem_of_column hp.srcMem hel
    obtain ⟨ge, hge⟩ := hc.live _ _ e hp.srcList hel'
    have hstays : k ∉ (Merging.column s.graceAt le y).drop (Merging.column s.graceAt ld x).length :=
      fun hmem => hp.apart hs hkd (List.mem_of_mem_drop hmem)
    obtain ⟨list', hlist', hk'⟩ := hm.stays hp hp.destList hkd' hstays
    rw [Arena.get_of_get? hge] at hg'
    have hblend := (hc.names hp.destList hkd' hg).blend (hc.names hp.srcList hel' hge) rfl
    exact ⟨_, h.layer m.dest, list', hg', (hgroup.blend (hc.groups e ge hge)).congr ⟨rfl, rfl⟩ rfl rfl,
      hlist', hk', (hblend.of_frame hm.frame).congr rfl rfl rfl⟩
  · have htake : k ∈ (Merging.column s.graceAt le y).take (Merging.column s.graceAt ld x).length := by
      rw [← Merging.map_snd_zip]
      exact List.mem_map_of_mem hdk
    have hstays := Merging.not_mem_drop
      (Merging.column_nodup (hs.nodup _ _ hp.srcList) hp.srcMem) htake
    obtain ⟨list', hlist', hk'⟩ := hm.stays hp hlist hk hstays
    exact ⟨_, layer, list', hg', hgroup.toSpace, hlist', hk', hnames'.congr rfl rfl rfl⟩
  · -- a grace note that moves takes the voice of the list where it arrives
    have hkl := Merging.mem_of_column hp.srcMem (List.mem_of_mem_drop hmoved)
    obtain ⟨list', hlist', hk'⟩ := hm.arrives hmoved
    obtain ⟨hmeasure, hstaff, -⟩ := (hc.names hp.srcList hkl hg).of_frame hm.frame
    exact ⟨_, h.layer m.dest, list', hg', hgroup.congr ⟨rfl, rfl⟩ rfl rfl, hlist', hk', hmeasure, hstaff, rfl⟩
  · obtain ⟨list', hlist', hk'⟩ := hm.stays hp hlist hk hmoved
    exact ⟨_, layer, list', hg', hgroup.congr ⟨rfl, rfl⟩ rfl rfl, hlist', hk', hnames'.congr rfl rfl rfl⟩

/-- **A merge keeps a score consistent.** -/
theorem merge (hc : s.Consistent) (hm : Merging.Merged h m x y ld le s s')
    (hp : Merging.Paired s h m x y ld le) (hs : s.Tidy) : s'.Consistent := by
  have hs' := hm.tidy hp hs
  have hmeasures := measures_of_frame hm.frame
  have hgroups : ∀ k g', s'.groups.get? k = some g' → g'.Consistent ∧ ∃ layer list,
      s'.list? layer = some list ∧ k ∈ list ∧ s'.Names g' layer := by
    intro k g' hg'
    cases hg : s.groups.get? k with
    | none =>
      rw [hm.dead hp hs hg] at hg'
      cases hg'
    | some g =>
      obtain ⟨g₁, layer, list, hg₁, hgroup, hlist, hk, hnames⟩ := hc.group_of_merge hm hp hs hg
      cases hg'.symm.trans hg₁
      exact ⟨hgroup, layer, list, hlist, hk, hnames⟩
  refine ⟨fun k g' hg' => ?_, hs'.live, fun k hk => ?_, hm.full hp hs hc.full,
    fun k g' hg' => (hgroups k g' hg').1, fun tag htag => ?_, fun m' hm' => ?_, ?_⟩
  · obtain ⟨-, layer, list, hlist, hk, hnames⟩ := hgroups k g' hg'
    exact ⟨layer, list, hlist, List.count_eq_one_of_mem (hs'.nodup _ _ hlist) hk, hnames,
      fun other list' hlist' hk' => hs'.apart _ _ _ _ k hlist' hlist hk' hk⟩
  · rw [sung_of_frame hm.frame] at hk
    rw [syllables_of_frame hm.frame]
    exact hc.sung k hk
  · rw [hm.tags] at htag
    obtain ⟨old, hold, rfl⟩ := List.mem_map.mp htag
    exact hm.points hp hs (fun k g hg => (hc.groups k g hg).printsAll) (hc.tags old hold)
  · have hmem : m'.mapLists (fun _ => []) ∈ s.measures.map (Measure.mapLists fun _ => []) :=
      hmeasures ▸ List.mem_map_of_mem hm'
    obtain ⟨m, hm, hsame⟩ := List.mem_map.mp hmem
    rw [Measure.map_staff_of_frame hsame.symm]
    exact hc.ascending m hm
  · have hnumbers := congrArg (List.map Measure.number) hmeasures
    have hlength := congrArg List.length hmeasures
    simp only [List.map_map, Function.comp_def, Measure.number_mapLists] at hnumbers
    rw [List.length_map, List.length_map] at hlength
    rw [hnumbers, hlength]
    exact hc.numbered

end Consistent

end Score

theorem Combination.Of.consistent {c : Combination} {t : Score} (hc : c.Of t)
    (ht : t.Consistent) : c.score.Consistent := by
  refine hc.induction (fun h m s s' hp hs => ?_) ht
  obtain ⟨x, y, ld, le, hpaired, hmerged, -, hstands, -⟩ := hc.merged hp
  exact hs.merge hmerged hpaired hstands.tidy

/-- **The representation is consistent.** In a score that was read, in what building makes of
it, and in what combining its voices makes of that, each group stands in one voice list, once,
and names it; lists hold keys that are there, and are not empty; notes are there where the
content says so, the highest first; grace notes take no time; tags name groups and notes that
are there; staffs ascend, and measures are numbered from 1. -/
theorem Score.Parsed.stays_consistent {s : Score} (h : s.Parsed) :
    s.Consistent ∧ s.buildChords.now.Consistent ∧ (s.buildChords.fault = none →
      ∃ c, s.buildChords.now.combineVoices = .ok c ∧ c.score.Consistent) := by
  have hs := h.sound
  have hbuilt := hs.buildChords.2.consistent fun g hg => hg.toSound
  refine ⟨hs.consistent fun g hg => hg.toSound, hbuilt, fun hfault => ?_⟩
  obtain ⟨c, hcombine, hc⟩ := (hs.charted_buildChords hfault).combined hs.buildChords.2
  exact ⟨c, hcombine, hc.consistent hbuilt⟩

/-- A space, and below it a note that has a tag. -/
def taggedBelow : String :=
  "vcombine:\n voices: [1,2]\nmusic:\n- measure:\n  - voices:\n     1:\n     - time: 1\n" ++
  "       space: true\n     2:\n     - time: 1\n       notes: [{pitch: c4, tag: low}]\n"

/-- The tag moves to the group that takes the note in. -/
theorem consistent_of_taggedBelow : ∃ s : Score, s.Parsed ∧ s.Consistent ∧
    s.tags = [("low", ⟨⟨1⟩, some 0⟩)] ∧ ∃ c, s.buildChords.now.combineVoices = .ok c ∧
      c.score.tags = [("low", ⟨⟨0⟩, some 0⟩)] ∧ c.score.Consistent := by
  obtain ⟨s, hs, hfault, hbefore, hafter⟩ := Score.exists_of_spelled taggedBelow
    (.append (.ofList _) (.ofList _))
    (P := fun s => s.buildChords.fault = none ∧ s.tags = [("low", ⟨⟨1⟩, some 0⟩)] ∧
      (s.buildChords.now.combineVoices.toOption.any fun c =>
        c.score.tags == [("low", ⟨⟨0⟩, some 0⟩)]) = true)
    (by decide +kernel)
  obtain ⟨hread, -, hcombined⟩ := Score.Parsed.stays_consistent (.of_text hs)
  obtain ⟨c, hc, hconsistent⟩ := hcombined hfault
  simp only [hc, Except.toOption, Option.any_some, beq_iff_eq] at hafter
  exact ⟨s, .of_text hs, hread, hbefore, c, hc, hafter, hconsistent⟩

end Divisi
