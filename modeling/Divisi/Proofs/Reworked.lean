/-
A score with its chords built, and then edited.

An edit may give a group any other fields, take an entry out of a voice list or make a voice
absent; what the chords say is then no longer what the lists and the groups say. But the groups
of a list still belong to later and later chords (`Score.Reworked.ordered`), and the hands of any
score that can be laid out still come chord by chord (`Layout.hands_spec`).
-/
import Divisi.Edit
import Divisi.Proofs.ExcerptHands
import Divisi.Proofs.Verdicts

namespace Divisi

/-! ## Chords in order -/

namespace Score

/-- The chord at an index of the measure at an item. -/
def chordAt? (s : Score) (item index : Nat) : Option Chord :=
  (s.measureAt? item).bind fun m => m.chords[index]?

/-- Whatever chords two groups are in, that of the first stands before that of the second. -/
def Ahead (s : Score) (k k' : GroupKey) : Prop :=
  ∀ item index c item' index' c', s.chordAt? item index = some c →
    s.chordAt? item' index' = some c' → k ∈ c.groups → k' ∈ c'.groups →
      item < item' ∨ item = item' ∧ index < index'

variable {fits : Group → Prop} {s : Score} {layer : Layer} {list : List GroupKey}

theorem exists_of_chordAt? {item index : Nat} {c : Chord} (h : s.chordAt? item index = some c) :
    ∃ p ∈ s.placed, p.item = item ∧ p.measure.chords[index]? = some c := by
  obtain ⟨m, hm, hc⟩ := Option.bind_eq_some_iff.mp h
  obtain ⟨p, hp, hitem, rfl⟩ := Placed.exists_of_measureAt? hm
  exact ⟨p, hp, hitem, hc⟩

/-- Of two groups of a voice that are no grace notes the one listed first begins first. -/
theorem lt_of_sublist {k k' : GroupKey} {start start' : Time} (hs : s.Sound fits)
    (hlist : s.list? layer = some list)
    (hpos : ∀ b ∈ Chording.voiceBeats s.groups list, 0 < b.duration)
    (hsub : [k, k'].Sublist list) (hmain : (s.groups.get k).grace = false)
    (hmain' : (s.groups.get k').grace = false) (hk : s.SoundsAt layer start k)
    (hk' : s.SoundsAt layer start' k') : start < start' := by
  have hmembers : [Member.group k, Member.group k'].Sublist
      ((timeline 0 (Chording.voiceBeats s.groups list)).map Prod.snd) := by
    have hmains := hsub.filter fun key => !(s.groups.get key).grace
    simp only [List.filter_cons, hmain, hmain', Bool.not_false, if_true, List.filter_nil] at hmains
    rw [map_snd_timeline, Chording.voiceBeats, List.map_map]
    exact hmains.map Member.group
  obtain ⟨beats, hbeats, heq⟩ := List.sublist_map_iff.mp hmembers
  obtain ⟨⟨u, _⟩, rest, rfl, rfl, hrest⟩ := List.map_eq_cons_iff.mp heq.symm
  obtain ⟨⟨u', _⟩, _, rfl, rfl, hnil⟩ := List.map_eq_cons_iff.mp hrest
  obtain rfl := List.map_eq_nil_iff.mp hnil
  -- a group begins at one moment only
  have hsounds : ∀ v x, (v, Member.group x) ∈ [(u, Member.group k), (u', Member.group k')] →
      s.SoundsAt layer v x := fun v x hx => ⟨list, hlist, hbeats.subset hx⟩
  obtain ⟨-, rfl⟩ := hk.unique (hsounds u k (by simp)) hs
  obtain ⟨-, rfl⟩ := hk'.unique (hsounds u' k' (by simp)) hs
  exact List.rel_of_pairwise_cons ((ascending_timeline hpos).2.sublist hbeats)
    List.mem_cons_self

/-- The groups of a list belong to later and later chords. -/
theorem Charted.pairwise_ahead (hc : s.Charted) (hs : s.Sound fits)
    (hlist : s.list? layer = some list) : list.Pairwise s.Ahead := by
  rw [List.pairwise_iff_forall_sublist]
  intro k k' hsub item index c item' index' c' hat hat' hk hk'
  obtain ⟨p, hp, rfl, hchord⟩ := exists_of_chordAt? hat
  obtain ⟨p', hp', rfl, hchord'⟩ := exists_of_chordAt? hat'
  obtain ⟨g, _, hbegins⟩ := hc.begins hs hp (List.mem_of_getElem? hchord) hk
  obtain ⟨g', _, hbegins'⟩ := hc.begins hs hp' (List.mem_of_getElem? hchord') hk'
  obtain rfl := hs.layer_unique hbegins.layer hbegins.mem hlist (hsub.subset (by simp))
  obtain ⟨hitem, hstaff, hvoice⟩ := Layer.mk.inj
    (hs.layer_unique hbegins'.layer hbegins'.mem hlist (hsub.subset (by simp)))
  obtain rfl := Placed.eq_of_item hp' hp hitem
  have hlayer' := hbegins'.layer
  rw [hstaff, hvoice] at hlayer'
  cases hlist.symm.trans hbegins.layer
  cases hlist.symm.trans hlayer'
  obtain ⟨hpos, hascending⟩ : (∀ b ∈ Chording.voiceBeats s.groups list, 0 < b.duration) ∧
      (p'.measure.chords.map (·.start)).Pairwise (· < ·) := by
    obtain ⟨-, hpos, -⟩ := Stream.fills_of_chords (hc p' hp) _
      (Placed.voiceBeats_mem hp hbegins.visible hbegins.layer)
    exact ⟨fun b hb => hpos _ (List.mem_map_of_mem hb),
      (Stream.aligned_of_chords (hc p' hp)).ascending⟩
  have hlt : c.start < c'.start := lt_of_sublist hs hlist hpos hsub
    (by rw [Arena.get_of_get? hbegins.get, hbegins.grace])
    (by rw [Arena.get_of_get? hbegins'.get, hbegins'.grace])
    ⟨list, hlist, hbegins.begins⟩ ⟨list, hlist, hbegins'.begins⟩
  exact .inr ⟨rfl, lt_of_pairwise (List.pairwise_map.mp hascending) hlt.not_gt
    (fun heq => hlt.ne (congrArg Chord.start heq)) hchord hchord'⟩

end Score

/-! ## Edits -/

theorem Stave.list?_of_setList {st : Stave} {v w : Nat} {new : Option (List GroupKey)}
    {list : List GroupKey} (h : (st.setList v new).list? w = some list) :
    v = w ∧ new = some list ∨ st.list? w = some list := by
  rw [list?, setList, PerVoice.get?_set] at h
  split at h
  next hvw =>
    cases hw : st.voices.get? w with
    | none => simp [hw] at h
    | some old => exact .inl ⟨hvw, by simpa [hw] using h⟩
  next => exact .inr h

namespace Score

variable {s t : Score} {layer other : Layer} {new : Option (List GroupKey)} {list : List GroupKey}

/-- Where another list is given to a layer that may not be there, any list is that or an old
one. -/
theorem list?_of_setVoiceList
    (h : (s.setVoiceList layer.item layer.staff layer.voice new).list? other = some list) :
    other = layer ∧ new = some list ∨ s.list? other = some list := by
  obtain ⟨m', st', hm', hst', hlist⟩ := list?_eq_some.mp h
  rw [setVoiceList, measureAt?_modifyMeasure] at hm'
  split at hm'
  next hitem =>
    obtain ⟨m, hm, rfl⟩ := Option.map_eq_some_iff.mp hm'
    rw [Measure.stave?_modifyStave _ _ (by simp)] at hst'
    split at hst'
    next hstaff =>
      obtain ⟨st, hst, rfl⟩ := Option.map_eq_some_iff.mp hst'
      refine (Stave.list?_of_setList hlist).imp (fun hnew => ⟨?_, hnew.2⟩) fun hold => ?_
      · cases other
        cases layer
        simp_all
      · exact list?_eq_some.mpr ⟨m, st, hitem ▸ hm, hstaff ▸ hst, hold⟩
    next => exact .inr (list?_eq_some.mpr ⟨m, st', hitem ▸ hm, hst', hlist⟩)
  next => exact .inr (list?_eq_some.mpr ⟨m', st', hm', hst', hlist⟩)

theorem chordAt?_setVoiceList (s : Score) (i staff voice : Nat) (new : Option (List GroupKey))
    (item index : Nat) : (s.setVoiceList i staff voice new).chordAt? item index =
      s.chordAt? item index := by
  rw [chordAt?, setVoiceList, measureAt?_modifyMeasure]
  split
  next hitem =>
    rw [chordAt?, hitem]
    cases s.measureAt? i <;> rfl
  next => rfl

/-- The groups of each list belong to later and later chords. -/
def Ordered (s : Score) : Prop := ∀ layer list, s.list? layer = some list → list.Pairwise s.Ahead

/-- Entries may be taken out of a list. -/
theorem Ordered.setVoiceList (h : s.Ordered) (hnew : ∀ list, new = some list →
    ∃ old, s.list? layer = some old ∧ list.Sublist old) :
    (s.setVoiceList layer.item layer.staff layer.voice new).Ordered := by
  intro other list hlist
  have hahead : (s.setVoiceList layer.item layer.staff layer.voice new).Ahead = s.Ahead := by
    unfold Ahead
    simp only [chordAt?_setVoiceList]
  rw [hahead]
  rcases list?_of_setVoiceList hlist with ⟨rfl, hsome⟩ | hold
  · obtain ⟨old, hold, hsub⟩ := hnew list hsome
    exact (h _ old hold).sublist hsub
  · exact h other list hold

/-- A score that `t` can be edited into: groups are changed in any way, entries taken out of voice
lists, voices made absent. What a group says need not go together any more: one that is made a
space may keep its notes, with their ties and slurs. -/
inductive Reworked (t : Score) : Score → Prop
  | start : Reworked t t
  | regroup {s : Score} (key : GroupKey) (f : Group → Group) :
      Reworked t s → Reworked t { s with groups := s.groups.modify key f }
  | unlist {s : Score} (layer : Layer) (index : Nat) :
      Reworked t s → Reworked t (s.edit (.unlist layer index))
  | silence {s : Score} (layer : Layer) : Reworked t s → Reworked t (s.edit (.silence layer))

theorem Reworked.ordered (ht : t.Chorded) (h : t.Reworked s) : s.Ordered := by
  induction h with
  | start => exact fun _ _ hlist => ht.charted.pairwise_ahead ht.sound hlist
  | regroup key f _ ih => exact ih
  | unlist layer index _ ih =>
    refine ih.setVoiceList fun list hlist => ?_
    obtain ⟨old, hold, rfl⟩ := Option.map_eq_some_iff.mp hlist
    exact ⟨old, hold, List.eraseIdx_sublist old index⟩
  | silence layer _ ih => exact ih.setVoiceList fun list hlist => by cases hlist

end Score

/-! ## Hands of any score -/

namespace Hand

/-- Somebody sits in a seat. -/
def Seats.Holds (seats : Seats) (k : GroupKey) : Prop :=
  ∃ row ∈ seats, ∃ v, (row.2.get? v).join = some k

theorem Seats.holds_of_set {voices : PerVoice (Option GroupKey)} {voice v : Nat} {key k : GroupKey}
    (h : ((voices.set voice (some key)).get? v).join = some k) :
    k = key ∨ (voices.get? v).join = some k := by
  rw [PerVoice.get?_set] at h
  split at h
  next =>
    cases hv : voices.get? v with
    | none => simp [hv] at h
    | some old => exact .inl (by simpa [hv, eq_comm] using h)
  next => exact .inr h

theorem Seats.holds_of_take {seats seats' : Seats} {staff voice : Nat} {key k : GroupKey}
    (h : seats.take staff voice key = some seats') (hk : seats'.Holds k) :
    k = key ∨ seats.Holds k := by
  have hnew : ∀ v, (((PerVoice.all none).set voice (some key)).get? v).join = some k → k = key :=
    fun v hv => (holds_of_set hv).resolve_right (by simp)
  induction seats generalizing seats' with
  | nil =>
    cases h
    obtain ⟨row, hrow, v, hv⟩ := hk
    obtain rfl := List.mem_singleton.mp hrow
    exact .inl (hnew v hv)
  | cons first rest ih =>
    obtain ⟨other, voices⟩ := first
    obtain ⟨row, hrow, v, hv⟩ := hk
    unfold take at h
    split at h
    · cases h
      rcases List.mem_cons.mp hrow with rfl | hrow
      · exact .inl (hnew v hv)
      · exact .inr ⟨row, hrow, v, hv⟩
    split at h
    · split at h
      · cases h
      · cases h
        rcases List.mem_cons.mp hrow with rfl | hrow
        · exact (holds_of_set hv).imp_right fun hv => ⟨_, List.mem_cons_self, v, hv⟩
        · exact .inr ⟨row, List.mem_cons_of_mem _ hrow, v, hv⟩
    · obtain ⟨others, hothers, rfl⟩ := Option.map_eq_some_iff.mp h
      rcases List.mem_cons.mp hrow with rfl | hrow
      · exact .inr ⟨_, List.mem_cons_self, v, hv⟩
      · refine (ih hothers ⟨row, hrow, v, hv⟩).imp_right ?_
        rintro ⟨row', hrow', hv'⟩
        exact ⟨row', List.mem_cons_of_mem _ hrow', hv'⟩

/-- The hand is of a chord of the score. -/
def Among (s : Score) (h : Hand) : Prop :=
  ∃ c, s.chordAt? h.item h.chord = some c ∧ ∀ v k, h.voice? v = some k → k ∈ c.groups

/-- The chord of one hand does not come after that of another. -/
def NotAfter (h h' : Hand) : Prop := h.item < h'.item ∨ h.item = h'.item ∧ h.chord ≤ h'.chord

variable {s : Score} {groups : Arena Group} {p : Placed} {c : Chord} {index : Nat}
  {hands : List Hand}

/-- The hands of a chord that can be seated have groups of that chord only. -/
theorem ofChord_spec (h : ofChord groups p c index = .ok hands) : ∀ hand ∈ hands,
    hand.item = p.item ∧ hand.chord = index ∧ ∀ v k, hand.voice? v = some k → k ∈ c.groups := by
  simp only [ofChord, bind_eq_ok, pure_eq_ok] at h
  obtain ⟨seats, hseats, rfl⟩ := h
  have hholds : (∀ k ∈ ([] : List GroupKey), k ∈ c.groups) ∧ ∀ k, seats.Holds k → k ∈ c.groups := by
    refine foldlM_induction (P := fun rest seats => (∀ k ∈ rest, k ∈ c.groups) ∧
      ∀ k, Seats.Holds seats k → k ∈ c.groups) (fun key rest seats seats' hP hseat => ?_) ?_ hseats
    · refine ⟨fun k hk => hP.1 k (List.mem_cons_of_mem key hk), fun k hk => ?_⟩
      unfold seat at hseat
      split at hseat
      · cases hseat
      split at hseat
      · cases hseat
      split at hseat
      · cases hseat
      next htake =>
        cases hseat
        rcases Seats.holds_of_take htake hk with rfl | hk
        · exact hP.1 k List.mem_cons_self
        · exact hP.2 k hk
    · exact ⟨fun k hk => hk, fun k hk => by simp [Seats.Holds] at hk⟩
  intro hand hhand
  obtain ⟨row, hrow, rfl⟩ := List.mem_map.mp hhand
  exact ⟨rfl, rfl, fun v k hk => hholds.2 k ⟨row, hrow, v, hk⟩⟩

theorem ofMeasure_spec (hp : p ∈ s.placed) (h : ofMeasure groups p = .ok hands) :
    (∀ hand ∈ hands, hand.item = p.item ∧ hand.Among s) ∧ hands.Pairwise NotAfter := by
  simp only [ofMeasure, bind_eq_ok, pure_eq_ok] at h
  obtain ⟨hss, hmap, rfl⟩ := h
  have hat : ∀ x ∈ p.measure.chords.zipIdx, s.chordAt? p.item x.2 = some x.1 := fun x hx => by
    rw [Score.chordAt?, Placed.measureAt?_item hp, Option.bind_some]
    exact List.mk_mem_zipIdx_iff_getElem?.mp hx
  constructor
  · intro hand hhand
    obtain ⟨hands, hhands, hhand⟩ := List.mem_flatten.mp hhand
    obtain ⟨x, hx, hof⟩ := mem_of_mapM hmap hhands
    obtain ⟨hitem, hchord, hgroups⟩ := ofChord_spec hof hand hhand
    exact ⟨hitem, x.1, by rw [hitem, hchord, hat x hx], hgroups⟩
  · refine pairwise_flatten_of_mapM (S := fun x y => x.2 < y.2) hmap (pairwise_zipIdx _) ?_ ?_
    · intro x hx hands hof
      refine List.pairwise_of_forall_mem_list fun h hh h' hh' => .inr ?_
      obtain ⟨hitem, hchord, -⟩ := ofChord_spec hof h hh
      obtain ⟨hitem', hchord', -⟩ := ofChord_spec hof h' hh'
      exact ⟨hitem.trans hitem'.symm, (hchord.trans hchord'.symm).le⟩
    · intro x hx y hy hlt hands hands' hof hof' h hh h' hh'
      obtain ⟨hitem, hchord, -⟩ := ofChord_spec hof h hh
      obtain ⟨hitem', hchord', -⟩ := ofChord_spec hof' h' hh'
      exact .inr ⟨hitem.trans hitem'.symm, by rw [hchord, hchord']; exact hlt.le⟩

end Hand

/-- The hands of any score that can be laid out come chord by chord. -/
theorem Layout.hands_spec {s : Score} {l : Layout} (h : Layout.of s = .ok l) :
    (∀ hand ∈ l.hands, hand.Among s) ∧ l.hands.Pairwise Hand.NotAfter := by
  simp only [Layout.of, bind_eq_ok, pure_eq_ok] at h
  obtain ⟨hss, hmap, rfl⟩ := h
  constructor
  · intro hand hhand
    obtain ⟨hands, hhands, hhand⟩ := List.mem_flatten.mp hhand
    obtain ⟨p, hp, hof⟩ := mem_of_mapM hmap hhands
    exact ((Hand.ofMeasure_spec hp hof).1 hand hhand).2
  · refine pairwise_flatten_of_mapM (S := fun p q => p.item < q.item) hmap
      (Placed.ascending_along 0 .start s.items)
      (fun p hp hands hof => (Hand.ofMeasure_spec hp hof).2)
      fun p hp q hq hlt hands hands' hof hof' h hh h' hh' => .inl ?_
    rw [((Hand.ofMeasure_spec hp hof).1 h hh).1, ((Hand.ofMeasure_spec hq hof').1 h' hh').1]
    exact hlt

end Divisi
