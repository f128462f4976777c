/-
The hands of a charted score.

No two groups of a chord are of one voice of one staff, since the beats of a stream
begin at different moments; so every chord can be seated, and a voice of a hand holds
the group of the chord that names its staff and its voice (`Hand.Seated`). A group is
in one hand at most, whatever else is in the score.
-/
import Divisi.Layout
import Divisi.Proofs.Layers
import Divisi.Proofs.Outcome

namespace Divisi

namespace Hand

/-! ## Seats -/

namespace Seats

/-- Who sits at a voice of a staff. -/
def at? (seats : Seats) (staff voice : Nat) : Option GroupKey :=
  (seats.lookup staff).bind fun voices => (voices.get? voice).join

def Ascending (seats : Seats) : Prop := (seats.map Prod.fst).Pairwise (· < ·)

/-- Somebody sits at each staff. -/
def Sounds (seats : Seats) : Prop := ∀ staff ∈ seats.map Prod.fst, ∃ v k, seats.at? staff v = some k

variable {seats : Seats} {staff voice : Nat} {key : GroupKey}

@[simp] theorem at?_nil : at? [] staff voice = none := rfl

theorem at?_cons (other : Nat) (voices : PerVoice (Option GroupKey)) :
    at? ((other, voices) :: seats) staff voice =
      if staff = other then (voices.get? voice).join else at? seats staff voice := by
  unfold at?
  rw [List.lookup_cons]
  by_cases h : staff = other
  · simp [h]
  · simp [h, beq_false_of_ne h]

theorem at?_of_lt (h : ∀ other ∈ seats.map Prod.fst, staff < other) : at? seats staff voice = none := by
  induction seats with
  | nil => rfl
  | cons row rest ih =>
    obtain ⟨other, voices⟩ := row
    simp only [List.map_cons, List.mem_cons, forall_eq_or_imp] at h
    rw [at?_cons, if_neg (Nat.ne_of_lt h.1)]
    exact ih h.2

theorem get?_join_set (voices : PerVoice (Option GroupKey)) (hv : 1 ≤ voice ∧ voice ≤ 3) (w : Nat) :
    ((voices.set voice (some key)).get? w).join =
      if w = voice then some key else (voices.get? w).join := by
  obtain ⟨x, hx⟩ := PerVoice.get?_isSome (p := voices) hv
  rw [PerVoice.get?_set]
  by_cases h : w = voice
  · subst h
    simp [hx]
  · simp [h, Ne.symm h]

@[simp] theorem get?_join_all (w : Nat) :
    ((PerVoice.all none : PerVoice (Option GroupKey)).get? w).join = none := by
  unfold PerVoice.get?
  split <;> rfl

/-- A free seat is taken, and nobody else moves. -/
theorem take_eq_some (key : GroupKey) (hasc : seats.Ascending) (hv : 1 ≤ voice ∧ voice ≤ 3)
    (hfree : seats.at? staff voice = none) :
    ∃ seats', seats.take staff voice key = some seats' ∧ seats'.Ascending ∧
      (∀ other ∈ seats'.map Prod.fst, other = staff ∨ other ∈ seats.map Prod.fst) ∧
      ∀ st v, seats'.at? st v = if st = staff ∧ v = voice then some key else seats.at? st v := by
  have hnew : ∀ (rest : Seats) (st v : Nat), at? rest staff v = none →
      at? ((staff, (PerVoice.all none).set voice (some key)) :: rest) st v =
        if st = staff ∧ v = voice then some key else at? rest st v := by
    intro rest st v hrest
    rw [at?_cons, get?_join_set _ hv, get?_join_all]
    by_cases hst : st = staff
    · subst hst
      simp [hrest]
    · simp [hst]
  induction seats with
  | nil =>
    refine ⟨_, rfl, by simp [Ascending], by simp, fun st v => ?_⟩
    exact hnew [] st v rfl
  | cons row rest ih =>
    obtain ⟨other, voices⟩ := row
    obtain ⟨hfirst, hrest⟩ := List.pairwise_cons.mp hasc
    unfold take
    split
    next hlt =>
      have hbefore : ∀ w ∈ ((other, voices) :: rest).map Prod.fst, staff < w := by
        simp only [List.map_cons, List.mem_cons, forall_eq_or_imp]
        exact ⟨hlt, fun w hw => hlt.trans (hfirst w hw)⟩
      refine ⟨_, rfl, List.pairwise_cons.mpr ⟨hbefore, hasc⟩, by simp, fun st v => ?_⟩
      exact hnew _ st v (at?_of_lt hbefore)
    next hge =>
      split
      next heq =>
        subst heq
        rw [at?_cons, if_pos rfl] at hfree
        rw [hfree]
        refine ⟨_, rfl, List.pairwise_cons.mpr ⟨hfirst, hrest⟩, by simp, fun st v => ?_⟩
        rw [at?_cons, at?_cons, get?_join_set _ hv]
        by_cases hst : st = staff
        · simp [hst]
        · simp [hst]
      next hne =>
        rw [at?_cons, if_neg hne] at hfree
        obtain ⟨seats', htake, hasc', hstaffs, hat⟩ := ih hrest hfree
        refine ⟨(other, voices) :: seats', by rw [htake, Option.map_some], ?_, ?_, fun st v => ?_⟩
        · refine List.pairwise_cons.mpr ⟨fun w hw => ?_, hasc'⟩
          rcases hstaffs w hw with rfl | hw
          · change other < w
            omega
          · exact hfirst w hw
        · intro w hw
          rcases List.mem_cons.mp hw with rfl | hw
          · simp
          · rcases hstaffs w hw with rfl | hw
            · simp
            · simp [hw]
        · rw [at?_cons, at?_cons, hat]
          by_cases hst : st = other
          · subst hst
            rw [if_pos rfl, if_pos rfl, if_neg]
            exact fun h => hne h.1.symm
          · rw [if_neg hst, if_neg hst]

end Seats

/-- The place of a group: its staff and its voice. -/
def placeOf (groups : Arena Group) (key : GroupKey) : Nat × Nat :=
  ((groups.get key).staff, (groups.get key).voice)

theorem seat_ok {groups : Arena Group} (measure : Nat) (start : Time) {key : GroupKey} {g : Group}
    (hg : groups.get? key = some g) (hvoice : 1 ≤ g.voice ∧ g.voice ≤ maxVoices) {seats : Seats}
    (hasc : seats.Ascending)
    (hfree : seats.at? (placeOf groups key).1 (placeOf groups key).2 = none) :
    ∃ seats', seat groups measure start seats key = .ok seats' ∧ seats'.Ascending ∧
      (seats.Sounds → seats'.Sounds) ∧ ∀ st v, seats'.at? st v =
        if placeOf groups key = (st, v) then some key else seats.at? st v := by
  have hplace : placeOf groups key = (g.staff, g.voice) := by
    rw [placeOf, Arena.get_of_get? hg]
  rw [hplace] at hfree
  obtain ⟨seats', htake, hasc', hstaffs, hat⟩ := Seats.take_eq_some key hasc hvoice hfree
  have hat : ∀ st v, seats'.at? st v =
      if placeOf groups key = (st, v) then some key else seats.at? st v := by
    intro st v
    rw [hat, hplace]
    simp only [Prod.mk.injEq, eq_comm]
  refine ⟨seats', ?_, hasc', fun hsounds st hst => ?_, hat⟩
  · simp only [seat, hg, hvoice, and_self, not_true_eq_false, if_false, htake]
  · rcases hstaffs st hst with rfl | hst
    · exact ⟨g.voice, key, by rw [hat, if_pos hplace]⟩
    · obtain ⟨v, k, hk⟩ := hsounds st hst
      by_cases hsv : placeOf groups key = (st, v)
      · exact ⟨v, key, by rw [hat, if_pos hsv]⟩
      · exact ⟨v, k, by rw [hat, if_neg hsv, hk]⟩

theorem foldlM_seat {groups : Arena Group} (measure : Nat) (start : Time) {keys : List GroupKey}
    (hlive : ∀ k ∈ keys, ∃ g, groups.get? k = some g ∧ 1 ≤ g.voice ∧ g.voice ≤ maxVoices)
    (hplaces : (keys.map (placeOf groups)).Nodup) {seats : Seats} (hasc : seats.Ascending)
    (hfree : ∀ k ∈ keys, seats.at? (placeOf groups k).1 (placeOf groups k).2 = none) :
    ∃ seats', keys.foldlM (seat groups measure start) seats = .ok seats' ∧ seats'.Ascending ∧
      (seats.Sounds → seats'.Sounds) ∧ ∀ st v k, seats'.at? st v = some k ↔
        seats.at? st v = some k ∨ k ∈ keys ∧ placeOf groups k = (st, v) := by
  induction keys generalizing seats with
  | nil => exact ⟨seats, rfl, hasc, id, by simp⟩
  | cons key rest ih =>
    simp only [List.mem_cons, forall_eq_or_imp, List.map_cons, List.nodup_cons] at hlive hplaces hfree
    obtain ⟨⟨g, hg, hvoice⟩, hlive⟩ := hlive
    obtain ⟨seats', hseat, hasc', hsounds, hat⟩ := seat_ok measure start hg hvoice hasc hfree.1
    have hapart : ∀ k ∈ rest, placeOf groups key ≠ placeOf groups k := fun k hk heq =>
      hplaces.1 (List.mem_map.mpr ⟨k, hk, heq.symm⟩)
    obtain ⟨seats'', hfold, hasc'', hsounds', hat'⟩ := ih hlive hplaces.2 hasc' fun k hk => by
      rw [hat, if_neg (hapart k hk), hfree.2 k hk]
    refine ⟨seats'', by simp only [List.foldlM_cons, hseat, bind, Except.bind, hfold], hasc'',
      hsounds' ∘ hsounds, fun st v k => ?_⟩
    rw [hat', hat]
    by_cases hplace : placeOf groups key = (st, v)
    · have hnone : seats.at? st v = none := by simpa [hplace] using hfree.1
      have hout : ∀ k ∈ rest, placeOf groups k ≠ (st, v) := fun k hk heq =>
        hapart k hk (hplace.trans heq.symm)
      rw [if_pos hplace, hnone]
      constructor
      · rintro (heq | ⟨hk, hpk⟩)
        · exact .inr (Option.some.inj heq ▸ ⟨List.mem_cons_self, hplace⟩)
        · exact absurd hpk (hout k hk)
      · rintro (hk | ⟨hk, hpk⟩)
        · cases hk
        · rcases List.mem_cons.mp hk with rfl | hk
          · exact .inl rfl
          · exact absurd hpk (hout k hk)
    · rw [if_neg hplace]
      refine or_congr_right ⟨fun hk => ⟨List.mem_cons_of_mem _ hk.1, hk.2⟩, fun hk => ?_⟩
      refine ⟨(List.mem_cons.mp hk.1).resolve_left ?_, hk.2⟩
      rintro rfl
      exact hplace hk.2

theorem Seats.at?_of_mem {seats : Seats} (hasc : seats.Ascending) {staff : Nat}
    {voices : PerVoice (Option GroupKey)} (h : (staff, voices) ∈ seats) (v : Nat) :
    seats.at? staff v = (voices.get? v).join := by
  induction seats with
  | nil => simp at h
  | cons row rest ih =>
    obtain ⟨other, others⟩ := row
    obtain ⟨hfirst, hrest⟩ := List.pairwise_cons.mp hasc
    rw [Seats.at?_cons]
    rcases List.mem_cons.mp h with h | h
    · cases h
      rw [if_pos rfl]
    · have hlt : other < staff := hfirst staff (List.mem_map_of_mem h)
      rw [if_neg (Nat.ne_of_gt hlt)]
      exact ih hrest h

theorem Seats.mem_of_at? {seats : Seats} {staff v : Nat} {k : GroupKey}
    (h : seats.at? staff v = some k) : ∃ voices, (staff, voices) ∈ seats ∧
      (voices.get? v).join = some k := by
  obtain ⟨voices, hvoices, hk⟩ := Option.bind_eq_some_iff.mp h
  obtain ⟨before, after, rfl, -⟩ := List.lookup_eq_some_iff.mp hvoices
  exact ⟨voices, by simp, hk⟩

/-! ## Hands -/

/-- What a hand of a chord is. -/
structure Seated (s : Score) (p : Placed) (c : Chord) (h : Hand) : Prop where
  item : h.item = p.item
  measure : h.measure = p.measure.number
  chord : p.measure.chords[h.chord]? = some c
  request : h.request = p.inForce.request h.staff
  /-- Each voice holds the group of the chord that names it. -/
  voice?_iff : ∀ v k, h.voice? v = some k ↔ k ∈ c.groups ∧ placeOf s.groups k = (h.staff, v)

section Score

variable {fits : Group → Prop} {s : Score} {p : Placed} {c : Chord} {i : Nat} {hands : List Hand}

theorem members_nodup (hs : s.Sound fits) (hc : s.Charted) (hp : p ∈ s.placed) :
    (p.measure.chords.flatMap (·.members)).Nodup := by
  rw [(Stream.members_perm_of_chords (hc p hp)).nodup_iff]
  exact hs.members_nodup (Placed.measure_mem hp) p.inForce

theorem groups_nodup (hs : s.Sound fits) (hc : s.Charted) (hp : p ∈ s.placed)
    (hchord : c ∈ p.measure.chords) : c.groups.Nodup := by
  refine List.Nodup.filterMap ?_ ((List.nodup_flatMap.mp (members_nodup hs hc hp)).1 c hchord)
  intro m m' k hm hm'
  cases m <;> cases m' <;> simp_all

theorem exists_ofChord (hs : s.Sound fits) (hc : s.Charted) (hp : p ∈ s.placed)
    (hchord : p.measure.chords[i]? = some c) :
    ∃ hands, ofChord s.groups p c i = .ok hands ∧ (hands.map (·.staff)).Pairwise (· < ·) ∧
      (∀ h ∈ hands, h.chord = i ∧ h.Seated s p c ∧ ∃ v k, h.voice? v = some k) ∧
      ∀ k ∈ c.groups, ∃ h ∈ hands, h.voice? (s.groups.get k).voice = some k := by
  have hmem := List.mem_of_getElem? hchord
  have hlive : ∀ k ∈ c.groups, ∃ g, s.groups.get? k = some g ∧ 1 ≤ g.voice ∧
      g.voice ≤ maxVoices := by
    intro k hk
    obtain ⟨g, list, hbegins⟩ := hc.begins hs hp hmem hk
    exact ⟨g, hbegins.get, Score.le_of_list? hbegins.layer⟩
  have hplaces : (c.groups.map (placeOf s.groups)).Nodup := by
    refine List.Nodup.map_on (fun k hk l hl heq => ?_) (groups_nodup hs hc hp hmem)
    obtain ⟨g, list, hk⟩ := hc.begins hs hp hmem hk
    obtain ⟨g', list', hl⟩ := hc.begins hs hp hmem hl
    rw [placeOf, placeOf, Arena.get_of_get? hk.get, Arena.get_of_get? hl.get, Prod.mk.injEq] at heq
    exact hc.begins_unique hp hk hl heq.1 heq.2
  obtain ⟨seats, hfold, hasc, hsounds, hat⟩ := foldlM_seat p.measure.number c.start hlive hplaces
    (show Seats.Ascending [] from .nil) (by simp)
  have hat : ∀ st v k, seats.at? st v = some k ↔ k ∈ c.groups ∧ placeOf s.groups k = (st, v) := by
    simpa using hat
  refine ⟨_, by simp only [ofChord, hfold, bind, Except.bind]; rfl, ?_, ?_, ?_⟩
  · rw [List.map_map]
    exact hasc
  · intro h hh
    obtain ⟨⟨staff, voices⟩, hrow, rfl⟩ := List.mem_map.mp hh
    refine ⟨rfl, ⟨rfl, rfl, hchord, rfl, fun v k => ?_⟩, ?_⟩
    · rw [← hat, Seats.at?_of_mem hasc hrow]
      rfl
    · obtain ⟨v, k, hk⟩ := hsounds (by simp [Seats.Sounds]) staff (List.mem_map_of_mem hrow)
      rw [Seats.at?_of_mem hasc hrow] at hk
      exact ⟨v, k, hk⟩
  · intro k hk
    obtain ⟨voices, hrow, hv⟩ := Seats.mem_of_at? ((hat _ _ k).mpr ⟨hk, rfl⟩)
    exact ⟨_, List.mem_map_of_mem hrow, hv⟩

theorem exists_ofMeasure (hs : s.Sound fits) (hc : s.Charted) (hp : p ∈ s.placed) :
    ∃ hands, ofMeasure s.groups p = .ok hands ∧
      (∀ h ∈ hands, (∃ c, h.Seated s p c) ∧ ∃ v k, h.voice? v = some k) ∧
      hands.Pairwise (fun h h' => h.chord < h'.chord ∨ h.chord = h'.chord ∧ h.staff < h'.staff) ∧
      ∀ c ∈ p.measure.chords, ∀ k ∈ c.groups, ∃ h ∈ hands,
        h.voice? (s.groups.get k).voice = some k := by
  have hat : ∀ x ∈ p.measure.chords.zipIdx, p.measure.chords[x.2]? = some x.1 :=
    fun x hx => List.mk_mem_zipIdx_iff_getElem?.mp hx
  obtain ⟨hss, hmap⟩ := mapM_total (f := fun x => ofChord s.groups p x.1 x.2) fun x hx =>
    (exists_ofChord hs hc hp (hat x hx)).imp fun _ h => h.1
  refine ⟨hss.flatten, by simp only [ofMeasure, hmap, bind, Except.bind]; rfl, ?_, ?_, ?_⟩
  · intro h hh
    obtain ⟨hands, hhands, hh⟩ := List.mem_flatten.mp hh
    obtain ⟨x, hx, hofx⟩ := mem_of_mapM hmap hhands
    obtain ⟨hands', hof, -, hseated, -⟩ := exists_ofChord hs hc hp (hat x hx)
    cases hof.symm.trans hofx
    exact ⟨⟨x.1, (hseated h hh).2.1⟩, (hseated h hh).2.2⟩
  · refine pairwise_flatten_of_mapM (S := fun x y => x.2 < y.2) hmap (pairwise_zipIdx _) ?_ ?_
    · intro x hx hands hofx
      obtain ⟨hands', hof, hasc, hseated, -⟩ := exists_ofChord hs hc hp (hat x hx)
      cases hof.symm.trans hofx
      refine (List.pairwise_map.mp hasc).imp_of_mem fun hh hh' hlt => .inr ⟨?_, hlt⟩
      rw [(hseated _ hh).1, (hseated _ hh').1]
    · intro x hx y hy hlt hands hands' hofx hofy h hh h' hh'
      obtain ⟨hands₁, hof, -, hseated, -⟩ := exists_ofChord hs hc hp (hat x hx)
      cases hof.symm.trans hofx
      obtain ⟨hands₂, hof, -, hseated', -⟩ := exists_ofChord hs hc hp (hat y hy)
      cases hof.symm.trans hofy
      left
      rwa [(hseated h hh).1, (hseated' h' hh').1]
  · intro c hchord k hk
    obtain ⟨i, hi⟩ := List.getElem?_of_mem hchord
    obtain ⟨hands, hof, -, -, hcomplete⟩ := exists_ofChord hs hc hp hi
    obtain ⟨hands', hhands', hof'⟩ :=
      exists_of_mapM hmap (x := (c, i)) (List.mk_mem_zipIdx_iff_getElem?.mpr hi)
    cases hof.symm.trans hof'
    obtain ⟨h, hh, hv⟩ := hcomplete k hk
    exact ⟨h, List.mem_flatten.mpr ⟨hands, hhands', hh⟩, hv⟩

end Score

/-- One hand comes before another: in time, and from the first staff down. -/
def Precedes (h h' : Hand) : Prop := h.item < h'.item ∨
  h.item = h'.item ∧ (h.chord < h'.chord ∨ h.chord = h'.chord ∧ h.staff < h'.staff)

theorem Precedes.ne {h h' : Hand} (hp : h.Precedes h') :
    (h.item, h.chord, h.staff) ≠ (h'.item, h'.chord, h'.staff) := by
  simp only [Precedes, ne_eq, Prod.mk.injEq] at hp ⊢
  omega

end Hand

/-! ## Layouts -/

theorem eq_of_nodup_flatMap {α β : Type} {f : α → List β} {xs : List α}
    (h : (xs.flatMap f).Nodup) {i j : Nat} {a b : α} {x : β} (hi : xs[i]? = some a)
    (hj : xs[j]? = some b) (ha : x ∈ f a) (hb : x ∈ f b) : i = j := by
  obtain ⟨hilt, rfl⟩ := List.getElem?_eq_some_iff.mp hi
  obtain ⟨hjlt, rfl⟩ := List.getElem?_eq_some_iff.mp hj
  have hpairs := List.pairwise_iff_getElem.mp (List.nodup_flatMap.mp h).2
  rcases Nat.lt_trichotomy i j with hlt | heq | hlt
  · exact absurd hb (hpairs i j hilt hjlt hlt ha)
  · exact heq
  · exact absurd ha (hpairs j i hjlt hilt hlt hb)

namespace Layout

/-- What a layout is of. -/
structure LaidOut (s : Score) (l : Layout) : Prop where
  seated : ∀ h ∈ l.hands, ∃ p ∈ s.placed, ∃ c, h.Seated s p c
  sounds : ∀ h ∈ l.hands, ∃ v k, h.voice? v = some k
  ordered : l.hands.Pairwise Hand.Precedes
  /-- Every group of a chord is in a hand. -/
  complete : ∀ p ∈ s.placed, ∀ c ∈ p.measure.chords, ∀ k ∈ c.groups,
    ∃ h ∈ l.hands, h.voice? (s.groups.get k).voice = some k
  lines : l.lines = (staffs s).flatMap fun staff => [1, 2, 3].map (line s l.hands staff)

variable {fits : Group → Prop} {s : Score} {l : Layout}

/-- A charted score can be laid out. -/
theorem exists_of (hs : s.Sound fits) (hc : s.Charted) : ∃ l, of s = .ok l ∧ l.LaidOut s := by
  obtain ⟨hss, hmap⟩ := mapM_total fun p hp => (Hand.exists_ofMeasure hs hc hp).imp fun _ h => h.1
  have hmeasure : ∀ {h}, h ∈ hss.flatten → ∃ p ∈ s.placed, ∃ hands,
      Hand.ofMeasure s.groups p = .ok hands ∧ h ∈ hands := by
    intro h hh
    obtain ⟨hands, hhands, hh⟩ := List.mem_flatten.mp hh
    obtain ⟨p, hp, hof⟩ := mem_of_mapM hmap hhands
    exact ⟨p, hp, hands, hof, hh⟩
  refine ⟨_, by simp only [of, hmap, bind, Except.bind]; rfl, ?_, ?_, ?_, ?_, rfl⟩
  · intro h hh
    obtain ⟨p, hp, hands, hofp, hh⟩ := hmeasure hh
    obtain ⟨hands', hof, hseated, -⟩ := Hand.exists_ofMeasure hs hc hp
    cases hof.symm.trans hofp
    exact ⟨p, hp, (hseated h hh).1⟩
  · intro h hh
    obtain ⟨p, hp, hands, hofp, hh⟩ := hmeasure hh
    obtain ⟨hands', hof, hseated, -⟩ := Hand.exists_ofMeasure hs hc hp
    cases hof.symm.trans hofp
    exact (hseated h hh).2
  · refine pairwise_flatten_of_mapM (S := fun p q => p.item < q.item) hmap
      (Placed.ascending_along 0 .start s.items) ?_ ?_
    · intro p hp hands hofp
      obtain ⟨hands', hof, hseated, hordered, -⟩ := Hand.exists_ofMeasure hs hc hp
      cases hof.symm.trans hofp
      refine hordered.imp_of_mem fun hh hh' hbefore => .inr ⟨?_, hbefore⟩
      obtain ⟨⟨c, hh⟩, -⟩ := hseated _ hh
      obtain ⟨⟨c', hh'⟩, -⟩ := hseated _ hh'
      rw [hh.item, hh'.item]
    · intro p hp q hq hlt hands hands' hofp hofq h hh h' hh'
      obtain ⟨hands₁, hof, hseated, -⟩ := Hand.exists_ofMeasure hs hc hp
      cases hof.symm.trans hofp
      obtain ⟨hands₂, hof, hseated', -⟩ := Hand.exists_ofMeasure hs hc hq
      cases hof.symm.trans hofq
      obtain ⟨⟨c, hh⟩, -⟩ := hseated h hh
      obtain ⟨⟨c', hh'⟩, -⟩ := hseated' h' hh'
      left
      rwa [hh.item, hh'.item]
  · intro p hp c hchord k hk
    obtain ⟨hands, hof, -, -, hcomplete⟩ := Hand.exists_ofMeasure hs hc hp
    obtain ⟨hands', hhands', hof'⟩ := exists_of_mapM hmap hp
    cases hof.symm.trans hof'
    obtain ⟨h, hh, hv⟩ := hcomplete c hchord k hk
    exact ⟨h, List.mem_flatten.mpr ⟨hands, hhands', hh⟩, hv⟩

namespace LaidOut

variable {h h' : Hand} {v v' n n' : Nat} {k : GroupKey}

/-- What a group in a hand is. -/
theorem begins (hl : l.LaidOut s) (hs : s.Sound fits) (hc : s.Charted) (hh : h ∈ l.hands)
    (hk : h.voice? v = some k) : ∃ p ∈ s.placed, ∃ c g list, h.Seated s p c ∧
      p.Begins s c k g list ∧ g.staff = h.staff ∧ g.voice = v := by
  obtain ⟨p, hp, c, hseated⟩ := hl.seated h hh
  obtain ⟨hkc, hplace⟩ := (hseated.voice?_iff v k).mp hk
  obtain ⟨g, list, hbegins⟩ := hc.begins hs hp (List.mem_of_getElem? hseated.chord) hkc
  rw [Hand.placeOf, Arena.get_of_get? hbegins.get] at hplace
  exact ⟨p, hp, c, g, list, hseated, hbegins, (Prod.mk.inj hplace).1, (Prod.mk.inj hplace).2⟩

/-- A group is in one hand only, and at one voice of it. -/
theorem hand_unique (hl : l.LaidOut s) (hs : s.Sound fits) (hc : s.Charted)
    (hn : l.hands[n]? = some h) (hn' : l.hands[n']? = some h') (hk : h.voice? v = some k)
    (hk' : h'.voice? v' = some k) : n = n' ∧ v = v' := by
  obtain ⟨p, hp, c, g, list, hseated, hbegins, hstaff, hvoice⟩ :=
    hl.begins hs hc (List.mem_of_getElem? hn) hk
  obtain ⟨q, hq, d, g', list', hseated', hbegins', hstaff', hvoice'⟩ :=
    hl.begins hs hc (List.mem_of_getElem? hn') hk'
  cases hbegins.get.symm.trans hbegins'.get
  have hpq : p = q := hs.measure_eq hp hq (hbegins.measure.symm.trans hbegins'.measure)
  subst hpq
  -- one group, so one chord of the measure
  have hchord : h.chord = h'.chord := by
    have hmembers := Hand.members_nodup hs hc hp
    refine eq_of_nodup_flatMap hmembers hseated.chord hseated'.chord (x := .group k) ?_ ?_
    · exact Chord.mem_groups.mp ((hseated.voice?_iff v k).mp hk).1
    · exact Chord.mem_groups.mp ((hseated'.voice?_iff v' k).mp hk').1
  refine ⟨?_, hvoice.symm.trans hvoice'⟩
  have hlt : n < (l.hands.map fun h => (h.item, h.chord, h.staff)).length := by
    rw [List.length_map]
    exact (List.getElem?_eq_some_iff.mp hn).1
  refine (List.getElem?_inj hlt (List.pairwise_map.mpr (hl.ordered.imp Hand.Precedes.ne))).mp ?_
  rw [List.getElem?_map, List.getElem?_map, hn, hn', Option.map_some, Option.map_some,
    hseated.item, hseated'.item, hchord, ← hstaff, hstaff']

end LaidOut

end Layout

end Divisi
