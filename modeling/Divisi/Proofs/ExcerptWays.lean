/-
The ways of an excerpt.

The hands of an excerpt are those of the whole score that it holds, in their order, and a line of
the excerpt is the beginning of a line of the whole score. Where nothing leads on over the
barline that the excerpt ends with, two groups of the excerpt agree in it just where they agree in
the whole score (`Excerpt.agrees_eq`).
-/
import Divisi.Proofs.Barlines
import Divisi.Proofs.ExcerptMerges

namespace Divisi

/-! ## Places in a filtered list -/

section Rank

variable {α : Type} {p q : α → Bool} {xs : List α} {n i : Nat} {a b : α}

theorem getElem?_filter_rank (h : xs[n]? = some a) (hp : p a = true) :
    (xs.filter p)[(xs.take n).countP p]? = some a := by
  induction xs generalizing n with
  | nil => simp at h
  | cons x rest ih =>
    cases n with
    | zero =>
      obtain rfl : x = a := by simpa using h
      rw [List.filter_cons_of_pos hp]
      rfl
    | succ n => by_cases hx : p x = true <;> simpa [hx] using ih h

theorem exists_of_filter (h : (xs.filter p)[i]? = some a) :
    ∃ n, xs[n]? = some a ∧ p a = true ∧ (xs.take n).countP p = i := by
  induction xs generalizing i with
  | nil => simp at h
  | cons x rest ih =>
    by_cases hx : p x = true
    · rw [List.filter_cons_of_pos hx] at h
      cases i with
      | zero =>
        obtain rfl : x = a := by simpa using h
        exact ⟨0, rfl, hx, rfl⟩
      | succ i =>
        obtain ⟨n, hn, ha, hrank⟩ := ih h
        exact ⟨n + 1, hn, ha, by simp [hx, hrank]⟩
    · rw [List.filter_cons_of_neg hx] at h
      obtain ⟨n, hn, ha, hrank⟩ := ih h
      exact ⟨n + 1, hn, ha, by simp [hx, hrank]⟩

theorem rank_inj (h : xs[n]? = some a) (ha : p a = true) (h' : xs[i]? = some b) (hb : p b = true)
    (heq : (xs.take n).countP p = (xs.take i).countP p) : n = i := by
  induction xs generalizing n i with
  | nil => simp at h
  | cons x rest ih =>
    cases n with
    | zero =>
      cases i with
      | zero => rfl
      | succ i =>
        obtain rfl : x = a := by simpa using h
        simp [ha] at heq
    | succ n =>
      cases i with
      | zero =>
        obtain rfl : x = b := by simpa using h'
        simp [hb] at heq
      | succ i =>
        simp only [List.take_succ_cons, List.countP_cons, Nat.add_right_cancel_iff] at heq
        rw [ih h h' heq]

theorem findIdx?_filter (h : ∀ a ∈ xs, q a = true → p a = true) :
    (xs.filter p).findIdx? q = (xs.findIdx? q).map fun n => (xs.take n).countP p := by
  induction xs with
  | nil => rfl
  | cons x rest ih =>
    simp only [List.mem_cons, forall_eq_or_imp] at h
    rw [List.findIdx?_cons]
    by_cases hq : q x = true
    · rw [List.filter_cons_of_pos (h.1 hq), List.findIdx?_cons, if_pos hq, if_pos hq]
      rfl
    · by_cases hp : p x = true
      · rw [List.filter_cons_of_pos hp, List.findIdx?_cons, if_neg hq, if_neg hq, ih h.2,
          Option.map_map, Option.map_map]
        congr 1
        funext n
        simp [hp]
      · rw [List.filter_cons_of_neg hp, if_neg hq, ih h.2, Option.map_map]
        congr 1
        funext n
        simp [hp]

end Rank

namespace Excerpt

open Layout

variable (x : Excerpt)

/-- Those of some hands that are of the excerpt. -/
def hands (hands : List Hand) : List Hand := (hands.filter x.holds).map x.hand

/-- The place of a hand among those of the excerpt. -/
def rank (hands : List Hand) (n : Nat) : Nat := (hands.take n).countP x.holds

/-- The excerpt, laid out as the whole score is. -/
def layout (l : Layout) : Layout :=
  { hands := x.hands l.hands
    lines := (Layout.staffs x.score).flatMap fun staff =>
      [1, 2, 3].map (line x.score (x.hands l.hands) staff) }

/-- A stop on a line of the excerpt. -/
def stop (hands : List Hand) (y : Stop) : Stop := { y with hand := y.hand.map (x.rank hands) }

variable {x} {fits : Group → Prop} {l : Layout} {h : Hand} {staff voice n : Nat} {k : GroupKey}

theorem lined (l : Layout) : (x.layout l).Lined x.score := rfl

/-! ## Hands -/

theorem getElem?_hands {hands : List Hand} (hn : hands[n]? = some h) (hh : x.holds h = true) :
    (x.hands hands)[x.rank hands n]? = some (x.hand h) := by
  rw [Excerpt.hands, List.getElem?_map, rank, getElem?_filter_rank hn hh, Option.map_some]

theorem mem_keys_iff (hl : l.LaidOut x.whole) (hs : x.whole.Sound fits) (hc : x.whole.Charted)
    (hh : h ∈ l.hands) {v : Nat} (hk : h.voice? v = some k) : k ∈ x.keys ↔ x.holds h = true := by
  obtain ⟨-, list, hlist, hmem⟩ := (hl.stands hs hc).main h hh v k hk
  exact (fits_whole hs _ list k hlist hmem).trans holds_iff.symm

theorem handOf?_hands (hl : l.LaidOut x.whole) (hs : x.whole.Sound fits) (hc : x.whole.Charted)
    (hk : k ∈ x.keys) : handOf? (x.hands l.hands) k = (handOf? l.hands k).map (x.rank l.hands) := by
  have hholds : (fun h : Hand => h.holds k) ∘ x.hand = fun h => h.holds k := rfl
  rw [handOf?, Excerpt.hands, List.findIdx?_map, hholds]
  refine findIdx?_filter fun h hh hk' => ?_
  obtain ⟨v, hv⟩ := exists_of_holds hk'
  exact (mem_keys_iff hl hs hc hh hv).mp hk

/-! ## Lines -/

theorem mem_keys_of_measure {m : Measure} {st : Stave} {list : List GroupKey}
    (hm : m ∈ x.whole.measures.take x.length) (hst : m.stave? staff = some st)
    (hstaff : x.staffs staff = true) (hlist : st.list? voice = some list) (hk : k ∈ list) :
    k ∈ x.keys := by
  obtain ⟨hmem, rfl⟩ := Measure.mem_of_stave? hst
  exact List.mem_flatMap.mpr ⟨x.measure m, List.mem_map_of_mem hm, List.mem_flatMap.mpr
    ⟨stave st, mem_staves_measure.mpr ⟨st, hmem, hstaff, rfl⟩,
      List.mem_flatMap.mpr ⟨_, Stave.mem_present.mpr hlist, hk⟩⟩⟩

theorem filter_grace {list : List GroupKey} (h : ∀ k ∈ list, k ∈ x.keys) :
    (list.filter fun key => !(x.score.groups.get key).grace) =
      list.filter fun key => !(x.whole.groups.get key).grace :=
  List.filter_congr fun k hk => by rw [of_whole.get (h k hk)]

theorem beatsAt_score (hn : n < x.length) (hstaff : x.staffs staff = true) (voice : Nat) :
    x.score.beatsAt staff voice n = x.whole.beatsAt staff voice n := by
  rw [Score.beatsAt, Score.beatsAt, measures_score, measures, List.getElem?_map,
    List.getElem?_take_of_lt hn]
  cases hm : x.whole.measures[n]? with
  | none => rfl
  | some m =>
    have hmem : m ∈ x.whole.measures.take x.length := by
      refine List.mem_of_getElem? (i := n) ?_
      rw [List.getElem?_take_of_lt hn, hm]
    simp only [Option.map_some, Option.bind_some, stave?_measure, if_pos hstaff]
    cases hst : m.stave? staff with
    | none => rfl
    | some st =>
      simp only [Option.map_some, Option.bind_some, list?_stave]
      cases hlist : st.list? voice with
      | none => rfl
      | some list => exact filter_grace fun k hk => mem_keys_of_measure hmem hst hstaff hlist hk

theorem of_beatsAt_score (hk : k ∈ x.score.beatsAt staff voice n) :
    n < x.length ∧ x.staffs staff = true := by
  obtain ⟨m, st, list, hm, hst, -⟩ := Score.mem_beatsAt.mp hk
  rw [measures_score, measures, List.getElem?_map] at hm
  obtain ⟨m₀, hm₀, rfl⟩ := Option.map_eq_some_iff.mp hm
  rw [List.getElem?_take] at hm₀
  rw [stave?_measure] at hst
  constructor
  · by_contra hn
    simp [hn] at hm₀
  · by_contra hstaff
    simp [hstaff] at hst

/-- The part of a line that stands in the excerpt. -/
def lineOf (x : Excerpt) (hands : List Hand) (staff voice : Nat) : List Stop :=
  lineFrom x.whole hands staff voice 0 (x.whole.measures.take x.length)

/-- The part of a line behind the excerpt. -/
def lineBehind (x : Excerpt) (hands : List Hand) (staff voice : Nat) : List Stop :=
  lineFrom x.whole hands staff voice x.length (x.whole.measures.drop x.length)

theorem line_eq_append (hands : List Hand) (staff voice : Nat) : line x.whole hands staff voice =
    x.lineOf hands staff voice ++ x.lineBehind hands staff voice := by
  have hzip : x.whole.measures.zipIdx = (x.whole.measures.take x.length).zipIdx ++
      (x.whole.measures.drop x.length).zipIdx x.length := by
    conv_lhs => rw [← List.take_append_drop x.length x.whole.measures]
    rw [List.zipIdx_append, Nat.zero_add, List.length_take]
    rcases Nat.le_total x.length x.whole.measures.length with hle | hle
    · rw [Nat.min_eq_left hle]
    · simp [List.drop_eq_nil_of_le hle]
  rw [line, hzip, List.flatMap_append]
  rfl

/-- **A line of the excerpt** is the beginning of a line of the whole score. -/
theorem line_score (hl : l.LaidOut x.whole) (hs : x.whole.Sound fits) (hc : x.whole.Charted)
    (hstaff : x.staffs staff = true) (voice : Nat) : line x.score (x.hands l.hands) staff voice =
      (x.lineOf l.hands staff voice).map (x.stop l.hands) := by
  rw [line, measures_score, measures, List.zipIdx_map, List.flatMap_map, lineOf, lineFrom,
    List.map_flatMap]
  refine List.flatMap_congr fun e hm => ?_
  obtain ⟨m, n⟩ := e
  have hmem : m ∈ x.whole.measures.take x.length := List.fst_mem_of_mem_zipIdx hm
  have hasc := (hs.measures m (List.mem_of_mem_take hmem)).ascending
  have hasc' : ((x.measure m).staves.map (·.staff)).Pairwise (· < ·) := by
    refine ((sound hs).measures (x.measure m) ?_).ascending
    rw [measures_score]
    exact List.mem_map_of_mem hmem
  simp only [Prod.map, id, stops]
  rw [Measure.filter_staves hasc, Measure.filter_staves hasc', stave?_measure, if_pos hstaff]
  cases hst : m.stave? staff with
  | none => rfl
  | some st =>
    simp only [Option.map_some, Option.toList_some, List.flatMap_singleton, list?_stave]
    cases hlist : st.list? voice with
    | none => rfl
    | some list =>
      have hkeys : ∀ k ∈ list, k ∈ x.keys := fun k hk =>
        mem_keys_of_measure hmem hst hstaff hlist hk
      rw [Option.getD_some, filter_grace hkeys, List.map_map]
      refine List.map_congr_left fun k hk => ?_
      rw [handOf?_hands hl hs hc (hkeys k (List.mem_of_mem_filter hk))]
      rfl

/-! ## Ways -/

/-- A stop of the excerpt: its group is of the excerpt, and so is the hand that it is in. -/
structure Knows (x : Excerpt) (hands : List Hand) (y : Stop) : Prop where
  key : y.key ∈ x.keys
  hand : ∀ n, y.hand = some n → ∃ h, hands[n]? = some h ∧ x.holds h = true

theorem mem_line_of_lineOf {hands : List Hand} {y : Stop} (hy : y ∈ x.lineOf hands staff voice) :
    y ∈ line x.whole hands staff voice ∧ y.measure < x.length := by
  refine ⟨line_eq_append (x := x) hands staff voice ▸ List.mem_append_left _ hy, ?_⟩
  obtain ⟨⟨m, n⟩, hm, hy⟩ := List.mem_flatMap.mp hy
  obtain ⟨-, hlt, -⟩ := List.mem_zipIdx hm
  rw [(mem_stops hy).1]
  rw [List.length_take] at hlt
  omega

theorem mem_keys_of_lineOf (hs : x.whole.Sound fits) (hstaff : x.staffs staff = true)
    {hands : List Hand} {y : Stop} (hy : y ∈ x.lineOf hands staff voice) : y.key ∈ x.keys := by
  obtain ⟨hline, hlt⟩ := mem_line_of_lineOf hy
  obtain ⟨m, st, list, hm, hst, hlist, hmem, -⟩ := Score.mem_beatsAt.mp (mem_beatsAt_of_line hs hline)
  refine mem_keys_of_measure (List.mem_of_getElem? (i := y.measure) ?_) hst hstaff hlist hmem
  rw [List.getElem?_take_of_lt hlt, hm]

theorem ordinal_of_stop (hl : l.LaidOut x.whole) (hs : x.whole.Sound fits) (hc : x.whole.Charted)
    {y : Stop} (hy : y ∈ line x.whole l.hands staff voice) (hn : y.hand = some n) :
    ∃ h, l.hands[n]? = some h ∧ h.staff = staff ∧ h.voice? voice = some y.key ∧
      x.ordinal h.item = y.measure := by
  obtain ⟨h, hh, rfl, hv⟩ := hl.voice?_of_hand hs hc hy hn
  obtain ⟨i, p, hp, hitem, hbeat⟩ := hl.beatsAt_of_voice? hs hc (List.mem_of_getElem? hh) hv
  refine ⟨h, hh, rfl, hv, ?_⟩
  rw [hitem, ordinal_item hp]
  exact ordinal_unique hs hbeat (mem_beatsAt_of_line hs hy)

theorem knows_of_lineOf (hl : l.LaidOut x.whole) (hs : x.whole.Sound fits) (hc : x.whole.Charted)
    (hstaff : x.staffs staff = true) {y : Stop} (hy : y ∈ x.lineOf l.hands staff voice) :
    x.Knows l.hands y := by
  obtain ⟨hline, hlt⟩ := mem_line_of_lineOf hy
  refine ⟨mem_keys_of_lineOf hs hstaff hy, fun n hn => ?_⟩
  obtain ⟨h, hh, rfl, -, hordinal⟩ := ordinal_of_stop hl hs hc hline hn
  exact ⟨h, hh, by simp [holds, hordinal, hlt, hstaff]⟩

/-- Two stops of one staff that know one hand stand in one measure. -/
theorem abreast_of_line (hl : l.LaidOut x.whole) (hs : x.whole.Sound fits) (hc : x.whole.Charted)
    {ds es : List Stop} {v w : Nat} (hds : ∀ y ∈ ds, y ∈ line x.whole l.hands staff v)
    (hes : ∀ y ∈ es, y ∈ line x.whole l.hands staff w) : Abreast ds es := by
  intro d hd e he n hn hn'
  obtain ⟨h, hh, -, -, hordinal⟩ := ordinal_of_stop hl hs hc (hds d hd) hn
  obtain ⟨h', hh', -, -, hordinal'⟩ := ordinal_of_stop hl hs hc (hes e he) hn'
  cases hh.symm.trans hh'
  exact hordinal.symm.trans hordinal'

/-- The ways from a group of the excerpt, in the whole score and in the excerpt. -/
theorem exists_ways (hl : l.LaidOut x.whole) (hs : x.whole.Sound fits) (hc : x.whole.Charted)
    (hstaff : x.staffs staff = true) (hn : n < x.length)
    (hk : k ∈ x.whole.beatsAt staff voice n) : ∃ y before after,
      y.measure = n ∧ x.lineOf l.hands staff voice = before ++ y :: after ∧
      l.way .forth k = untilGap (y :: after ++ x.lineBehind l.hands staff voice) ∧
      (x.layout l).way .forth k = (untilGap (y :: after)).map (x.stop l.hands) ∧
      l.way .back k = untilGap (y :: before.reverse) ∧
      (x.layout l).way .back k = (untilGap (y :: before.reverse)).map (x.stop l.hands) := by
  have hk' : k ∈ x.score.beatsAt staff voice n := (beatsAt_score hn hstaff voice).symm ▸ hk
  have hnodup := line_nodup l.hands staff voice hs
  have hnodup' := line_nodup (x.hands l.hands) staff voice (sound (x := x) hs)
  have hline := line_eq_append (x := x) l.hands staff voice
  have hscore := line_score hl hs hc hstaff voice
  -- the group is on the part of its line that stands in the excerpt
  obtain ⟨z, hz, hzk, hzn⟩ := exists_stop (sound hs) (x.hands l.hands) hk'
  rw [hscore] at hz
  obtain ⟨y, hy, rfl⟩ := List.mem_map.mp hz
  obtain ⟨before, after, hsplit⟩ := List.append_of_mem hy
  have hyk : y.key = k := hzk
  have hyn : y.measure = n := hzn
  have hwhole : line x.whole l.hands staff voice =
      before ++ y :: (after ++ x.lineBehind l.hands staff voice) := by
    rw [hline, hsplit]
    simp
  have hpart : line x.score (x.hands l.hands) staff voice =
      before.map (x.stop l.hands) ++ x.stop l.hands y :: after.map (x.stop l.hands) := by
    rw [hscore, hsplit]
    simp
  have hkey : (x.stop l.hands y).key = k := hyk
  have hmap : ∀ stops, untilGap (List.map (x.stop l.hands) stops) =
      (untilGap stops).map (x.stop l.hands) := untilGap_map fun _ => rfl
  refine ⟨y, before, after, hyn, hsplit, ?_, ?_, ?_, ?_⟩
  · rw [hl.way_eq hs hk, ← hyk, wayOn_forth hnodup hwhole, List.cons_append]
  · rw [(lined l).way_eq (sound hs) hk', ← hkey]
    exact (congrArg untilGap (wayOn_forth hnodup' hpart)).trans (hmap (y :: after))
  · rw [hl.way_eq hs hk, ← hyk, wayOn_back hnodup hwhole]
  · rw [(lined l).way_eq (sound hs) hk', ← hkey, ← hmap, List.map_cons, List.map_reverse]
    exact congrArg untilGap (wayOn_back hnodup' hpart)

/-! ## Following ways -/

/-- Nothing leads on over the barline that the excerpt ends with. -/
def Closes (x : Excerpt) : Prop :=
  x.length < x.whole.measures.length → ∀ n staff voice k, n + 1 = x.length →
    x.staffs staff = true → (x.whole.beatsAt staff voice n).getLast? = some k →
      (x.whole.groups.get k).continuesOnward = false

variable {accept accept' : Nat → Bool} {byMeasure : Bool} {heading : Heading}

theorem Closes.quiet (hclose : x.Closes) (hs : x.whole.Sound fits) (hstaff : x.staffs staff = true)
    (hlength : x.length < x.whole.measures.length) {hands : List Hand} {y : Stop}
    (hy : (x.lineOf hands staff voice).getLast? = some y) (hlast : y.measure + 1 = x.length) :
    leadsOn x.whole y = false := by
  refine hclose hlength y.measure staff voice y.key hlast hstaff ?_
  obtain ⟨early, hline⟩ := List.getLast?_eq_some_iff.mp hy
  have hbehind : (x.lineBehind hands staff voice).filter (·.measure == y.measure) = [] := by
    refine List.filter_eq_nil_iff.mpr fun z hz => ?_
    have := (mem_lineFrom hz).1
    simp only [beq_iff_eq]
    omega
  rw [← filter_line hands staff voice hs, line_eq_append, List.filter_append, hbehind, hline]
  simp [List.filter_append]

/-- The way on from a stop of the excerpt is cut at the barline. -/
theorem exists_cut_lineOf (hs : x.whole.Sound fits) (hclose : x.Closes)
    (hstaff : x.staffs staff = true) (hlength : x.length < x.whole.measures.length)
    {hands : List Hand} {d : Stop} {before after : List Stop}
    (hline : x.lineOf hands staff voice = before ++ d :: after) : ∃ bs,
      untilGap (d :: after ++ x.lineBehind hands staff voice) = untilGap (d :: after) ++ bs ∧
        (∀ y ∈ untilGap (d :: after) ++ bs, y ∈ line x.whole hands staff voice) ∧
        Cut x.whole x.length (untilGap (d :: after)) bs := by
  have hpart : ∀ y ∈ d :: after, y ∈ x.lineOf hands staff voice := fun y hy =>
    hline ▸ List.mem_append_right _ hy
  have hasc : (x.lineOf hands staff voice).Pairwise fun x y => x.measure ≤ y.measure :=
    lineFrom_ascending 0 _
  have hquiet : ∀ y ∈ (d :: after).getLast?, y.measure + 1 = x.length → leadsOn x.whole y = false := by
    intro y hy hlast
    have hend : (x.lineOf hands staff voice).getLast? = some y := by
      rw [hline, List.getLast?_append_of_ne_nil _ (by simp)]
      exact hy
    exact hclose.quiet hs hstaff hlength hend hlast
  rw [hline] at hasc
  obtain ⟨bs, heq, hmem, hcut⟩ := exists_cut d after (x.lineBehind hands staff voice)
    (List.pairwise_append.mp hasc).2.1 (fun y hy => (mem_line_of_lineOf (hpart y hy)).2)
    (fun y hy => (mem_lineFrom hy).1) hquiet
  refine ⟨bs, heq, fun y hy => ?_, hcut⟩
  rw [line_eq_append]
  exact List.mem_append.mpr ((List.mem_append.mp hy).imp
    (fun hy => hpart y (mem_untilGap hy)) (hmem y))

/-- How far two groups of the excerpt can be followed onward is decided before the barline. -/
theorem follow_forth (hl : l.LaidOut x.whole) (hs : x.whole.Sound fits) (hc : x.whole.Charted)
    (hclose : x.Closes) (hstaff : x.staffs staff = true) {v w : Nat} {d e : Stop}
    {before after before' after' : List Stop}
    (hd : x.lineOf l.hands staff v = before ++ d :: after)
    (he : x.lineOf l.hands staff w = before' ++ e :: after') (hmeasure : d.measure = e.measure) :
    follow x.whole .forth byMeasure accept
        (untilGap (d :: after ++ x.lineBehind l.hands staff v))
        (untilGap (e :: after' ++ x.lineBehind l.hands staff w)) =
      follow x.whole .forth byMeasure accept (untilGap (d :: after)) (untilGap (e :: after')) := by
  rcases Nat.lt_or_ge x.length x.whole.measures.length with hlength | hlength
  · obtain ⟨bs, hway, hon, hcutd⟩ := exists_cut_lineOf hs hclose hstaff hlength hd
    obtain ⟨cs, hway', hon', hcute⟩ := exists_cut_lineOf hs hclose hstaff hlength he
    obtain ⟨ds, hds, -⟩ := untilGap_cons d after
    obtain ⟨es, hes, -⟩ := untilGap_cons e after'
    rw [hds] at hway hon hcutd
    rw [hes] at hway' hon' hcute
    rw [hway, hway', hds, hes]
    exact follow_cut hcutd hcute hmeasure (abreast_of_line hl hs hc hon hon')
  · -- the score ends with the excerpt
    have hnone : ∀ v, x.lineBehind l.hands staff v = [] := fun v => by
      rw [lineBehind, List.drop_eq_nil_of_le hlength]
      rfl
    rw [hnone, hnone, List.append_nil, List.append_nil]

theorem linked_stop {hands : List Hand} {y : Stop} {next : Option Stop} (hy : x.Knows hands y)
    (hnext : ∀ z ∈ next, x.Knows hands z) :
    linked x.score heading byMeasure (x.stop hands y) (next.map (x.stop hands)) =
      linked x.whole heading byMeasure y next := by
  have hleads : ∀ {z}, x.Knows hands z → leadsOn x.score (x.stop hands z) = leadsOn x.whole z :=
    fun hz => congrArg Group.continuesOnward (of_whole.get hz.key)
  have hmeasure : ∀ z : Stop, (x.stop hands z).measure = z.measure := fun _ => rfl
  cases next with
  | none => cases heading <;> simp [linked, hleads hy]
  | some z =>
    have hz := hnext z rfl
    cases heading <;> simp [linked, hleads hy, hleads hz, hmeasure]

/-- Ways of the excerpt are followed in it as they are in the whole score. -/
theorem follow_stop {hands : List Hand} {ds es : List Stop} (hds : ∀ y ∈ ds, x.Knows hands y)
    (hes : ∀ y ∈ es, x.Knows hands y)
    (haccept : ∀ n h, hands[n]? = some h → x.holds h = true → accept' (x.rank hands n) = accept n) :
    follow x.score heading byMeasure accept' (ds.map (x.stop hands)) (es.map (x.stop hands)) =
      follow x.whole heading byMeasure accept ds es := by
  induction ds generalizing es with
  | nil => simp only [List.map_nil, follow]
  | cons d ds ih =>
    cases es with
    | nil => simp only [List.map_cons, List.map_nil, follow]
    | cons e es =>
      simp only [List.mem_cons, forall_eq_or_imp] at hds hes
      simp only [List.map_cons, follow, List.head?_map]
      rw [linked_stop hds.1 fun z hz => hds.2 z (List.mem_of_mem_head? hz),
        linked_stop hes.1 fun z hz => hes.2 z (List.mem_of_mem_head? hz), ih hds.2 hes.2]
      cases hd : ds.head? with
      | none => cases es.head? <;> rfl
      | some d' =>
        cases he : es.head? with
        | none => rfl
        | some e' =>
          simp only [Option.map_some, stop]
          cases hn : d'.hand with
          | none => rfl
          | some n =>
            cases hn' : e'.hand with
            | none => rfl
            | some n' =>
              obtain ⟨h, hh, hholds⟩ := (hds.2 d' (List.mem_of_mem_head? hd)).hand n hn
              obtain ⟨h', hh', hholds'⟩ := (hes.2 e' (List.mem_of_mem_head? he)).hand n' hn'
              have hrank : (x.rank hands n == x.rank hands n') = (n == n') := by
                rw [Bool.eq_iff_iff, beq_iff_eq, beq_iff_eq]
                exact ⟨rank_inj hh hholds hh' hholds', fun heq => heq ▸ rfl⟩
              simp only [Option.map_some, hrank, haccept n h hh hholds]

/-- **Two groups of a hand agree** in an excerpt as they do in the whole score. -/
theorem agrees_eq (hl : l.LaidOut x.whole) (hs : x.whole.Sound fits) (hc : x.whole.Charted)
    (hclose : x.Closes) (hh : h ∈ l.hands) (hholds : x.holds h = true) {v w : Nat}
    {dest src : GroupKey} (hdest : h.voice? v = some dest) (hsrc : h.voice? w = some src)
    (haccept : ∀ n h, l.hands[n]? = some h → x.holds h = true →
      accept' (x.rank l.hands n) = accept n) :
    (x.layout l).agrees x.score byMeasure accept' dest src =
      l.agrees x.whole byMeasure accept dest src := by
  obtain ⟨hlt, hstaff⟩ : x.ordinal h.item < x.length ∧ x.staffs h.staff = true := by
    simpa [holds] using hholds
  have hbeat : ∀ {v k}, h.voice? v = some k →
      k ∈ x.whole.beatsAt h.staff v (x.ordinal h.item) := by
    intro v k hk
    obtain ⟨i, p, hp, hitem, hbeat⟩ := hl.beatsAt_of_voice? hs hc hh hk
    rwa [hitem, ordinal_item hp]
  obtain ⟨d, before, after, hd, hline, hforth, hforth', hback, hback'⟩ :=
    exists_ways hl hs hc hstaff hlt (hbeat hdest)
  obtain ⟨e, before', after', he, hline', hsrcForth, hsrcForth', hsrcBack, hsrcBack'⟩ :=
    exists_ways hl hs hc hstaff hlt (hbeat hsrc)
  have hknows : ∀ {v} {part : List Stop}, (∀ y ∈ part, y ∈ x.lineOf l.hands h.staff v) →
      ∀ y ∈ untilGap part, x.Knows l.hands y := fun hpart y hy =>
    knows_of_lineOf hl hs hc hstaff (hpart y (mem_untilGap hy))
  have hafter : ∀ y ∈ d :: after, y ∈ x.lineOf l.hands h.staff v := by
    simp +contextual [hline]
  have hafter' : ∀ y ∈ e :: after', y ∈ x.lineOf l.hands h.staff w := by
    simp +contextual [hline']
  have hbefore : ∀ y ∈ d :: before.reverse, y ∈ x.lineOf l.hands h.staff v := by
    simp +contextual [hline]
  have hbefore' : ∀ y ∈ e :: before'.reverse, y ∈ x.lineOf l.hands h.staff w := by
    simp +contextual [hline']
  simp only [agrees, List.all_cons, List.all_nil, Bool.and_true]
  rw [hforth, hforth', hsrcForth, hsrcForth', hback, hback', hsrcBack, hsrcBack',
    follow_stop (hknows hafter) (hknows hafter') haccept,
    follow_stop (hknows hbefore) (hknows hbefore') haccept,
    follow_forth hl hs hc hclose hstaff hline hline' (hd.trans he.symm)]

/-! ## Ties -/

theorem beatsAt_score_of_mem_keys (hs : x.whole.Sound fits) (hk : k ∈ x.keys)
    (hbeat : k ∈ x.whole.beatsAt staff voice n) : k ∈ x.score.beatsAt staff voice n := by
  obtain ⟨m, st, list, hm, hst, hlist, hmem, -⟩ := Score.mem_beatsAt.mp hbeat
  rw [← Score.map_measure_placed, List.getElem?_map] at hm
  obtain ⟨p, hp, rfl⟩ := Option.map_eq_some_iff.mp hm
  have hlayer : x.whole.list? ⟨p.item, staff, voice⟩ = some list := Score.list?_eq_some.mpr
    ⟨p.measure, st, Placed.measureAt?_item (List.mem_of_getElem? hp), hst, hlist⟩
  obtain ⟨hlt, hstaff⟩ := (fits_whole hs _ list k hlayer hmem).mp hk
  rw [ordinal_item hp] at hlt
  rwa [beatsAt_score hlt hstaff]

theorem tiesIn_eq (hl : l.LaidOut x.whole) (hs : x.whole.Sound fits) (hc : x.whole.Charted)
    (hk : k ∈ x.keys) : (x.layout l).tiesIn x.score k = l.tiesIn x.whole k := by
  by_cases hbeat : ∃ staff voice n, k ∈ x.score.beatsAt staff voice n
  · obtain ⟨staff, voice, n, hbeat⟩ := hbeat
    obtain ⟨hn, hstaff⟩ := of_beatsAt_score hbeat
    rw [beatsAt_score hn hstaff] at hbeat
    obtain ⟨y, before, after, -, hline, -, -, hback, hback'⟩ := exists_ways hl hs hc hstaff hn hbeat
    rw [tiesIn, tiesIn, prev?, prev?, neighbour?, neighbour?, hback, hback', List.getElem?_map]
    cases hz : (untilGap (y :: before.reverse))[1]? with
    | none => rfl
    | some z =>
      have hmem : z ∈ x.lineOf l.hands staff voice := by
        have := mem_untilGap (List.mem_of_getElem? hz)
        rw [hline]
        simp only [List.mem_cons, List.mem_reverse, List.mem_append] at this ⊢
        tauto
      have hget := of_whole.get (mem_keys_of_lineOf hs hstaff hmem)
      exact congrArg Group.tiesOut hget
  · have hscore : ∀ staff voice n, k ∉ x.score.beatsAt staff voice n := fun staff voice n hon =>
      hbeat ⟨staff, voice, n, hon⟩
    have hwhole : ∀ staff voice n, k ∉ x.whole.beatsAt staff voice n := fun staff voice n hon =>
      hscore staff voice n (beatsAt_score_of_mem_keys hs hk hon)
    rw [tiesIn, tiesIn, prev?, prev?, neighbour?, neighbour?, (lined l).way_of_not (sound hs) hscore,
      Lined.way_of_not hl.lines hs hwhole]
    rfl

end Excerpt

end Divisi
