/-
The line of a voice, and the neighbours on it.

A line holds the groups of a voice that take time, in the order of the measures. The
neighbour of a group is the next one in its list or, from the end of the list, the first
of the following measure (`Score.Follows`); it leads back to the group that it is the
neighbour of.
-/
import Divisi.Proofs.Seated

namespace Divisi

/-- The groups of a voice in the measure of an ordinal that take time. -/
def Score.beatsAt (s : Score) (staff voice n : Nat) : List GroupKey :=
  ((s.measures[n]?.bind (·.stave? staff)).bind (·.list? voice)).getD [] |>.filter fun key =>
    !(s.groups.get key).grace

/-- After `k` comes `k'`, in its list or, from the end of that, at the start of the following
measure. -/
inductive Score.Follows (s : Score) (staff voice : Nat) (k k' : GroupKey) : Prop
  | within (n : Nat) (before after : List GroupKey) :
    s.beatsAt staff voice n = before ++ k :: k' :: after → Follows s staff voice k k'
  | across (n : Nat) (before after : List GroupKey) : s.beatsAt staff voice n = before ++ [k] →
    s.beatsAt staff voice (n + 1) = k' :: after → Follows s staff voice k k'

namespace Layout

/-- Two stops that follow each other on a line. -/
def Consecutive (line : List Stop) (x y : Stop) : Prop :=
  ∃ before after, line = before ++ x :: y :: after

/-! ## Ways along a line -/

section Way

variable {line : List Stop} {x y : Stop} {k k' : GroupKey}

theorem wayOn_forth {before after : List Stop} (hnodup : (line.map (·.key)).Nodup)
    (h : line = before ++ x :: after) : wayOn line x.key .forth = x :: after := by
  subst h
  simp only [List.map_append, List.map_cons, List.nodup_append, List.mem_map, List.mem_cons] at hnodup
  have hbefore : ∀ y ∈ before, decide (y.key ≠ x.key) = true := fun y hy =>
    decide_eq_true fun he => hnodup.2.2 y.key ⟨y, hy, rfl⟩ x.key (.inl rfl) he
  rw [wayOn, List.dropWhile_append_of_pos hbefore]
  simp

theorem wayOn_back {before after : List Stop} (hnodup : (line.map (·.key)).Nodup)
    (h : line = before ++ x :: after) : wayOn line x.key .back = x :: before.reverse := by
  have hreverse : line.reverse = after.reverse ++ x :: before.reverse := by simp [h]
  have hnodup' : (line.reverse.map (·.key)).Nodup := by
    rw [List.map_reverse]
    exact List.nodup_reverse.mpr hnodup
  exact wayOn_forth hnodup' hreverse

/-- The way from a stop begins with it and keeps to the line. -/
theorem exists_wayOn (hnodup : (line.map (·.key)).Nodup) (hx : x ∈ line) (heading : Heading) :
    ∃ rest, wayOn line x.key heading = x :: rest ∧ ∀ y ∈ rest, y ∈ line := by
  obtain ⟨before, after, hline⟩ := List.append_of_mem hx
  cases heading with
  | forth => exact ⟨after, wayOn_forth hnodup hline, fun y hy => by simp [hline, hy]⟩
  | back => exact ⟨before.reverse, wayOn_back hnodup hline, fun y hy => by simp_all⟩

theorem untilGap_one (x : Stop) (rest : List Stop) :
    (untilGap (x :: rest))[1]? = rest.head?.filter (adjacent x) := by
  cases rest with
  | nil => rfl
  | cons y rest =>
    rw [untilGap]
    by_cases h : adjacent x y
    · rw [if_pos h, List.getElem?_cons_succ, List.head?_cons, Option.filter_some_pos h]
      cases rest with
      | nil => rfl
      | cons z rest =>
        rw [untilGap]
        split <;> rfl
    · rw [if_neg h, List.head?_cons, Option.filter_some_neg (by simpa using h)]
      rfl

theorem adjacent_comm (x y : Stop) : adjacent x y = adjacent y x := Bool.and_comm _ _

theorem untilGap_map {f : Stop → Stop} (hf : ∀ x, (f x).measure = x.measure) (stops : List Stop) :
    untilGap (stops.map f) = (untilGap stops).map f := by
  induction stops with
  | nil => rfl
  | cons x rest ih =>
    cases rest with
    | nil => rfl
    | cons y rest =>
      simp only [List.map_cons, untilGap]
      have hadjacent : adjacent (f x) (f y) = adjacent x y := by simp only [adjacent, hf]
      rw [hadjacent]
      split
      · exact congrArg _ ih
      · rfl

end Way

/-! ## The stops of a line -/

section Line

variable {s : Score} {hands : List Hand} {staff voice : Nat}

/-- A part of a line, from the measure of ordinal `i` on. -/
def lineFrom (s : Score) (hands : List Hand) (staff voice i : Nat) (ms : List Measure) : List Stop :=
  (ms.zipIdx i).flatMap fun (m, ordinal) => stops s.groups hands staff voice m ordinal

theorem mem_stops {m : Measure} {n : Nat} {x : Stop}
    (h : x ∈ stops s.groups hands staff voice m n) :
    x.measure = n ∧ x.hand = handOf? hands x.key := by
  obtain ⟨st, -, hx⟩ := List.mem_flatMap.mp h
  obtain ⟨k, -, rfl⟩ := List.mem_map.mp hx
  exact ⟨rfl, rfl⟩

theorem mem_lineFrom {i : Nat} {ms : List Measure} {x : Stop}
    (h : x ∈ lineFrom s hands staff voice i ms) : i ≤ x.measure ∧ x.hand = handOf? hands x.key := by
  obtain ⟨⟨m, n⟩, hm, hx⟩ := List.mem_flatMap.mp h
  obtain ⟨rfl, hhand⟩ := mem_stops hx
  exact ⟨(List.mem_zipIdx hm).1, hhand⟩

theorem lineFrom_ascending (i : Nat) (ms : List Measure) :
    (lineFrom s hands staff voice i ms).Pairwise fun x y => x.measure ≤ y.measure := by
  induction ms generalizing i with
  | nil => exact List.Pairwise.nil
  | cons m rest ih =>
    rw [lineFrom, List.zipIdx_cons, List.flatMap_cons, List.pairwise_append]
    refine ⟨List.Pairwise.imp_of_mem ?_ (List.pairwise_of_forall (R := fun _ _ => True) (by simp)),
      ih (i + 1), fun x hx y hy => ?_⟩
    · intro x y hx hy _
      rw [(mem_stops hx).1, (mem_stops hy).1]
    · have := (mem_lineFrom hy).1
      rw [(mem_stops hx).1]
      omega

theorem filter_lineFrom (hands : List Hand) (staff voice i : Nat) (ms : List Measure) (n : Nat) :
    (lineFrom s hands staff voice i ms).filter (·.measure == i + n) =
      (ms[n]?.map fun m => stops s.groups hands staff voice m (i + n)).getD [] := by
  induction ms generalizing i n with
  | nil => rfl
  | cons m rest ih =>
    rw [lineFrom, List.zipIdx_cons, List.flatMap_cons, List.filter_append]
    cases n with
    | zero =>
      have hall : (stops s.groups hands staff voice m i).filter (·.measure == i + 0) =
          stops s.groups hands staff voice m i :=
        List.filter_eq_self.mpr fun x hx => by simp [(mem_stops hx).1]
      have hnone : (lineFrom s hands staff voice (i + 1) rest).filter (·.measure == i + 0) = [] := by
        refine List.filter_eq_nil_iff.mpr fun x hx => ?_
        have := (mem_lineFrom hx).1
        simp only [beq_iff_eq]
        omega
      rw [hall, show List.filter _ (List.flatMap _ (rest.zipIdx (i + 1))) = [] from hnone]
      simp
    | succ n =>
      have hnone : (stops s.groups hands staff voice m i).filter (·.measure == i + (n + 1)) = [] :=
        List.filter_eq_nil_iff.mpr fun x hx => by simp [(mem_stops hx).1]
      have hrest := ih (i + 1) n
      rw [Nat.add_assoc, Nat.add_comm 1 n] at hrest
      rw [hnone, List.nil_append, List.getElem?_cons_succ, ← hrest]
      rfl

end Line

end Layout

theorem Measure.filter_staves {m : Measure} (h : (m.staves.map (·.staff)).Pairwise (· < ·))
    (staff : Nat) : m.staves.filter (·.staff == staff) = (m.stave? staff).toList := by
  unfold stave?
  generalize m.staves = staves at h
  induction staves with
  | nil => rfl
  | cons st rest ih =>
    rw [List.map_cons, List.pairwise_cons] at h
    by_cases hst : st.staff = staff
    · have hnone : rest.filter (·.staff == staff) = [] := by
        refine List.filter_eq_nil_iff.mpr fun r hr => ?_
        have := h.1 r.staff (List.mem_map_of_mem hr)
        simp only [beq_iff_eq]
        omega
      rw [List.filter_cons_of_pos (by simpa using hst), hnone,
        List.find?_cons_of_pos (by simpa using hst)]
      rfl
    · rw [List.filter_cons_of_neg (by simpa using hst), List.find?_cons_of_neg (by simpa using hst)]
      exact ih h.2

namespace Layout

variable {fits : Group → Prop} {s : Score} {hands : List Hand} {staff voice : Nat}

theorem map_key_stops {m : Measure} (h : m.Sound) (n : Nat) :
    (stops s.groups hands staff voice m n).map (·.key) =
      (((m.stave? staff).bind (·.list? voice)).getD []).filter fun key =>
        !(s.groups.get key).grace := by
  rw [stops, Measure.filter_staves h.ascending]
  cases m.stave? staff with
  | none => rfl
  | some st => simp [Function.comp_def]

theorem filter_line (hands : List Hand) (staff voice : Nat) (h : s.Sound fits) (n : Nat) :
    ((line s hands staff voice).filter (·.measure == n)).map (·.key) =
      s.beatsAt staff voice n := by
  have := filter_lineFrom (s := s) hands staff voice 0 s.measures n
  rw [Nat.zero_add] at this
  rw [show line s hands staff voice = lineFrom s hands staff voice 0 s.measures from rfl, this,
    Score.beatsAt]
  cases hm : s.measures[n]? with
  | none => rfl
  | some m => exact map_key_stops (h.measures m (List.mem_of_getElem? hm)) n

theorem line_nodup (hands : List Hand) (staff voice : Nat) (h : s.Sound fits) :
    ((line s hands staff voice).map (·.key)).Nodup := by
  refine h.stocked.groups.nodup.sublist ?_
  have hzip : s.postings.map (·.key) =
      s.measures.zipIdx.flatMap fun x => x.1.postings.map (·.key) := by
    rw [Score.postings, List.map_flatMap]
    conv_lhs => rw [← List.zipIdx_map_fst 0 s.measures, List.flatMap_map]
  rw [hzip, line, List.map_flatMap]
  refine List.Sublist.flatMap_right _ fun x hm => ?_
  obtain ⟨m, n⟩ := x
  have hm : m ∈ s.measures := List.fst_mem_of_mem_zipIdx hm
  rw [map_key_stops (h.measures m hm)]
  refine List.filter_sublist.trans ?_
  cases hlist : (m.stave? staff).bind (·.list? voice) with
  | none => exact List.nil_sublist _
  | some list =>
    obtain ⟨st, hst, hlist⟩ := Option.bind_eq_some_iff.mp hlist
    rw [Measure.postings, List.map_flatMap, List.flatMap_def]
    refine List.Sublist.trans ?_ (List.sublist_flatten_of_mem
      (List.mem_map_of_mem (Measure.mem_of_stave? hst).1))
    rw [Stave.postings, List.map_flatMap, List.flatMap_def]
    refine List.Sublist.trans ?_ (List.sublist_flatten_of_mem
      (List.mem_map_of_mem (Stave.mem_present.mpr hlist)))
    simp

end Layout

namespace Score

variable {fits : Group → Prop} {s : Score} {hands : List Hand} {staff voice n : Nat}
  {k k' : GroupKey}

theorem mem_beatsAt : k ∈ s.beatsAt staff voice n ↔ ∃ m st list, s.measures[n]? = some m ∧
    m.stave? staff = some st ∧ st.list? voice = some list ∧ k ∈ list ∧
      (s.groups.get k).grace = false := by
  unfold beatsAt
  cases hm : s.measures[n]? with
  | none => simp
  | some m =>
    cases hst : m.stave? staff with
    | none => simp [hst]
    | some st => cases hlist : st.list? voice <;> simp [hst, hlist]

theorem Sound.get?_of_beatsAt (h : s.Sound fits) (hk : k ∈ s.beatsAt staff voice n) :
    ∃ g, s.groups.get? k = some g ∧ g.staff = staff ∧ g.voice = voice := by
  obtain ⟨m, st, list, hm, hst, hlist, hmem, -⟩ := mem_beatsAt.mp hk
  obtain ⟨hstaves, rfl⟩ := Measure.mem_of_stave? hst
  have hposting : (⟨m.number, st.staff, voice, k⟩ : Posting) ∈ s.postings :=
    List.mem_flatMap.mpr ⟨m, List.mem_of_getElem? hm, List.mem_flatMap.mpr
      ⟨st, hstaves, Stave.mem_postings.mpr ⟨rfl, rfl, list, hlist, hmem⟩⟩⟩
  obtain ⟨g, hg, -, hstaff, hvoice⟩ := h.stocked.named _ hposting
  exact ⟨g, hg, hstaff, hvoice⟩

end Score

namespace Layout

variable {fits : Group → Prop} {s : Score} {l : Layout} {hands : List Hand} {staff voice n : Nat}
  {k k' : GroupKey} {x y : Stop}

theorem mem_beatsAt_of_line (h : s.Sound fits) (hx : x ∈ line s hands staff voice) :
    x.key ∈ s.beatsAt staff voice x.measure := by
  rw [← filter_line hands _ _ h]
  exact List.mem_map_of_mem (List.mem_filter.mpr ⟨hx, by simp⟩)

theorem exists_stop (h : s.Sound fits) (hands : List Hand) (hk : k ∈ s.beatsAt staff voice n) :
    ∃ x ∈ line s hands staff voice, x.key = k ∧ x.measure = n := by
  rw [← filter_line hands _ _ h] at hk
  obtain ⟨x, hx, hkey⟩ := List.mem_map.mp hk
  obtain ⟨hx, hmeasure⟩ := List.mem_filter.mp hx
  exact ⟨x, hx, hkey, by simpa using hmeasure⟩

/-- A group stands on its line once, so in one measure. -/
theorem ordinal_unique {n' : Nat} (h : s.Sound fits) (hk : k ∈ s.beatsAt staff voice n)
    (hk' : k ∈ s.beatsAt staff voice n') : n = n' := by
  obtain ⟨x, hx, rfl, rfl⟩ := exists_stop h [] hk
  obtain ⟨y, hy, hkey, rfl⟩ := exists_stop h [] hk'
  rw [List.inj_on_of_nodup_map (line_nodup [] staff voice h) hx hy hkey.symm]

/-- On the line of a voice the neighbour is the next stop, if no measure lies between. -/
def Next (s : Score) (hands : List Hand) (staff voice : Nat) (k k' : GroupKey) : Prop :=
  ∃ x y, Consecutive (line s hands staff voice) x y ∧ adjacent x y = true ∧ x.key = k ∧ y.key = k'

/-- The layout has the line of each voice of each staff. -/
def Lined (s : Score) (l : Layout) : Prop :=
  l.lines = (staffs s).flatMap fun staff => [1, 2, 3].map (line s l.hands staff)

theorem Lined.line_mem (hl : l.Lined s) (hk : k ∈ s.beatsAt staff voice n) :
    line s l.hands staff voice ∈ l.lines := by
  obtain ⟨m, st, list, hm, hst, hlist, -, -⟩ := Score.mem_beatsAt.mp hk
  have hstaff : staff ∈ staffs s := by
    refine List.mem_eraseDups.mpr (List.mem_flatMap.mpr ⟨m, List.mem_of_getElem? hm, ?_⟩)
    obtain ⟨hstaves, rfl⟩ := Measure.mem_of_stave? hst
    exact List.mem_map_of_mem hstaves
  have hvoice : voice ∈ [1, 2, 3] := by
    have := Stave.le_of_list? hlist
    simp only [List.mem_cons, List.not_mem_nil, or_false]
    omega
  rw [hl]
  exact List.mem_flatMap.mpr ⟨staff, hstaff, List.mem_map_of_mem hvoice⟩

theorem Lined.beatsAt_of_mem (hl : l.Lined s) (hs : s.Sound fits) {stops : List Stop}
    (hstops : stops ∈ l.lines) (hk : stops.any (·.key == k) = true) :
    ∃ staff voice n, stops = line s l.hands staff voice ∧ k ∈ s.beatsAt staff voice n := by
  rw [hl] at hstops
  obtain ⟨staff, -, hstops⟩ := List.mem_flatMap.mp hstops
  obtain ⟨voice, -, rfl⟩ := List.mem_map.mp hstops
  obtain ⟨x, hx, hxk⟩ := List.any_eq_true.mp hk
  obtain rfl : x.key = k := by simpa using hxk
  exact ⟨staff, voice, x.measure, rfl, mem_beatsAt_of_line hs hx⟩

/-- The line that a group is on is found. -/
theorem Lined.way_eq (hl : l.Lined s) (hs : s.Sound fits) (hk : k ∈ s.beatsAt staff voice n)
    (heading : Heading) :
    l.way heading k = untilGap (wayOn (line s l.hands staff voice) k heading) := by
  obtain ⟨g, hg, hgstaff, hgvoice⟩ := hs.get?_of_beatsAt hk
  have hon : (line s l.hands staff voice).any (·.key == k) = true := by
    obtain ⟨x, hx, rfl, -⟩ := exists_stop hs l.hands hk
    exact List.any_eq_true.mpr ⟨x, hx, by simp⟩
  have hfind : l.lines.find? (fun line => line.any (·.key == k)) =
      some (line s l.hands staff voice) := by
    cases hfound : l.lines.find? (fun line => line.any (·.key == k)) with
    | none =>
      exact absurd hon (List.find?_eq_none.mp hfound _ (hl.line_mem hk))
    | some found =>
      have hany := List.find?_some (p := fun line : List Stop => line.any (·.key == k)) hfound
      obtain ⟨staff', voice', n', rfl, hk'⟩ :=
        hl.beatsAt_of_mem hs (List.mem_of_find?_eq_some hfound) hany
      obtain ⟨g', hg', hgstaff', hgvoice'⟩ := hs.get?_of_beatsAt hk'
      cases hg.symm.trans hg'
      rw [← hgstaff, ← hgvoice, hgstaff', hgvoice']
  rw [way, hfind]

theorem Lined.way_of_not (hl : l.Lined s) (hs : s.Sound fits)
    (hk : ∀ staff voice n, k ∉ s.beatsAt staff voice n) (heading : Heading) :
    l.way heading k = [⟨k, 0, none⟩] := by
  have hfind : l.lines.find? (fun line => line.any (·.key == k)) = none := by
    refine List.find?_eq_none.mpr fun stops hstops hany => ?_
    obtain ⟨staff, voice, n, -, hon⟩ := hl.beatsAt_of_mem hs hstops hany
    exact hk staff voice n hon
  rw [way, hfind]

theorem LaidOut.way_eq (hl : l.LaidOut s) (hs : s.Sound fits) (hk : k ∈ s.beatsAt staff voice n)
    (heading : Heading) :
    l.way heading k = untilGap (wayOn (line s l.hands staff voice) k heading) :=
  Lined.way_eq hl.lines hs hk heading

theorem LaidOut.next?_iff_next (hl : l.LaidOut s) (hs : s.Sound fits)
    (hk : k ∈ s.beatsAt staff voice n) :
    l.next? k = some k' ↔ Next s l.hands staff voice k k' := by
  have hnodup := line_nodup l.hands staff voice hs
  obtain ⟨x, hx, rfl, -⟩ := exists_stop hs l.hands hk
  obtain ⟨before, after, hline⟩ := List.append_of_mem hx
  rw [next?, neighbour?, hl.way_eq hs hk, wayOn_forth hnodup hline, untilGap_one]
  constructor
  · intro h
    obtain ⟨y, hy, rfl⟩ := Option.map_eq_some_iff.mp h
    obtain ⟨hy, hadjacent⟩ := Option.filter_eq_some_iff.mp hy
    cases after with
    | nil => cases hy
    | cons z after =>
      cases hy
      exact ⟨x, y, ⟨before, after, hline⟩, hadjacent, rfl, rfl⟩
  · rintro ⟨x', y, ⟨before', after', hline'⟩, hadjacent, hkey, rfl⟩
    have hway := wayOn_forth hnodup hline'
    rw [hkey, wayOn_forth hnodup hline, List.cons.injEq] at hway
    obtain ⟨rfl, rfl⟩ := hway
    rw [List.head?_cons, Option.filter_some_pos hadjacent, Option.map_some]

theorem LaidOut.prev?_iff_next (hl : l.LaidOut s) (hs : s.Sound fits)
    (hk : k ∈ s.beatsAt staff voice n) :
    l.prev? k = some k' ↔ Next s l.hands staff voice k' k := by
  have hnodup := line_nodup l.hands staff voice hs
  obtain ⟨y, hy, rfl, -⟩ := exists_stop hs l.hands hk
  obtain ⟨before, after, hline⟩ := List.append_of_mem hy
  rw [prev?, neighbour?, hl.way_eq hs hk, wayOn_back hnodup hline, untilGap_one]
  constructor
  · intro h
    obtain ⟨x, hx, rfl⟩ := Option.map_eq_some_iff.mp h
    obtain ⟨hx, hadjacent⟩ := Option.filter_eq_some_iff.mp hx
    obtain ⟨earlier, rfl⟩ : ∃ earlier, before = earlier ++ [x] := by
      cases hbefore : before.reverse with
      | nil => simp [hbefore] at hx
      | cons z rest =>
        rw [hbefore, List.head?_cons, Option.some.injEq] at hx
        subst hx
        exact ⟨rest.reverse, by rw [← List.reverse_reverse before, hbefore, List.reverse_cons]⟩
    refine ⟨x, y, ⟨earlier, after, by simpa using hline⟩, ?_, rfl, rfl⟩
    rw [adjacent_comm]
    exact hadjacent
  · rintro ⟨x, y', ⟨before', after', hline'⟩, hadjacent, rfl, hkey⟩
    have hline' : line s l.hands staff voice = (before' ++ [x]) ++ y' :: after' := by
      simpa using hline'
    have hway := wayOn_back hnodup hline'
    rw [hkey, wayOn_back hnodup hline, List.cons.injEq] at hway
    obtain ⟨rfl, hbefore⟩ := hway
    rw [hbefore, List.reverse_append, List.reverse_singleton, List.singleton_append,
      List.head?_cons, Option.filter_some_pos (by rw [adjacent_comm]; exact hadjacent),
      Option.map_some]

/-- What stands before and after two stops that follow each other. -/
theorem Consecutive.order {line before after : List Stop}
    (hasc : line.Pairwise fun x y => x.measure ≤ y.measure)
    (h : line = before ++ x :: y :: after) : x.measure ≤ y.measure ∧
      (∀ z ∈ before, z.measure ≤ x.measure) ∧ ∀ z ∈ after, y.measure ≤ z.measure := by
  subst h
  obtain ⟨-, hafter, hcross⟩ := List.pairwise_append.mp hasc
  obtain ⟨hx, hafter⟩ := List.pairwise_cons.mp hafter
  exact ⟨hx y (by simp), fun z hz => hcross z hz x (by simp), (List.pairwise_cons.mp hafter).1⟩

/-- Two keys that follow each other in one measure stand on stops that follow each other. -/
theorem exists_consecutive_within {line : List Stop} {before after : List GroupKey}
    (hasc : line.Pairwise fun x y => x.measure ≤ y.measure)
    (h : (line.filter (·.measure == n)).map (·.key) = before ++ k :: k' :: after) :
    ∃ x y, Consecutive line x y ∧ x.measure = n ∧ y.measure = n ∧ x.key = k ∧ y.key = k' := by
  obtain ⟨early, rest, hfilter, -, hrest⟩ := List.map_eq_append_iff.mp h
  obtain ⟨x, rest', rfl, rfl, hrest'⟩ := List.map_eq_cons_iff.mp hrest
  obtain ⟨y, late, rfl, rfl, -⟩ := List.map_eq_cons_iff.mp hrest'
  obtain ⟨line₁, line₂, rfl, -, hfilter⟩ := List.filter_eq_append_iff.mp hfilter
  obtain ⟨line₃, line₄, rfl, -, hx, hfilter⟩ := List.filter_eq_cons_iff.mp hfilter
  obtain ⟨between, line₆, rfl, hbetween, hy, -⟩ := List.filter_eq_cons_iff.mp hfilter
  simp only [beq_iff_eq] at hx hy hbetween
  -- nothing of another measure stands between two stops of one
  have hnone : between = [] := by
    refine List.eq_nil_iff_forall_not_mem.mpr fun z hz => hbetween z hz ?_
    have hasc := (List.pairwise_append.mp (List.pairwise_append.mp hasc).2.1).2.1
    obtain ⟨hxz, hasc⟩ := List.pairwise_cons.mp hasc
    have hzy := (List.pairwise_append.mp hasc).2.2 z hz y (by simp)
    have := hxz z (by simp [hz])
    omega
  subst hnone
  exact ⟨x, y, ⟨line₁ ++ line₃, line₆, by simp⟩, hx, hy, rfl, rfl⟩

/-- The last key of a measure and the first of the next stand on stops that follow each
other. -/
theorem exists_consecutive_across {line : List Stop} {before after : List GroupKey}
    (hasc : line.Pairwise fun x y => x.measure ≤ y.measure)
    (h : (line.filter (·.measure == n)).map (·.key) = before ++ [k])
    (h' : (line.filter (·.measure == n + 1)).map (·.key) = k' :: after) :
    ∃ x y, Consecutive line x y ∧ x.measure = n ∧ y.measure = n + 1 ∧ x.key = k ∧ y.key = k' := by
  obtain ⟨early, rest, hfilter, -, hrest⟩ := List.map_eq_append_iff.mp h
  obtain ⟨x, rest', rfl, rfl, hrest'⟩ := List.map_eq_cons_iff.mp hrest
  obtain rfl := List.map_eq_nil_iff.mp hrest'
  obtain ⟨line₁, line₂, hline, -, hfilter⟩ := List.filter_eq_append_iff.mp hfilter
  obtain ⟨line₃, line₄, rfl, -, hx, hempty⟩ := List.filter_eq_cons_iff.mp hfilter
  simp only [beq_iff_eq] at hx
  rw [← List.append_assoc] at hline
  subst hline
  obtain ⟨-, htail, hcross⟩ := List.pairwise_append.mp hasc
  obtain ⟨hxz, htail⟩ := List.pairwise_cons.mp htail
  have hnot : ∀ z ∈ line₄, z.measure ≠ n := by
    simpa [List.filter_eq_nil_iff] using hempty
  -- the measure after that of `x` begins behind it
  have hnone : (line₁ ++ line₃).filter (·.measure == n + 1) = [] := by
    refine List.filter_eq_nil_iff.mpr fun z hz => ?_
    have := hcross z hz x (by simp)
    simp only [beq_iff_eq]
    omega
  rw [List.filter_append, hnone, List.nil_append, List.filter_cons_of_neg (by simp [hx])] at h'
  cases line₄ with
  | nil => cases h'
  | cons z line₅ =>
    obtain ⟨w, rest, hw, -, -⟩ := List.map_eq_cons_iff.mp h'
    have hwmem : w ∈ (z :: line₅).filter (·.measure == n + 1) := hw ▸ List.mem_cons_self
    obtain ⟨hwmem, hwn⟩ := List.mem_filter.mp hwmem
    have hzw : z.measure ≤ w.measure := by
      rcases List.mem_cons.mp hwmem with rfl | hwmem
      · exact Nat.le_refl _
      · exact (List.pairwise_cons.mp htail).1 w hwmem
    have hzn : z.measure = n + 1 := by
      have := hxz z (by simp)
      have := hnot z (by simp)
      simp only [beq_iff_eq] at hwn
      omega
    rw [List.filter_cons_of_pos (by simp [hzn]), List.map_cons, List.cons.injEq] at h'
    exact ⟨x, z, ⟨line₁ ++ line₃, line₅, rfl⟩, hx, hzn, rfl, h'.1⟩

/-- Stops that follow each other, with no measure between them, carry groups that do. -/
theorem follows_of_next (hs : s.Sound fits) (h : Next s hands staff voice k k') :
    s.Follows staff voice k k' := by
  obtain ⟨x, y, ⟨before, after, hline⟩, hadjacent, rfl, rfl⟩ := h
  obtain ⟨hxy, hbefore, hafter⟩ :=
    Consecutive.order (lineFrom_ascending 0 s.measures) hline
  have hle : y.measure ≤ x.measure + 1 := by
    simp only [adjacent, Bool.and_eq_true, decide_eq_true_eq] at hadjacent
    exact hadjacent.2
  have hpart := fun n => (hline ▸ filter_line hands staff voice hs n).symm
  rcases Nat.eq_or_lt_of_le hxy with heq | hlt
  · refine .within x.measure ((before.filter (·.measure == x.measure)).map (·.key))
      ((after.filter (·.measure == x.measure)).map (·.key)) ((hpart x.measure).trans ?_)
    rw [List.filter_append, List.filter_cons_of_pos (by simp),
      List.filter_cons_of_pos (by simp [heq]), List.map_append, List.map_cons, List.map_cons]
  · have heq : y.measure = x.measure + 1 := by omega
    have hnone : after.filter (·.measure == x.measure) = [] := by
      refine List.filter_eq_nil_iff.mpr fun z hz => ?_
      have := hafter z hz
      simp only [beq_iff_eq]
      omega
    have hnone' : before.filter (·.measure == x.measure + 1) = [] := by
      refine List.filter_eq_nil_iff.mpr fun z hz => ?_
      have := hbefore z hz
      simp only [beq_iff_eq]
      omega
    refine .across x.measure ((before.filter (·.measure == x.measure)).map (·.key))
      ((after.filter (·.measure == x.measure + 1)).map (·.key)) ((hpart x.measure).trans ?_)
      ((hpart (x.measure + 1)).trans ?_)
    · rw [List.filter_append, List.filter_cons_of_pos (by simp),
        List.filter_cons_of_neg (by simp [heq]), hnone, List.map_append]
      rfl
    · rw [List.filter_append, hnone', List.filter_cons_of_neg (by simp),
        List.filter_cons_of_pos (by simp [heq])]
      rfl

theorem next_iff_follows (hs : s.Sound fits) :
    Next s hands staff voice k k' ↔ s.Follows staff voice k k' := by
  refine ⟨follows_of_next hs, fun h => ?_⟩
  have hasc : (line s hands staff voice).Pairwise fun x y => x.measure ≤ y.measure :=
    lineFrom_ascending 0 s.measures
  have hbeats := fun n => filter_line hands staff voice hs n
  cases h with
  | within n before after h =>
    obtain ⟨x, y, hxy, hx, hy, hk, hk'⟩ := exists_consecutive_within hasc ((hbeats n).trans h)
    exact ⟨x, y, hxy, by simp [adjacent, hx, hy], hk, hk'⟩
  | across n before after h h' =>
    obtain ⟨x, y, hxy, hx, hy, hk, hk'⟩ :=
      exists_consecutive_across hasc ((hbeats n).trans h) ((hbeats (n + 1)).trans h')
    refine ⟨x, y, hxy, ?_, hk, hk'⟩
    simp only [adjacent, hx, hy, Bool.and_eq_true, decide_eq_true_eq]
    omega

/-! ## Neighbours -/

/-- **The next group** of a group on a line is the one that follows it. -/
theorem LaidOut.next?_eq_some (hl : l.LaidOut s) (hs : s.Sound fits)
    (hk : k ∈ s.beatsAt staff voice n) : l.next? k = some k' ↔ s.Follows staff voice k k' :=
  (hl.next?_iff_next hs hk).trans (next_iff_follows hs)

theorem LaidOut.prev?_eq_some (hl : l.LaidOut s) (hs : s.Sound fits)
    (hk : k ∈ s.beatsAt staff voice n) : l.prev? k = some k' ↔ s.Follows staff voice k' k :=
  (hl.prev?_iff_next hs hk).trans (next_iff_follows hs)

end Layout

theorem Score.Follows.mem {s : Score} {staff voice : Nat} {k k' : GroupKey}
    (h : s.Follows staff voice k k') :
    (∃ n, k ∈ s.beatsAt staff voice n) ∧ ∃ n, k' ∈ s.beatsAt staff voice n := by
  cases h with
  | within n before after h => exact ⟨⟨n, by simp [h]⟩, n, by simp [h]⟩
  | across n before after h h' => exact ⟨⟨n, by simp [h]⟩, n + 1, by simp [h']⟩

namespace Layout

variable {fits : Group → Prop} {s : Score} {l : Layout} {staff voice : Nat}
  {k k₁ k₂ : GroupKey}

theorem LaidOut.follows_unique (hl : l.LaidOut s) (hs : s.Sound fits)
    (h₁ : s.Follows staff voice k k₁) (h₂ : s.Follows staff voice k k₂) : k₁ = k₂ := by
  obtain ⟨n, hn⟩ := h₁.mem.1
  exact Option.some.inj (((hl.next?_eq_some hs hn).mpr h₁).symm.trans
    ((hl.next?_eq_some hs hn).mpr h₂))

theorem LaidOut.followed_unique (hl : l.LaidOut s) (hs : s.Sound fits)
    (h₁ : s.Follows staff voice k₁ k) (h₂ : s.Follows staff voice k₂ k) : k₁ = k₂ := by
  obtain ⟨n, hn⟩ := h₁.mem.2
  exact Option.some.inj (((hl.prev?_eq_some hs hn).mpr h₁).symm.trans
    ((hl.prev?_eq_some hs hn).mpr h₂))

end Layout

end Divisi
