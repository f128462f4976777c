/-
The walk along two voices, group by group.

Going from group to group never leads back: the neighbour of a group stands in a later hand, or
in an earlier one, by the heading (`Layout.LaidOut.passes`). So a walk comes to its end from
wherever it sets out, and `Layout.follow` says what it finds on its way
(`Score.Chorded.walks_along_neighbours`).
-/
import Divisi.Proofs.Consistent
import Divisi.Proofs.Crossings
import Divisi.Proofs.Reworked

namespace Divisi

/-- Hand `n'` comes after hand `n` on the way. -/
def Heading.Passes : Heading → Nat → Nat → Prop
  | .forth, n, n' => n < n'
  | .back, n, n' => n' < n

theorem Heading.Passes.trans {heading : Heading} {n n' n'' : Nat} (h : heading.Passes n n')
    (h' : heading.Passes n' n'') : heading.Passes n n'' := by
  cases heading with
  | forth => exact Nat.lt_trans h h'
  | back => exact Nat.lt_trans h' h

namespace Layout

/-! ## The walk -/

/-- The first stop of a group on the lines. -/
def stop? (l : Layout) (key : GroupKey) : Option Stop := l.lines.flatten.find? (·.key == key)

/-- Both groups are on lines, and in one measure. -/
def sameMeasure (l : Layout) (key other : GroupKey) : Bool :=
  match l.stop? key, l.stop? other with
  | some x, some y => y.measure == x.measure
  | _, _ => false

/-- Something in the music links a group with its neighbour, or both are in one measure and the
request is for whole measures. -/
def links (s : Score) (l : Layout) (heading : Heading) (byMeasure : Bool) (key : GroupKey) : Bool :=
  (match heading with
    | .forth => (s.groups.get key).continuesOnward
    | .back => (l.prev? key).any fun prev => (s.groups.get prev).continuesOnward) ||
  (byMeasure && (l.neighbour? heading key).any (l.sameMeasure key))

/-- What a round of a walk comes to. -/
inductive Round where
  | ends (agreed : Bool)
  /-- Both voices go on into one hand. -/
  | into (hand : Nat) (dest src : GroupKey)
  deriving DecidableEq

/-- One round of a walk: the groups that it has come to may lead on into a hand. -/
def round (s : Score) (l : Layout) (heading : Heading) (byMeasure : Bool) (dest src : GroupKey) :
    Round :=
  if l.links s heading byMeasure dest || l.links s heading byMeasure src then
    match l.neighbour? heading dest, l.neighbour? heading src with
    | none, none => .ends true
    | some dest', some src' =>
      match handOf? l.hands dest', handOf? l.hands src' with
      | some h, some h' => if h = h' then .into h dest' src' else .ends false
      | _, _ => .ends false
    | _, _ => .ends false
  else .ends true

/-- A walk from two groups that comes to its end, with the hands that it asks about on its way
and what it finds. -/
inductive Walks (s : Score) (l : Layout) (heading : Heading) (byMeasure : Bool)
    (accept : Nat → Bool) : GroupKey → GroupKey → List Nat → Bool → Prop
  | ends {dest src : GroupKey} {agreed : Bool} :
    l.round s heading byMeasure dest src = .ends agreed →
    Walks s l heading byMeasure accept dest src [] agreed
  | refused {dest src dest' src' : GroupKey} {n : Nat} :
    l.round s heading byMeasure dest src = .into n dest' src' → accept n = false →
    Walks s l heading byMeasure accept dest src [n] false
  | on {dest src dest' src' : GroupKey} {n : Nat} {hands : List Nat} {agreed : Bool} :
    l.round s heading byMeasure dest src = .into n dest' src' → accept n = true →
    Walks s l heading byMeasure accept dest' src' hands agreed →
    Walks s l heading byMeasure accept dest src (n :: hands) agreed

end Layout

/-! ## Neighbours -/

namespace Score

variable {fits : Group → Prop} {s : Score} {staff voice n : Nat} {k k' : GroupKey} {g : Group}
  {before after : List GroupKey}

theorem beatsAt_nodup (hs : s.Sound fits) (staff voice n : Nat) : (s.beatsAt staff voice n).Nodup := by
  rw [← Layout.filter_line [] staff voice hs]
  exact (Layout.line_nodup [] staff voice hs).sublist (List.filter_sublist.map _)

theorem Sound.exists_beatsAt_of_main (hs : s.Sound Group.Written) (hk : s.groups.get? k = some g)
    (hmain : g.grace = false) : ∃ n, k ∈ s.beatsAt g.staff g.voice n := by
  obtain ⟨⟨item, staff, voice⟩, list, hlist, hcount, hnames, -⟩ :=
    (hs.consistent fun _ hg => hg.toSound).listed k g hk
  obtain ⟨rfl, rfl⟩ : g.staff = staff ∧ g.voice = voice := ⟨hnames.staff, hnames.voice⟩
  have hmem : k ∈ list := List.count_pos_iff.mp (by omega)
  refine exists_beatsAt hlist (List.mem_filter.mpr ⟨hmem, ?_⟩)
  simp [graceAt_of_get? hk, hmain]

theorem Sound.exists_main (hs : s.Sound fits) (hk : k ∈ s.beatsAt staff voice n) :
    ∃ g, s.groups.get? k = some g ∧ g.grace = false := by
  obtain ⟨g, hg, -⟩ := hs.get?_of_beatsAt hk
  refine ⟨g, hg, ?_⟩
  rw [← Arena.get_of_get? hg]
  exact graceAt_of_beatsAt hk

/-- What follows a group is the first of all that stands behind it in its measure and then in
the next one. -/
theorem follows_iff_head? (hs : s.Sound fits) (h : s.beatsAt staff voice n = before ++ k :: after) :
    s.Follows staff voice k k' ↔ (after ++ s.beatsAt staff voice (n + 1)).head? = some k' := by
  have hk : k ∈ s.beatsAt staff voice n := by simp [h]
  have honce : k ∉ before ++ after :=
    (List.nodup_cons.mp (List.nodup_middle.mp (h ▸ beatsAt_nodup hs staff voice n))).1
  rw [List.mem_append, not_or] at honce
  -- a group stands in one measure, and once there
  have hplace : ∀ {i : Nat} {before' after' : List GroupKey},
      s.beatsAt staff voice i = before' ++ k :: after' → n = i ∧ after = after' := by
    intro i before' after' h'
    have hk' : k ∈ s.beatsAt staff voice i := by simp [h']
    obtain rfl := Layout.ordinal_unique hs hk hk'
    exact ⟨rfl, ((List.append_cons_inj_of_notMem honce.1 honce.2).mp (h.symm.trans h')).2.2⟩
  constructor
  · intro hfollows
    cases hfollows with
    | within i before' after' h' =>
      obtain ⟨rfl, rfl⟩ := hplace h'
      rfl
    | across i before' after' h' hnext =>
      obtain ⟨rfl, rfl⟩ := hplace h'
      rw [List.nil_append, hnext, List.head?_cons]
  · intro hhead
    cases after with
    | nil =>
      obtain ⟨rest, hrest⟩ := List.head?_eq_some_iff.mp hhead
      exact .across n before rest h hrest
    | cons x rest =>
      cases hhead
      exact .within n before rest h

end Score

namespace Layout

variable {fits : Group → Prop} {s : Score} {l : Layout} {staff voice : Nat} {k k' : GroupKey}

theorem LaidOut.exists_of_neighbour? {heading : Heading} (hl : l.LaidOut s) (hs : s.Sound fits)
    (h : l.neighbour? heading k = some k') : ∃ staff voice n, k ∈ s.beatsAt staff voice n := by
  by_contra hnot
  simp only [not_exists] at hnot
  simp [neighbour?, Lined.way_of_not hl.lines hs hnot] at h

theorem LaidOut.next?_iff (hl : l.LaidOut s) (hs : s.Sound fits) :
    l.next? k = some k' ↔ ∃ staff voice, s.Follows staff voice k k' := by
  constructor
  · intro h
    obtain ⟨staff, voice, n, hk⟩ := hl.exists_of_neighbour? hs h
    exact ⟨staff, voice, (hl.next?_eq_some hs hk).mp h⟩
  · rintro ⟨staff, voice, h⟩
    obtain ⟨n, hk⟩ := h.mem.1
    exact (hl.next?_eq_some hs hk).mpr h

theorem LaidOut.prev?_iff (hl : l.LaidOut s) (hs : s.Sound fits) :
    l.prev? k = some k' ↔ ∃ staff voice, s.Follows staff voice k' k := by
  constructor
  · intro h
    obtain ⟨staff, voice, n, hk⟩ := hl.exists_of_neighbour? hs h
    exact ⟨staff, voice, (hl.prev?_eq_some hs hk).mp h⟩
  · rintro ⟨staff, voice, h⟩
    obtain ⟨n, hk⟩ := h.mem.2
    exact (hl.prev?_eq_some hs hk).mpr h

end Layout

/-! ## Hands in order -/

theorem Hand.Seated.chordAt? {s : Score} {p : Placed} {c : Chord} {h : Hand} (hp : p ∈ s.placed)
    (hseated : h.Seated s p c) : s.chordAt? h.item h.chord = some c := by
  rw [Score.chordAt?, hseated.item, Placed.measureAt?_item hp, Option.bind_some, hseated.chord]

namespace Layout

variable {fits : Group → Prop} {s : Score} {l : Layout} {staff voice : Nat} {k k' : GroupKey}

theorem LaidOut.voice?_of_handOf? {m n : Nat} (hl : l.LaidOut s) (hs : s.Sound fits)
    (hc : s.Charted) (hk : k ∈ s.beatsAt staff voice m) (hn : handOf? l.hands k = some n) :
    ∃ h, l.hands[n]? = some h ∧ h.staff = staff ∧ h.voice? voice = some k := by
  obtain ⟨x, hx, rfl, -⟩ := exists_stop hs l.hands hk
  exact hl.voice?_of_hand hs hc hx ((mem_lineFrom (i := 0) hx).2.trans hn)

theorem LaidOut.precedes_of_follows {h h' : Hand} (hl : l.LaidOut s) (hs : s.Sound fits)
    (hc : s.Charted) (hfollows : s.Follows staff voice k k') (hh : h ∈ l.hands) (hh' : h' ∈ l.hands)
    (hstaff : h.staff = staff) (hstaff' : h'.staff = staff)
    (hk : h.voice? voice = some k) (hk' : h'.voice? voice = some k') : h.Precedes h' := by
  subst hstaff
  obtain ⟨i, p, hp, hitem, hon⟩ := hl.beatsAt_of_voice? hs hc hh hk
  obtain ⟨j, q, hq, hitem', hon'⟩ := hl.beatsAt_of_voice? hs hc hh' hk'
  rw [hstaff'] at hon'
  cases hfollows with
  | within n before after hbeats =>
    have hn : k ∈ s.beatsAt h.staff voice n := by simp [hbeats]
    have hn' : k' ∈ s.beatsAt h.staff voice n := by simp [hbeats]
    obtain rfl := ordinal_unique hs hon hn
    obtain rfl := ordinal_unique hs hon' hn'
    cases hp.symm.trans hq
    obtain ⟨p', hp', c, hseated⟩ := hl.seated h hh
    obtain ⟨q', hq', c', hseated'⟩ := hl.seated h' hh'
    obtain rfl := Placed.eq_of_item hp' (List.mem_of_getElem? hp) (hseated.item.symm.trans hitem)
    obtain ⟨list, hlist, -⟩ := (hc.soundsAt_of_seated hs hp' hseated hk).2.mem
    have hsub : [k, k'].Sublist list := by
      refine List.Sublist.trans ?_ (List.filter_sublist (p := fun key => !s.graceAt key))
      rw [show list.filter _ = s.mains list from rfl, ← Score.beatsAt_of_list? hp hlist, hbeats]
      exact List.sublist_append_of_sublist_right (((List.nil_sublist after).cons_cons k').cons_cons k)
    have hahead := List.pairwise_iff_forall_sublist.mp (hc.pairwise_ahead hs hlist) hsub _ _ _ _ _ _
      (hseated.chordAt? hp') (hseated'.chordAt? hq') ((hseated.voice?_iff _ _).mp hk).1
      ((hseated'.voice?_iff _ _).mp hk').1
    exact hahead.imp_right fun ⟨hitem, hchord⟩ => ⟨hitem, .inl hchord⟩
  | across n before after hbeats hnext =>
    have hn : k ∈ s.beatsAt h.staff voice n := by simp [hbeats]
    have hn' : k' ∈ s.beatsAt h.staff voice (n + 1) := by simp [hnext]
    obtain rfl := ordinal_unique hs hon hn
    obtain rfl := ordinal_unique hs hon' hn'
    have hlt := rel_of_pairwise (Placed.ascending_along 0 .start s.items) hp hq (Nat.lt_succ_self i)
    exact .inl (hitem ▸ hitem' ▸ hlt)

/-- **A step passes on** to a later hand, or to an earlier one, by the heading. -/
theorem LaidOut.passes {heading : Heading} {n n' : Nat} (hl : l.LaidOut s) (hs : s.Sound fits)
    (hc : s.Charted) (hnext : l.neighbour? heading k = some k') (hk : handOf? l.hands k = some n)
    (hk' : handOf? l.hands k' = some n') : heading.Passes n n' := by
  -- the same two hands stand in the other order seen from the other end
  have hlt : ∀ {a b : GroupKey} {i j : Nat}, l.next? a = some b → handOf? l.hands a = some i →
      handOf? l.hands b = some j → i < j := by
    intro a b i j hab ha hb
    obtain ⟨staff, voice, hfollows⟩ := (hl.next?_iff hs).mp hab
    obtain ⟨⟨m, hm⟩, m', hm'⟩ := hfollows.mem
    obtain ⟨h, hi, hstaff, hvoice⟩ := hl.voice?_of_handOf? hs hc hm ha
    obtain ⟨h', hj, hstaff', hvoice'⟩ := hl.voice?_of_handOf? hs hc hm' hb
    have hprecedes := hl.precedes_of_follows hs hc hfollows (List.mem_of_getElem? hi)
      (List.mem_of_getElem? hj) hstaff hstaff' hvoice hvoice'
    refine lt_of_pairwise hl.ordered ?_ ?_ hi hj
    · simp only [Hand.Precedes] at hprecedes ⊢
      omega
    · rintro rfl
      exact hprecedes.ne rfl
  cases heading with
  | forth => exact hlt hnext hk hk'
  | back => exact hlt ((hl.next?_iff hs).mpr ((hl.prev?_iff hs).mp hnext)) hk' hk

/-! ## Ways, step by step -/

variable {line : List Stop} {x y : Stop} {rest : List Stop}

/-- The way from the next stop is what is left of the way. -/
theorem wayOn_next (hnodup : (line.map (·.key)).Nodup) {heading : Heading}
    (h : wayOn line k heading = x :: y :: rest) : wayOn line y.key heading = y :: rest := by
  have hforth : ∀ {line : List Stop}, (line.map (·.key)).Nodup →
      wayOn line k .forth = x :: y :: rest → wayOn line y.key .forth = y :: rest := by
    intro line hnodup h
    have hline : line = (line.takeWhile (·.key ≠ k) ++ [x]) ++ y :: rest := by
      rw [List.append_assoc, List.singleton_append, ← h, wayOn, List.takeWhile_append_dropWhile]
    exact wayOn_forth hnodup hline
  cases heading with
  | forth => exact hforth hnodup h
  | back =>
    refine hforth ?_ h
    rw [List.map_reverse]
    exact List.nodup_reverse.mpr hnodup

theorem LaidOut.stop?_eq_some (hl : l.LaidOut s) (hs : s.Sound fits)
    (hx : x ∈ Layout.line s l.hands staff voice) : l.stop? x.key = some x := by
  have hon := mem_beatsAt_of_line hs hx
  have hmem : x ∈ l.lines.flatten := List.mem_flatten.mpr ⟨_, Lined.line_mem hl.lines hon, hx⟩
  cases hfound : l.stop? x.key with
  | none => exact absurd BEq.rfl (List.find?_eq_none.mp hfound x hmem)
  | some y =>
    have hkey : y.key = x.key := by
      simpa using List.find?_some (p := fun z : Stop => z.key == x.key) hfound
    obtain ⟨stops, hstops, hy⟩ := List.mem_flatten.mp (List.mem_of_find?_eq_some hfound)
    rw [hl.lines] at hstops
    obtain ⟨staff', -, hstops⟩ := List.mem_flatMap.mp hstops
    obtain ⟨voice', -, rfl⟩ := List.mem_map.mp hstops
    -- one group, so one line
    obtain ⟨g, hg, rfl, rfl⟩ := hs.get?_of_beatsAt hon
    obtain ⟨g', hg', rfl, rfl⟩ := hs.get?_of_beatsAt (hkey ▸ mem_beatsAt_of_line hs hy)
    cases hg.symm.trans hg'
    rw [List.inj_on_of_nodup_map (line_nodup l.hands _ _ hs) hy hx hkey]

/-- A way ends at once, or else goes on as the way from the neighbour. -/
theorem LaidOut.way_cases (hl : l.LaidOut s) (hs : s.Sound fits) (heading : Heading)
    (k : GroupKey) : ∃ x, x.key = k ∧
      ((l.neighbour? heading k = none ∧ l.way heading k = [x]) ∨
        ∃ y rest, l.neighbour? heading k = some y.key ∧ l.way heading k = x :: y :: rest ∧
          l.way heading y.key = y :: rest ∧ y.hand = handOf? l.hands y.key ∧
          l.sameMeasure k y.key = (y.measure == x.measure)) := by
  by_cases hon : ∃ staff voice n, k ∈ s.beatsAt staff voice n
  · obtain ⟨staff, voice, n, hk⟩ := hon
    have hnodup := line_nodup l.hands staff voice hs
    obtain ⟨x, hx, rfl, -⟩ := exists_stop hs l.hands hk
    obtain ⟨stops, hstops, honline⟩ := exists_wayOn hnodup hx heading
    have hway : l.way heading x.key = untilGap (x :: stops) := by
      rw [hl.way_eq hs (mem_beatsAt_of_line hs hx), hstops]
    refine ⟨x, rfl, ?_⟩
    cases stops with
    | nil => exact .inl ⟨neighbour?_of_way hway, hway⟩
    | cons y stops =>
      by_cases hadjacent : adjacent x y = true
      · have hy := honline y List.mem_cons_self
        obtain ⟨rest, hrest, -⟩ := untilGap_cons y stops
        rw [untilGap, if_pos hadjacent, hrest] at hway
        refine .inr ⟨y, rest, neighbour?_of_way hway, hway, ?_, (mem_lineFrom (i := 0) hy).2, ?_⟩
        · rw [hl.way_eq hs (mem_beatsAt_of_line hs hy), wayOn_next hnodup hstops, hrest]
        · rw [sameMeasure, hl.stop?_eq_some hs hx, hl.stop?_eq_some hs hy]
      · rw [untilGap, if_neg hadjacent] at hway
        exact .inl ⟨neighbour?_of_way hway, hway⟩
  · simp only [not_exists] at hon
    have hway := Lined.way_of_not hl.lines hs hon heading
    exact ⟨_, rfl, .inl ⟨neighbour?_of_way hway, hway⟩⟩

theorem LaidOut.linked_of_way (hl : l.LaidOut s) (hs : s.Sound fits) {heading : Heading}
    (h : l.way heading k = x :: rest) (byMeasure : Bool) :
    linked s heading byMeasure x rest.head? = l.links s heading byMeasure k := by
  obtain ⟨x', rfl, hcases⟩ := hl.way_cases hs heading k
  rcases hcases with ⟨hnone, hway⟩ | ⟨y, rest', hnext, hway, -, -, hmeasure⟩
  · cases hway.symm.trans h
    cases heading with
    | forth => simp [linked, links, leadsOn, hnone]
    | back => simp [linked, links, prev?, hnone]
  · cases hway.symm.trans h
    cases heading with
    | forth => simp [linked, links, leadsOn, hnext, hmeasure]
    | back => simp [linked, links, prev?, leadsOn, hnext, hmeasure]

/-! ## Walks -/

variable {heading : Heading} {byMeasure agreed : Bool} {accept accept' : Nat → Bool}
  {d e d' e' : GroupKey} {n : Nat} {hands : List Nat}

theorem round_eq_into (h : l.round s heading byMeasure d e = .into n d' e') :
    l.neighbour? heading d = some d' ∧ l.neighbour? heading e = some e' ∧
      handOf? l.hands d' = some n ∧ handOf? l.hands e' = some n := by
  unfold round at h
  split at h
  · split at h
    · cases h
    next hd he =>
      split at h
      next hn hn' =>
        split at h
        next heq =>
          subst heq
          cases h
          exact ⟨hd, he, hn, hn'⟩
        · cases h
      · cases h
    · cases h
  · cases h

/-- Two ways are followed round by round. -/
theorem LaidOut.follow_eq (hl : l.LaidOut s) (hs : s.Sound fits) :
    follow s heading byMeasure accept (l.way heading d) (l.way heading e) =
      match l.round s heading byMeasure d e with
      | .ends agreed => agreed
      | .into n d' e' => accept n &&
        follow s heading byMeasure accept (l.way heading d') (l.way heading e') := by
  obtain ⟨x, rfl, hd⟩ := hl.way_cases hs heading d
  obtain ⟨y, rfl, he⟩ := hl.way_cases hs heading e
  rcases hd with ⟨hd, hway⟩ | ⟨d', ds, hd, hway, hon, hhand, -⟩
  · rcases he with ⟨he, hway'⟩ | ⟨e', es, he, hway', -⟩
    all_goals
      rw [hway, hway', follow, hl.linked_of_way hs hway, hl.linked_of_way hs hway', round, hd, he]
      cases l.links s heading byMeasure x.key || l.links s heading byMeasure y.key <;> rfl
  rcases he with ⟨he, hway'⟩ | ⟨e', es, he, hway', hon', hhand', -⟩
  all_goals
    rw [hway, hway', follow, hl.linked_of_way hs hway, hl.linked_of_way hs hway', round, hd, he]
    cases l.links s heading byMeasure x.key || l.links s heading byMeasure y.key
    case false => rfl
  · rfl
  -- both voices go on, each into its hand
  simp only [if_true, List.head?_cons, hhand, hhand']
  cases handOf? l.hands d'.key with
  | none => rfl
  | some h =>
    cases handOf? l.hands e'.key with
    | none => rfl
    | some h' =>
      by_cases heq : h = h'
      · simp [heq, hon, hon']
      · simp [heq]

namespace Walks

/-- What a walk finds is what following finds. -/
theorem follow_eq (hl : l.LaidOut s) (hs : s.Sound fits)
    (h : l.Walks s heading byMeasure accept d e hands agreed) :
    follow s heading byMeasure accept (l.way heading d) (l.way heading e) = agreed := by
  induction h with
  | ends hround => exact (hl.follow_eq hs).trans (by rw [hround])
  | refused hround hnot => exact (hl.follow_eq hs).trans (by simp only [hround, hnot, Bool.false_and])
  | on hround haccept _ ih =>
    exact (hl.follow_eq hs).trans (by simp only [hround, haccept, Bool.true_and, ih])

theorem unique {hands' : List Nat} {agreed' : Bool}
    (h : l.Walks s heading byMeasure accept d e hands agreed)
    (h' : l.Walks s heading byMeasure accept d e hands' agreed') :
    hands' = hands ∧ agreed' = agreed := by
  induction h generalizing hands' with
  | ends hround =>
    cases h' with
    | ends hround' =>
      cases hround.symm.trans hround'
      exact ⟨rfl, rfl⟩
    | refused hround' | on hround' => cases hround.symm.trans hround'
  | refused hround hnot =>
    cases h' with
    | ends hround' => cases hround.symm.trans hround'
    | refused hround' =>
      cases hround.symm.trans hround'
      exact ⟨rfl, rfl⟩
    | on hround' haccept =>
      cases hround.symm.trans hround'
      cases hnot.symm.trans haccept
  | on hround haccept _ ih =>
    cases h' with
    | ends hround' => cases hround.symm.trans hround'
    | refused hround' hnot =>
      cases hround.symm.trans hround'
      cases hnot.symm.trans haccept
    | on hround' _ hrest =>
      cases hround.symm.trans hround'
      obtain ⟨rfl, rfl⟩ := ih hrest
      exact ⟨rfl, rfl⟩

/-- A walk that succeeds does so where more hands are accepted. -/
theorem mono (himp : ∀ n, accept n = true → accept' n = true)
    (h : l.Walks s heading byMeasure accept d e hands true) :
    l.Walks s heading byMeasure accept' d e hands true := by
  generalize hagreed : true = agreed at h
  induction h with
  | ends hround => exact .ends hround
  | refused => cases hagreed
  | on hround haccept _ ih => exact .on hround (himp _ haccept) (ih hagreed)

/-- **The hands of a walk** come one after the other, all behind those that it sets out from. -/
theorem passes (hl : l.LaidOut s) (hs : s.Sound fits) (hc : s.Charted)
    (h : l.Walks s heading byMeasure accept d e hands agreed) : hands.Pairwise heading.Passes ∧
      ∀ i, handOf? l.hands d = some i ∨ handOf? l.hands e = some i →
        ∀ n ∈ hands, heading.Passes i n := by
  have hstep : ∀ {d e d' e' : GroupKey} {i n : Nat},
      l.round s heading byMeasure d e = .into n d' e' →
      handOf? l.hands d = some i ∨ handOf? l.hands e = some i → heading.Passes i n := by
    intro d e d' e' i n hround hi
    obtain ⟨hd, he, hn, hn'⟩ := round_eq_into hround
    rcases hi with hi | hi
    · exact hl.passes hs hc hd hi hn
    · exact hl.passes hs hc he hi hn'
  induction h with
  | ends => simp
  | refused hround => exact ⟨List.pairwise_singleton _ _, fun i hi n hn => by
      cases List.mem_singleton.mp hn
      exact hstep hround hi⟩
  | on hround _ _ ih =>
    obtain ⟨hordered, hbehind⟩ := ih
    obtain ⟨-, -, hn, -⟩ := round_eq_into hround
    have hbehind := hbehind _ (.inl hn)
    refine ⟨List.pairwise_cons.mpr ⟨hbehind, hordered⟩, fun i hi n hmem => ?_⟩
    have hfirst := hstep hround hi
    rcases List.mem_cons.mp hmem with rfl | hmem
    · exact hfirst
    · exact hfirst.trans (hbehind n hmem)

end Walks

/-- Every walk comes to its end: the way that is left grows shorter. -/
theorem LaidOut.exists_walks (hl : l.LaidOut s) (hs : s.Sound fits) (heading : Heading)
    (byMeasure : Bool) (accept : Nat → Bool) (d e : GroupKey) :
    ∃ hands agreed, l.Walks s heading byMeasure accept d e hands agreed := by
  induction hlength : (l.way heading d).length using Nat.strong_induction_on generalizing d e with
  | _ length ih =>
    cases hround : l.round s heading byMeasure d e with
    | ends agreed => exact ⟨[], agreed, .ends hround⟩
    | into n d' e' =>
      cases haccept : accept n with
      | false => exact ⟨[n], false, .refused hround haccept⟩
      | true =>
        have hd := (round_eq_into hround).1
        have hshorter : (l.way heading d').length < length := by
          obtain ⟨x, -, hcases⟩ := hl.way_cases hs heading d
          rcases hcases with ⟨hnone, -⟩ | ⟨y, rest, hnext, hway, hleft, -⟩
          · cases hnone.symm.trans hd
          · cases hnext.symm.trans hd
            rw [← hlength, hway, hleft]
            exact Nat.lt_succ_self _
        obtain ⟨hands, agreed, hwalks⟩ := ih _ hshorter d' e' rfl
        exact ⟨n :: hands, agreed, .on hround haccept hwalks⟩

end Layout

/-- **Neighbours and walks.** In a score that has its chords, `next?` and `prev?` undo each other,
and go between groups that are no grace notes. The next group of one of these is what follows it
in its list or else, in the measure right behind, comes first in the list of that staff and voice;
there is none if that list has nothing. So a walk from any two groups ends, whichever way it heads
and whatever hands are accepted, with one outcome, the one that `Layout.follow` gives. The hands
that it asks about come one after the other in the order of the score, or against it, and all of
them behind those of the two groups. A walk that succeeds does so, by the same hands, where more
hands are accepted. -/
theorem Score.Chorded.walks_along_neighbours {t : Score} (ht : t.Chorded) :
    ∃ l, Layout.of t = .ok l ∧
      (∀ a b, l.next? a = some b ↔ l.prev? b = some a) ∧
      (∀ a b, l.next? a = some b → ∀ k ∈ [a, b], ∃ g, t.groups.get? k = some g ∧ g.grace = false) ∧
      (∀ a g, t.groups.get? a = some g → g.grace = false →
        (∃ n, a ∈ t.beatsAt g.staff g.voice n) ∧
        ∀ n before after, t.beatsAt g.staff g.voice n = before ++ a :: after →
          l.next? a = (after ++ t.beatsAt g.staff g.voice (n + 1)).head?) ∧
      l.hands.Pairwise Hand.Precedes ∧
      ∀ heading byMeasure accept d e, ∃ hands agreed,
        (∀ hands' agreed', l.Walks t heading byMeasure accept d e hands' agreed' ↔
          hands' = hands ∧ agreed' = agreed) ∧
        Layout.follow t heading byMeasure accept (l.way heading d) (l.way heading e) = agreed ∧
        hands.Pairwise heading.Passes ∧
        (∀ i, Layout.handOf? l.hands d = some i ∨ Layout.handOf? l.hands e = some i →
          ∀ n ∈ hands, heading.Passes i n) ∧
        (agreed = true → ∀ accept', (∀ n, accept n = true → accept' n = true) →
          l.Walks t heading byMeasure accept' d e hands true) := by
  obtain ⟨l, hof, hl⟩ := Layout.exists_of ht.sound ht.charted
  have hs := ht.sound
  refine ⟨l, hof, fun a b => (hl.next?_iff hs).trans (hl.prev?_iff hs).symm,
    fun a b hab k hk => ?_, fun a g ha hmain => ⟨hs.exists_beatsAt_of_main ha hmain, ?_⟩, hl.ordered,
    fun heading byMeasure accept d e => ?_⟩
  · obtain ⟨staff, voice, hfollows⟩ := (hl.next?_iff hs).mp hab
    obtain ⟨⟨n, hn⟩, n', hn'⟩ := hfollows.mem
    simp only [List.mem_cons, List.not_mem_nil, or_false] at hk
    rcases hk with rfl | rfl
    · exact hs.exists_main hn
    · exact hs.exists_main hn'
  · intro n before after hbeats
    have hon : a ∈ t.beatsAt g.staff g.voice n := by simp [hbeats]
    refine Option.ext fun b => ?_
    rw [hl.next?_eq_some hs hon, follows_iff_head? hs hbeats]
  · obtain ⟨hands, agreed, hwalks⟩ := hl.exists_walks hs heading byMeasure accept d e
    obtain ⟨hordered, hbehind⟩ := hwalks.passes hl hs ht.charted
    refine ⟨hands, agreed, fun hands' agreed' => ⟨hwalks.unique, ?_⟩, hwalks.follow_eq hl hs,
      hordered, hbehind, ?_⟩
    · rintro ⟨rfl, rfl⟩
      exact hwalks
    · rintro rfl accept' himp
      exact hwalks.mono himp

/-- Two voices in two measures, one of them tied over the barline. -/
def tiedOver : String :=
  "music:\n- measure:\n  - voices:\n     1:\n     - time: 2\n       notes: [g5]\n" ++
  "     - time: 2\n       notes: [[g5,true]]\n     2:\n     - time: 2\n       notes: [c4]\n" ++
  "     - time: 2\n       notes: [c4]\n- measure:\n  - voices:\n     1:\n     - time: 1\n" ++
  "       notes: [g5]\n     2:\n     - time: 1\n       notes: [c4]\n"

/-- By whole measures one gets from the first hand of it to the last, and back until a hand is
refused. -/
theorem walks_tiedOver : ∃ t : Score, t.Chorded ∧ ∃ l, Layout.of t = .ok l ∧
    l.next? ⟨1⟩ = some ⟨4⟩ ∧ l.prev? ⟨4⟩ = some ⟨1⟩ ∧
    l.Walks t .forth true (fun _ => true) ⟨0⟩ ⟨2⟩ [1, 2] true ∧
    Layout.follow t .forth true (fun _ => true) (l.way .forth ⟨0⟩) (l.way .forth ⟨2⟩) = true ∧
    l.Walks t .back true (· != 0) ⟨4⟩ ⟨5⟩ [1, 0] false ∧
    [1, 0].Pairwise Heading.back.Passes := by
  obtain ⟨s, hs, hfault, hlayout⟩ := Score.exists_of_spelled tiedOver
    (.append (.append (.append (.ofList _) (.ofList _)) (.ofList _)) (.ofList _))
    (P := fun s => s.buildChords.fault = none ∧
      ((Layout.of s.buildChords.now).toOption.any fun l => decide (
        l.next? ⟨1⟩ = some ⟨4⟩ ∧
        l.round s.buildChords.now .forth true ⟨0⟩ ⟨2⟩ = .into 1 ⟨1⟩ ⟨3⟩ ∧
        l.round s.buildChords.now .forth true ⟨1⟩ ⟨3⟩ = .into 2 ⟨4⟩ ⟨5⟩ ∧
        l.round s.buildChords.now .forth true ⟨4⟩ ⟨5⟩ = .ends true ∧
        l.round s.buildChords.now .back true ⟨4⟩ ⟨5⟩ = .into 1 ⟨1⟩ ⟨3⟩ ∧
        l.round s.buildChords.now .back true ⟨1⟩ ⟨3⟩ = .into 0 ⟨0⟩ ⟨2⟩)) = true)
    (by decide +kernel)
  have ht : s.buildChords.now.Chorded := ⟨s, .of_text hs, hfault, rfl⟩
  obtain ⟨l, hl, hinverse, -, -, -, hwalks⟩ := Score.Chorded.walks_along_neighbours ht
  simp only [hl, Except.toOption, Option.any_some, decide_eq_true_eq] at hlayout
  obtain ⟨hnext, hfirst, hsecond, hlast, hback, hbarred⟩ := hlayout
  have hforth : l.Walks s.buildChords.now .forth true (fun _ => true) ⟨0⟩ ⟨2⟩ [1, 2] true :=
    .on hfirst rfl (.on hsecond rfl (.ends hlast))
  have hback : l.Walks s.buildChords.now .back true (· != 0) ⟨4⟩ ⟨5⟩ [1, 0] false :=
    .on hback rfl (.refused hbarred rfl)
  obtain ⟨hands, agreed, hunique, hfollow, -⟩ := hwalks .forth true (fun _ => true) ⟨0⟩ ⟨2⟩
  obtain ⟨rfl, rfl⟩ := (hunique _ _).mp hforth
  obtain ⟨hands, agreed, hunique, -, hordered, -⟩ := hwalks .back true (· != 0) ⟨4⟩ ⟨5⟩
  obtain ⟨rfl, rfl⟩ := (hunique _ _).mp hback
  exact ⟨_, ht, l, hl, hnext, (hinverse _ _).mp hnext, hforth, hfollow, hback, hordered⟩

end Divisi
