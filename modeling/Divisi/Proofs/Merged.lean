/-
One merge, carried out.

A merge folds each grace note of the source into the one of the destination that stands as
far from its group, and the group itself; grace notes that the source has more of move to
the destination's run (`Merging.merge_merged`). Nothing else of the score is touched.
-/
import Divisi.Proofs.Frame
import Divisi.Proofs.Runs

namespace Divisi

/-- The layer that a voice of the hand stands in. -/
def Hand.layer (h : Hand) (voice : Nat) : Layer := ⟨h.item, h.staff, voice⟩

/-! ## Folding -/

namespace Tag

variable {groups groups' : Arena Group} {pairs : List (GroupKey × GroupKey)}

/-- Where a tag points after the second group of each pair was folded into the first, each as it
stands in `groups`. -/
def relinkAll (groups : Arena Group) (pairs : List (GroupKey × GroupKey)) (t : Tag) : Tag :=
  pairs.foldl (fun t p => t.relink p.1 p.2 ((groups.get p.1).blend (groups.get p.2))) t

theorem relinkAll_nil (t : Tag) : t.relinkAll groups [] = t := rfl

theorem relinkAll_cons (p : GroupKey × GroupKey) (t : Tag) : t.relinkAll groups (p :: pairs) =
    (t.relink p.1 p.2 ((groups.get p.1).blend (groups.get p.2))).relinkAll groups pairs := rfl

theorem relinkAll_congr (h : ∀ p ∈ pairs, groups'.get p.1 = groups.get p.1 ∧
    groups'.get p.2 = groups.get p.2) (t : Tag) :
    t.relinkAll groups' pairs = t.relinkAll groups pairs := by
  induction pairs generalizing t with
  | nil => rfl
  | cons p rest ih =>
    obtain ⟨hdest, hsrc⟩ := h p List.mem_cons_self
    rw [relinkAll_cons, relinkAll_cons, hdest, hsrc]
    exact ih (fun q hq => h q (List.mem_cons_of_mem p hq)) _

end Tag

namespace Score

variable {s s' : Score} {dest src k : GroupKey} {pairs : List (GroupKey × GroupKey)}

/-- Each second group has been folded into the first. -/
structure Folded (pairs : List (GroupKey × GroupKey)) (s s' : Score) : Prop where
  dest : ∀ p ∈ pairs, s'.groups.get? p.1 = some ((s.groups.get p.1).blend (s.groups.get p.2)).group
  src : ∀ p ∈ pairs, s'.groups.get? p.2 = some (s.groups.get p.2).toSpace
  others : ∀ k, k ∉ pairs.map Prod.fst → k ∉ pairs.map Prod.snd →
    s'.groups.get? k = s.groups.get? k
  items : s'.items = s.items
  frame : s'.frame = s.frame
  tags : s'.tags = s.tags.map fun x => (x.1, x.2.relinkAll s.groups pairs)

theorem Folded.nil (s : Score) : Folded [] s s :=
  ⟨by simp, by simp, fun _ _ _ => rfl, rfl, rfl, (List.map_id _).symm⟩

theorem foldInto_folded {g g' : Group} (hdest : s.groups.get? dest = some g)
    (hsrc : s.groups.get? src = some g') (hne : dest ≠ src) :
    Folded [(dest, src)] s (s.foldInto dest src) := by
  have hget : ∀ k, (s.foldInto dest src).groups.get? k =
      if src = k then (if dest = k then (s.groups.get? k).map (fun _ =>
        ((s.groups.get dest).blend (s.groups.get src)).group) else s.groups.get? k).map (fun _ =>
          (s.groups.get src).toSpace)
      else if dest = k then (s.groups.get? k).map (fun _ =>
        ((s.groups.get dest).blend (s.groups.get src)).group) else s.groups.get? k := by
    intro k
    rw [foldInto, Arena.get?_set, Arena.get?_set]
  refine ⟨?_, ?_, fun k hk hk' => ?_, rfl, rfl, rfl⟩
  · simp [hget, hdest, Ne.symm hne]
  · simp [hget, hsrc, hne]
  · rw [hget, if_neg (by simpa [eq_comm] using hk'), if_neg (by simpa [eq_comm] using hk)]

theorem foldPairs_folded (hlive : ∀ p ∈ pairs, (∃ g, s.groups.get? p.1 = some g) ∧
      ∃ g, s.groups.get? p.2 = some g)
    (hnodup : (pairs.map Prod.fst ++ pairs.map Prod.snd).Nodup) :
    Folded pairs s (s.foldPairs pairs) := by
  induction pairs generalizing s with
  | nil => exact .nil s
  | cons p rest ih =>
    obtain ⟨d, e⟩ := p
    obtain ⟨hfst, hsnd, hcross⟩ := List.nodup_append.mp hnodup
    simp only [List.map_cons, List.nodup_cons, List.mem_cons] at hfst hsnd hcross hlive
    obtain ⟨⟨g, hg⟩, g', hg'⟩ := hlive (d, e) (.inl rfl)
    have hone := foldInto_folded hg hg' (hcross d (.inl rfl) e (.inl rfl))
    have hsame : ∀ p ∈ rest, (s.foldInto d e).groups.get? p.1 = s.groups.get? p.1 ∧
        (s.foldInto d e).groups.get? p.2 = s.groups.get? p.2 := by
      intro p hp
      have h₁ : p.1 ∈ rest.map Prod.fst := List.mem_map_of_mem hp
      have h₂ : p.2 ∈ rest.map Prod.snd := List.mem_map_of_mem hp
      refine ⟨hone.others _ ?_ ?_, hone.others _ ?_ ?_⟩
      · simpa using fun he : p.1 = d => hfst.1 (he ▸ h₁)
      · simpa using hcross p.1 (.inr h₁) e (.inl rfl)
      · simpa using (hcross d (.inl rfl) p.2 (.inr h₂)).symm
      · simpa using fun he : p.2 = e => hsnd.1 (he ▸ h₂)
    have hget : ∀ p ∈ rest, (s.foldInto d e).groups.get p.1 = s.groups.get p.1 ∧
        (s.foldInto d e).groups.get p.2 = s.groups.get p.2 := fun p hp => by
      simp only [Arena.get, (hsame p hp).1, (hsame p hp).2, and_self]
    have hrest : Folded rest (s.foldInto d e) ((s.foldInto d e).foldPairs rest) := by
      refine ih (fun p hp => ?_) ?_
      · rw [(hsame p hp).1, (hsame p hp).2]
        exact hlive p (.inr hp)
      · exact List.nodup_append.mpr ⟨hfst.2, hsnd.2, fun x hx y hy =>
          hcross x (.inr hx) y (.inr hy)⟩
    refine ⟨fun p hp => ?_, fun p hp => ?_, fun k hk hk' => ?_, hrest.items, hrest.frame, ?_⟩
    · rcases List.mem_cons.mp hp with rfl | hp
      · refine (hrest.others d hfst.1 fun hmem => ?_).trans (hone.dest (d, e) (by simp))
        exact hcross d (.inl rfl) d (.inr hmem) rfl
      · rw [← (hget p hp).1, ← (hget p hp).2]
        exact hrest.dest p hp
    · rcases List.mem_cons.mp hp with rfl | hp
      · refine (hrest.others e (fun hmem => ?_) hsnd.1).trans (hone.src (d, e) (by simp))
        exact hcross e (.inr hmem) e (.inl rfl) rfl
      · rw [← (hget p hp).2]
        exact hrest.src p hp
    · simp only [List.map_cons, List.mem_cons, not_or] at hk hk'
      exact (hrest.others k hk.2 hk'.2).trans (hone.others k (by simpa using hk.1)
        (by simpa using hk'.1))
    · rw [show s.foldPairs ((d, e) :: rest) = (s.foldInto d e).foldPairs rest from rfl, hrest.tags,
        hone.tags, List.map_map]
      refine List.map_congr_left fun x _ => ?_
      rw [Function.comp_apply, Tag.relinkAll_congr hget, Tag.relinkAll_cons, Tag.relinkAll_cons,
        Tag.relinkAll_nil]

end Score

/-! ## Moving grace notes -/

namespace Merging

variable {groups : Arena Group} {k : GroupKey} {run : List GroupKey}

theorem get?_foldl_voice (groups : Arena Group) (moved : List GroupKey) (voice : Nat)
    (k : GroupKey) : (moved.foldl (fun groups key =>
      groups.modify key fun g => { g with voice }) groups).get? k =
      if k ∈ moved then (groups.get? k).map fun g => { g with voice } else groups.get? k := by
  induction moved generalizing groups with
  | nil => simp
  | cons key rest ih =>
    rw [List.foldl_cons, ih, Arena.get?_modify]
    by_cases hk : key = k
    · subst hk
      cases groups.get? key <;> simp
    · by_cases hrest : k ∈ rest
      · simp [hk, hrest]
      · simp [hk, Ne.symm hk, hrest]

theorem get?_rebeam (groups : Arena Group) (run : List GroupKey) (k : GroupKey) :
    (k ∉ run → (rebeam groups run).get? k = groups.get? k) ∧
      ∀ g, groups.get? k = some g → ∃ b, (rebeam groups run).get? k = some { g with beam := b } := by
  unfold rebeam
  split
  · exact ⟨fun _ => rfl, fun g hg => ⟨g.beam, hg⟩⟩
  · suffices h : ∀ (xs : List (GroupKey × Nat)) (groups : Arena Group),
        (k ∉ xs.map Prod.fst → (xs.foldl (fun groups x =>
          groups.modify x.1 fun g => { g with beam := beamAt run.length x.2 }) groups).get? k =
            groups.get? k) ∧
        ∀ g, groups.get? k = some g → ∃ b, (xs.foldl (fun groups x =>
          groups.modify x.1 fun g => { g with beam := beamAt run.length x.2 }) groups).get? k =
            some { g with beam := b } by
      simpa only [List.zipIdx_map_fst] using h run.zipIdx groups
    intro xs
    induction xs with
    | nil => exact fun groups => ⟨fun _ => rfl, fun g hg => ⟨g.beam, hg⟩⟩
    | cons x rest ih =>
      obtain ⟨key, index⟩ := x
      intro groups
      obtain ⟨hother, hbeam⟩ := ih (groups.modify key fun g =>
        { g with beam := beamAt run.length index })
      simp only [List.foldl_cons, List.map_cons, List.mem_cons, not_or]
      refine ⟨fun hk => ?_, fun g hg => ?_⟩
      · rw [hother hk.2, Arena.get?_modify, if_neg (Ne.symm hk.1)]
      · by_cases hk : key = k
        · obtain ⟨b, hb⟩ := hbeam { g with beam := beamAt run.length index }
            (by rw [Arena.get?_modify, if_pos hk, hg, Option.map_some])
          exact ⟨b, hb⟩
        · exact hbeam g (by rw [Arena.get?_modify, if_neg hk, hg])

theorem insertBefore_eq {before after keys : List GroupKey} {x : GroupKey}
    (hnodup : (before ++ run ++ x :: after).Nodup) :
    insertBefore (run.head?.getD x) keys (before ++ run ++ x :: after) =
      some (before ++ keys ++ run ++ x :: after) := by
  obtain ⟨anchor, rest, hanchor, hrest⟩ : ∃ anchor rest, run.head?.getD x = anchor ∧
      run ++ x :: after = anchor :: rest := by
    cases run with
    | nil => exact ⟨x, after, rfl, rfl⟩
    | cons y run => exact ⟨y, run ++ x :: after, rfl, rfl⟩
  rw [List.append_assoc, hrest] at hnodup
  have hnot : anchor ∉ before := fun hmem =>
    (List.nodup_append.mp hnodup).2.2 anchor hmem anchor (by simp) rfl
  have hplace : (before ++ anchor :: rest).idxOf? anchor = some before.length := by
    rw [List.idxOf?, List.findIdx?_eq_some_iff_getElem]
    refine ⟨by simp, by simp, fun j hj => ?_⟩
    rw [List.getElem_append_left hj]
    simpa using fun he : before[j] = anchor => hnot (he ▸ List.getElem_mem hj)
  rw [hanchor, List.append_assoc, hrest, insertBefore, hplace, Option.map_some]
  simp [hrest]

theorem filter_moved {before after theirs : List GroupKey} {y : GroupKey} (n : Nat)
    (hnodup : (before ++ theirs ++ y :: after).Nodup) :
    (before ++ theirs ++ y :: after).filter (fun key => !(theirs.take n).contains key) =
      before ++ theirs.drop n ++ y :: after := by
  obtain ⟨hleft, -, hcross⟩ := List.nodup_append.mp hnodup
  obtain ⟨-, htheirs, hbefore⟩ := List.nodup_append.mp hleft
  have hkeep : ∀ xs : List GroupKey, (∀ x ∈ xs, x ∉ theirs.take n) →
      xs.filter (fun key => !(theirs.take n).contains key) = xs := fun xs hxs =>
    List.filter_eq_self.mpr fun x hx => by simpa using hxs x hx
  have htake : (theirs.take n).filter (fun key => !(theirs.take n).contains key) = [] :=
    List.filter_eq_nil_iff.mpr fun x hx => by simpa using hx
  have hsplit : theirs = theirs.take n ++ theirs.drop n := (List.take_append_drop n theirs).symm
  rw [List.filter_append, List.filter_append]
  congr 1
  · congr 1
    · exact hkeep before fun x hx hmem => hbefore x hx x (List.mem_of_mem_take hmem) rfl
    · conv_lhs => rw [hsplit, List.filter_append]
      rw [← hsplit, htake, List.nil_append]
      refine hkeep _ fun x hx hmem => ?_
      rw [hsplit] at htheirs
      exact (List.nodup_append.mp htheirs).2.2 x hmem x hx rfl
  · refine hkeep _ fun x hx hmem => ?_
    exact hcross x (List.mem_append_right _ (List.mem_of_mem_take hmem)) x hx rfl

/-- Grace notes have moved from the front of one run to the front of another. -/
structure Shifted (h : Hand) (m : Merge) (moved ours : List GroupKey) (s s' : Score) : Prop where
  revoiced : ∀ k ∈ moved, ∀ g, s.groups.get? k = some g →
    ∃ b, s'.groups.get? k = some { g with voice := m.dest, beam := b }
  beamed : ∀ k ∈ ours, k ∉ moved → ∀ g, s.groups.get? k = some g →
    ∃ b, s'.groups.get? k = some { g with beam := b }
  others : ∀ k, k ∉ moved → k ∉ ours → s'.groups.get? k = s.groups.get? k
  elsewhere : ∀ layer, layer ≠ h.layer m.dest → layer ≠ h.layer m.src →
    s'.list? layer = s.list? layer
  frame : s'.frame = s.frame
  tags : s'.tags = s.tags

theorem Shifted.none (h : Hand) (m : Merge) (ours : List GroupKey) (s : Score) :
    Shifted h m [] ours s s :=
  ⟨by simp, fun _ _ _ g hg => ⟨g.beam, hg⟩, fun _ _ _ => rfl, fun _ _ _ => rfl, rfl, rfl⟩

/-- Groups have changed their voice. -/
def revoiced (s : Score) (moved : List GroupKey) (voice : Nat) : Score :=
  { s with groups := moved.foldl (fun groups key =>
      groups.modify key fun g => { g with voice }) s.groups }

/-- Groups have changed to the voice of the destination, and both voices have new lists. -/
def resettled (s : Score) (h : Hand) (m : Merge) (moved dest src : List GroupKey) : Score :=
  ((revoiced s moved m.dest).setVoiceList h.item h.staff m.src (some src)).setVoiceList
    h.item h.staff m.dest (some dest)

section Move

variable {s : Score} {h : Hand} {m : Merge} {x y k : GroupKey}
  {before after before' after' ours theirs moved dest src dest' src' : List GroupKey}

theorem get?_resettled : (resettled s h m moved dest src).groups.get? k =
    if k ∈ moved then (s.groups.get? k).map fun g => { g with voice := m.dest }
    else s.groups.get? k :=
  get?_foldl_voice s.groups moved m.dest k

theorem list?_taken (moved src : List GroupKey) (hsrc : s.list? (h.layer m.src) = some src')
    (layer : Layer) : ((revoiced s moved m.dest).setVoiceList h.item h.staff m.src
      (some src)).list? layer = if layer = h.layer m.src then some src else s.list? layer :=
  Score.list?_setVoiceList (s := revoiced s moved m.dest) hsrc _ layer

theorem list?_resettled (moved dest src : List GroupKey) (hne : m.dest ≠ m.src)
    (hdest : s.list? (h.layer m.dest) = some dest') (hsrc : s.list? (h.layer m.src) = some src')
    (layer : Layer) :
    (resettled s h m moved dest src).list? layer =
      if layer = h.layer m.dest then some dest else if layer = h.layer m.src then some src
      else s.list? layer := by
  have hlayers : h.layer m.dest ≠ h.layer m.src := by
    simpa [Hand.layer] using hne
  have hold := list?_taken moved src hsrc (h.layer m.dest)
  rw [if_neg hlayers, hdest] at hold
  rw [← list?_taken moved src hsrc]
  exact Score.list?_setVoiceList hold (some dest) layer

theorem frame_resettled (moved dest src : List GroupKey) (hne : m.dest ≠ m.src)
    (hdest : s.list? (h.layer m.dest) = some dest') (hsrc : s.list? (h.layer m.src) = some src') :
    (resettled s h m moved dest src).frame = s.frame := by
  have hlayers : h.layer m.dest ≠ h.layer m.src := by
    simpa [Hand.layer] using hne
  have hold := list?_taken moved src hsrc (h.layer m.dest)
  rw [if_neg hlayers, hdest] at hold
  have hsrc : (revoiced s moved m.dest).list? (h.layer m.src) = some src' := hsrc
  exact (Score.frame_setVoiceList hold dest).trans (Score.frame_setVoiceList hsrc src)

/-- Where grace notes are moved the list of each voice was there, and the group that they were to
stand before. -/
theorem moveGraces_eq_ok {t : Score} {dest : GroupKey} {moved run : List GroupKey} :
    moveGraces s h m dest moved run = .ok t ↔ ∃ theirs ours list,
      (revoiced s moved m.dest).voiceList h.item h.staff m.src = .ok theirs ∧
      ((revoiced s moved m.dest).setVoiceList h.item h.staff m.src
        (some (theirs.filter fun key => !moved.contains key))).voiceList h.item h.staff m.dest =
          .ok ours ∧
      insertBefore (run.head?.getD dest) moved ours = some list ∧
      let given := resettled s h m moved list (theirs.filter fun key => !moved.contains key)
      t = if run.any fun key => (given.groups.get key).beam != .none then
          { given with groups := rebeam given.groups (moved ++ run) }
        else given := by
  simp only [moveGraces, resettled, bind_eq_ok]
  refine exists_congr fun theirs => ⟨fun h => ?_, fun h => ?_⟩
  · obtain ⟨htheirs, ours, hours, h⟩ := h
    split at h
    · cases h
    next list hlist =>
      refine ⟨ours, list, htheirs, hours, hlist, ?_⟩
      split at h
      next hbeam =>
        cases h
        exact (if_pos hbeam).symm
      next hbeam =>
        cases h
        exact (if_neg hbeam).symm
  · obtain ⟨ours, list, htheirs, hours, hlist, rfl⟩ := h
    refine ⟨htheirs, ours, hours, ?_⟩
    simp only [hlist]
    exact (apply_ite Except.ok _ _ _).symm

/-- The grace notes leave the list of the source for that of the destination, and its beam
takes them in. -/
theorem moveGraces_eq (n : Nat) (hne : m.dest ≠ m.src)
    (hdest : s.list? (h.layer m.dest) = some (before ++ ours ++ x :: after))
    (hsrc : s.list? (h.layer m.src) = some (before' ++ theirs ++ y :: after'))
    (hnodup : (before ++ ours ++ x :: after).Nodup)
    (hnodup' : (before' ++ theirs ++ y :: after').Nodup) :
    let given := resettled s h m (theirs.take n)
      (before ++ theirs.take n ++ ours ++ x :: after) (before' ++ theirs.drop n ++ y :: after')
    moveGraces s h m x (theirs.take n) ours =
      if ours.any fun key => (given.groups.get key).beam != .none then
        .ok { given with groups := rebeam given.groups (theirs.take n ++ ours) }
      else .ok given := by
  have hlayers : h.layer m.dest ≠ h.layer m.src := by
    simpa [Hand.layer] using hne
  have hread : (revoiced s (theirs.take n) m.dest).voiceList h.item h.staff m.src =
      .ok (before' ++ theirs ++ y :: after') :=
    (Score.voiceList_eq_ok.mpr hsrc :)
  have hread' : ((revoiced s (theirs.take n) m.dest).setVoiceList h.item h.staff m.src
      (some (before' ++ theirs.drop n ++ y :: after'))).voiceList h.item h.staff m.dest =
      .ok (before ++ ours ++ x :: after) :=
    (Score.voiceList_eq_ok.mpr ((list?_taken _ _ hsrc _).trans ((if_neg hlayers).trans hdest)) :)
  unfold revoiced at hread hread'
  simp only [moveGraces, bind, Except.bind]
  rw [hread]
  simp only [filter_moved n hnodup']
  rw [hread']
  simp only [insertBefore_eq hnodup]
  split
  next hbeam => exact (if_pos hbeam).symm
  next hbeam => exact (if_neg hbeam).symm

theorem moveGraces_shifted (n : Nat) (hne : m.dest ≠ m.src)
    (hdest : s.list? (h.layer m.dest) = some (before ++ ours ++ x :: after))
    (hsrc : s.list? (h.layer m.src) = some (before' ++ theirs ++ y :: after'))
    (hnodup : (before ++ ours ++ x :: after).Nodup)
    (hnodup' : (before' ++ theirs ++ y :: after').Nodup) :
    ∃ s', moveGraces s h m x (theirs.take n) ours = .ok s' ∧
      Shifted h m (theirs.take n) ours s s' ∧
      s'.list? (h.layer m.dest) =
        some (before ++ theirs.take n ++ ours ++ x :: after) ∧
      s'.list? (h.layer m.src) = some (before' ++ theirs.drop n ++ y :: after') := by
  rw [moveGraces_eq n hne hdest hsrc hnodup hnodup']
  have hlayers : h.layer m.src ≠ h.layer m.dest := by
    simpa [Hand.layer, eq_comm] using hne
  have hgroups : ∀ k, (resettled s h m (theirs.take n) (before ++ theirs.take n ++ ours ++ x :: after)
      (before' ++ theirs.drop n ++ y :: after')).groups.get? k = if k ∈ theirs.take n then
        (s.groups.get? k).map fun g => { g with voice := m.dest } else s.groups.get? k :=
    fun k => get?_resettled
  have hall := list?_resettled (theirs.take n) (before ++ theirs.take n ++ ours ++ x :: after)
    (before' ++ theirs.drop n ++ y :: after') hne hdest hsrc
  have hframe := frame_resettled (theirs.take n) (before ++ theirs.take n ++ ours ++ x :: after)
    (before' ++ theirs.drop n ++ y :: after') hne hdest hsrc
  have htags : (resettled s h m (theirs.take n) (before ++ theirs.take n ++ ours ++ x :: after)
    (before' ++ theirs.drop n ++ y :: after')).tags = s.tags := rfl
  generalize resettled s h m _ _ _ = given at hgroups hall hframe htags ⊢
  have hlists : ∀ layer, layer ≠ h.layer m.dest → layer ≠ h.layer m.src →
      given.list? layer = s.list? layer := fun layer hd hs => by
    rw [hall, if_neg hd, if_neg hs]
  have hlist := (hall (h.layer m.dest)).trans (if_pos rfl)
  have hlist' := (hall (h.layer m.src)).trans ((if_neg hlayers).trans (if_pos rfl))
  by_cases hbeam : (ours.any fun key => (given.groups.get key).beam != .none) = true
  · rw [if_pos hbeam]
    have hrebeam := get?_rebeam given.groups (theirs.take n ++ ours)
    refine ⟨_, rfl, ⟨fun k hk g hg => ?_, fun k hk hk' g hg => ?_, fun k hk hk' => ?_, hlists,
      hframe, htags⟩, hlist, hlist'⟩
    · exact (hrebeam k).2 _ (by rw [hgroups, if_pos hk, hg, Option.map_some])
    · exact (hrebeam k).2 _ (by rw [hgroups, if_neg hk', hg])
    · refine ((hrebeam k).1 ?_).trans (by rw [hgroups, if_neg hk])
      rw [List.mem_append]
      exact fun hor => hor.elim hk hk'
  · rw [if_neg hbeam]
    refine ⟨given, rfl, ⟨fun k hk g hg => ⟨g.beam, ?_⟩, fun k hk hk' g hg => ⟨g.beam, ?_⟩,
      fun k hk _ => ?_, hlists, hframe, htags⟩, hlist, hlist'⟩
    · rw [hgroups, if_pos hk, hg, Option.map_some]
    · rw [hgroups, if_neg hk', hg]
    · rw [hgroups, if_neg hk]

end Move

/-! ## A merge -/

/-- A group and the grace notes before it, from the group backwards. -/
def column (grace : GroupKey → Bool) (list : List GroupKey) (x : GroupKey) : List GroupKey :=
  x :: (runOf grace list x).reverse

theorem map_fst_zip {α β : Type} (xs : List α) (ys : List β) :
    (xs.zip ys).map Prod.fst = xs.take ys.length := by
  induction xs generalizing ys with
  | nil => simp
  | cons x xs ih => cases ys <;> simp [ih]

theorem map_snd_zip {α β : Type} (xs : List α) (ys : List β) :
    (xs.zip ys).map Prod.snd = ys.take xs.length := by
  induction xs generalizing ys with
  | nil => simp
  | cons x xs ih => cases ys <;> simp [ih]

/-- What is paired with a joined run is at the same place of one of the two runs. -/
theorem mem_zip_append_drop {α β : Type} {xs ys : List α} {zs : List β} {p : α × β}
    (h : p ∈ (xs ++ ys.drop xs.length).zip zs) : p ∈ xs.zip zs ∨ p ∈ ys.zip zs := by
  obtain ⟨i, hi⟩ := List.getElem?_of_mem h
  obtain ⟨hx, hz⟩ := List.getElem?_zip_eq_some.mp hi
  by_cases hlt : i < xs.length
  · rw [List.getElem?_append_left hlt] at hx
    exact .inl (List.mem_of_getElem? (List.getElem?_zip_eq_some.mpr ⟨hx, hz⟩))
  · have hle := Nat.le_of_not_lt hlt
    rw [List.getElem?_append_right hle, List.getElem?_drop, Nat.add_sub_of_le hle] at hx
    exact .inr (List.mem_of_getElem? (List.getElem?_zip_eq_some.mpr ⟨hx, hz⟩))

/-- The two groups of a merge, each in the list of its voice. -/
structure Paired (s : Score) (h : Hand) (m : Merge) (x y : GroupKey) (ld le : List GroupKey) :
    Prop where
  differ : m.dest ≠ m.src
  destVoice : h.voice? m.dest = some x
  srcVoice : h.voice? m.src = some y
  destList : s.list? (h.layer m.dest) = some ld
  srcList : s.list? (h.layer m.src) = some le
  destMem : x ∈ ld
  srcMem : y ∈ le
  destMain : s.graceAt x = false
  srcMain : s.graceAt y = false

/-- What a merge makes of a score in which `x` stands in the list `ld` of the destination and
`y` in the list `le` of the source. -/
structure Merged (h : Hand) (m : Merge) (x y : GroupKey) (ld le : List GroupKey) (s s' : Score) :
    Prop where
  main : s'.groups.get? x = some ((s.groups.get x).blend (s.groups.get y)).group
  /-- Grace notes are paired from the groups backwards. -/
  paired : ∀ p ∈ (runOf s.graceAt ld x).reverse.zip (runOf s.graceAt le y).reverse,
    ∃ b, s'.groups.get? p.1 =
      some { ((s.groups.get p.1).blend (s.groups.get p.2)).group with beam := b }
  emptied : ∀ p ∈ (column s.graceAt ld x).zip (column s.graceAt le y),
    s'.groups.get? p.2 = some (s.groups.get p.2).toSpace
  /-- Those that the source has more of change their voice. -/
  moved : ∀ k ∈ (column s.graceAt le y).drop (column s.graceAt ld x).length,
    ∃ b, s'.groups.get? k = some { s.groups.get k with voice := m.dest, beam := b }
  spare : ∀ k ∈ (column s.graceAt ld x).drop (column s.graceAt le y).length,
    ∃ b, s'.groups.get? k = some { s.groups.get k with beam := b }
  others : ∀ k, k ∉ column s.graceAt ld x → k ∉ column s.graceAt le y →
    s'.groups.get? k = s.groups.get? k
  lists : ∃ before after before' after', ld = before ++ (column s.graceAt ld x).reverse ++ after ∧
    le = before' ++ (column s.graceAt le y).reverse ++ after' ∧
    (∀ z ∈ before.getLast?, s.graceAt z = false) ∧ (∀ z ∈ before'.getLast?, s.graceAt z = false) ∧
    s'.list? (h.layer m.dest) = some (before ++ (column s.graceAt ld x ++
      (column s.graceAt le y).drop (column s.graceAt ld x).length).reverse ++ after) ∧
    s'.list? (h.layer m.src) = some (before' ++
      ((column s.graceAt le y).take (column s.graceAt ld x).length).reverse ++ after')
  elsewhere : ∀ layer, layer ≠ h.layer m.dest → layer ≠ h.layer m.src →
    s'.list? layer = s.list? layer
  frame : s'.frame = s.frame
  tags : s'.tags = s.tags.map fun t => (t.1, t.2.relinkAll s.groups
    ((runOf s.graceAt ld x).reverse.zip (runOf s.graceAt le y).reverse ++ [(x, y)]))

section Graces

variable {s : Score} {h : Hand} {m : Merge} {x y : GroupKey}
  {before after before' after' ours theirs : List GroupKey}

theorem runs_folded (hs : s.Tidy) (hne : m.dest ≠ m.src)
    (hdest : s.list? (h.layer m.dest) = some (before ++ ours ++ x :: after))
    (hsrc : s.list? (h.layer m.src) = some (before' ++ theirs ++ y :: after')) :
    s.Folded (ours.reverse.zip theirs.reverse) (s.foldPairs (ours.reverse.zip theirs.reverse)) := by
  refine Score.foldPairs_folded (fun p hp => ?_) ?_
  · obtain ⟨h₁, h₂⟩ := List.of_mem_zip (a := p.1) (b := p.2) hp
    exact ⟨hs.live _ _ _ hdest (by simp [List.mem_reverse.mp h₁]),
      hs.live _ _ _ hsrc (by simp [List.mem_reverse.mp h₂])⟩
  · rw [map_fst_zip, map_snd_zip]
    have hours : ours.Nodup := (hs.nodup _ _ hdest).sublist (by simp [List.append_assoc])
    have htheirs : theirs.Nodup := (hs.nodup _ _ hsrc).sublist (by simp [List.append_assoc])
    refine List.nodup_append.mpr ⟨(List.nodup_reverse.mpr hours).sublist (List.take_sublist _ _),
      (List.nodup_reverse.mpr htheirs).sublist (List.take_sublist _ _), ?_⟩
    rintro k hk _ hk' rfl
    have hk := List.mem_reverse.mp (List.mem_of_mem_take hk)
    have hk' := List.mem_reverse.mp (List.mem_of_mem_take hk')
    have := hs.apart _ _ _ _ k hdest hsrc (by simp [hk]) (by simp [hk'])
    exact hne (Layer.mk.inj this).2.2

/-- Merging the grace notes of two groups folds those that have a partner, and moves the others
of the source. -/
theorem graces_eq (hdest : s.list? (h.layer m.dest) = some (before ++ ours ++ x :: after))
    (hsrc : s.list? (h.layer m.src) = some (before' ++ theirs ++ y :: after'))
    (hours : runOf s.graceAt (before ++ ours ++ x :: after) x = ours)
    (htheirs : runOf s.graceAt (before' ++ theirs ++ y :: after') y = theirs) :
    graces s h m x y = if theirs.length ≤ ours.length then
        .ok (s.foldPairs (ours.reverse.zip theirs.reverse))
      else moveGraces (s.foldPairs (ours.reverse.zip theirs.reverse)) h m x
        (theirs.take (theirs.length - ours.length)) ours := by
  have hrun : s.graceRun h.item h.staff m.dest x = .ok ours :=
    (Score.graceRun_eq_ok hdest (by simp)).trans (by rw [hours])
  have hrun' : s.graceRun h.item h.staff m.src y = .ok theirs :=
    (Score.graceRun_eq_ok hsrc (by simp)).trans (by rw [htheirs])
  simp only [graces, hrun', bind, Except.bind]
  by_cases hempty : theirs = []
  · subst hempty
    simp [Score.foldPairs, pure, Except.pure]
  rw [if_neg (by simpa using hempty)]
  simp only [hrun]
  have hmoved : (theirs.take (theirs.length - ours.length)).isEmpty = true ↔
      theirs.length ≤ ours.length := by
    simp [hempty, Nat.sub_eq_zero_iff_le]
  by_cases hlonger : theirs.length ≤ ours.length
  · rw [if_pos (hmoved.mpr hlonger), if_pos hlonger]
    rfl
  · rw [if_neg (mt hmoved.mp hlonger), if_neg hlonger]

theorem graces_ok (hs : s.Tidy) (hne : m.dest ≠ m.src)
    (hdest : s.list? (h.layer m.dest) = some (before ++ ours ++ x :: after))
    (hsrc : s.list? (h.layer m.src) = some (before' ++ theirs ++ y :: after'))
    (hours : runOf s.graceAt (before ++ ours ++ x :: after) x = ours)
    (htheirs : runOf s.graceAt (before' ++ theirs ++ y :: after') y = theirs) :
    ∃ s₁ s', graces s h m x y = .ok s' ∧
      s.Folded (ours.reverse.zip theirs.reverse) s₁ ∧
      Shifted h m (theirs.take (theirs.length - ours.length)) ours s₁ s' ∧
      s'.list? (h.layer m.dest) =
        some (before ++ theirs.take (theirs.length - ours.length) ++ ours ++ x :: after) ∧
      s'.list? (h.layer m.src) =
        some (before' ++ theirs.drop (theirs.length - ours.length) ++ y :: after') := by
  have hfolded := runs_folded hs hne hdest hsrc
  have hdest' := (Score.list?_congr hfolded.items _).trans hdest
  have hsrc' := (Score.list?_congr hfolded.items _).trans hsrc
  rw [graces_eq hdest hsrc hours htheirs]
  by_cases hlonger : theirs.length ≤ ours.length
  · have hzero : theirs.length - ours.length = 0 := Nat.sub_eq_zero_of_le hlonger
    rw [if_pos hlonger, hzero, List.take_zero, List.drop_zero, List.append_nil]
    exact ⟨_, _, rfl, hfolded, Shifted.none h m ours _, hdest', hsrc'⟩
  · rw [if_neg hlonger]
    obtain ⟨s', hmove, hshifted, hd, he⟩ := moveGraces_shifted (theirs.length - ours.length) hne
      hdest' hsrc' (hs.nodup _ _ hdest) (hs.nodup _ _ hsrc)
    exact ⟨_, s', hmove, hfolded, hshifted, hd, he⟩

end Graces

/-! ## The grace notes of a merge -/

theorem not_mem_drop {α : Type} {xs : List α} (h : xs.Nodup) {n : Nat} {x : α} (hx : x ∈ xs.take n) :
    x ∉ xs.drop n := fun hx' => by
  rw [← List.take_append_drop n xs] at h
  exact (List.nodup_append.mp h).2.2 x hx x hx' rfl

/-- The grace notes `ours` of the destination and `theirs` of the source have been merged. -/
structure Graced (m : Merge) (ours theirs : List GroupKey) (s s' : Score) : Prop where
  paired : ∀ p ∈ ours.reverse.zip theirs.reverse, ∃ b, s'.groups.get? p.1 =
    some { ((s.groups.get p.1).blend (s.groups.get p.2)).group with beam := b }
  emptied : ∀ p ∈ ours.reverse.zip theirs.reverse,
    s'.groups.get? p.2 = some (s.groups.get p.2).toSpace
  moved : ∀ k ∈ theirs.reverse.drop ours.reverse.length,
    ∃ b, s'.groups.get? k = some { s.groups.get k with voice := m.dest, beam := b }
  spare : ∀ k ∈ ours.reverse.drop theirs.reverse.length,
    ∃ b, s'.groups.get? k = some { s.groups.get k with beam := b }
  others : ∀ k, k ∉ ours → k ∉ theirs → s'.groups.get? k = s.groups.get? k

section Graced

variable {s s₁ s' : Score} {h : Hand} {m : Merge} {ours theirs : List GroupKey}

/-- Folding the pairs and then moving what is left over merges the grace notes. -/
theorem graced_of_shifted (hnodup : (ours ++ theirs).Nodup)
    (hlive : ∀ k ∈ ours ++ theirs, ∃ g, s.groups.get? k = some g)
    (hfolded : s.Folded (ours.reverse.zip theirs.reverse) s₁)
    (hshifted : Shifted h m (theirs.take (theirs.length - ours.length)) ours s₁ s') :
    Graced m ours theirs s s' := by
  obtain ⟨hours, htheirs, happart⟩ := List.nodup_append.mp hnodup
  have hmoved : ∀ k, k ∈ theirs.take (theirs.length - ours.length) ↔
      k ∈ theirs.reverse.drop ours.reverse.length := fun k => by
    rw [List.drop_reverse, List.mem_reverse, List.length_reverse]
  have hstays : ∀ k ∈ ours, k ∉ theirs.take (theirs.length - ours.length) := fun k hk hm =>
    happart k hk k (List.mem_of_mem_take hm) rfl
  have hfst : ∀ k, k ∈ (ours.reverse.zip theirs.reverse).map Prod.fst ↔
      k ∈ ours.reverse.take theirs.reverse.length := fun k => by rw [map_fst_zip]
  have hsnd : ∀ k, k ∈ (ours.reverse.zip theirs.reverse).map Prod.snd ↔
      k ∈ theirs.reverse.take ours.reverse.length := fun k => by rw [map_snd_zip]
  have hnotFst : ∀ k, k ∉ ours → k ∉ (ours.reverse.zip theirs.reverse).map Prod.fst :=
    fun k hk hmem => hk (List.mem_reverse.mp (List.mem_of_mem_take ((hfst k).mp hmem)))
  have hnotSnd : ∀ k, k ∉ theirs → k ∉ (ours.reverse.zip theirs.reverse).map Prod.snd :=
    fun k hk hmem => hk (List.mem_reverse.mp (List.mem_of_mem_take ((hsnd k).mp hmem)))
  refine ⟨fun p hp => ?_, fun p hp => ?_, fun k hk => ?_, fun k hk => ?_, fun k hk hk' => ?_⟩
  · have hp' := List.mem_reverse.mp (List.of_mem_zip (a := p.1) (b := p.2) hp).1
    exact hshifted.beamed p.1 hp' (hstays p.1 hp') _ (hfolded.dest p hp)
  · have hp' := List.mem_reverse.mp (List.of_mem_zip (a := p.1) (b := p.2) hp).2
    refine (hshifted.others p.2 (fun hm => ?_) fun ho => happart p.2 ho p.2 hp' rfl).trans
      (hfolded.src p hp)
    exact not_mem_drop (List.nodup_reverse.mpr htheirs)
      ((hsnd p.2).mp (List.mem_map_of_mem hp)) ((hmoved p.2).mp hm)
  · have hk' := List.mem_reverse.mp (List.mem_of_mem_drop hk)
    have hsame : s₁.groups.get? k = s.groups.get? k := by
      refine hfolded.others k (hnotFst k fun ho => happart k ho k hk' rfl) fun hmem => ?_
      exact not_mem_drop (List.nodup_reverse.mpr htheirs) ((hsnd k).mp hmem) hk
    obtain ⟨g, hg⟩ := hlive k (List.mem_append_right _ hk')
    rw [Arena.get_of_get? hg]
    exact hshifted.revoiced k ((hmoved k).mpr hk) g (hsame.trans hg)
  · have hk' := List.mem_reverse.mp (List.mem_of_mem_drop hk)
    have hsame : s₁.groups.get? k = s.groups.get? k := by
      refine hfolded.others k (fun hmem => ?_) (hnotSnd k fun ht => happart k hk' k ht rfl)
      exact not_mem_drop (List.nodup_reverse.mpr hours) ((hfst k).mp hmem) hk
    obtain ⟨g, hg⟩ := hlive k (List.mem_append_left _ hk')
    rw [Arena.get_of_get? hg]
    exact hshifted.beamed k hk' (hstays k hk') g (hsame.trans hg)
  · exact (hshifted.others k (fun hm => hk' (List.mem_of_mem_take hm)) hk).trans
      (hfolded.others k (hnotFst k hk) (hnotSnd k hk'))

end Graced

/-! ## A whole merge -/

section Merge

variable {s : Score} {h : Hand} {m : Merge} {x y : GroupKey} {ld le : List GroupKey}

/-- **One merge.** Where both groups stand in the lists of their voices the merge is made. -/
theorem merge_merged (hs : s.Tidy) (hp : Paired s h m x y ld le) :
    ∃ s', merge h s m = .ok s' ∧ Merged h m x y ld le s s' := by
  obtain ⟨hne, hx, hy, hdest, hsrc, hxl, hyl, -, -⟩ := hp
  obtain ⟨before, after, hld, hxb, hxr, hlast⟩ := exists_runOf s.graceAt hxl
  obtain ⟨before', after', hle, hyb, hyr, hlast'⟩ := exists_runOf s.graceAt hyl
  generalize hours : runOf s.graceAt ld x = ours at hld hxr
  generalize htheirs : runOf s.graceAt le y = theirs at hle hyr
  subst hld hle
  obtain ⟨s₁, s₂, hgraces, hfolded, hshifted, hd, he⟩ :=
    graces_ok hs hne hdest hsrc hours htheirs
  -- no group is in both lists, so that those of the merge are all different
  have hapart : ∀ k, k ∈ before ++ ours ++ x :: after → k ∉ before' ++ theirs ++ y :: after' := by
    intro k hk hk'
    exact hne (Layer.mk.inj (hs.apart _ _ _ _ k hdest hsrc hk hk')).2.2
  have hxy : x ≠ y := fun he => hapart x (by simp) (by simp [he])
  have hxt : x ∉ theirs := fun hx => hapart x (by simp) (by simp [hx])
  have hyo : y ∉ ours := fun hy => hapart y (by simp [hy]) (by simp)
  have hnodup : (ours ++ theirs).Nodup := List.nodup_append.mpr
    ⟨(hs.nodup _ _ hdest).sublist (by simp [List.append_assoc]),
      (hs.nodup _ _ hsrc).sublist (by simp [List.append_assoc]),
      fun k hk k' hk' he => hapart k (by simp [hk]) (by simp [he, hk'])⟩
  have hg := graced_of_shifted hnodup (fun k hk => (List.mem_append.mp hk).elim
    (fun hk => hs.live _ _ k hdest (by simp [hk])) fun hk => hs.live _ _ k hsrc (by simp [hk]))
    hfolded hshifted
  -- then the groups themselves
  obtain ⟨gx, hgx⟩ := hs.live _ _ x hdest (by simp)
  obtain ⟨gy, hgy⟩ := hs.live _ _ y hsrc (by simp)
  have hone := Score.foldInto_folded ((hg.others x hxr hxt).trans hgx)
    ((hg.others y hyo hyr).trans hgy) hxy
  have hother : ∀ k, k ≠ x → k ≠ y →
      (s₂.foldInto x y).groups.get? k = s₂.groups.get? k := fun k hk hk' =>
    hone.others k (by simpa using hk) (by simpa using hk')
  have hourOther : ∀ k ∈ ours, (s₂.foldInto x y).groups.get? k = s₂.groups.get? k := fun k hk =>
    hother k (fun he => hxr (he ▸ hk)) fun he => hyo (he ▸ hk)
  have htheirOther : ∀ k ∈ theirs, (s₂.foldInto x y).groups.get? k = s₂.groups.get? k :=
    fun k hk => hother k (fun he => hxt (he ▸ hk)) fun he => hyr (he ▸ hk)
  have hgetx : s₂.groups.get x = s.groups.get x := by
    rw [Arena.get, hg.others x hxr hxt, Arena.get]
  have hgety : s₂.groups.get y = s.groups.get y := by
    rw [Arena.get, hg.others y hyo hyr, Arena.get]
  refine ⟨s₂.foldInto x y, by simp only [merge, hx, hy, hgraces, bind, Except.bind]; rfl, ?_⟩
  constructor
  case main =>
    rw [← hgetx, ← hgety]
    exact hone.dest (x, y) (by simp)
  case paired =>
    rw [hours, htheirs]
    intro p hp
    obtain ⟨b, hb⟩ := hg.paired p hp
    have hp' := List.mem_reverse.mp (List.of_mem_zip (a := p.1) (b := p.2) hp).1
    exact ⟨b, (hourOther p.1 hp').trans hb⟩
  case emptied =>
    rw [column, column, hours, htheirs, List.zip_cons_cons]
    intro p hp
    rcases List.mem_cons.mp hp with rfl | hp
    · rw [← hgety]
      exact hone.src (x, y) (by simp)
    · have hp' := List.mem_reverse.mp (List.of_mem_zip (a := p.1) (b := p.2) hp).2
      exact (htheirOther p.2 hp').trans (hg.emptied p hp)
  case moved =>
    rw [column, column, hours, htheirs, List.length_cons, List.drop_succ_cons]
    intro k hk
    obtain ⟨b, hb⟩ := hg.moved k hk
    exact ⟨b, (htheirOther k (List.mem_reverse.mp (List.mem_of_mem_drop hk))).trans hb⟩
  case spare =>
    rw [column, column, hours, htheirs, List.length_cons, List.drop_succ_cons]
    intro k hk
    obtain ⟨b, hb⟩ := hg.spare k hk
    exact ⟨b, (hourOther k (List.mem_reverse.mp (List.mem_of_mem_drop hk))).trans hb⟩
  case others =>
    rw [column, column, hours, htheirs]
    intro k hk hk'
    simp only [List.mem_cons, List.mem_reverse, not_or] at hk hk'
    exact (hother k hk.1 hk'.1).trans (hg.others k hk.2 hk'.2)
  case lists =>
    refine ⟨before, after, before', after', ?_, ?_, hlast, hlast', ?_, ?_⟩
    · rw [column, hours]
      simp
    · rw [column, htheirs]
      simp
    · rw [Score.list?_congr hone.items, hd, column, column, hours, htheirs]
      simp [List.drop_reverse]
    · rw [Score.list?_congr hone.items, he, column, column, hours, htheirs]
      simp [List.take_reverse]
  case elsewhere =>
    intro layer hlayer hlayer'
    rw [Score.list?_congr hone.items, hshifted.elsewhere layer hlayer hlayer',
      Score.list?_congr hfolded.items]
  case frame => exact hone.frame.trans (hshifted.frame.trans hfolded.frame)
  case tags =>
    rw [hone.tags, hshifted.tags, hfolded.tags, List.map_map, hours, htheirs]
    refine List.map_congr_left fun t _ => congrArg (Prod.mk t.1) ?_
    simp only [Tag.relinkAll, List.foldl_append, List.foldl_cons, List.foldl_nil, hgetx, hgety]

end Merge

end Merging

end Divisi
