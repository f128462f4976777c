/-
The merges of an edited score, hand by hand.

A merge moves the grace notes of its source and nothing else (`Merging.exists_merge`). Where the
lists of a score are in order these are of earlier chords, even if they once were no grace notes; so
the groups of the hands still to come stay where they were, and each merge that was planned finds
what judging found (`Merging.InTurn.exists_perform`).
-/
import Divisi.Proofs.Reworked

namespace Divisi

/-! ## What is still to be found -/

/-- Of some groups, each list has those that it had, in the order in which it had them. -/
def Score.KeepsAmong (p : GroupKey → Bool) (s s' : Score) : Prop :=
  ∀ layer, (s'.list? layer).map (List.filter p) = (s.list? layer).map (List.filter p)

namespace Score.KeepsAmong

variable {p q : GroupKey → Bool} {s s' s'' : Score} {layer : Layer} {list : List GroupKey}

theorem trans (h : s.KeepsAmong p s') (h' : s'.KeepsAmong p s'') : s.KeepsAmong p s'' :=
  fun layer => (h' layer).trans (h layer)

theorem symm (h : s.KeepsAmong p s') : s'.KeepsAmong p s := fun layer => (h layer).symm

theorem of_items (h : s'.items = s.items) : s.KeepsAmong p s' := fun layer => by
  rw [list?_congr h]

theorem mono (h : s.KeepsAmong p s') (hsub : ∀ k, q k = true → p k = true) :
    s.KeepsAmong q s' := by
  have hfilter : List.filter q = List.filter q ∘ List.filter p := funext fun list => by
    rw [Function.comp_apply, List.filter_filter]
    refine List.filter_congr fun k _ => ?_
    cases hq : q k <;> simp [hq, hsub k]
  intro layer
  rw [hfilter, ← Option.map_map, h layer, Option.map_map]

theorem exists_list (h : s.KeepsAmong p s') (hlist : s.list? layer = some list) :
    ∃ list', s'.list? layer = some list' ∧ list'.filter p = list.filter p := by
  have hkept := h layer
  rw [hlist, Option.map_some] at hkept
  exact Option.map_eq_some_iff.mp hkept

end Score.KeepsAmong

namespace Merging

variable {p : GroupKey → Bool} {s : Score} {h : Hand} {m : Merge} {x y : GroupKey}
  {ld le moved run : List GroupKey}

/-- The groups of a merge stand in the lists of their voices. -/
structure Found (s : Score) (h : Hand) (m : Merge) (x y : GroupKey) (ld le : List GroupKey) :
    Prop where
  differ : m.dest ≠ m.src
  destVoice : h.voice? m.dest = some x
  srcVoice : h.voice? m.src = some y
  destList : s.list? (h.layer m.dest) = some ld
  srcList : s.list? (h.layer m.src) = some le
  destMem : x ∈ ld
  srcMem : y ∈ le

theorem items_foldPairs (s : Score) (pairs : List (GroupKey × GroupKey)) :
    (s.foldPairs pairs).items = s.items := by
  induction pairs generalizing s with
  | nil => rfl
  | cons pair rest ih => exact ih (s.foldInto pair.1 pair.2)

theorem exists_moveGraces (hne : m.dest ≠ m.src) (hdest : s.list? (h.layer m.dest) = some ld)
    (hsrc : s.list? (h.layer m.src) = some le) (hanchor : run.head?.getD x ∈ ld)
    (hmoved : ∀ k ∈ moved, p k = false) :
    ∃ s', moveGraces s h m x moved run = .ok s' ∧ s.KeepsAmong p s' := by
  have hlayers : h.layer m.dest ≠ h.layer m.src := by
    simpa [Hand.layer] using hne
  obtain ⟨place, hplace⟩ : ∃ place, ld.idxOf? (run.head?.getD x) = some place := by
    rw [← Option.isSome_iff_exists]
    simpa using hanchor
  have hread : (revoiced s moved m.dest).voiceList h.item h.staff m.src = .ok le :=
    (Score.voiceList_eq_ok.mpr hsrc :)
  have hread' : ((revoiced s moved m.dest).setVoiceList h.item h.staff m.src
      (some (le.filter fun key => !moved.contains key))).voiceList h.item h.staff m.dest = .ok ld :=
    (Score.voiceList_eq_ok.mpr ((list?_taken _ _ hsrc _).trans ((if_neg hlayers).trans hdest)) :)
  have hinsert : insertBefore (run.head?.getD x) moved ld =
      some (ld.take place ++ moved ++ ld.drop place) := by
    rw [insertBefore, hplace, Option.map_some]
  refine ⟨_, moveGraces_eq_ok.mpr ⟨le, ld, _, hread, hread', hinsert, rfl⟩, fun layer => ?_⟩
  have hlists := list?_resettled moved (ld.take place ++ moved ++ ld.drop place)
    (le.filter fun key => !moved.contains key) hne hdest hsrc layer
  -- among the groups in question nothing is taken out and nothing put in
  have hnone : moved.filter p = [] := List.filter_eq_nil_iff.mpr fun k hk => by simp [hmoved k hk]
  have hstays : (le.filter fun key => !moved.contains key).filter p = le.filter p := by
    rw [List.filter_filter]
    refine List.filter_congr fun k _ => ?_
    cases hk : p k with
    | false => rfl
    | true => simpa using fun hmem => Bool.false_ne_true ((hmoved k hmem).symm.trans hk)
  rw [Score.list?_congr (s := resettled s h m moved (ld.take place ++ moved ++ ld.drop place)
    (le.filter fun key => !moved.contains key)) (by split <;> rfl), hlists]
  split
  next hlayer =>
    rw [hlayer, hdest, Option.map_some, Option.map_some, List.filter_append, List.filter_append,
      hnone, List.append_nil, ← List.filter_append, List.take_append_drop]
  next =>
    split
    next hlayer => rw [hlayer, hsrc, Option.map_some, Option.map_some, hstays]
    next => rfl

/-- **One merge.** It can be made where its groups are found, and moves nothing but the grace notes
of its source. -/
theorem exists_merge (hf : Found s h m x y ld le)
    (hrun : ∀ k ∈ runOf s.graceAt le y, p k = false) :
    ∃ s', merge h s m = .ok s' ∧ s.KeepsAmong p s' := by
  obtain ⟨s₁, hgraces, hkeeps⟩ : ∃ s₁, graces s h m x y = .ok s₁ ∧ s.KeepsAmong p s₁ := by
    have htheirs : s.graceRun h.item h.staff m.src y = .ok (runOf s.graceAt le y) :=
      Score.graceRun_eq_ok hf.srcList hf.srcMem
    have hours : s.graceRun h.item h.staff m.dest x = .ok (runOf s.graceAt ld x) :=
      Score.graceRun_eq_ok hf.destList hf.destMem
    obtain ⟨before, after, hld, -⟩ := exists_runOf s.graceAt hf.destMem
    generalize runOf s.graceAt le y = theirs at hrun htheirs
    generalize runOf s.graceAt ld x = ours at hours hld
    have hanchor : ours.head?.getD x ∈ ld := by
      rw [hld]
      cases ours <;> simp
    have hitems := items_foldPairs s (ours.reverse.zip theirs.reverse)
    have hfolded : s.KeepsAmong p (s.foldPairs (ours.reverse.zip theirs.reverse)) :=
      .of_items hitems
    simp only [graces, htheirs, hours, bind, Except.bind]
    by_cases hnone : theirs.isEmpty = true
    · rw [if_pos hnone]
      exact ⟨s, rfl, .of_items rfl⟩
    rw [if_neg hnone]
    by_cases hstay : (theirs.take (theirs.length - ours.length)).isEmpty = true
    · rw [if_pos hstay]
      exact ⟨_, rfl, hfolded⟩
    rw [if_neg hstay]
    obtain ⟨s', hmove, hmoved⟩ := exists_moveGraces hf.differ
      ((Score.list?_congr hitems _).trans hf.destList)
      ((Score.list?_congr hitems _).trans hf.srcList) hanchor
      fun k hk => hrun k (List.mem_of_mem_take hk)
    exact ⟨s', hmove, hfolded.trans hmoved⟩
  refine ⟨s₁.foldInto x y, ?_, hkeeps.trans (.of_items rfl)⟩
  simp only [merge, hf.destVoice, hf.srcVoice, hgraces, bind, Except.bind]
  rfl

/-! ## Merging hand by hand -/

/-- One of these hands has the group. -/
def held (xs : List (Hand × Plan)) (k : GroupKey) : Bool := xs.any fun x => x.1.holds k

section Hands

variable {s' : Score} {head : Hand × Plan} {rest : List (Hand × Plan)} {layer : Layer} {v : Nat}
  {k : GroupKey} {list : List GroupKey} {l : Layout} {plans : List Plan}

theorem held_head (hv : head.1.voice? v = some k) : held (head :: rest) k = true := by
  have hle := Hand.le_of_voice? hv
  obtain rfl | rfl | rfl : v = 1 ∨ v = 2 ∨ v = 3 := by omega
  all_goals
    simp only [Hand.voice?, PerVoice.get?, Option.join_some] at hv
    simp [held, Hand.holds, hv]

/-- Hands that can be merged one after the other: they are of a score whose lists are in order, and
come chord by chord. -/
structure InTurn (s : Score) (xs : List (Hand × Plan)) : Prop where
  ordered : s.Ordered
  among : ∀ x ∈ xs, x.1.Among s
  notAfter : xs.Pairwise fun x y => x.1.NotAfter y.1

theorem InTurn.tail (h : InTurn s (head :: rest)) : InTurn s rest :=
  ⟨h.ordered, fun x hx => h.among x (List.mem_cons_of_mem _ hx), h.notAfter.of_cons⟩

/-- What stands before a group of the first hand is in none of the hands: it is of an earlier
chord. -/
theorem InTurn.not_held (h : InTurn s (head :: rest))
    (hkeeps : s.KeepsAmong (held (head :: rest)) s') (hlist : s'.list? layer = some list)
    (hv : head.1.voice? v = some k) {z : GroupKey} (hbefore : [z, k].Sublist list) :
    held (head :: rest) z = false := by
  refine Bool.eq_false_iff.mpr fun hz => ?_
  obtain ⟨old, hold, hsame⟩ := hkeeps.symm.exists_list hlist
  have hsub : [z, k].Sublist old := by
    have hfilter := hbefore.filter (held (head :: rest))
    simp only [List.filter_cons, hz, held_head hv, if_true, List.filter_nil, ← hsame] at hfilter
    exact hfilter.trans List.filter_sublist
  have hahead := List.pairwise_iff_forall_sublist.mp (h.ordered layer old hold) hsub
  obtain ⟨y, hy, hholds⟩ := List.any_eq_true.mp hz
  obtain ⟨w, hw⟩ := Layout.exists_of_holds hholds
  obtain ⟨c, hc, hgroups⟩ := h.among y hy
  obtain ⟨c', hc', hgroups'⟩ := h.among head List.mem_cons_self
  have hearlier := hahead _ _ _ _ _ _ hc hc' (hgroups w z hw) (hgroups' v k hv)
  -- but no hand to come is of an earlier chord than the first
  rcases List.mem_cons.mp hy with rfl | hy
  · omega
  · have hlater : head.1.NotAfter y.1 := List.rel_of_pairwise_cons h.notAfter hy
    unfold Hand.NotAfter at hlater
    omega

/-- The merges of the first hand can be made. -/
theorem InTurn.exists_plan (h : InTurn s (head :: rest))
    (hkeeps : s.KeepsAmong (held (head :: rest)) s')
    (hfound : ∀ m ∈ head.2, ∃ x y ld le, Found s head.1 m x y ld le) :
    ∃ t, head.2.foldlM (merge head.1) s' = .ok t ∧ s.KeepsAmong (held (head :: rest)) t := by
  have hrun := foldlM_total (f := merge head.1) (P := fun ms t =>
      (∀ m ∈ ms, ∃ x y ld le, Found s head.1 m x y ld le) ∧ s.KeepsAmong (held (head :: rest)) t)
    head.2 (fun m ms t hP => ?_) ⟨hfound, hkeeps⟩
  · exact hrun.imp fun t ht => ⟨ht.1, ht.2.2⟩
  · obtain ⟨x, y, ld, le, hf⟩ := hP.1 m List.mem_cons_self
    obtain ⟨ld', hdest, hdest'⟩ := hP.2.exists_list hf.destList
    obtain ⟨le', hsrc, hsrc'⟩ := hP.2.exists_list hf.srcList
    have hstill : ∀ {v k list list'}, head.1.voice? v = some k →
        List.filter (held (head :: rest)) list' = List.filter (held (head :: rest)) list →
          k ∈ list → k ∈ list' := fun hv hsame hk =>
      (List.mem_filter.mp (hsame ▸ List.mem_filter.mpr ⟨hk, held_head hv⟩)).1
    -- the merges made so far have moved groups of other hands only
    have hf' : Found t head.1 m x y ld' le' := { hf with
      destList := hdest
      srcList := hsrc
      destMem := hstill hf.destVoice hdest' hf.destMem
      srcMem := hstill hf.srcVoice hsrc' hf.srcMem }
    have hrun : ∀ z ∈ runOf t.graceAt le' y, held (head :: rest) z = false := fun z hz => by
      have hbefore : [z, y].Sublist le' := by
        obtain ⟨before, after, hlist, -⟩ := exists_runOf t.graceAt hf'.srcMem
        rw [hlist]
        exact (List.singleton_sublist.mpr (List.mem_append_right before hz)).append
          (List.singleton_sublist.mpr List.mem_cons_self)
      exact h.not_held hP.2 hsrc hf.srcVoice hbefore
    obtain ⟨t', hmerge, hmerged⟩ := exists_merge hf' hrun
    exact ⟨t', hmerge, fun m' hm' => hP.1 m' (List.mem_cons_of_mem m hm'), hP.2.trans hmerged⟩

theorem InTurn.exists_perform (h : InTurn s (l.hands.zip plans))
    (hfound : ∀ x ∈ l.hands.zip plans, ∀ m ∈ x.2, ∃ y z ld le, Found s x.1 m y z ld le) :
    ∃ p, perform s l plans = .ok p := by
  have hrun := foldlM_total (f := fun s (x : Hand × Plan) => x.2.foldlM (merge x.1) s)
    (P := fun xs t => InTurn s xs ∧ (∀ x ∈ xs, ∀ m ∈ x.2, ∃ y z ld le, Found s x.1 m y z ld le) ∧
      s.KeepsAmong (held xs) t) (l.hands.zip plans) (fun x xs t hP => ?_) ⟨h, hfound, .of_items rfl⟩
  · obtain ⟨t, ht, -⟩ := hrun
    exact ⟨_, by rw [perform_eq, ht]; rfl⟩
  · obtain ⟨hturn, hfound, hkeeps⟩ := hP
    obtain ⟨t', ht', hkeeps'⟩ := hturn.exists_plan hkeeps (hfound x List.mem_cons_self)
    exact ⟨t', ht', hturn.tail, fun y hy => hfound y (List.mem_cons_of_mem x hy),
      hkeeps'.mono fun k hk => by rw [held, List.any_cons, ← held, hk, Bool.or_true]⟩

end Hands

end Merging

/-! ## What was judged is found -/

section Found

variable {s : Score} {l : Layout} {h : Hand} {q : Qualifier} {m : Merge}

theorem Score.mem_of_graceRun (layer : Layer) {k : GroupKey} {run : List GroupKey}
    (h : s.graceRun layer.item layer.staff layer.voice k = .ok run) :
    ∃ list, s.list? layer = some list ∧ k ∈ list := by
  simp only [graceRun, bind_eq_ok] at h
  obtain ⟨list, hlist, h⟩ := h
  refine ⟨list, voiceList_eq_ok.mp hlist, ?_⟩
  split at h
  · cases h
  next place hplace =>
    rw [← List.isSome_idxOf?, hplace]
    rfl

/-- Two groups that were judged to go together were looked up in the lists of their voices. -/
theorem Hand.found_of_judge? (hne : m.dest ≠ m.src)
    (hjudge : h.judge? s l q m = .ok (some ⟨m, true⟩)) :
    ∃ x y ld le, Merging.Found s h m x y ld le := by
  unfold judge? at hjudge
  split at hjudge
  next x y hx hy =>
    split at hjudge
    · simp only [bind_eq_ok] at hjudge
      obtain ⟨xs, hxs, ys, hys, -⟩ := hjudge
      obtain ⟨ld, hdest, hxl⟩ := Score.mem_of_graceRun (h.layer m.dest) hxs
      obtain ⟨le, hsrc, hyl⟩ := Score.mem_of_graceRun (h.layer m.src) hys
      exact ⟨x, y, ld, le, hne, hx, hy, hdest, hsrc, hxl, hyl⟩
    · cases hjudge
  next => cases hjudge

theorem Layout.found_of_plan {verdicts : List (List Verdict)} (hjudge : l.judge s = .ok verdicts) :
    ∀ x ∈ l.hands.zip (l.plan s (verdicts.map Affinity.ofVerdicts)).plans, ∀ m ∈ x.2,
      ∃ y z ld le, Merging.Found s x.1 m y z ld le := by
  intro x hx m hm
  obtain ⟨n, hn⟩ := List.getElem?_of_mem hx
  obtain ⟨hhand, hplan⟩ := List.getElem?_zip_eq_some.mp hn
  obtain ⟨vs, hvs, hverdicts⟩ := exists_of_forall₂ (mapM_eq_ok hjudge) hhand
  have hshape := (l.plan_spec s _).2 n x.1 x.2 hhand hplan
  rw [List.getElem?_map, hvs] at hshape
  obtain ⟨hlt, hallows⟩ := hshape.goes_of_mem m hm
  obtain ⟨-, ⟨y, hy⟩, z, hz⟩ := hshape.offers m hm
  have hyes := (Hand.allows_iff hverdicts hlt (Hand.le_of_voice? hy).1 (Hand.le_of_voice? hz).2).mp
    hallows
  obtain ⟨r, -, -, hoffers, hanswer⟩ := Hand.exists_of_judge hverdicts hyes
  exact Hand.found_of_judge? hoffers.1 hanswer

end Found

end Divisi
