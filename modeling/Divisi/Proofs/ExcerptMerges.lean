/-
Merges in an excerpt.

A merge of a hand of the excerpt does to the excerpt what it does to the whole score
(`Excerpt.Of.merge`), and a merge of any other hand does nothing to it
(`Excerpt.Of.elsewhere`). So what combining makes of the groups of an excerpt is what its own
merges make of them (`Combination.Of.excerpt`).
-/
import Divisi.Proofs.Combined
import Divisi.Proofs.Excerpt

namespace Divisi

open Merging

/-! ## Groups of two arenas -/

/-- The groups `keys` are the same in both arenas. -/
def Arena.Agree (keys : List GroupKey) (groups groups' : Arena Group) : Prop :=
  ∀ k ∈ keys, groups'.get? k = groups.get? k

namespace Arena.Agree

variable {keys run : List GroupKey} {groups groups' : Arena Group} {k : GroupKey}

theorem get (h : Agree keys groups groups') (hk : k ∈ keys) : groups'.get k = groups.get k := by
  rw [Arena.get, Arena.get, h k hk]

theorem modify (h : Agree keys groups groups') (k : GroupKey) (f : Group → Group) :
    Agree keys (groups.modify k f) (groups'.modify k f) := by
  intro l hl
  rw [Arena.get?_modify, Arena.get?_modify, h l hl]

theorem foldl {ι : Type} (h : Agree keys groups groups') (key : ι → GroupKey)
    (f : ι → Group → Group) (xs : List ι) :
    Agree keys (xs.foldl (fun groups x => groups.modify (key x) (f x)) groups)
      (xs.foldl (fun groups x => groups.modify (key x) (f x)) groups') := by
  induction xs generalizing groups groups' with
  | nil => exact h
  | cons x rest ih => exact ih (h.modify (key x) (f x))

theorem rebeam (h : Agree keys groups groups') (run : List GroupKey) :
    Agree keys (Merging.rebeam groups run) (Merging.rebeam groups' run) := by
  unfold Merging.rebeam
  split
  · exact h
  · exact h.foldl Prod.fst (fun x g => { g with beam := beamAt run.length x.2 }) run.zipIdx

theorem any_beam (h : Agree keys groups groups') (hrun : ∀ k ∈ run, k ∈ keys) :
    (run.any fun key => (groups'.get key).beam != .none) =
      run.any fun key => (groups.get key).beam != .none := by
  rw [Bool.eq_iff_iff, List.any_eq_true, List.any_eq_true]
  exact exists_congr fun k => and_congr_right fun hk => by rw [h.get (hrun k hk)]

end Arena.Agree

/-- A run of grace notes depends on the marks of the groups in its list. -/
theorem runOf_congr_grace {grace grace' : GroupKey → Bool} {list : List GroupKey}
    (h : ∀ k ∈ list, grace' k = grace k) (k : GroupKey) : runOf grace' list k = runOf grace list k := by
  have htake : ∀ xs : List GroupKey, (∀ k ∈ xs, grace' k = grace k) →
      xs.takeWhile grace' = xs.takeWhile grace := by
    intro xs hxs
    induction xs with
    | nil => rfl
    | cons x rest ih =>
      simp only [List.mem_cons, forall_eq_or_imp] at hxs
      rw [List.takeWhile_cons, List.takeWhile_cons, hxs.1, ih hxs.2]
  rw [runOf, runOf, htake]
  intro x hx
  exact h x (List.takeWhile_subset _ (List.mem_reverse.mp hx))

/-! ## A score and its excerpt on the way -/

namespace Excerpt

variable (x : Excerpt)

/-- The hand is one of the excerpt. -/
def holds (h : Hand) : Bool := x.ordinal h.item < x.length && x.staffs h.staff

/-- The hand as the excerpt has it. It is not said in which chord it stands. -/
def hand (h : Hand) : Hand := { h with item := x.ordinal h.item, chord := 0 }

/-- The score `s` has the frame of the whole score, and `u` has what `s` has in the layers of the
excerpt. -/
structure Of (s u : Score) : Prop where
  frame : s.frame = x.whole.frame
  excerpt : u.frame = x.score.frame
  lists : ∀ layer list, x.Holds layer → s.list? layer = some list →
    u.list? (x.layer layer) = some list
  groups : s.groups.Agree x.keys u.groups

/-- The groups of the excerpt stand in its layers and in no other. -/
def Fits (s : Score) : Prop := ∀ layer list k, s.list? layer = some list → k ∈ list →
  (k ∈ x.keys ↔ x.Holds layer)

variable {x} {fits : Group → Prop} {s s' u : Score} {h : Hand} {m : Merge}
  {layer other : Layer} {list list' moved run : List GroupKey} {dest src k y z : GroupKey}
  {ld le : List GroupKey}

theorem holds_iff {v : Nat} : x.holds h = true ↔ x.Holds (h.layer v) := by
  simp [holds, Holds, Hand.layer]

theorem of_whole : x.Of x.whole x.score :=
  ⟨rfl, rfl, fun _ _ h hlist => list?_score hlist h, fun _ hk => get?_of_mem_keys hk⟩

theorem fits_whole (hs : x.whole.Sound fits) : x.Fits x.whole := by
  intro layer list k hlist hk
  rw [mem_keys hs]
  constructor
  · rintro ⟨other, list', h, hlist', hk'⟩
    exact hs.layer_unique hlist hk hlist' hk' ▸ h
  · exact fun h => ⟨layer, list, h, hlist, hk⟩

namespace Of

theorem get (ho : x.Of s u) (hk : k ∈ x.keys) : u.groups.get k = s.groups.get k := ho.groups.get hk

theorem layer_inj (ho : x.Of s u) (hlist : s.list? layer = some list)
    (hlist' : s.list? other = some list') (h : x.layer other = x.layer layer) : other = layer := by
  have hplaced : ∀ {layer list}, s.list? layer = some list →
      ∃ p ∈ x.whole.placed, p.item = layer.item := by
    intro layer list hlist
    obtain ⟨m, st, hm, -⟩ := Score.list?_eq_some.mp hlist
    have hframe := Score.measureAt?_of_frame ho.frame layer.item
    rw [hm, Option.map_some, eq_comm, Option.map_eq_some_iff] at hframe
    obtain ⟨m', hm', -⟩ := hframe
    obtain ⟨p, hp, hitem, -⟩ := Placed.exists_of_measureAt? hm'
    exact ⟨p, hp, hitem⟩
  obtain ⟨p, hp, hitem⟩ := hplaced hlist
  obtain ⟨q, hq, hitem'⟩ := hplaced hlist'
  obtain ⟨hordinal, hstaff, hvoice⟩ := Layer.mk.inj h
  rw [← hitem, ← hitem'] at hordinal
  have hsame : other.item = layer.item := by
    rw [← hitem, ← hitem', ordinal_inj hq hp hordinal]
  cases other
  cases layer
  simp_all

/-! ## What a merge is made of -/

theorem setVoiceList (ho : x.Of s u) (hlayer : x.Holds layer) (hlist : s.list? layer = some list)
    (new : List GroupKey) :
    x.Of (s.setVoiceList layer.item layer.staff layer.voice (some new))
      (u.setVoiceList (x.ordinal layer.item) layer.staff layer.voice (some new)) := by
  have hlist_u := ho.lists layer list hlayer hlist
  refine ⟨(Score.frame_setVoiceList hlist new).trans ho.frame,
    (Score.frame_setVoiceList hlist_u new).trans ho.excerpt, fun other list' hother hlist' => ?_,
    ho.groups⟩
  have hread := Score.list?_setVoiceList hlist_u (some new) (x.layer other)
  rw [Score.list?_setVoiceList hlist] at hlist'
  refine hread.trans ?_
  by_cases heq : other = layer
  · rw [if_pos heq] at hlist'
    rw [if_pos (congrArg x.layer heq), hlist']
  · rw [if_neg heq] at hlist'
    rw [if_neg fun he => heq (ho.layer_inj hlist hlist' he)]
    exact ho.lists other list' hother hlist'

theorem foldInto (ho : x.Of s u) (hdest : dest ∈ x.keys) (hsrc : src ∈ x.keys) :
    x.Of (s.foldInto dest src) (u.foldInto dest src) := by
  refine ⟨ho.frame, ho.excerpt, ho.lists, ?_⟩
  simp only [Score.foldInto, ho.get hdest, ho.get hsrc]
  exact (ho.groups.modify dest _).modify src _

theorem foldPairs {pairs : List (GroupKey × GroupKey)} (ho : x.Of s u)
    (hpairs : ∀ p ∈ pairs, p.1 ∈ x.keys ∧ p.2 ∈ x.keys) :
    x.Of (s.foldPairs pairs) (u.foldPairs pairs) := by
  induction pairs generalizing s u with
  | nil => exact ho
  | cons p rest ih =>
    simp only [List.mem_cons, forall_eq_or_imp] at hpairs
    exact ih (ho.foldInto hpairs.1.1 hpairs.1.2) hpairs.2

theorem revoiced (ho : x.Of s u) (moved : List GroupKey) (voice : Nat) :
    x.Of (revoiced s moved voice) (revoiced u moved voice) :=
  ⟨ho.frame, ho.excerpt, ho.lists, ho.groups.foldl id (fun _ g => { g with voice }) moved⟩

theorem moveGraces (ho : x.Of s u) (hh : x.holds h = true) (hrun : ∀ k ∈ run, k ∈ x.keys)
    (hs' : moveGraces s h m dest moved run = .ok s') :
    ∃ u', moveGraces u (x.hand h) m dest moved run = .ok u' ∧ x.Of s' u' := by
  obtain ⟨theirs, ours, list, htheirs, hours, hlist, rfl⟩ := moveGraces_eq_ok.mp hs'
  have htheirs := (@Score.voiceList_eq_ok _ (h.layer m.src) _).mp htheirs
  have hours := (@Score.voiceList_eq_ok _ (h.layer m.dest) _).mp hours
  have h₁ := ho.revoiced moved m.dest
  have h₂ := h₁.setVoiceList (holds_iff.mp hh) htheirs
    (theirs.filter fun key => !moved.contains key)
  have h₃ := h₂.setVoiceList (holds_iff.mp hh) hours list
  refine ⟨_, moveGraces_eq_ok.mpr ⟨theirs, ours, list, ?_, ?_, hlist, rfl⟩, ?_⟩
  · exact Score.voiceList_eq_ok.mpr (h₁.lists _ _ (holds_iff.mp hh) htheirs)
  · exact Score.voiceList_eq_ok.mpr (h₂.lists _ _ (holds_iff.mp hh) hours)
  · have hgiven : x.Of (resettled s h m moved list (theirs.filter fun key => !moved.contains key))
        (resettled u (x.hand h) m moved list (theirs.filter fun key => !moved.contains key)) := h₃
    simp only [hgiven.groups.any_beam hrun]
    split
    · exact ⟨hgiven.frame, hgiven.excerpt, hgiven.lists, hgiven.groups.rebeam (moved ++ run)⟩
    · exact hgiven

theorem graceRun (ho : x.Of s u) (hlayer : x.Holds layer) (hlist : s.list? layer = some list)
    (hkeys : ∀ k ∈ list, k ∈ x.keys) (hk : k ∈ list) :
    u.graceRun (x.ordinal layer.item) layer.staff layer.voice k = .ok (runOf s.graceAt list k) ∧
      s.graceRun layer.item layer.staff layer.voice k = .ok (runOf s.graceAt list k) := by
  have hgrace : ∀ k ∈ list, u.graceAt k = s.graceAt k := fun k hk => by
    rw [Score.graceAt, Score.graceAt, ho.get (hkeys k hk)]
  refine ⟨?_, Score.graceRun_eq_ok hlist hk⟩
  rw [← runOf_congr_grace hgrace]
  exact Score.graceRun_eq_ok (ho.lists layer list hlayer hlist) hk

theorem graces (ho : x.Of s u) (hf : x.Fits s) (hh : x.holds h = true)
    (hp : Paired s h m y z ld le) (hs' : graces s h m y z = .ok s') :
    ∃ u', graces u (x.hand h) m y z = .ok u' ∧ x.Of s' u' := by
  have hld : ∀ k ∈ ld, k ∈ x.keys := fun k hk =>
    (hf _ ld k hp.destList hk).mpr (holds_iff.mp hh)
  have hle : ∀ k ∈ le, k ∈ x.keys := fun k hk => (hf _ le k hp.srcList hk).mpr (holds_iff.mp hh)
  obtain ⟨hours', hours⟩ := ho.graceRun (holds_iff.mp hh) hp.destList hld hp.destMem
  obtain ⟨htheirs', htheirs⟩ := ho.graceRun (holds_iff.mp hh) hp.srcList hle hp.srcMem
  have hourKeys : ∀ k ∈ runOf s.graceAt ld y, k ∈ x.keys := fun k hk =>
    hld k (mem_of_column hp.destMem (List.mem_cons_of_mem y (List.mem_reverse.mpr hk)))
  have htheirKeys : ∀ k ∈ runOf s.graceAt le z, k ∈ x.keys := fun k hk =>
    hle k (mem_of_column hp.srcMem (List.mem_cons_of_mem z (List.mem_reverse.mpr hk)))
  generalize runOf s.graceAt ld y = ours at hours hours' hourKeys
  generalize runOf s.graceAt le z = theirs at htheirs htheirs' htheirKeys
  simp only [Hand.layer] at hours hours' htheirs htheirs'
  have hplace : (x.hand h).item = x.ordinal h.item ∧ (x.hand h).staff = h.staff := ⟨rfl, rfl⟩
  simp only [Merging.graces, htheirs, bind, Except.bind] at hs'
  simp only [Merging.graces, hplace, htheirs', bind, Except.bind]
  by_cases hnone : theirs.isEmpty = true
  · rw [if_pos hnone] at hs' ⊢
    cases hs'
    exact ⟨u, rfl, ho⟩
  rw [if_neg hnone] at hs' ⊢
  simp only [hours] at hs'
  simp only [hours']
  have hfolded : x.Of (s.foldPairs (ours.reverse.zip theirs.reverse))
      (u.foldPairs (ours.reverse.zip theirs.reverse)) := by
    refine ho.foldPairs fun p hp => ?_
    obtain ⟨hd, he⟩ := List.of_mem_zip (a := p.1) (b := p.2) hp
    exact ⟨hourKeys _ (List.mem_reverse.mp hd), htheirKeys _ (List.mem_reverse.mp he)⟩
  by_cases hstay : (theirs.take (theirs.length - ours.length)).isEmpty = true
  · rw [if_pos hstay] at hs' ⊢
    cases hs'
    exact ⟨_, rfl, hfolded⟩
  · rw [if_neg hstay] at hs' ⊢
    exact hfolded.moveGraces hh hourKeys hs'

/-- **A merge in the excerpt.** -/
theorem merge (ho : x.Of s u) (hf : x.Fits s) (hh : x.holds h = true)
    (hp : Paired s h m y z ld le) (hs' : merge h s m = .ok s') :
    ∃ u', merge (x.hand h) u m = .ok u' ∧ x.Of s' u' := by
  have hdest : (x.hand h).voice? m.dest = some y := hp.destVoice
  have hsrc : (x.hand h).voice? m.src = some z := hp.srcVoice
  simp only [Merging.merge, hp.destVoice, hp.srcVoice, bind_eq_ok, pure_eq_ok] at hs'
  obtain ⟨t, ht, rfl⟩ := hs'
  obtain ⟨v, hv, hov⟩ := ho.graces hf hh hp ht
  refine ⟨v.foldInto y z, ?_, hov.foldInto ?_ ?_⟩
  · simp only [Merging.merge, hdest, hsrc, hv, bind, Except.bind]
    rfl
  · exact (hf _ ld y hp.destList hp.destMem).mpr (holds_iff.mp hh)
  · exact (hf _ le z hp.srcList hp.srcMem).mpr (holds_iff.mp hh)

theorem elsewhere (ho : x.Of s u) (hf : x.Fits s) (hh : x.holds h ≠ true)
    (hp : Paired s h m y z ld le) (hm : Merged h m y z ld le s s') : x.Of s' u := by
  have hout : ∀ {v list k}, s.list? (h.layer v) = some list → k ∈ list → k ∉ x.keys :=
    fun hlist hk hkeys => hh (holds_iff.mpr ((hf _ _ _ hlist hk).mp hkeys))
  refine ⟨hm.frame.trans ho.frame, ho.excerpt, fun layer list hlayer hlist => ?_, fun k hk => ?_⟩
  · refine ho.lists layer list hlayer ?_
    rwa [hm.elsewhere layer] at hlist
    · rintro rfl
      exact hh (holds_iff.mpr hlayer)
    · rintro rfl
      exact hh (holds_iff.mpr hlayer)
  · rw [hm.others k]
    · exact ho.groups k hk
    · exact fun hmem => hout hp.destList (mem_of_column hp.destMem hmem) hk
    · exact fun hmem => hout hp.srcList (mem_of_column hp.srcMem hmem) hk

end Of

/-- No merge moves a group into the excerpt or out of it. -/
theorem Fits.merge (hf : x.Fits s) (hs : s.Tidy) (hp : Paired s h m y z ld le)
    (hm : Merged h m y z ld le s s') : x.Fits s' := by
  intro layer list k hlist hk
  rcases hm.mem_list hp hs hlist hk with ⟨hmoved, rfl⟩ | ⟨-, old, hold, hk⟩
  · rw [hf _ le k hp.srcList (mem_of_column hp.srcMem (List.mem_of_mem_drop hmoved)),
      ← holds_iff, ← holds_iff]
  · exact hf layer old k hold hk

/-! ## All merges -/

variable (x) in
/-- The merges that are of the excerpt. -/
def steps (steps : List (Hand × Merge)) : List (Hand × Merge) :=
  (steps.filter fun e => x.holds e.1).map fun e => (x.hand e.1, e.2)

theorem steps_append (before after : List (Hand × Merge)) :
    x.steps (before ++ after) = x.steps before ++ x.steps after := by
  rw [steps, List.filter_append, List.map_append]
  rfl

theorem steps_snoc (before : List (Hand × Merge)) : x.steps (before ++ [(h, m)]) =
    x.steps before ++ if x.holds h then [(x.hand h, m)] else [] := by
  rw [steps_append]
  by_cases hh : x.holds h = true <;> simp [steps, hh]

end Excerpt

/-- **The merges of an excerpt** make of it what all merges make of its part of the score. -/
theorem Combination.Of.excerpt {x : Excerpt} {c : Combination} {fits : Group → Prop}
    (hc : c.Of x.whole) (hs : x.whole.Sound fits) : x.Fits c.score ∧ ∃ u,
      (x.steps c.steps).foldlM (fun u e => Merging.merge e.1 u e.2) x.score = .ok u ∧
        x.Of c.score u := by
  refine hc.induction_steps (P := fun before s => x.Fits s ∧ ∃ u,
    (x.steps before).foldlM (fun u e => Merging.merge e.1 u e.2) x.score = .ok u ∧ x.Of s u)
    (fun before h m after s s' hsteps hbefore hmerge hP => ?_)
    ⟨Excerpt.fits_whole hs, x.score, rfl, Excerpt.of_whole⟩
  obtain ⟨hf, u, hu, ho⟩ := hP
  obtain ⟨y, z, ld, le, hp, hm, -, hstands, -⟩ := hc.merged ⟨⟨before, after, hsteps, hbefore⟩, hmerge⟩
  refine ⟨hf.merge hstands.tidy hp hm, ?_⟩
  rw [Excerpt.steps_snoc, List.foldlM_append, hu]
  by_cases hh : x.holds h = true
  · obtain ⟨u', hu', ho'⟩ := ho.merge hf hh hp hmerge
    refine ⟨u', ?_, ho'⟩
    simp only [if_pos hh, bind, Except.bind, List.foldlM_cons, List.foldlM_nil, hu']
    rfl
  · refine ⟨u, ?_, ho.elsewhere hf hh hp hm⟩
    rw [if_neg hh]
    rfl

end Divisi
