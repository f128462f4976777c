/-
Grace notes under a merge.

Before each of the two groups of a merge stands a run of grace notes. The runs are paired
from the groups backwards: a paired grace note of the source is folded into its partner and
stays behind as a space, and those that the source has more of go, in their order, to the
front of the destination's run (`Merging.RunsJoined`). A beam over that run is drawn anew if
the run was there before and has become longer; in every other case each note keeps the beam
mark it had or was given by its partner.
-/
import Divisi.Proofs.Combined

namespace Divisi

/-- A group in the list of a layer, with the run of grace notes directly before it. -/
structure Score.RunIn (s : Score) (layer : Layer) (before run : List GroupKey) (x : GroupKey)
    (after : List GroupKey) : Prop where
  list : s.list? layer = some (before ++ run ++ x :: after)
  main : s.graceAt x = false
  grace : ∀ k ∈ run, s.graceAt k = true
  whole : ∀ k ∈ before.getLast?, s.graceAt k = false

theorem Score.RunIn.runOf_eq {s : Score} {layer : Layer} {before run after : List GroupKey}
    {x : GroupKey} (h : s.RunIn layer before run x after) (hs : s.Tidy) :
    runOf s.graceAt (before ++ run ++ x :: after) x = run := by
  have hx : x ∉ before ++ run := fun hmem =>
    (List.nodup_append.mp (hs.nodup _ _ h.list)).2.2 x hmem x List.mem_cons_self rfl
  exact Divisi.runOf_eq hx h.grace h.whole

theorem Score.RunIn.column_eq {s : Score} {layer : Layer} {before run after list : List GroupKey}
    {x : GroupKey} (h : s.RunIn layer before run x after) (hs : s.Tidy)
    (hlist : s.list? layer = some list) : Merging.column s.graceAt list x = x :: run.reverse := by
  cases h.list.symm.trans hlist
  rw [Merging.column, h.runOf_eq hs]

theorem Score.exists_runIn {s : Score} {layer : Layer} {list : List GroupKey} {x : GroupKey}
    (hlist : s.list? layer = some list) (hx : x ∈ list) (hmain : s.graceAt x = false) :
    ∃ before run after, s.RunIn layer before run x after := by
  obtain ⟨before, after, heq, -, -, hwhole⟩ := exists_runOf s.graceAt hx
  exact ⟨before, _, after, heq ▸ hlist, hmain, fun _ => grace_of_runOf, hwhole⟩

namespace Merging

/-! ## Two runs -/

section Run

variable {s : Score} {ours theirs : List GroupKey} {k : GroupKey}

/-- The run of the destination, with those grace notes in front that the source has more of. -/
def joinedRun (ours theirs : List GroupKey) : List GroupKey :=
  theirs.take (theirs.length - ours.length) ++ ours

theorem length_joinedRun (ours theirs : List GroupKey) :
    (joinedRun ours theirs).length = max theirs.length ours.length := by
  simp only [joinedRun, List.length_append, List.length_take]
  omega

theorem length_left (ours theirs : List GroupKey) :
    (theirs.drop (theirs.length - ours.length)).length = min theirs.length ours.length := by
  simp only [List.length_drop]
  omega

/-- Both runs together have the grace notes that they had. -/
theorem joinedRun_perm (ours theirs : List GroupKey) :
    (joinedRun ours theirs ++ theirs.drop (theirs.length - ours.length)).Perm (ours ++ theirs) := by
  refine List.perm_iff_count.mpr fun k => ?_
  have hsplit := congrArg (List.count k) (List.take_append_drop (theirs.length - ours.length) theirs)
  simp only [joinedRun, List.count_append] at hsplit ⊢
  omega

/-- The beam over the joined run is drawn anew: the destination had a run, the source has a
longer one, and some note of the destination's has a beam mark once its partner is folded in. -/
def Redrawn (s : Score) (ours theirs : List GroupKey) : Prop :=
  0 < ours.length ∧ ours.length < theirs.length ∧ ∃ p ∈ ours.reverse.zip theirs.reverse,
    ((s.groups.get p.1).blend (s.groups.get p.2)).group.beam ≠ .none

instance : Decidable (Redrawn s ours theirs) := inferInstanceAs (Decidable (_ ∧ _ ∧ _))

/-- A note of the joined run, with its new beam mark if the beam is drawn anew. -/
def redrawn (s : Score) (ours theirs : List GroupKey) (k : GroupKey) (g : Group) : Group :=
  if Redrawn s ours theirs then
    { g with beam := beamAt (joinedRun ours theirs).length ((joinedRun ours theirs).idxOf k) }
  else g

theorem redrawn_of_not_longer (h : theirs.length ≤ ours.length) (k : GroupKey) (g : Group) :
    redrawn s ours theirs k g = g := if_neg fun hr => by
  obtain ⟨-, hlonger, -⟩ := hr
  omega

end Run

/-! ## Drawing a beam -/

theorem get?_rebeam_of_nodup {run : List GroupKey} (groups : Arena Group) (hnodup : run.Nodup)
    (htwo : 2 ≤ run.length) (k : GroupKey) : (rebeam groups run).get? k =
      if k ∈ run then (groups.get? k).map fun g => { g with beam := beamAt run.length (run.idxOf k) }
      else groups.get? k := by
  suffices h : ∀ (count : Nat) (run : List GroupKey) (n : Nat) (groups : Arena Group), run.Nodup →
      ((run.zipIdx n).foldl (fun groups x =>
        groups.modify x.1 fun g => { g with beam := beamAt count x.2 }) groups).get? k =
      if k ∈ run then (groups.get? k).map fun g => { g with beam := beamAt count (n + run.idxOf k) }
      else groups.get? k by
    rw [rebeam, if_neg (by omega)]
    simpa only [Nat.zero_add] using h run.length run 0 groups hnodup
  intro count run
  induction run with
  | nil => simp
  | cons key rest ih =>
    intro n groups hnodup
    obtain ⟨hkey, hrest⟩ := List.nodup_cons.mp hnodup
    rw [List.zipIdx_cons, List.foldl_cons, ih (n + 1) _ hrest, Arena.get?_modify]
    by_cases hk : key = k
    · subst hk
      simp [hkey]
    · simp only [hk, if_false, List.mem_cons, Ne.symm hk, false_or, List.idxOf_cons_ne _ hk]
      rw [Nat.add_assoc, Nat.add_comm 1]

/-! ## The groups of the runs -/

/-- What becomes of the grace notes `ours` before the destination of a merge and of the grace
notes `theirs` before its source. -/
structure RunsBlended (m : Merge) (ours theirs : List GroupKey) (s s' : Score) : Prop where
  /-- Grace notes as far from the end of their run are blended, and a space stays behind. -/
  paired : ∀ (i : Nat) d e, ours.reverse[i]? = some d → theirs.reverse[i]? = some e →
    s'.groups.get? d =
      some (redrawn s ours theirs d ((s.groups.get d).blend (s.groups.get e)).group) ∧
    s'.groups.get? e = some (s.groups.get e).toSpace
  /-- What the source has more of changes its voice. -/
  moved : ∀ k ∈ theirs.take (theirs.length - ours.length),
    s'.groups.get? k = some (redrawn s ours theirs k { s.groups.get k with voice := m.dest })
  /-- What the destination has more of stays as it is. -/
  spare : ∀ k ∈ ours.take (ours.length - theirs.length), s'.groups.get? k = s.groups.get? k

section Graces

variable {s s' : Score} {h : Hand} {m : Merge} {x y : GroupKey}
  {before after before' after' ours theirs : List GroupKey}

theorem beam_resettled (moved dest src : List GroupKey) (k : GroupKey) :
    ((resettled s h m moved dest src).groups.get k).beam = (s.groups.get k).beam := by
  rw [Arena.get, get?_resettled, Arena.get]
  split <;> cases s.groups.get? k <;> rfl

theorem map_fst_pairs (ours theirs : List GroupKey) :
    (ours.reverse.zip theirs.reverse).map Prod.fst =
      (ours.drop (ours.length - theirs.length)).reverse := by
  rw [map_fst_zip, List.length_reverse, List.take_reverse]

theorem map_snd_pairs (ours theirs : List GroupKey) :
    (ours.reverse.zip theirs.reverse).map Prod.snd =
      (theirs.drop (theirs.length - ours.length)).reverse := by
  rw [map_snd_zip, List.length_reverse, List.take_reverse]

theorem folded_others (hfolded : s.Folded (ours.reverse.zip theirs.reverse) s') {k : GroupKey}
    (hk : k ∉ ours.drop (ours.length - theirs.length))
    (hk' : k ∉ theirs.drop (theirs.length - ours.length)) :
    s'.groups.get? k = s.groups.get? k := by
  refine hfolded.others k ?_ ?_
  · rwa [map_fst_pairs, List.mem_reverse]
  · rwa [map_snd_pairs, List.mem_reverse]

/-- Where the source has no more grace notes, folding the pairs is all there is to do. -/
theorem runsBlended_of_folded (hnodup : (ours ++ theirs).Nodup)
    (hfolded : s.Folded (ours.reverse.zip theirs.reverse) s')
    (hlonger : theirs.length ≤ ours.length) : RunsBlended m ours theirs s s' := by
  obtain ⟨hours, -, happart⟩ := List.nodup_append.mp hnodup
  refine ⟨fun i d e hd he => ?_, fun k hk => ?_, fun k hk => ?_⟩
  · have hp := List.mem_of_getElem? (List.getElem?_zip_eq_some (z := (d, e)).mpr ⟨hd, he⟩)
    rw [redrawn_of_not_longer hlonger]
    exact ⟨hfolded.dest _ hp, hfolded.src _ hp⟩
  · rw [Nat.sub_eq_zero_of_le hlonger, List.take_zero] at hk
    cases hk
  · exact folded_others hfolded (not_mem_drop hours hk) fun hmem =>
      happart k (List.mem_of_mem_take hk) k (List.mem_of_mem_drop hmem) rfl

/-- The beam is drawn anew if a note of the destination's run has a mark after the pairs are
folded. -/
theorem redrawn_iff_of_folded (hfolded : s.Folded (ours.reverse.zip theirs.reverse) s')
    (hlonger : ours.length < theirs.length) :
    (ours.any fun k => (s'.groups.get k).beam != .none) = true ↔ Redrawn s ours theirs := by
  have hblend : ∀ p ∈ ours.reverse.zip theirs.reverse,
      s'.groups.get p.1 = ((s.groups.get p.1).blend (s.groups.get p.2)).group := fun p hp =>
    Arena.get_of_get? (hfolded.dest p hp)
  have hall : (ours.reverse.zip theirs.reverse).map Prod.fst = ours.reverse := by
    rw [map_fst_pairs, Nat.sub_eq_zero_of_le (Nat.le_of_lt hlonger), List.drop_zero]
  simp only [List.any_eq_true, bne_iff_ne, Redrawn]
  constructor
  · rintro ⟨k, hk, hbeam⟩
    obtain ⟨p, hp, rfl⟩ := List.mem_map.mp (hall ▸ List.mem_reverse.mpr hk)
    exact ⟨List.length_pos_of_mem hk, hlonger, p, hp, hblend p hp ▸ hbeam⟩
  · rintro ⟨-, -, p, hp, hbeam⟩
    have hk := List.mem_map_of_mem (f := Prod.fst) hp
    rw [hall, List.mem_reverse] at hk
    exact ⟨p.1, hk, hblend p hp ▸ hbeam⟩

/-- Where the source has more grace notes, those left over change their voice, and the joined run
may be given a new beam. -/
theorem runsBlended_of_moved {s₁ : Score} (hnodup : (ours ++ theirs).Nodup)
    (hlive : ∀ k ∈ theirs, ∃ g, s.groups.get? k = some g)
    (hfolded : s.Folded (ours.reverse.zip theirs.reverse) s₁) (hlonger : ours.length < theirs.length)
    {dest src : List GroupKey} {given : Score}
    (hgiven : resettled s₁ h m (theirs.take (theirs.length - ours.length)) dest src = given)
    (hmade : s' = if (ours.any fun k => (given.groups.get k).beam != .none) = true then
      { given with groups := rebeam given.groups (joinedRun ours theirs) } else given) :
    RunsBlended m ours theirs s s' := by
  obtain ⟨hours, htheirs, happart⟩ := List.nodup_append.mp hnodup
  have hjoined : (joinedRun ours theirs).Nodup :=
    List.nodup_append.mpr ⟨htheirs.sublist (List.take_sublist _ _), hours, fun k hk k' hk' heq =>
      happart k' hk' k (List.mem_of_mem_take hk) heq.symm⟩
  have hread : ∀ k, s'.groups.get? k = if k ∈ joinedRun ours theirs then
      (given.groups.get? k).map (redrawn s ours theirs k) else given.groups.get? k := by
    intro k
    have hbeam : (ours.any fun k => (given.groups.get k).beam != .none) = true ↔
        Redrawn s ours theirs := by
      simp only [← hgiven, beam_resettled]
      exact redrawn_iff_of_folded hfolded hlonger
    by_cases hr : Redrawn s ours theirs
    · have htwo : 2 ≤ (joinedRun ours theirs).length := by
        rw [length_joinedRun]
        have := hr.1
        omega
      have hnew : redrawn s ours theirs k = fun g => { g with
          beam := beamAt (joinedRun ours theirs).length ((joinedRun ours theirs).idxOf k) } :=
        funext fun g => if_pos hr
      rw [hmade, if_pos (hbeam.mpr hr), get?_rebeam_of_nodup _ hjoined htwo, hnew]
    · have hold : redrawn s ours theirs k = id := funext fun g => if_neg hr
      rw [hmade, if_neg (mt hbeam.mp hr), hold, Option.map_id, id, ite_self]
  have hgivenOf : ∀ k, k ∉ theirs.take (theirs.length - ours.length) →
      given.groups.get? k = s₁.groups.get? k := fun k hk => by
    rw [← hgiven, get?_resettled, if_neg hk]
  have hnotTaken : ∀ k ∈ theirs.drop (theirs.length - ours.length),
      k ∉ theirs.take (theirs.length - ours.length) := fun k hk hk' => not_mem_drop htheirs hk' hk
  refine ⟨fun i d e hd he => ?_, fun k hk => ?_, fun k hk => ?_⟩
  · have hp := List.mem_of_getElem? (List.getElem?_zip_eq_some (z := (d, e)).mpr ⟨hd, he⟩)
    have hd := List.mem_reverse.mp (List.mem_of_getElem? hd)
    have he : e ∈ theirs.drop (theirs.length - ours.length) := by
      rw [← List.mem_reverse, ← map_snd_pairs]
      exact List.mem_map_of_mem (f := Prod.snd) hp
    constructor
    · have hmem : d ∈ joinedRun ours theirs := List.mem_append_right _ hd
      rw [hread, if_pos hmem, hgivenOf d fun hmem =>
        happart d hd d (List.mem_of_mem_take hmem) rfl, hfolded.dest _ hp, Option.map_some]
    · have hnot : e ∉ joinedRun ours theirs := fun hmem =>
        (List.mem_append.mp hmem).elim (hnotTaken e he) fun hmem =>
          happart e hmem e (List.mem_of_mem_drop he) rfl
      rw [hread, if_neg hnot, hgivenOf e (hnotTaken e he), hfolded.src _ hp]
  · have hk' := List.mem_of_mem_take hk
    obtain ⟨g, hg⟩ := hlive k hk'
    have hsame : s₁.groups.get? k = some g := by
      rw [← hg]
      exact folded_others hfolded (fun hmem => happart k (List.mem_of_mem_drop hmem) k hk' rfl)
        (not_mem_drop htheirs hk)
    have hmem : k ∈ joinedRun ours theirs := List.mem_append_left _ hk
    rw [hread, if_pos hmem, ← hgiven, get?_resettled, if_pos hk, hsame,
      Arena.get_of_get? hg]
    rfl
  · rw [Nat.sub_eq_zero_of_le (Nat.le_of_lt hlonger), List.take_zero] at hk
    cases hk

theorem graces_runsBlended (hs : s.Tidy) (hne : m.dest ≠ m.src)
    (hx : s.RunIn (h.layer m.dest) before ours x after)
    (hy : s.RunIn (h.layer m.src) before' theirs y after')
    (hmade : graces s h m x y = .ok s') : RunsBlended m ours theirs s s' := by
  have hnodup : (ours ++ theirs).Nodup := List.nodup_append.mpr
    ⟨(hs.nodup _ _ hx.list).sublist (by simp [List.append_assoc]),
      (hs.nodup _ _ hy.list).sublist (by simp [List.append_assoc]), fun k hk k' hk' heq =>
        hne (Layer.mk.inj (hs.apart _ _ _ _ k hx.list hy.list (by simp [hk])
          (by simp [heq, hk']))).2.2⟩
  have hfolded := runs_folded hs hne hx.list hy.list
  rw [graces_eq hx.list hy.list (hx.runOf_eq hs) (hy.runOf_eq hs)] at hmade
  split at hmade
  next hlonger =>
    cases hmade
    exact runsBlended_of_folded hnodup hfolded hlonger
  next hlonger =>
    rw [moveGraces_eq _ hne ((Score.list?_congr hfolded.items _).trans hx.list)
      ((Score.list?_congr hfolded.items _).trans hy.list) (hs.nodup _ _ hx.list)
      (hs.nodup _ _ hy.list)] at hmade
    generalize hgiven : resettled _ h m _ _ _ = given at hmade
    refine runsBlended_of_moved hnodup (fun k hk => hs.live _ _ k hy.list (by simp [hk])) hfolded
      (by omega) hgiven ?_
    split at hmade <;> cases hmade
    next hbeam => exact (if_pos hbeam).symm
    next hbeam => exact (if_neg hbeam).symm

end Graces

/-! ## Whole merges -/

/-- **What a merge makes of the grace notes.** The merge `m` of the hand has found the run `ours`
before its destination `x` and the run `theirs` before its source `y`. -/
structure RunsJoined (h : Hand) (m : Merge) (x y : GroupKey) (ours theirs : List GroupKey)
    (s s' : Score) : Prop extends RunsBlended m ours theirs s s' where
  /-- The run of the destination begins with what the source has more of. -/
  dest : ∃ before after, s.RunIn (h.layer m.dest) before ours x after ∧
    s'.RunIn (h.layer m.dest) before (joinedRun ours theirs) x after
  /-- The run of the source has lost as many grace notes from its front. -/
  src : ∃ before after, s.RunIn (h.layer m.src) before theirs y after ∧
    s'.RunIn (h.layer m.src) before (theirs.drop (theirs.length - ours.length)) y after
  elsewhere : ∀ layer, layer ≠ h.layer m.dest → layer ≠ h.layer m.src →
    s'.list? layer = s.list? layer
  others : ∀ k, k ∉ ours → k ∉ theirs → k ≠ x → k ≠ y → s'.groups.get? k = s.groups.get? k

theorem merge_runsJoined {s s' : Score} {h : Hand} {m : Merge} {x y : GroupKey}
    {ld le : List GroupKey} (hs : s.Tidy) (hp : Paired s h m x y ld le)
    (hmade : merge h s m = .ok s') : ∃ ours theirs, RunsJoined h m x y ours theirs s s' := by
  obtain ⟨s₀, hmade₀, hmerged⟩ := merge_merged hs hp
  cases hmade.symm.trans hmade₀
  have hgrace := hmerged.graceAt_eq hp hs
  obtain ⟨before, ours, after, hx⟩ := Score.exists_runIn hp.destList hp.destMem hp.destMain
  obtain ⟨before', theirs, after', hy⟩ := Score.exists_runIn hp.srcList hp.srcMem hp.srcMain
  obtain ⟨s₁, s₂, hgraces, -, -, hdest, hsrc⟩ := graces_ok hs hp.differ hx.list hy.list
    (hx.runOf_eq hs) (hy.runOf_eq hs)
  have hblended := graces_runsBlended hs hp.differ hx hy hgraces
  simp only [merge, hp.destVoice, hp.srcVoice, hgraces, bind, Except.bind] at hmade
  cases hmade
  have hlist : ∀ layer, (s₂.foldInto x y).list? layer = s₂.list? layer := fun _ => rfl
  have hsame : ∀ k, s.graceAt k = true →
      (s₂.foldInto x y).groups.get? k = s₂.groups.get? k := by
    intro k hk
    have hkx : y ≠ k := fun heq => Bool.false_ne_true (hp.srcMain.symm.trans (heq ▸ hk))
    have hky : x ≠ k := fun heq => Bool.false_ne_true (hp.destMain.symm.trans (heq ▸ hk))
    rw [Score.foldInto, Arena.get?_set, if_neg hkx, Arena.get?_set, if_neg hky]
  refine ⟨ours, theirs, ⟨fun i d e hd he => ?_, fun k hk => ?_, fun k hk => ?_⟩,
    ⟨before, after, hx, ?_, hgrace ▸ hp.destMain, fun k hk => ?_, hgrace ▸ hx.whole⟩,
    ⟨before', after', hy, (hlist _).trans hsrc, hgrace ▸ hp.srcMain,
      fun k hk => hgrace ▸ hy.grace k (List.mem_of_mem_drop hk), hgrace ▸ hy.whole⟩,
    hmerged.elsewhere, fun k hk hk' hkx hky => ?_⟩
  · rw [hsame d (hx.grace d (List.mem_reverse.mp (List.mem_of_getElem? hd))),
      hsame e (hy.grace e (List.mem_reverse.mp (List.mem_of_getElem? he)))]
    exact hblended.paired i d e hd he
  · rw [hsame k (hy.grace k (List.mem_of_mem_take hk))]
    exact hblended.moved k hk
  · rw [hsame k (hx.grace k (List.mem_of_mem_take hk))]
    exact hblended.spare k hk
  · rw [hlist, hdest, joinedRun, List.append_assoc before]
  · rw [hgrace]
    exact (List.mem_append.mp hk).elim (fun hk => hy.grace k (List.mem_of_mem_take hk)) (hx.grace k)
  · refine hmerged.others k ?_ ?_
    · rw [Score.RunIn.column_eq hx hs hp.destList]
      simpa [hkx] using hk
    · rw [Score.RunIn.column_eq hy hs hp.srcList]
      simpa [hky] using hk'

end Merging

/-- **Grace notes under a merge.** Each merge that is made joins the runs of grace notes before its
two groups: the longer of the two lengths is that of the destination's run afterwards, the shorter
that of the source's, and no grace note is lost or stands twice. -/
theorem Score.Chorded.grace_runs {t : Score} (ht : t.Chorded) : ∃ c, t.combineVoices = .ok c ∧
    ∀ h m s s', c.Performs t h m s s' → ∃ x y ours theirs,
      h.voice? m.dest = some x ∧ h.voice? m.src = some y ∧
      Merging.RunsJoined h m x y ours theirs s s' ∧
      (Merging.joinedRun ours theirs).length = max theirs.length ours.length ∧
      (theirs.drop (theirs.length - ours.length)).length = min theirs.length ours.length ∧
      (Merging.joinedRun ours theirs ++ theirs.drop (theirs.length - ours.length)).Perm
        (ours ++ theirs) := by
  obtain ⟨c, hcombine, hc⟩ := ht.combined
  refine ⟨c, hcombine, fun h m s s' hperforms => ?_⟩
  obtain ⟨x, y, ld, le, hpaired, -, -, hstands, -⟩ := hc.merged hperforms
  obtain ⟨ours, theirs, hjoined⟩ := Merging.merge_runsJoined hstands.tidy hpaired hperforms.made
  exact ⟨x, y, ours, theirs, hpaired.destVoice, hpaired.srcVoice, hjoined,
    Merging.length_joinedRun ours theirs, Merging.length_left ours theirs,
    Merging.joinedRun_perm ours theirs⟩

/-- One grace note, the end of a beam, above the two of a whole beam. -/
def surplusGrace : String :=
  "vcombine:\n voices: [1,2]\n qualifier: overlap\nmusic:\n- measure:\n  - voices:\n     1:\n" ++
  "     - time: 8\n       grace: true\n       notes: [f5]\n       beam: end\n     - time: 1\n" ++
  "       notes: [e5]\n     2:\n     - time: 8\n       grace: true\n       notes: [b3]\n" ++
  "       beam: start\n     - time: 8\n       grace: true\n       notes: [d4]\n" ++
  "       beam: end\n     - time: 1\n       notes: [c4]\n"

theorem grace_runs_of_surplusGrace : ∃ (t : Score) (c : Combination) (h : Hand) (m : Merge),
    t.Chorded ∧ t.combineVoices = .ok c ∧ c.Performs t h m t c.score ∧
    (∃ x y ours theirs, Merging.RunsJoined h m x y ours theirs t c.score) ∧
    ((t.list? (h.layer 1)).map fun list => list.map fun k => (t.groups.get k).beam) =
      some [.stop, .none] ∧
    ((c.score.list? (h.layer 1)).map fun list => list.map fun k => (c.score.groups.get k).beam) =
      some [.start, .stop, .none] ∧
    ((c.score.list? (h.layer 2)).map fun list => list.map fun k => (c.score.groups.get k).isSpace) =
      some [true, true] := by
  obtain ⟨s, hs, hfault, hmade⟩ := Score.exists_of_spelled surplusGrace
    (.append (.append (.append (.append (.ofList _) (.ofList _)) (.ofList _)) (.ofList _))
      (.ofList _))
    (P := fun s => s.buildChords.fault = none ∧
      (s.buildChords.now.combineVoices.toOption.any fun c =>
        let t := s.buildChords.now
        c.steps.length == 1 && c.steps.all fun x =>
          ((t.list? (x.1.layer 1)).map fun list => list.map fun k => (t.groups.get k).beam) ==
            some [.stop, .none] &&
          ((c.score.list? (x.1.layer 1)).map fun list =>
            list.map fun k => (c.score.groups.get k).beam) == some [.start, .stop, .none] &&
          ((c.score.list? (x.1.layer 2)).map fun list =>
            list.map fun k => (c.score.groups.get k).isSpace) == some [true, true]) = true)
    (by decide +kernel)
  have ht : s.buildChords.now.Chorded := ⟨s, .of_text hs, hfault, rfl⟩
  obtain ⟨c, hc, hruns⟩ := Score.Chorded.grace_runs ht
  obtain ⟨c', hc', hof⟩ := ht.combined
  cases hc.symm.trans hc'
  simp only [hc, Except.toOption, Option.any_some, Bool.and_eq_true, beq_iff_eq,
    List.all_eq_true] at hmade
  obtain ⟨hone, hlists⟩ := hmade
  obtain ⟨⟨h, m⟩, hstep⟩ := List.length_eq_one_iff.mp hone
  have hperforms : c.Performs s.buildChords.now h m s.buildChords.now c.score := by
    have hperformed := hof.performed
    rw [hstep, List.foldlM_cons] at hperformed
    refine ⟨⟨[], [], hstep, rfl⟩, ?_⟩
    simpa using hperformed
  obtain ⟨x, y, ours, theirs, -, -, hjoined, -⟩ := hruns h m _ _ hperforms
  obtain ⟨⟨hbefore, hdest⟩, hsrc⟩ := hlists (h, m) (by simp [hstep])
  exact ⟨_, c, h, m, ht, hc, hperforms, ⟨x, y, ours, theirs, hjoined⟩, hbefore, hdest, hsrc⟩

end Divisi
