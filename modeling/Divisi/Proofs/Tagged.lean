/-
Tags through a combination.

A merge changes where a tag points only if it folds or fills the group that the tag names: the
tag then follows the note to the group that took it in, to a note at the same position
(`Tag.Followed.merge`). Since no group is folded twice, and none that has taken in another, a
tag is moved to another group once at most, however many merges go into one destination
(`Score.Chorded.tags_follow`).
-/
import Divisi.Proofs.Folding
import Divisi.Proofs.Slots

namespace Divisi

open Merging

namespace Merging

variable {s s' : Score} {h : Hand} {m : Merge} {x y : GroupKey} {ld le : List GroupKey}

theorem Merged.note_followed (hm : Merged h m x y ld le s s') (hp : Paired s h m x y ld le)
    (hs : s.Tidy) (hprints : ∀ k, (s.groups.get k).PrintsAll)
    (htallies : ∀ p ∈ (column s.graceAt ld x).zip (column s.graceAt le y),
      (s.groups.get p.1).Tallies (s.groups.get p.2)) {tag tag' : Tag}
    (htag : tag' = tag.relinkAll s.groups
      ((runOf s.graceAt ld x).reverse.zip (runOf s.graceAt le y).reverse ++ [(x, y)]))
    {i : Nat} (hi : tag.note = some i) {n : Note} (hn : (s.groups.get tag.group).notes[i]? = some n) :
    ∃ j n', tag'.note = some j ∧ (s'.groups.get tag'.group).notes[j]? = some n' ∧
      n'.letter = n.letter ∧ n'.octave = n.octave := by
  obtain ⟨e, hde, heq⟩ | ⟨d, hde, heq⟩ | ⟨hd, he, heq⟩ := hp.relinkAll_cases hs tag <;>
    rw [htag, heq]
  · obtain ⟨beam, hbeam⟩ := hm.folded hde
    obtain ⟨p, q, hkept⟩ := Group.note_at_destSlot (b := s.groups.get e) (hprints _) hn
    refine ⟨_, { n with paren := p, accParen := q }, by rw [hi]; rfl, ?_, rfl, rfl⟩
    rw [Arena.get_of_get? hbeam]
    exact hkept
  · obtain ⟨beam, hbeam⟩ := hm.folded hde
    obtain ⟨slot, n', hslot, hn', hpos⟩ := Group.note_at_srcSlot (hprints _) (htallies _ hde) hn
    refine ⟨slot, n', by rw [hi]; exact hslot, ?_, Note.samePosition_iff.mp hpos⟩
    rw [Arena.get_of_get? hbeam]
    exact hn'
  · refine ⟨i, n, hi, ?_, rfl, rfl⟩
    cases hg : s.groups.get? tag.group with
    | none =>
      -- a group that is not there has no notes
      rw [Arena.get, hg, show (none.getD default : Group).notes = [] from rfl] at hn
      cases hn
    | some g =>
      obtain ⟨v, b, hg'⟩ := hm.unfolded hg hd he
      rw [Arena.get_of_get? hg] at hn
      rw [Arena.get_of_get? hg']
      exact hn

end Merging

/-- What has become in `s` of a tag of `t`, when the groups that `folds` names have been folded,
each second one into the first. -/
structure Tag.Followed (folds : GroupKey → GroupKey → Prop) (t s : Score) (old new : Tag) : Prop where
  folded : ∀ d, folds d old.group → new.group = d
  unfolded : (∀ d, ¬folds d old.group) → new.group = old.group
  whole : old.note = none → new.note = none
  /-- A note is followed to a note of the same letter and octave. -/
  note : ∀ i, old.note = some i → ∃ j n n', new.note = some j ∧
    (t.groups.get old.group).notes[i]? = some n ∧ (s.groups.get new.group).notes[j]? = some n' ∧
      n'.letter = n.letter ∧ n'.octave = n.octave

namespace Tag.Followed

variable {folds folds' : GroupKey → GroupKey → Prop} {t s s' : Score} {old new : Tag}
  {h : Hand} {m : Merge} {x y : GroupKey} {ld le : List GroupKey}

theorem refl (hnone : ∀ d e, ¬folds d e) (ht : old.Points t.groups) : Followed folds t t old old := by
  obtain ⟨g, hg, hnote⟩ := ht
  refine ⟨fun d hd => absurd hd (hnone d _), fun _ => rfl, id, fun i hi => ?_⟩
  rw [Arena.get_of_get? hg]
  exact ⟨i, _, _, hi, List.getElem?_eq_getElem (hnote i hi), List.getElem?_eq_getElem (hnote i hi),
    rfl, rfl⟩

theorem congr (hf : Followed folds t s old new) (hiff : ∀ d e, folds d e ↔ folds' d e) :
    Followed folds' t s old new :=
  ⟨fun d hd => hf.folded d ((hiff d _).mpr hd), fun hnone => hf.unfolded fun d hd =>
    hnone d ((hiff d _).mp hd), hf.whole, hf.note⟩

/-- A tag names the group that it named, or one that its group was folded into. -/
theorem group_eq (hf : Followed folds t s old new) :
    new.group = old.group ∨ folds new.group old.group := by
  by_cases hfolds : ∃ d, folds d old.group
  · obtain ⟨d, hd⟩ := hfolds
    exact .inr (hf.folded d hd ▸ hd)
  · exact .inl (hf.unfolded fun d hd => hfolds ⟨d, hd⟩)

/-- **One merge.** A tag that was followed so far is followed through it, where what is folded
now has neither been folded nor taken in another before. -/
theorem merge (hf : Followed folds t s old new) (hm : Merged h m x y ld le s s')
    (hp : Paired s h m x y ld le) (hs : s.Tidy) (hprints : ∀ k, (s.groups.get k).PrintsAll)
    (htallies : ∀ p ∈ (column s.graceAt ld x).zip (column s.graceAt le y),
      (s.groups.get p.1).Tallies (s.groups.get p.2))
    (honce : ∀ d e, (d, e) ∈ (column s.graceAt ld x).zip (column s.graceAt le y) →
      ∀ d' e', folds d' e' → e ≠ d' ∧ e ≠ e')
    {new' : Tag} (hnew : new' = new.relinkAll s.groups
      ((runOf s.graceAt ld x).reverse.zip (runOf s.graceAt le y).reverse ++ [(x, y)])) :
    Followed (fun d e => folds d e ∨ (d, e) ∈ (column s.graceAt ld x).zip (column s.graceAt le y)) t s'
      old new' := by
  obtain ⟨-, hsnd, hcross⟩ := List.nodup_append.mp (hp.pairs_nodup hs)
  have hstill : ∀ d, (d, old.group) ∈ (column s.graceAt ld x).zip (column s.graceAt le y) →
      new.group = old.group := fun d hd =>
    hf.group_eq.resolve_right fun hfolds => (honce d _ hd _ _ hfolds).2 rfl
  suffices hgroups : (∀ d, folds d old.group ∨
      (d, old.group) ∈ (column s.graceAt ld x).zip (column s.graceAt le y) → new'.group = d) ∧
      ((∀ d, ¬(folds d old.group ∨
        (d, old.group) ∈ (column s.graceAt ld x).zip (column s.graceAt le y))) →
          new'.group = old.group) ∧ (old.note = none → new'.note = none) by
    refine ⟨hgroups.1, hgroups.2.1, hgroups.2.2, fun i hi => ?_⟩
    obtain ⟨j, n, n', hj, hn, hn', hletter, hoctave⟩ := hf.note i hi
    obtain ⟨j', n'', hj', hn'', hletter', hoctave'⟩ :=
      hm.note_followed hp hs hprints htallies hnew hj hn'
    exact ⟨j', n, n'', hj', hn, hn'', hletter'.trans hletter, hoctave'.trans hoctave⟩
  obtain ⟨e, hde, heq⟩ | ⟨d, hde, heq⟩ | ⟨hd, he, heq⟩ := hp.relinkAll_cases hs new <;> rw [hnew, heq]
  · refine ⟨fun d hd => ?_, fun hnone => hf.unfolded fun d hd => hnone d (.inl hd), fun hw => ?_⟩
    · rcases hd with hd | hd
      · exact hf.folded d hd
      · exact absurd (hstill d hd) (hcross _ (List.mem_map_of_mem hde) _ (List.mem_map_of_mem hd))
    · rw [hf.whole hw, Option.map_none]
  · have hsame : new.group = old.group := hf.group_eq.resolve_right fun hfolds =>
      (honce d _ hde _ _ hfolds).1 rfl
    refine ⟨fun d' hd' => ?_, fun hnone => ?_, fun hw => ?_⟩
    · rcases hd' with hd' | hd'
      · exact absurd hsame (honce d _ hde _ _ hd').2
      · rw [← hsame] at hd'
        exact congrArg Prod.fst (List.inj_on_of_nodup_map hsnd hde hd' rfl)
    · exact absurd (.inr (hsame ▸ hde)) (hnone d)
    · rw [hf.whole hw, Option.bind_none]
  · refine ⟨fun d' hd' => ?_, fun hnone => hf.unfolded fun d hd => hnone d (.inl hd), hf.whole⟩
    rcases hd' with hd' | hd'
    · exact hf.folded d' hd'
    · have hmem := List.mem_map_of_mem (f := Prod.snd) hd'
      exact absurd (hstill d' hd' ▸ hmem) he

end Tag.Followed

/-! ## All merges -/

namespace Combination

variable {c : Combination} {t s s' : Score} {d e : GroupKey}

/-- A merge that is made folds the group `e` into `d`: the two are what the hand has of its
voices, or grace notes that stand equally far before them. -/
def Folds (c : Combination) (t : Score) (d e : GroupKey) : Prop :=
  ∃ h m s s' dest src xs ys, c.Performs t h m s s' ∧
    h.voice? m.dest = some dest ∧ h.voice? m.src = some src ∧
    s.graceRun h.item h.staff m.dest dest = .ok xs ∧ s.graceRun h.item h.staff m.src src = .ok ys ∧
    (d, e) ∈ (dest, src) :: xs.reverse.zip ys.reverse

theorem Of.folds_iff (hc : c.Of t) : Merging.Folds t c.steps d e ↔ c.Folds t d e := by
  constructor
  · rintro ⟨before, h, m, after, s, hsteps, hs, hde⟩
    obtain ⟨s', hp⟩ := hc.performs_of_steps hsteps hs
    obtain ⟨dest, src, xs, ys, hdest, hsrc, hxs, hys, heq⟩ := hc.pairs_eq hp
    exact ⟨h, m, s, s', dest, src, xs, ys, hp, hdest, hsrc, hxs, hys, heq ▸ hde⟩
  · rintro ⟨h, m, s, s', dest, src, xs, ys, hp, hdest, hsrc, hxs, hys, hde⟩
    obtain ⟨dest', src', xs', ys', hdest', hsrc', hxs', hys', heq⟩ := hc.pairs_eq hp
    cases hdest.symm.trans hdest'
    cases hsrc.symm.trans hsrc'
    cases hxs.symm.trans hxs'
    cases hys.symm.trans hys'
    obtain ⟨before, after, hsteps, hs⟩ := hp.step
    exact ⟨before, h, m, after, s, hsteps, hs, heq ▸ hde⟩

theorem Of.tags_followed (hc : c.Of t) (ht : t.Chorded) : List.Forall₂ (fun old new =>
    new.1 = old.1 ∧ Tag.Followed (Merging.Folds t c.steps) t c.score old.2 new.2)
      t.tags c.score.tags := by
  refine hc.induction_steps (P := fun before s => List.Forall₂ (fun old new =>
    new.1 = old.1 ∧ Tag.Followed (Merging.Folds t before) t s old.2 new.2) t.tags s.tags)
    (fun before h m after s s' hsteps hs hmerge hfollowed => ?_) ?_
  · have hp : c.Performs t h m s s' := ⟨⟨before, after, hsteps, hs⟩, hmerge⟩
    obtain ⟨x, y, ld, le, hpaired, hmerged, -, hstands, -⟩ := hc.merged hp
    obtain ⟨-, -, -, htallies⟩ := hc.tallies ht hp
    have hprints := hc.printsAll ht.sound hp
    have hpairs : pairs s h m = (column s.graceAt ld x).zip (column s.graceAt le y) := by
      rw [pairs, Score.columnAt_eq hpaired.destVoice hpaired.destList,
        Score.columnAt_eq hpaired.srcVoice hpaired.srcList]
    rw [hmerged.tags, List.forall₂_map_right_iff]
    refine hfollowed.imp fun old new hf => ⟨hf.1, ?_⟩
    refine (hf.2.merge hmerged hpaired hstands.tidy hprints (hpairs ▸ htallies) (fun d e hde d' e' hfolds => ?_)
      rfl).congr fun d e => ?_
    · obtain ⟨hne, hne', -⟩ := hc.apart_of_folds hsteps hs (hpairs ▸ hde) hfolds
      exact ⟨hne, hne'⟩
    · rw [Merging.folds_snoc hs, hpairs]
  · refine List.forall₂_same.mpr fun tag htag => ⟨rfl, .refl (fun d e => not_folds_nil) ?_⟩
    exact ht.sound.stocked.tags tag htag

end Combination

/-- **Tags keep what they name.** Combining voices changes no name of a tag. A tag of a group names
afterwards that group or, if the group was folded into another, as what a merge takes from its
source voice or as a grace note, the one that it was folded into; a tag of a note names in that
group a note of the same letter and octave. No group is folded into two others, and none that
has taken in another is folded itself. -/
theorem Score.Chorded.tags_follow {t : Score} (ht : t.Chorded) :
    ∃ c, t.combineVoices = .ok c ∧ c.score.tags.map Prod.fst = t.tags.map Prod.fst ∧
      List.Forall₂ (fun old new => new.1 = old.1 ∧ Tag.Followed (c.Folds t) t c.score old.2 new.2)
        t.tags c.score.tags ∧
      (∀ d d' e, c.Folds t d e → c.Folds t d' e → d = d') ∧
      ∀ d d' e, c.Folds t d e → ¬c.Folds t d' d := by
  obtain ⟨c, hcombine, hc⟩ := ht.combined
  have hfollowed := (hc.tags_followed ht).imp fun old new h =>
    (⟨h.1, h.2.congr fun d e => hc.folds_iff⟩ :
      new.1 = old.1 ∧ Tag.Followed (c.Folds t) t c.score old.2 new.2)
  have hnames : List.Forall₂ Eq (c.score.tags.map Prod.fst) (t.tags.map Prod.fst) := by
    rw [List.forall₂_map_left_iff, List.forall₂_map_right_iff]
    exact hfollowed.flip.imp fun new old h => h.1
  obtain ⟨honce, hnever⟩ := hc.folds_once
  simp only [hc.folds_iff] at honce hnever
  exact ⟨c, hcombine, List.forall₂_eq_eq_eq ▸ hnames, hfollowed, honce, hnever⟩

/-- Three voices that move together, the second with a grace note and a tag. -/
def taggedStack : String :=
  "vcombine:\n voices: [1,2,3]\nmusic:\n- measure:\n  - voices:\n     1:\n     - time: 1\n" ++
  "       notes: [g5]\n     2:\n     - time: 16\n       grace: true\n       notes: [d4]\n" ++
  "     - time: 1\n       notes: [{pitch: c4, tag: low}]\n" ++
  "     3:\n     - time: 1\n       notes: [c5]\n"

/-- After both merges the tag names a C4 still. -/
theorem followed_taggedStack : ∃ t : Score, t.Chorded ∧ t.tags = [("low", ⟨⟨2⟩, some 0⟩)] ∧
    ∃ c, t.combineVoices = .ok c ∧ c.steps.length = 2 ∧ ∃ tag j n, c.score.tags = [("low", tag)] ∧
      Tag.Followed (c.Folds t) t c.score ⟨⟨2⟩, some 0⟩ tag ∧ tag.note = some j ∧
      (c.score.groups.get tag.group).notes[j]? = some n ∧ n.letter = .c ∧ n.octave = 4 := by
  obtain ⟨s, hs, hfault, hbefore, hnote, hsteps⟩ := Score.exists_of_spelled taggedStack
    (.append (.append (.append (.ofList _) (.ofList _)) (.ofList _)) (.ofList _))
    (P := fun s => s.buildChords.fault = none ∧ s.buildChords.now.tags = [("low", ⟨⟨2⟩, some 0⟩)] ∧
      (s.buildChords.now.groups.get ⟨2⟩).notes[0]?.map (fun n => (n.letter, n.octave)) = some (.c, 4) ∧
      (s.buildChords.now.combineVoices.toOption.any fun c => c.steps.length == 2) = true)
    (by decide +kernel)
  have ht : s.buildChords.now.Chorded := ⟨s, .of_text hs, hfault, rfl⟩
  obtain ⟨c, hc, -, hfollowed, -⟩ := Score.Chorded.tags_follow ht
  simp only [hc, Except.toOption, Option.any_some, beq_iff_eq] at hsteps
  rw [hbefore] at hfollowed
  obtain ⟨⟨name, tag⟩, rest, ⟨rfl, hf⟩, hrest, htags⟩ := List.forall₂_cons_left_iff.mp hfollowed
  cases List.forall₂_nil_left_iff.mp hrest
  obtain ⟨j, n, n', hj, hn, hn', hletter, hoctave⟩ := hf.note 0 rfl
  rw [hn, Option.map_some, Option.some.injEq, Prod.mk.injEq] at hnote
  exact ⟨_, ht, hbefore, c, hc, hsteps, tag, j, n', htags, hf, hj, hn', hletter.trans hnote.1,
    hoctave.trans hnote.2⟩

end Divisi
