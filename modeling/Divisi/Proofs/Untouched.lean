/-
What combining voices leaves alone.

The merges that are made are the whole of it. A group that is none of theirs, and stands in no
grace run before one of theirs, is what it was, and so is the list of a voice that no merge is of;
of the frame of the score nothing changes (`Combination.Of.spares`). What a merge takes its notes
from is left as a bare space (`Combination.Of.emptied`).
-/
import Divisi.Proofs.Crossings
import Divisi.Proofs.Tagged

namespace Divisi

/-- A space with no mark on it. -/
structure Group.Bare (g : Group) : Prop where
  space : g.content = .space
  notes : g.notes = []
  beam : g.beam = .none ∧ g.breakBeam = false ∧ g.beamTo = .none ∧ g.beamSlope = none
  tuplet : g.tuplet = none
  roll : g.roll = .none ∧ g.rollDir = none
  stem : g.stemTo = .none ∧ g.stemLen = none ∧ g.stemDir = none

theorem Group.bare_toSpace (g : Group) : g.toSpace.Bare :=
  ⟨rfl, rfl, ⟨rfl, rfl, rfl, rfl⟩, rfl, ⟨rfl, rfl⟩, rfl, rfl, rfl⟩

namespace Merging

/-- The group is one of the two that a merge of the hand takes, or a grace note directly before
one of them. -/
def Involves (t : Score) (h : Hand) (m : Merge) (k : GroupKey) : Prop :=
  ∃ v, (v = m.dest ∨ v = m.src) ∧ ∃ x run, h.voice? v = some x ∧
    t.graceRun h.item h.staff v x = .ok run ∧ (k = x ∨ k ∈ run)

variable {t s s' : Score} {hands : List Hand} {h : Hand} {m : Merge} {k x y : GroupKey}
  {ld le : List GroupKey}

theorem involves_iff (hs : t.Stands hands) (hh : h ∈ hands) :
    Involves t h m k ↔ k ∈ t.columnAt h m.dest ∨ k ∈ t.columnAt h m.src := by
  have hcolumn : ∀ v, k ∈ t.columnAt h v ↔ ∃ x run, h.voice? v = some x ∧
      t.graceRun h.item h.staff v x = .ok run ∧ (k = x ∨ k ∈ run) := by
    intro v
    cases hv : h.voice? v with
    | none => simp [Score.columnAt, hv]
    | some x =>
      obtain ⟨run, hrun, hcolumn⟩ := hs.graceRun hh hv
      rw [hcolumn, List.mem_cons, List.mem_reverse]
      refine ⟨fun hk => ⟨x, run, rfl, hrun, hk⟩, ?_⟩
      rintro ⟨x', run', hx', hrun', hk⟩
      cases hx'
      cases hrun.symm.trans hrun'
      exact hk
  simp only [Involves, ← hcolumn, or_and_right, exists_or, exists_eq_left]

/-- Some merge involves the group. -/
def Involved (t : Score) (steps : List (Hand × Merge)) (k : GroupKey) : Prop :=
  ∃ step ∈ steps, Involves t step.1 step.2 k

theorem involved_snoc {steps : List (Hand × Merge)} :
    Involved t (steps ++ [(h, m)]) k ↔ Involved t steps k ∨ Involves t h m k := by
  simp [Involved, or_and_right, exists_or]

theorem Paired.spares_tag (hp : Paired s h m x y ld le) (hs : s.Tidy) {tag : Tag}
    (hd : tag.group ∉ column s.graceAt ld x) (he : tag.group ∉ column s.graceAt le y) :
    tag.relinkAll s.groups
      ((runOf s.graceAt ld x).reverse.zip (runOf s.graceAt le y).reverse ++ [(x, y)]) = tag := by
  obtain ⟨e, hde, -⟩ | ⟨d, hde, -⟩ | ⟨-, -, heq⟩ := hp.relinkAll_cases hs tag
  · exact absurd (List.of_mem_zip hde).1 hd
  · exact absurd (List.of_mem_zip hde).2 he
  · exact heq

end Merging

namespace Combination

open Merging

variable {c : Combination} {t s s' : Score} {h : Hand} {m : Merge} {k : GroupKey}
  {before after : List (Hand × Merge)}

/-- What the destination of a merge brings along stood before one of the groups that the hand has
merged. -/
theorem Of.involved_of_dest (hc : c.Of t) (hsteps : c.steps = before ++ (h, m) :: after)
    (hs : before.foldlM (fun s x => Merging.merge x.1 s x.2) t = .ok s)
    (hk : k ∈ s.columnAt h m.dest) : k ∈ t.columnAt h m.dest ∨ Involved t before k := by
  obtain ⟨s', hp⟩ := hc.performs_of_steps hsteps hs
  obtain ⟨early, late, plan, rest, hzip, rfl⟩ := split_steps hsteps
  have hn : (c.layout.hands.zip c.planned.plans)[early.length]? = some (h, plan ++ m :: rest) := by
    rw [hzip, List.getElem?_append_right (Nat.le_refl _), Nat.sub_self]
    rfl
  obtain ⟨hh, hplans⟩ := List.getElem?_zip_eq_some.mp hn
  obtain ⟨-, ⟨rfl, -⟩ | ⟨rfl, -⟩⟩ := (hc.shape _ _ _ hh hplans).split
  · -- the first merge of its hand finds the hand as it was
    obtain ⟨s₁, hs₁, -, hleaves⟩ := Merging.hands_total hc.stands hc.apart hc.shape hzip
    rw [List.map_nil, List.append_nil, ← Merging.foldlM_plans] at hs
    cases hs.symm.trans hs₁
    exact .inl ((hleaves _ List.mem_cons_self m.dest).1 ▸ hk)
  · refine (hc.mem_dest hp hk).imp_right fun ⟨_, hk⟩ => ⟨(h, ⟨1, 2⟩), by simp, ?_⟩
    rw [involves_iff hc.stands (List.mem_of_getElem? hh)]
    exact .inr (List.mem_of_mem_drop hk)

theorem Of.not_mem_columns (hc : c.Of t) (hsteps : c.steps = before ++ (h, m) :: after)
    (hs : before.foldlM (fun s x => Merging.merge x.1 s x.2) t = .ok s)
    (hk : ¬Involved t (before ++ [(h, m)]) k) :
    k ∉ s.columnAt h m.dest ∧ k ∉ s.columnAt h m.src := by
  obtain ⟨s', hp⟩ := hc.performs_of_steps hsteps hs
  rw [involved_snoc, involves_iff hc.stands (hc.judged hp).1, not_or, not_or] at hk
  obtain ⟨hbefore, hdest, hsrc⟩ := hk
  refine ⟨fun hmem => ?_, (hc.untouched hp).1 ▸ hsrc⟩
  exact (hc.involved_of_dest hsteps hs hmem).elim hdest hbefore

/-- Some of the merges have been made, and all else is as it was. -/
structure Spares (t : Score) (steps : List (Hand × Merge)) (s : Score) : Prop where
  groups : ∀ k, ¬Involved t steps k → s.groups.get? k = t.groups.get? k
  lists : ∀ layer, (∀ x ∈ steps, layer ≠ x.1.layer x.2.dest ∧ layer ≠ x.1.layer x.2.src) →
    s.list? layer = t.list? layer
  tags : List.Forall₂ (fun old new => new.1 = old.1 ∧
    (¬Involved t steps old.2.group → new.2 = old.2)) t.tags s.tags
  /-- What is no group, no tag and no voice list. -/
  frame : s.frame = t.frame

/-- **Nothing but the merges is done.** -/
theorem Of.spares (hc : c.Of t) : Spares t c.steps c.score := by
  refine hc.induction_steps (P := fun before s => Spares t before s)
    (fun before h m after s s' hsteps hs hmerge hspares => ?_)
    ⟨fun _ _ => rfl, fun _ _ => rfl, List.forall₂_same.mpr fun _ _ => ⟨rfl, fun _ => rfl⟩, rfl⟩
  obtain ⟨x, y, ld, le, hp, hm, -, hstands, -⟩ := hc.merged ⟨⟨before, after, hsteps, hs⟩, hmerge⟩
  have hcolumns : ∀ k, ¬Involved t (before ++ [(h, m)]) k →
      ¬Involved t before k ∧ k ∉ column s.graceAt ld x ∧ k ∉ column s.graceAt le y := fun k hk => by
    have hout := hc.not_mem_columns hsteps hs hk
    rw [Score.columnAt_eq hp.destVoice hp.destList,
      Score.columnAt_eq hp.srcVoice hp.srcList] at hout
    exact ⟨fun hno => hk (involved_snoc.mpr (.inl hno)), hout⟩
  constructor
  case groups =>
    intro k hk
    obtain ⟨hbefore, hd, he⟩ := hcolumns k hk
    exact (hm.others k hd he).trans (hspares.groups k hbefore)
  case lists =>
    intro layer hlayer
    obtain ⟨hd, he⟩ := hlayer (h, m) (by simp)
    exact (hm.elsewhere layer hd he).trans
      (hspares.lists layer fun x hx => hlayer x (List.mem_append_left _ hx))
  case tags =>
    rw [hm.tags, List.forall₂_map_right_iff]
    refine hspares.tags.imp fun old new hsame => ⟨hsame.1, fun hk => ?_⟩
    obtain ⟨hbefore, hd, he⟩ := hcolumns old.2.group hk
    rw [hsame.2 hbefore]
    exact Paired.spares_tag hp hstands.tidy hd he
  case frame => exact hm.frame.trans hspares.frame

/-! ## Counting -/

theorem mergeEvents_eq (c : Combination) : c.mergeEvents = c.steps.map fun x =>
    .mergeMade x.1.measure x.1.chord x.1.staff x.2.dest x.2.src := by
  simp only [mergeEvents, steps, List.map_flatMap, List.map_map, Function.comp_def]

theorem Of.merges_eq (hc : c.Of t) : c.merges = (c.planned.plans.map List.length).sum := by
  have hplans : (c.layout.hands.zip c.planned.plans).map Prod.snd = c.planned.plans := by
    rw [map_snd_zip, ← hc.length, List.take_length]
  rw [hc.counted, steps, List.length_flatMap]
  conv_rhs => rw [← hplans, List.map_map]
  simp only [List.length_map, Function.comp_def]

end Combination

/-- **Combining voices touches nothing but what it merges.** The merges that are reported, as many
as the plans have, are made one after the other. A group that none of them involves is what it
was; so is the list of a voice that none of them is of, and a tag of such a group; the header, the
changes of settings, the syllables, the verses and the chords are what they were. The source of
each merge is left as a space in its place, without a note or a mark. -/
theorem Score.Chorded.touches_merges {t : Score} (ht : t.Chorded) :
    ∃ c, t.combineVoices = .ok c ∧
      c.steps.foldlM (fun s x => Merging.merge x.1 s x.2) t = .ok c.score ∧
      c.mergeEvents = c.steps.map (fun x =>
        .mergeMade x.1.measure x.1.chord x.1.staff x.2.dest x.2.src) ∧
      c.merges = c.steps.length ∧ c.merges = (c.planned.plans.map List.length).sum ∧
      Combination.Spares t c.steps c.score ∧
      c.score.header = t.header ∧ c.score.syllables = t.syllables ∧
      c.score.items.map Item.outline = t.items.map Item.outline ∧
      ∀ h m k, (h, m) ∈ c.steps → h.voice? m.src = some k →
        c.score.groups.get? k = some (t.groups.get k).toSpace ∧ (t.groups.get k).toSpace.Bare := by
  obtain ⟨c, hcombine, hc⟩ := ht.combined
  have hspares := hc.spares
  have hheader := congrArg Score.header hspares.frame
  refine ⟨c, hcombine, hc.performed, c.mergeEvents_eq, hc.counted, hc.merges_eq,
    hspares, hheader,
    Score.syllables_of_frame hspares.frame, Score.outline_of_frame hspares.frame,
    fun h m k hmem hk => ⟨?_, Group.bare_toSpace _⟩⟩
  exact hc.emptied (hc.stands.main h (hc.offers hmem).1 m.src k hk).1 ⟨(h, m), hmem, hk⟩

/-- Two voices that go together on the first beat, and cross on the second. -/
def crossingLater : String :=
  "vcombine:\n voices: [1,2]\nmusic:\n- measure:\n  - voices:\n     1:\n     - time: 2\n" ++
  "       notes: [e5]\n     - time: 2\n       notes: [c4]\n     2:\n     - time: 2\n" ++
  "       notes: [g4]\n     - time: 2\n       notes: [a4]\n"

/-- One merge is made, and the groups of the second beat are what they were. -/
theorem touches_merges_of_crossingLater : ∃ (t : Score) (c : Combination) (h : Hand), t.Chorded ∧
    t.combineVoices = .ok c ∧ c.steps = [(h, ⟨1, 2⟩)] ∧ c.merges = 1 ∧
    c.score.groups.get? ⟨1⟩ = t.groups.get? ⟨1⟩ ∧ c.score.groups.get? ⟨3⟩ = t.groups.get? ⟨3⟩ ∧
    c.score.groups.get? ⟨2⟩ = some (t.groups.get ⟨2⟩).toSpace ∧
    Combination.Spares t c.steps c.score := by
  obtain ⟨s, hs, hfault, hmade⟩ := Score.exists_of_spelled crossingLater
    (.append (.append (.ofList _) (.ofList _)) (.ofList _))
    (P := fun s => s.buildChords.fault = none ∧
      (s.buildChords.now.combineVoices.toOption.any fun c => c.steps.length == 1 &&
        c.steps.all fun x => x.2 == ⟨1, 2⟩ && x.1.voice? 1 == some ⟨0⟩ &&
          x.1.voice? 2 == some ⟨2⟩ &&
          (s.buildChords.now.graceRun x.1.item x.1.staff 1 ⟨0⟩).toOption == some [] &&
          (s.buildChords.now.graceRun x.1.item x.1.staff 2 ⟨2⟩).toOption == some []) = true)
    (by decide +kernel)
  have ht : s.buildChords.now.Chorded := ⟨s, .of_text hs, hfault, rfl⟩
  obtain ⟨c, hc, -, -, hmerges, -, hspares, -, -, -, hsources⟩ := Score.Chorded.touches_merges ht
  simp only [hc, Except.toOption, Option.any_some, Bool.and_eq_true, beq_iff_eq,
    List.all_eq_true] at hmade
  obtain ⟨hone, hall⟩ := hmade
  obtain ⟨⟨h, m⟩, hstep⟩ := List.length_eq_one_iff.mp hone
  obtain ⟨⟨⟨⟨rfl, hdest⟩, hsrc⟩, hrun⟩, hrun'⟩ := hall (h, m) (by simp [hstep])
  -- only the groups 0 and 2 are involved
  have hinvolved : ∀ k, Merging.Involved s.buildChords.now c.steps k → k = ⟨0⟩ ∨ k = ⟨2⟩ := by
    rintro k ⟨x, hx, v, hv, y, run, hy, hgraces, hk⟩
    rw [hstep, List.mem_singleton] at hx
    subst hx
    rcases hv with rfl | rfl
    · cases hdest.symm.trans hy
      rw [hgraces] at hrun
      cases hrun
      exact .inl (hk.resolve_right List.not_mem_nil)
    · cases hsrc.symm.trans hy
      rw [hgraces] at hrun'
      cases hrun'
      exact .inr (hk.resolve_right List.not_mem_nil)
  refine ⟨_, c, h, ht, hc, hstep, hmerges.trans hone, hspares.groups _ fun hk => ?_,
    hspares.groups _ fun hk => ?_, (hsources h ⟨1, 2⟩ ⟨2⟩ (by simp [hstep]) hsrc).1,
    hspares⟩
  · rcases hinvolved _ hk with he | he <;> cases he
  · rcases hinvolved _ hk with he | he <;> cases he

end Divisi
