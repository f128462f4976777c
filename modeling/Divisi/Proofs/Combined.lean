/-
Combining a score with its chords built.

Such a score can be laid out, judged, planned, and the plans carried out
(`Score.Chorded.combined`): every group of a hand stands in the list of its voice, and no
merge changes that.
-/
import Divisi.Proofs.Chosen

namespace Divisi

/-! ## Verdicts -/

namespace Affinity

theorem get_set (t : Affinity) (v w v' w' : Nat) (ok : Bool) (h : (t.set v w ok).get v' w' = true) :
    (v + w = v' + w' ∧ ok = true) ∨ t.get v' w' = true := by
  unfold set at h
  unfold get at h ⊢
  split at h
  case h_4 => cases h
  all_goals split at h <;> simp_all

/-- A pair goes together in a table only by a verdict that says so. -/
theorem exists_of_get {verdicts : List Verdict} {v w : Nat}
    (h : (ofVerdicts verdicts).get v w = true) :
    ∃ x ∈ verdicts, x.compatible = true ∧ x.merge.dest + x.merge.src = v + w := by
  suffices hfold : ∀ t : Affinity, (verdicts.foldl (fun t v =>
      t.set v.merge.dest v.merge.src v.compatible) t).get v w = true →
        (∃ x ∈ verdicts, x.compatible = true ∧ x.merge.dest + x.merge.src = v + w) ∨
          t.get v w = true from
    (hfold {} h).resolve_right (by simp)
  clear h
  induction verdicts with
  | nil => exact fun t ht => .inr ht
  | cons x rest ih =>
    intro t ht
    rcases ih _ ht with ⟨y, hy, hyes⟩ | ht
    · exact .inl ⟨y, by simp [hy], hyes⟩
    · rcases get_set _ _ _ _ _ _ ht with ⟨hsum, hok⟩ | ht
      · exact .inl ⟨x, by simp, hok, hsum⟩
      · exact .inr ht

end Affinity

theorem Score.Stands.graceRun {s : Score} {hands : List Hand} {h : Hand} {v : Nat} {k : GroupKey}
    (hs : s.Stands hands) (hh : h ∈ hands) (hk : h.voice? v = some k) :
    ∃ run, s.graceRun h.item h.staff v k = .ok run ∧ s.columnAt h v = k :: run.reverse := by
  obtain ⟨-, list, hlist, hkl⟩ := hs.main h hh v k hk
  exact ⟨_, graceRun_eq_ok hlist hkl, columnAt_eq hk hlist⟩

namespace Hand

variable {s : Score} {l : Layout} {hands : List Hand} {h : Hand} {v w : Nat}

/-- The columns of two voices go together, pair by pair. -/
def Judged (s : Score) (l : Layout) (h : Hand) (v w : Nat) : Prop :=
  ∃ q, ∀ p ∈ (s.columnAt h v).zip (s.columnAt h w), l.compatible s q p.1 p.2 = true

/-- A candidate can be judged, and is found possible only where the columns go together. -/
theorem judge?_ok (hs : s.Stands hands) (hh : h ∈ hands) (q : Qualifier) (m : Merge) :
    ∃ x, h.judge? s l q m = .ok x ∧ ∀ verdict, x = some verdict → verdict.merge = m ∧
      (∃ k, h.voice? m.dest = some k) ∧ (∃ k, h.voice? m.src = some k) ∧
      (verdict.compatible = true → h.Judged s l m.dest m.src) := by
  unfold judge?
  split
  next x y hx hy =>
    obtain ⟨xs, hxs, hcolumn⟩ := hs.graceRun hh hx
    obtain ⟨ys, hys, hcolumn'⟩ := hs.graceRun hh hy
    by_cases hc : l.compatible s q x y = true
    · rw [if_pos hc, hxs, hys]
      refine ⟨_, rfl, fun verdict hv => ?_⟩
      cases hv
      refine ⟨rfl, ⟨x, hx⟩, ⟨y, hy⟩, fun hgraces => ⟨q, ?_⟩⟩
      rw [hcolumn, hcolumn', List.zip_cons_cons]
      refine List.forall_mem_cons.mpr ⟨hc, fun p hp => ?_⟩
      exact List.all_eq_true.mp hgraces p hp
    · rw [if_neg hc]
      refine ⟨_, rfl, fun verdict hv => ?_⟩
      cases hv
      exact ⟨rfl, ⟨x, hx⟩, ⟨y, hy⟩, nofun⟩
  next => exact ⟨none, rfl, nofun⟩

theorem judge_ok (hs : s.Stands hands) (hh : h ∈ hands) : ∃ verdicts, h.judge s l = .ok verdicts ∧
    ∀ v w, v < w → 1 ≤ v → w ≤ 3 → (Affinity.ofVerdicts verdicts).Allows v w →
      h.Judged s l v w := by
  unfold judge
  cases h.request with
  | none =>
    exact ⟨[], rfl, fun v w _ _ _ hget => by
      simp [Affinity.ofVerdicts, Affinity.Allows] at hget⟩
  | some r =>
    obtain ⟨xs, hxs⟩ : ∃ xs, r.pairs.mapM (h.judge? s l r.qualifier) = .ok xs :=
      mapM_total fun m _ => (judge?_ok hs hh r.qualifier m).imp fun _ h => h.1
    refine ⟨xs.filterMap id, by simp only [hxs, bind, Except.bind]; rfl, fun v w hlt hv hw hget => ?_⟩
    obtain ⟨verdict, hverdict, hyes, hsum⟩ := Affinity.exists_of_get hget
    obtain ⟨x, hx, hsome⟩ := List.mem_filterMap.mp hverdict
    obtain ⟨m, hm, hjudge⟩ := mem_of_mapM hxs hx
    obtain ⟨x', hx', hspec⟩ := judge?_ok (l := l) hs hh r.qualifier m
    cases hjudge.symm.trans hx'
    obtain ⟨rfl, ⟨k, hk⟩, ⟨k', hk'⟩, hjudged⟩ := hspec verdict hsome
    have hd := le_of_voice? hk
    have hs := le_of_voice? hk'
    have hms := r.pairs_ascending.2 _ hm
    -- the numbers of two voices add up to a sum of their own
    have hdest : verdict.merge.dest = v := by omega
    have hsrc : verdict.merge.src = w := by omega
    rw [← hdest, ← hsrc]
    exact hjudged hyes

end Hand

/-! ## Combining -/

namespace Layout

variable {fits : Group → Prop} {s : Score} {l : Layout}

theorem LaidOut.stands (hl : l.LaidOut s) (hs : s.Sound fits) (hc : s.Charted) :
    s.Stands l.hands := by
  refine ⟨hs.tidy, fun h hh v k hk => ?_⟩
  obtain ⟨p, hp, c, g, list, hseated, hbegins, hstaff, hvoice⟩ := hl.begins hs hc hh hk
  refine ⟨by rw [Score.graceAt_of_get? hbegins.get, hbegins.grace], list, ?_, hbegins.mem⟩
  rw [Hand.layer, hseated.item, ← hstaff, ← hvoice]
  exact hbegins.layer

theorem LaidOut.pairwise_apart (hl : l.LaidOut s) (hs : s.Sound fits) (hc : s.Charted) :
    l.hands.Pairwise Hand.Apart := by
  rw [List.pairwise_iff_getElem]
  intro i j hi hj hlt v v' k hk hk'
  have heq := (hl.hand_unique hs hc (List.getElem?_eq_getElem hi) (List.getElem?_eq_getElem hj)
    hk hk').1
  omega

theorem judge_ok {t : Score} (hs : t.Stands l.hands) : ∃ verdicts, l.judge t = .ok verdicts ∧
    verdicts.length = l.hands.length ∧
      ∀ (n : Nat) h, l.hands[n]? = some h → ∀ v w, v < w → 1 ≤ v → w ≤ 3 →
        ((verdicts.map Affinity.ofVerdicts)[n]?.getD {}).Allows v w → h.Judged t l v w := by
  obtain ⟨verdicts, hverdicts⟩ : ∃ verdicts, l.judge t = .ok verdicts :=
    mapM_total fun h hh => (Hand.judge_ok hs hh).imp fun _ h => h.1
  have hrel := mapM_eq_ok hverdicts
  refine ⟨verdicts, hverdicts, hrel.length_eq.symm, fun n h hh v w hlt hv hw hallows => ?_⟩
  obtain ⟨vs, hvs, hjudge⟩ := exists_of_forall₂ hrel hh
  obtain ⟨vs', hvs', hjudged⟩ := Hand.judge_ok (l := l) hs (List.mem_of_getElem? hh)
  cases hjudge.symm.trans hvs'
  rw [List.getElem?_map, hvs] at hallows
  exact hjudged v w hlt hv hw hallows

end Layout

/-- What a combination of `t` is. -/
structure Combination.Of (c : Combination) (t : Score) : Prop where
  laidOut : c.layout.LaidOut t
  stands : t.Stands c.layout.hands
  apart : c.layout.hands.Pairwise Hand.Apart
  planned : ∃ tables, c.planned = c.layout.plan t tables
  length : c.planned.plans.length = c.layout.hands.length
  shape : ∀ (n : Nat) h plan, c.layout.hands[n]? = some h → c.planned.plans[n]? = some plan →
    plan.Shape (h.Judged t c.layout) h
  performed : c.steps.foldlM (fun s x => Merging.merge x.1 s x.2) t = .ok c.score
  counted : c.merges = c.steps.length

namespace Merging

variable {t : Score} {l : Layout} {plans : List Plan} {goes : Hand → Nat → Nat → Prop}
  {xs rest : List (Hand × Plan)}

/-- Plans of the right shape can be carried out up to any hand, which is then as it was. -/
theorem hands_total (hstands : t.Stands l.hands) (happart : l.hands.Pairwise Hand.Apart)
    (hshape : ∀ (n : Nat) h plan, l.hands[n]? = some h → plans[n]? = some plan →
      plan.Shape (goes h) h) (hzip : l.hands.zip plans = xs ++ rest) :
    ∃ s, xs.foldlM (fun s x => x.2.foldlM (merge x.1) s) t = .ok s ∧ s.Stands l.hands ∧
      ∀ x ∈ rest, t.Leaves s x.1 := by
  refine plans_total hstands (fun x hx => ?_) (fun x hx => ?_) ?_ <;> rw [← hzip] at *
  · exact (List.of_mem_zip hx).1
  · obtain ⟨n, hn⟩ := List.getElem?_of_mem hx
    obtain ⟨hh, hplan⟩ := List.getElem?_zip_eq_some.mp hn
    exact (hshape n _ _ hh hplan).offers
  · refine List.pairwise_map.mp ?_
    rw [map_fst_zip]
    exact happart.sublist (List.take_sublist _ _)

end Merging

/-- **Voices can be combined** in a sound score where each measure has its chords. -/
theorem Score.Charted.combined {fits : Group → Prop} {t : Score} (ht : t.Charted)
    (hs : t.Sound fits) : ∃ c, t.combineVoices = .ok c ∧ c.Of t := by
  obtain ⟨l, hof, hl⟩ := Layout.exists_of hs ht
  have hstands := hl.stands hs ht
  have hapart := hl.pairwise_apart hs ht
  obtain ⟨verdicts, hjudge, -, hjudged⟩ := Layout.judge_ok hstands
  obtain ⟨hlength, hshape⟩ := l.plan_spec t (verdicts.map Affinity.ofVerdicts)
  have hshape : ∀ (n : Nat) h plan, l.hands[n]? = some h →
      (l.plan t (verdicts.map Affinity.ofVerdicts)).plans[n]? = some plan →
        Plan.Shape (h.Judged t l) h plan := fun n h plan hh hplan =>
    (hshape n h plan hh hplan).imp fun v w => hjudged n h hh v w
  generalize hplanned : l.plan t (verdicts.map Affinity.ofVerdicts) = planned at hlength hshape
  have hzip : l.hands.zip planned.plans = l.hands.zip planned.plans ++ [] := (List.append_nil _).symm
  obtain ⟨s, hperform, -⟩ := Merging.hands_total hstands hapart hshape hzip
  refine ⟨⟨l, verdicts, planned, s, ((l.hands.zip planned.plans).map fun x => x.2.length).sum⟩, ?_, hl,
    hstands, hapart, ⟨_, hplanned.symm⟩, hlength, hshape, ?_, ?_⟩
  · simp only [combineVoices, hof, hjudge, hplanned, Merging.perform_eq, hperform, Except.map, bind,
      Except.bind]
    rfl
  · rw [Combination.steps, ← Merging.foldlM_plans]
    exact hperform
  · simp [Combination.steps, List.length_flatMap]

theorem Score.Chorded.combined {t : Score} (ht : t.Chorded) :
    ∃ c, t.combineVoices = .ok c ∧ c.Of t :=
  ht.charted.combined ht.sound

/-! ## The merges of a combination -/

theorem Group.Sound.printsAll {g : Group} (h : g.Sound) : g.PrintsAll := fun hk =>
  Classical.not_not.mp fun hne => hk (h.printed.mp hne)

namespace Combination

variable {c : Combination} {t s s' : Score} {h : Hand} {m : Merge}

/-- A merge that is made finds its hand as it was, but for the merges of the hand itself. -/
theorem Of.performs (hc : c.Of t) (hp : c.Performs t h m s s') : ∃ plan rest s₀,
      Plan.Shape (h.Judged t c.layout) h (plan ++ m :: rest) ∧ h ∈ c.layout.hands ∧
        s₀.Stands c.layout.hands ∧ t.Leaves s₀ h ∧ plan.foldlM (Merging.merge h) s₀ = .ok s := by
  obtain ⟨early, late, plan, rest, s₀, hzip, hs₀, hplan⟩ := hp.of_plan
  obtain ⟨s₁, hs₁, hstands, hleaves⟩ := Merging.hands_total hc.stands hc.apart hc.shape hzip
  cases hs₀.symm.trans hs₁
  have hn : (c.layout.hands.zip c.planned.plans)[early.length]? = some (h, plan ++ m :: rest) := by
    rw [hzip, List.getElem?_append_right (Nat.le_refl _), Nat.sub_self]
    rfl
  obtain ⟨hh, hplans⟩ := List.getElem?_zip_eq_some.mp hn
  exact ⟨plan, rest, s₀, hc.shape _ h _ hh hplans, List.mem_of_getElem? hh, hstands,
    hleaves (h, plan ++ m :: rest) (by simp), hplan⟩

/-- A merge that is made is of two voices judged to go together, and finds all hands standing. -/
theorem Of.judged (hc : c.Of t) (hp : c.Performs t h m s s') : h ∈ c.layout.hands ∧
    s.Stands c.layout.hands ∧ h.Offers m ∧ h.Judged t c.layout m.dest m.src := by
  obtain ⟨plan, rest, s₀, hshape, hh, hstands, -, hplan⟩ := hc.performs hp
  have hoffers := hshape.offers
  obtain ⟨s₁, hs₁, hstands', -⟩ := Merging.plan_total (t := t) hstands hh fun m' hm' =>
    hoffers m' (List.mem_append_left _ hm')
  cases hplan.symm.trans hs₁
  exact ⟨hh, hstands', hoffers m (by simp), (hshape.goes_of_mem m (by simp)).2⟩

/-- A merge that is made, told group by group. -/
theorem Of.merged (hc : c.Of t) (hp : c.Performs t h m s s') : ∃ x y ld le,
    Merging.Paired s h m x y ld le ∧ Merging.Merged h m x y ld le s s' ∧ h ∈ c.layout.hands ∧
      s.Stands c.layout.hands ∧ h.Judged t c.layout m.dest m.src := by
  obtain ⟨hh, hstands, ⟨hne, ⟨x, hx⟩, y, hy⟩, hjudged⟩ := hc.judged hp
  obtain ⟨ld, le, hpaired⟩ := hstands.paired hh hne hx hy
  obtain ⟨s₁, hmerge, hmerged⟩ := Merging.merge_merged hstands.tidy hpaired
  cases hmerge.symm.trans hp.made
  exact ⟨x, y, ld, le, hpaired, hmerged, hh, hstands, hjudged⟩

/-- What each merge keeps, told with the merges made before it, holds wherever some of them have
been made. -/
theorem induction_before {P : List (Hand × Merge) → Score → Prop}
    (step : ∀ before h m after s s', c.steps = before ++ (h, m) :: after →
      before.foldlM (fun s x => Merging.merge x.1 s x.2) t = .ok s → Merging.merge h s m = .ok s' →
        P before s → P (before ++ [(h, m)]) s') (h0 : P [] t) {before after : List (Hand × Merge)}
    (hsteps : c.steps = before ++ after)
    (hs : before.foldlM (fun s x => Merging.merge x.1 s x.2) t = .ok s) : P before s := by
  induction before using List.reverseRecOn generalizing s after with
  | nil =>
    simp only [List.foldlM_nil, pure_eq_ok] at hs
    exact hs ▸ h0
  | append_singleton before x ih =>
    rw [List.append_assoc, List.singleton_append] at hsteps
    simp only [List.foldlM_append, bind_eq_ok, List.foldlM_cons, List.foldlM_nil, pure_eq_ok] at hs
    obtain ⟨s₀, hs₀, s₁, hmerge, rfl⟩ := hs
    exact step before x.1 x.2 after s₀ _ hsteps hs₀ hmerge (ih hsteps hs₀)

theorem Of.induction_steps {P : List (Hand × Merge) → Score → Prop} (hc : c.Of t)
    (step : ∀ before h m after s s', c.steps = before ++ (h, m) :: after →
      before.foldlM (fun s x => Merging.merge x.1 s x.2) t = .ok s → Merging.merge h s m = .ok s' →
        P before s → P (before ++ [(h, m)]) s') (h0 : P [] t) : P c.steps c.score :=
  c.induction_before step h0 (List.append_nil _).symm hc.performed

/-- What each merge keeps, the combination keeps. -/
theorem Of.induction {P : Score → Prop} (hc : c.Of t)
    (step : ∀ h m s s', c.Performs t h m s s' → P s → P s') (h0 : P t) : P c.score :=
  hc.induction_steps (P := fun _ => P) (fun before h m after s s' hsteps hs hmerge =>
    step h m s s' ⟨⟨before, after, hsteps, hs⟩, hmerge⟩) h0

theorem Performs.induction {P : Score → Prop} (hp : c.Performs t h m s s')
    (step : ∀ h m s s', c.Performs t h m s s' → P s → P s') (h0 : P t) : P s := by
  obtain ⟨⟨before, after, hsteps, hs⟩, -⟩ := hp
  exact c.induction_before (P := fun _ => P) (fun before h m after s s' hsteps hs hmerge =>
    step h m s s' ⟨⟨before, after, hsteps, hs⟩, hmerge⟩) h0 hsteps hs

/-- Wherever a merge is made, groups print all the notes that they have. -/
theorem Of.printsAll (hc : c.Of t) (ht : t.Sound Group.Written) (hp : c.Performs t h m s s')
    (k : GroupKey) : (s.groups.get k).PrintsAll := by
  suffices hlive : ∀ k g, s.groups.get? k = some g → g.PrintsAll by
    cases hg : s.groups.get? k with
    | none => exact fun _ => by rw [Arena.get, hg]; rfl
    | some g => exact Arena.get_of_get? hg ▸ hlive k g hg
  refine hp.induction (P := fun s => ∀ k g, s.groups.get? k = some g → g.PrintsAll)
    (fun h m s s' hp hs k g' hg' => ?_) fun k g hg => (ht.stocked.fits k g hg).toSound.printsAll
  obtain ⟨x, y, ld, le, hpaired, hmerged, -, hstands, -⟩ := hc.merged hp
  cases hg : s.groups.get? k with
  | none =>
    rw [hmerged.dead hpaired hstands.tidy hg] at hg'
    cases hg'
  | some g =>
    obtain ⟨e, b, hde, hk⟩ | ⟨d, -, hk⟩ | ⟨-, b, hk⟩ | ⟨-, b, hk⟩ := hmerged.becomes hg <;>
      cases hg'.symm.trans hk
    · have he := Merging.mem_of_column hpaired.srcMem (List.of_mem_zip hde).2
      obtain ⟨ge, hge⟩ := hstands.tidy.live _ _ e hpaired.srcList he
      rw [Arena.get_of_get? hge]
      exact ((hs k g hg).blend (hs e ge hge)).congr ⟨rfl, rfl⟩
    · exact .toSpace g
    · exact (hs k g hg).congr ⟨rfl, rfl⟩
    · exact (hs k g hg).congr ⟨rfl, rfl⟩

end Combination

end Divisi
