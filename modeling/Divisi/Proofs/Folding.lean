/-
Which groups a combination folds.

Hands have no group in common, and a hand makes two merges at most, both into its voice 1. So
the source of a merge is still what it was before anything was merged
(`Combination.Of.untouched`): a group is folded into one other at most, and one that has taken
in another is never folded itself (`Combination.Of.folds_once`).
-/
import Divisi.Proofs.Retained

namespace Divisi

namespace Merging

/-- The groups that a merge folds, each with the one that it is folded into. -/
def pairs (s : Score) (h : Hand) (m : Merge) : List (GroupKey × GroupKey) :=
  (s.columnAt h m.dest).zip (s.columnAt h m.src)

theorem mem_pairs {s : Score} {h : Hand} {m : Merge} {d e : GroupKey} (hde : (d, e) ∈ pairs s h m) :
    d ∈ s.columnAt h m.dest ∧ e ∈ s.columnAt h m.src :=
  List.of_mem_zip hde

/-- Merges made one after the other, the first in the score `t`, fold `e` into `d`. -/
def Folds (t : Score) (steps : List (Hand × Merge)) (d e : GroupKey) : Prop :=
  ∃ before h m after s, steps = before ++ (h, m) :: after ∧
    before.foldlM (fun s x => merge x.1 s x.2) t = .ok s ∧ (d, e) ∈ pairs s h m

variable {t s : Score} {steps : List (Hand × Merge)} {h : Hand} {m : Merge} {d e : GroupKey}

theorem not_folds_nil : ¬Folds t [] d e := by
  rintro ⟨before, h, m, after, s, hsteps, -⟩
  simp at hsteps

theorem folds_snoc (hs : steps.foldlM (fun s x => merge x.1 s x.2) t = .ok s) :
    Folds t (steps ++ [(h, m)]) d e ↔ Folds t steps d e ∨ (d, e) ∈ pairs s h m := by
  constructor
  · rintro ⟨before, h', m', after, s', hsteps, hs', hde⟩
    cases after using List.reverseRecOn with
    | nil =>
      obtain ⟨rfl, hlast⟩ := List.append_inj' hsteps rfl
      cases hlast
      cases hs.symm.trans hs'
      exact .inr hde
    | append_singleton after last =>
      rw [← List.cons_append, ← List.append_assoc] at hsteps
      obtain ⟨rfl, -⟩ := List.append_inj' hsteps rfl
      exact .inl ⟨before, h', m', after, s', rfl, hs', hde⟩
  · rintro (⟨before, h', m', after, s', rfl, hs', hde⟩ | hde)
    · exact ⟨before, h', m', after ++ [(h, m)], s', by simp, hs', hde⟩
    · exact ⟨steps, h, m, [], s, rfl, hs, hde⟩

end Merging

namespace Combination

variable {c : Combination} {t s s' : Score} {h h' : Hand} {m m' : Merge} {d d' e e' k : GroupKey}
  {before after : List (Hand × Merge)}

/-- A merge made before another is one of a hand with other groups, or the first of two merges
into voice 1. -/
theorem Of.earlier (hc : c.Of t) (hsteps : c.steps = before ++ (h, m) :: after)
    (hmem : (h', m') ∈ before) : h'.Apart h ∨ h' = h ∧ m' = ⟨1, 2⟩ ∧ m = ⟨1, 3⟩ := by
  obtain ⟨early, late, plan, rest, hzip, rfl⟩ := split_steps hsteps
  rcases List.mem_append.mp hmem with hmem | hmem
  · obtain ⟨⟨h₀, plan₀⟩, hx, hmem⟩ := List.mem_flatMap.mp hmem
    obtain ⟨m₀, -, heq⟩ := List.mem_map.mp hmem
    cases heq
    have happart : ((c.layout.hands.zip c.planned.plans).map Prod.fst).Pairwise Hand.Apart := by
      rw [Merging.map_fst_zip]
      exact hc.apart.sublist (List.take_sublist _ _)
    rw [List.pairwise_map, hzip] at happart
    exact .inl ((List.pairwise_append.mp happart).2.2 _ hx _ List.mem_cons_self)
  · obtain ⟨m₀, hm₀, heq⟩ := List.mem_map.mp hmem
    cases heq
    have hn : (c.layout.hands.zip c.planned.plans)[early.length]? = some (h, plan ++ m :: rest) := by
      rw [hzip, List.getElem?_append_right (Nat.le_refl _), Nat.sub_self]
      rfl
    obtain ⟨hh, hplan⟩ := List.getElem?_zip_eq_some.mp hn
    obtain ⟨-, ⟨rfl, -⟩ | ⟨rfl, hm, -⟩⟩ := (hc.shape _ _ _ hh hplan).split
    · cases hm₀
    · exact .inr ⟨rfl, List.mem_singleton.mp hm₀, hm⟩

/-- The source of a merge is as it was before anything was merged. So is the column of the
destination, unless voice 2 of the hand has joined it. -/
theorem Of.untouched (hc : c.Of t) (hp : c.Performs t h m s s') :
    s.columnAt h m.src = t.columnAt h m.src ∧
      (∀ k ∈ t.columnAt h m.src, s.groups.get? k = t.groups.get? k) ∧
      (s.columnAt h m.dest = t.columnAt h m.dest ∨ m = ⟨1, 3⟩ ∧ s.columnAt h m.dest =
        t.columnAt h 1 ++ (t.columnAt h 2).drop (t.columnAt h 1).length) := by
  obtain ⟨plan, rest, s₀, hshape, hh, hstands, hleaves, hplan⟩ := hc.performs hp
  obtain ⟨-, ⟨rfl, -⟩ | ⟨rfl, rfl, ⟨hne, ⟨x, hx⟩, y, hy⟩, -, -⟩⟩ := hshape.split
  · simp only [List.foldlM_nil, pure_eq_ok] at hplan
    subst hplan
    exact ⟨(hleaves _).1, (hleaves _).2, .inl (hleaves _).1⟩
  · -- voice 3 has been left alone
    obtain ⟨s₁, hmerge, -, hjoined⟩ := hstands.merge hh hne hx hy
    simp only [List.foldlM_cons, hmerge, List.foldlM_nil, bind, Except.bind, pure_eq_ok] at hplan
    subst hplan
    obtain ⟨hcolumn, hgroups⟩ := hjoined.others h hh 3
      (fun he => absurd (hstands.voice_inj hh (he.trans hx) hx) (by decide))
      (fun he => absurd (hstands.voice_inj hh (he.trans hy) hy) (by decide))
    have hdest := hjoined.dest
    rw [(hleaves 1).1, (hleaves 2).1] at hdest
    rw [(hleaves 3).1] at hcolumn hgroups
    exact ⟨hcolumn, fun k hk => (hgroups k hk).trans ((hleaves 3).2 k hk), .inr ⟨rfl, hdest⟩⟩

/-- The groups that the destination of a merge brings along. -/
theorem Of.mem_dest (hc : c.Of t) (hp : c.Performs t h m s s') (hk : k ∈ s.columnAt h m.dest) :
    k ∈ t.columnAt h m.dest ∨
      m = ⟨1, 3⟩ ∧ k ∈ (t.columnAt h 2).drop (t.columnAt h 1).length := by
  obtain ⟨-, -, hdest | ⟨rfl, hdest⟩⟩ := hc.untouched hp
  · exact .inl (hdest ▸ hk)
  · rw [hdest] at hk
    exact (List.mem_append.mp hk).imp_right fun hk => ⟨rfl, hk⟩

/-- What a merge finds to be paired was judged to go together, with its source and the voice that
the other group was of to begin with. -/
theorem Of.exists_judged_of_pair (hc : c.Of t) (hp : c.Performs t h m s s')
    {pair : GroupKey × GroupKey} (hpair : pair ∈ (s.columnAt h m.dest).zip (s.columnAt h m.src)) :
    ∃ v, h.Judged t c.layout v m.src ∧ pair ∈ (t.columnAt h v).zip (t.columnAt h m.src) := by
  obtain ⟨plan, rest, s₀, hshape, -, -, hleaves, hplan⟩ := hc.performs hp
  obtain ⟨-, ⟨rfl, hgoes⟩ | ⟨-, rfl, -, h₁₃, h₂₃⟩⟩ := hshape.split
  · simp only [List.foldlM_nil, pure_eq_ok] at hplan
    subst hplan
    rw [(hleaves _).1, (hleaves _).1] at hpair
    exact ⟨m.dest, hgoes, hpair⟩
  · obtain ⟨hsrc, -, hdest | ⟨-, hdest⟩⟩ := hc.untouched hp
    · rw [hdest, hsrc] at hpair
      exact ⟨1, h₁₃, hpair⟩
    · rw [hdest, hsrc] at hpair
      rcases Merging.mem_zip_append_drop hpair with hpair | hpair
      · exact ⟨1, h₁₃, hpair⟩
      · exact ⟨2, h₂₃, hpair⟩

/-- The groups that a merge pairs, as the program finds them. -/
theorem Of.pairs_eq (hc : c.Of t) (hp : c.Performs t h m s s') :
    ∃ dest src xs ys, h.voice? m.dest = some dest ∧ h.voice? m.src = some src ∧
      s.graceRun h.item h.staff m.dest dest = .ok xs ∧ s.graceRun h.item h.staff m.src src = .ok ys ∧
      Merging.pairs s h m = (dest, src) :: xs.reverse.zip ys.reverse := by
  obtain ⟨hh, hstands, ⟨-, ⟨dest, hdest⟩, src, hsrc⟩, -⟩ := hc.judged hp
  obtain ⟨xs, hxs, hcolumn⟩ := hstands.graceRun hh hdest
  obtain ⟨ys, hys, hcolumn'⟩ := hstands.graceRun hh hsrc
  exact ⟨dest, src, xs, ys, hdest, hsrc, hxs, hys, by
    rw [Merging.pairs, hcolumn, hcolumn', List.zip_cons_cons]⟩

theorem Of.columns_apart (hc : c.Of t) (hh : h ∈ c.layout.hands) (hh' : h' ∈ c.layout.hands)
    (happart : h'.Apart h) {v w : Nat} (hk : k ∈ t.columnAt h v) : k ∉ t.columnAt h' w := by
  cases hv : h.voice? v with
  | none => simp [Score.columnAt, hv] at hk
  | some x =>
    cases hw : h'.voice? w with
    | none => simp [Score.columnAt, hw]
    | some z =>
      refine hc.stands.disjoint hh hh' hv hw (fun he => ?_) hk
      exact happart w v x (hw.trans (congrArg some he)) hv

theorem Of.offers (hc : c.Of t) (hmem : (h, m) ∈ c.steps) : h ∈ c.layout.hands ∧ h.Offers m := by
  obtain ⟨⟨h₀, plan⟩, hx, hmem⟩ := List.mem_flatMap.mp hmem
  obtain ⟨m₀, hm₀, heq⟩ := List.mem_map.mp hmem
  cases heq
  obtain ⟨n, hn⟩ := List.getElem?_of_mem hx
  obtain ⟨hh, hplan⟩ := List.getElem?_zip_eq_some.mp hn
  exact ⟨List.mem_of_getElem? hh, (hc.shape n _ _ hh hplan).offers m hm₀⟩

theorem Of.performs_of_steps (hc : c.Of t) (hsteps : c.steps = before ++ (h, m) :: after)
    (hs : before.foldlM (fun s x => Merging.merge x.1 s x.2) t = .ok s) :
    ∃ s', c.Performs t h m s s' := by
  have hrun := hc.performed
  rw [hsteps, List.foldlM_append, bind_eq_ok] at hrun
  obtain ⟨s₁, hs₁, hrun⟩ := hrun
  cases hs.symm.trans hs₁
  rw [List.foldlM_cons, bind_eq_ok] at hrun
  obtain ⟨s', hs', -⟩ := hrun
  exact ⟨s', ⟨_, _, hsteps, hs⟩, hs'⟩

/-- What a merge folds has neither been folded nor taken in another before, and what takes it in
has not been folded. -/
theorem Of.apart_of_folds (hc : c.Of t) (hsteps : c.steps = before ++ (h, m) :: after)
    (hs : before.foldlM (fun s x => Merging.merge x.1 s x.2) t = .ok s)
    (hde : (d, e) ∈ Merging.pairs s h m) (hfolds : Merging.Folds t before d' e') :
    e ≠ d' ∧ e ≠ e' ∧ d ≠ e' := by
  obtain ⟨s', hp⟩ := hc.performs_of_steps hsteps hs
  obtain ⟨before', h', m', after', s₁, rfl, hs₁, hde'⟩ := hfolds
  obtain ⟨s₁', hp'⟩ := hc.performs_of_steps (hsteps.trans (List.append_assoc _ _ _)) hs₁
  have hh := (hc.judged hp).1
  have hh' := (hc.judged hp').1
  -- all are told by the columns that the hands had before anything was merged
  obtain ⟨hsrc, -, -⟩ := hc.untouched hp
  obtain ⟨hsrc', -, hdest'⟩ := hc.untouched hp'
  have he := hsrc ▸ (Merging.mem_pairs hde).2
  have hd := hc.mem_dest hp (Merging.mem_pairs hde).1
  have he' := hsrc' ▸ (Merging.mem_pairs hde').2
  have hd' := hc.mem_dest hp' (Merging.mem_pairs hde').1
  rcases hc.earlier hsteps (List.mem_append_right before' List.mem_cons_self) with
    happart | ⟨hsame, rfl, rfl⟩
  · have hnot : ∀ {v w k}, k ∈ t.columnAt h v → k ∉ t.columnAt h' w := hc.columns_apart hh hh' happart
    refine ⟨fun heq => ?_, fun heq => hnot he (heq ▸ he'), fun heq => ?_⟩
    · exact hd'.elim (fun hd' => hnot he (heq ▸ hd')) fun hd' =>
        hnot he (heq ▸ List.mem_of_mem_drop hd'.2)
    · exact hd.elim (fun hd => hnot hd (heq ▸ he')) fun hd =>
        hnot (List.mem_of_mem_drop hd.2) (heq ▸ he')
  · subst hsame
    have hnot : ∀ {v w k}, v ≠ w → k ∈ t.columnAt h' v → k ∉ t.columnAt h' w :=
      hc.stands.column_apart hh
    have htwo : ∀ k ∈ t.columnAt h' 2, e ≠ k := fun k hk heq => hnot (by decide) he (heq ▸ hk)
    have hdest' := hdest'.resolve_right fun hno => absurd hno.1 (by decide)
    refine ⟨fun heq => ?_, htwo e' he', fun heq => ?_⟩
    · exact hd'.elim (fun hd' => hnot (by decide) he (heq ▸ hd')) fun hd' =>
        htwo d' (List.mem_of_mem_drop hd'.2) heq
    · have htake : e' ∈ (t.columnAt h' 2).take (t.columnAt h' 1).length := by
        rw [← Merging.map_snd_zip, ← hdest', ← hsrc']
        exact List.mem_map_of_mem hde'
      rcases hd with hd | ⟨-, hd⟩
      · exact hnot (by decide) hd (heq ▸ he')
      · exact Merging.not_mem_drop (hc.stands.column_nodup hh) htake (heq ▸ hd)

/-- A group that something was merged into is not merged into another later. -/
theorem Of.dest_ne_src (hc : c.Of t) (hsteps : c.steps = before ++ (h, m) :: after)
    (hs : before.foldlM (fun s x => Merging.merge x.1 s x.2) t = .ok s) (hmem : (h', m') ∈ before)
    (hk : h'.voice? m'.dest = some k) : h.voice? m.src ≠ some k := by
  intro hk'
  obtain ⟨early, late, rfl⟩ := List.append_of_mem hmem
  obtain ⟨s₁, hs₁, -⟩ := bind_eq_ok.mp (List.foldlM_append.symm.trans hs)
  obtain ⟨s', hp⟩ := hc.performs_of_steps hsteps hs
  obtain ⟨s₁', hp'⟩ := hc.performs_of_steps (hsteps.trans (List.append_assoc _ _ _)) hs₁
  obtain ⟨dest, src, xs, ys, -, hsrc, -, -, hpairs⟩ := hc.pairs_eq hp
  obtain ⟨dest', src', xs', ys', hdest', -, -, -, hpairs'⟩ := hc.pairs_eq hp'
  cases hsrc.symm.trans hk'
  cases hdest'.symm.trans hk
  have hfolds : Merging.Folds t (early ++ (h', m') :: late) k src' :=
    ⟨early, h', m', late, s₁, rfl, hs₁, by rw [hpairs']; exact List.mem_cons_self⟩
  have hde : (dest, k) ∈ Merging.pairs s h m := by
    rw [hpairs]
    exact List.mem_cons_self
  exact (hc.apart_of_folds hsteps hs hde hfolds).1 rfl

/-- **A group is folded once** at most, and one that has taken in another is never folded. -/
theorem Of.folds_once (hc : c.Of t) :
    (∀ d d' e, Merging.Folds t c.steps d e → Merging.Folds t c.steps d' e → d = d') ∧
      ∀ d d' e, Merging.Folds t c.steps d e → ¬Merging.Folds t c.steps d' d := by
  refine hc.induction_steps (P := fun steps _ =>
    (∀ d d' e, Merging.Folds t steps d e → Merging.Folds t steps d' e → d = d') ∧
      ∀ d d' e, Merging.Folds t steps d e → ¬Merging.Folds t steps d' d)
    (fun before h m after s s' hsteps hs hmerge ⟨honce, hnever⟩ => ?_)
    ⟨fun d d' e hd => absurd hd Merging.not_folds_nil, fun d d' e hd => absurd hd Merging.not_folds_nil⟩
  simp only [Merging.folds_snoc hs]
  obtain ⟨hh, hstands, hoffers, -⟩ := hc.judged ⟨⟨before, after, hsteps, hs⟩, hmerge⟩
  refine ⟨fun d d' e hd hd' => ?_, fun d d' e hd hd' => ?_⟩
  · rcases hd with hd | hd <;> rcases hd' with hd' | hd'
    · exact honce d d' e hd hd'
    · exact absurd rfl (hc.apart_of_folds hsteps hs hd' hd).2.1
    · exact absurd rfl (hc.apart_of_folds hsteps hs hd hd').2.1
    · have hnodup : ((Merging.pairs s h m).map Prod.snd).Nodup := by
        rw [Merging.pairs, Merging.map_snd_zip]
        exact (hstands.column_nodup hh).sublist (List.take_sublist _ _)
      exact congrArg Prod.fst (List.inj_on_of_nodup_map hnodup hd hd' rfl)
  · rcases hd with hd | hd <;> rcases hd' with hd' | hd'
    · exact hnever d d' e hd hd'
    · exact absurd rfl (hc.apart_of_folds hsteps hs hd' hd).1
    · exact absurd rfl (hc.apart_of_folds hsteps hs hd hd').2.2
    · exact hstands.column_apart hh hoffers.1 (Merging.mem_pairs hd).1 (Merging.mem_pairs hd').2

end Combination

end Divisi
