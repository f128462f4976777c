/-
The verdicts on a hand and the table they make.

A hand has one verdict for each candidate of its request whose two groups it holds, and the
table says of two voices what their verdict says (`Hand.allows_iff`). So what planning reads
off the tables are verdicts.
-/
import Divisi.Proofs.Combined

namespace Divisi

/-! ## The parts of a combination -/

/-- A combination was laid out, judged, planned and carried out in turn. -/
theorem Score.combineVoices_eq_ok {t : Score} {c : Combination} (h : t.combineVoices = .ok c) :
    Layout.of t = .ok c.layout ∧ c.layout.judge t = .ok c.verdicts ∧
      c.planned = c.layout.plan t (c.verdicts.map Affinity.ofVerdicts) ∧
      Merging.perform t c.layout c.planned.plans = .ok ⟨c.score, c.merges⟩ := by
  simp only [combineVoices, bind_eq_ok, pure_eq_ok] at h
  obtain ⟨layout, hlayout, verdicts, hverdicts, done, hdone, rfl⟩ := h
  exact ⟨hlayout, hverdicts, rfl, hdone⟩

/-! ## Tables -/

namespace Affinity

variable {t : Affinity} {verdicts : List Verdict} {v w v' w' : Nat} {ok : Bool}

theorem get_congr (h : v + w = v' + w') : t.get v w = t.get v' w' := by
  rw [get, get, h]

theorem get_set_self (h : 3 ≤ v + w) (h' : v + w ≤ 5) : (t.set v w ok).get v w = ok := by
  unfold set get
  obtain h | h | h : v + w = 3 ∨ v + w = 4 ∨ v + w = 5 := by omega
  all_goals simp [h]

theorem get_set_other (h : v + w ≠ v' + w') : (t.set v w ok).get v' w' = t.get v' w' := by
  unfold set
  split
  all_goals
    unfold get
    split <;> first | rfl | omega

/-- What all verdicts on a pair say, of which there is one, the table says. -/
theorem get_ofVerdicts (h : 3 ≤ v + w) (h' : v + w ≤ 5)
    (hsome : ∃ x ∈ verdicts, x.merge.dest + x.merge.src = v + w)
    (hall : ∀ x ∈ verdicts, x.merge.dest + x.merge.src = v + w → x.compatible = ok) :
    (ofVerdicts verdicts).get v w = ok := by
  suffices hfold : ∀ (xs : List Verdict) (t : Affinity),
      (∀ x ∈ xs, x.merge.dest + x.merge.src = v + w → x.compatible = ok) →
      ((∃ x ∈ xs, x.merge.dest + x.merge.src = v + w) ∨ t.get v w = ok) →
        (xs.foldl (fun t x => t.set x.merge.dest x.merge.src x.compatible) t).get v w = ok from
    hfold verdicts {} hall (.inl hsome)
  intro xs
  induction xs with
  | nil =>
    intro t _ ht
    simpa using ht
  | cons x rest ih =>
    intro t hall ht
    rw [List.foldl_cons]
    refine ih _ (fun y hy => hall y (List.mem_cons_of_mem x hy)) ?_
    by_cases hsum : x.merge.dest + x.merge.src = v + w
    · right
      rw [get_congr hsum.symm, get_set_self (by omega) (by omega)]
      exact hall x List.mem_cons_self hsum
    · rw [get_set_other hsum]
      refine ht.imp_left ?_
      rintro ⟨y, hy, hysum⟩
      rcases List.mem_cons.mp hy with rfl | hy
      · exact absurd hysum hsum
      · exact ⟨y, hy, hysum⟩

end Affinity

/-! ## Verdicts -/

namespace Hand

variable {s : Score} {l : Layout} {h : Hand} {q : Qualifier} {m : Merge} {verdicts : List Verdict}
  {x y : Verdict} {r : Request}

/-- A candidate is judged only where the hand has both groups. -/
theorem judge?_eq_some (hjudge : h.judge? s l q m = .ok (some x)) :
    x.merge = m ∧ (∃ k, h.voice? m.dest = some k) ∧ ∃ k, h.voice? m.src = some k := by
  unfold judge? at hjudge
  split at hjudge
  next k k' hk hk' =>
    refine ⟨?_, ⟨k, hk⟩, k', hk'⟩
    split at hjudge
    · simp only [bind_eq_ok, pure_eq_ok, Option.some.injEq] at hjudge
      obtain ⟨xs, -, ys, -, rfl⟩ := hjudge
      rfl
    · cases hjudge
      rfl
  next => cases hjudge

/-- What a verdict on a hand is: the answer to a candidate of the request in force. -/
theorem exists_of_judge (hjudge : h.judge s l = .ok verdicts) (hx : x ∈ verdicts) :
    ∃ r, h.request = some r ∧ x.merge ∈ r.pairs ∧ h.Offers x.merge ∧
      h.judge? s l r.qualifier x.merge = .ok (some x) := by
  unfold judge at hjudge
  split at hjudge
  next =>
    cases hjudge
    cases hx
  next r hr =>
    simp only [bind_eq_ok, pure_eq_ok] at hjudge
    obtain ⟨answers, hanswers, rfl⟩ := hjudge
    obtain ⟨answer, hanswer, hsome⟩ := List.mem_filterMap.mp hx
    obtain ⟨m, hm, hjudge⟩ := mem_of_mapM hanswers hanswer
    rw [show answer = some x from hsome] at hjudge
    obtain ⟨rfl, hdest, hsrc⟩ := judge?_eq_some hjudge
    have hlt := r.pairs_ascending.2 _ hm
    exact ⟨r, hr, hm, ⟨Nat.ne_of_lt hlt, hdest, hsrc⟩, hjudge⟩

theorem verdict_unique (hjudge : h.judge s l = .ok verdicts) (hx : x ∈ verdicts)
    (hy : y ∈ verdicts) (hmerge : x.merge = y.merge) : x = y := by
  obtain ⟨r, hr, -, -, hjx⟩ := exists_of_judge hjudge hx
  obtain ⟨r', hr', -, -, hjy⟩ := exists_of_judge hjudge hy
  cases hr.symm.trans hr'
  rw [hmerge, hjy] at hjx
  cases hjx
  rfl

/-- **What the table of a hand says.** Two voices go together in it exactly if their verdict
says so. -/
theorem allows_iff (hjudge : h.judge s l = .ok verdicts) {v w : Nat} (hlt : v < w) (hv : 1 ≤ v)
    (hw : w ≤ 3) : (Affinity.ofVerdicts verdicts).Allows v w ↔ ⟨⟨v, w⟩, true⟩ ∈ verdicts := by
  have hmerge : ∀ x ∈ verdicts, x.merge.dest + x.merge.src = v + w → x.merge = ⟨v, w⟩ := by
    intro x hx hsum
    obtain ⟨r, -, hpair, hoffers, -⟩ := exists_of_judge hjudge hx
    have hascends := r.pairs_ascending.2 _ hpair
    obtain ⟨⟨dest, src⟩, ok⟩ := x
    obtain h | h | h := hoffers.cases hascends <;> cases h <;> simp at hsum ⊢ <;> omega
  constructor
  · intro hget
    obtain ⟨x, hx, hyes, hsum⟩ := Affinity.exists_of_get hget
    have hxm := hmerge x hx hsum
    obtain ⟨m, ok⟩ := x
    cases hxm
    cases hyes
    exact hx
  · intro hmem
    refine Affinity.get_ofVerdicts (by omega) (by omega) ⟨_, hmem, rfl⟩ fun x hx hsum => ?_
    rw [verdict_unique hjudge hx hmem (hmerge x hx hsum)]

end Hand

/-- Plans are made of what the verdicts allow. -/
theorem Combination.Of.shape_of_verdicts {c : Combination} {t : Score} (hof : c.Of t)
    (hcombine : t.combineVoices = .ok c) {n : Nat} {plan : Plan}
    (hplan : c.planned.plans[n]? = some plan) : ∃ h verdicts, c.layout.hands[n]? = some h ∧
      c.verdicts[n]? = some verdicts ∧ h.judge t c.layout = .ok verdicts ∧
      plan.Shape (fun v w => ⟨⟨v, w⟩, true⟩ ∈ verdicts) h := by
  obtain ⟨-, hjudged, hplanned, -⟩ := Score.combineVoices_eq_ok hcombine
  obtain ⟨h, hn⟩ : ∃ h, c.layout.hands[n]? = some h := by
    obtain ⟨hlt, -⟩ := List.getElem?_eq_some_iff.mp hplan
    exact ⟨_, List.getElem?_eq_getElem (hof.length ▸ hlt)⟩
  obtain ⟨verdicts, hverdicts, hjudge⟩ := exists_of_forall₂ (mapM_eq_ok hjudged) hn
  have hshape := (Layout.plan_spec t c.layout _).2 n h plan hn (hplanned ▸ hplan)
  rw [List.getElem?_map, hverdicts] at hshape
  exact ⟨h, verdicts, hn, hverdicts, hjudge, hshape.imp fun v w hlt hv hw =>
    (Hand.allows_iff hjudge hlt hv hw).mp⟩

end Divisi
