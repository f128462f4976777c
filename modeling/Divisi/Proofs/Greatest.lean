/-
Voice 2 joins voice 1 wherever it can.

A set of hands is closed if the ways from each of them, as far as they are linked, lead
through hands of the set. The hands that merge voice 2 into voice 1 are the largest closed
set among those that ask for it (`Score.Chorded.merges_greatest`): planning from front to
back covers every closed set, since the pair comes first among the candidates and what is
chosen after it never undoes it, and settling withdraws nothing from a closed set.
-/
import Mathlib.Order.SetNotation
import Mathlib.Order.Bounds.Defs
import Mathlib.Data.Set.Lattice
import Divisi.Proofs.Verdicts

namespace Divisi

/-! ## Accepting more -/

namespace Layout

variable {s : Score} {l : Layout} {heading : Heading} {byMeasure : Bool} {accept accept' : Nat → Bool}
  {dest src : GroupKey}

/-- Ways that can be followed can be followed where more hands are accepted. -/
theorem follow_mono (himp : ∀ n, accept n = true → accept' n = true) (ds es : List Stop)
    (h : follow s heading byMeasure accept ds es = true) :
    follow s heading byMeasure accept' ds es = true := by
  induction ds generalizing es with
  | nil => rw [follow]
  | cons d ds ih =>
    cases es with
    | nil => rw [follow]
    | cons e es =>
      rw [follow] at h ⊢
      by_cases hlinked :
          (linked s heading byMeasure d ds.head? || linked s heading byMeasure e es.head?) = true
      · rw [if_pos hlinked] at h ⊢
        cases hd : ds.head? with
        | none =>
          cases he : es.head? with
          | none => rfl
          | some e' => simp [hd, he] at h
        | some d' =>
          cases he : es.head? with
          | none => simp [hd, he] at h
          | some e' =>
            rw [hd, he] at h
            cases hn : d'.hand with
            | none => simp [hn] at h
            | some n =>
              cases hn' : e'.hand with
              | none => simp [hn, hn'] at h
              | some n' =>
                simp only [hn, hn', Bool.and_eq_true] at h ⊢
                exact ⟨⟨h.1.1, himp n h.1.2⟩, ih es h.2⟩
      · rw [if_neg hlinked]

theorem agrees_mono (himp : ∀ n, accept n = true → accept' n = true)
    (h : l.agrees s byMeasure accept dest src = true) :
    l.agrees s byMeasure accept' dest src = true := by
  rw [agrees, List.all_eq_true] at h ⊢
  exact fun heading hheading => follow_mono himp _ _ (h heading hheading)

open Classical in
/-- The ways from the two groups of the merge in hand `n` lead through hands of the set. -/
def Within (s : Score) (l : Layout) (byMeasure : Bool) (m : Merge) (X : Set Nat) (n : Nat) : Prop :=
  ∃ h dest src, l.hands[n]? = some h ∧ h.voice? m.dest = some dest ∧ h.voice? m.src = some src ∧
    l.agrees s byMeasure (fun n' => decide (n' ∈ X)) dest src = true

theorem Within.agrees {m : Merge} {X : Set Nat} {n : Nat} (h : l.Within s byMeasure m X n)
    (haccept : ∀ n ∈ X, accept n = true) : ∃ h dest src, l.hands[n]? = some h ∧
      h.voice? m.dest = some dest ∧ h.voice? m.src = some src ∧
      l.agrees s byMeasure accept dest src = true := by
  obtain ⟨h, dest, src, hh, hdest, hsrc, hagrees⟩ := h
  exact ⟨h, dest, src, hh, hdest, hsrc,
    agrees_mono (fun n hn => haccept n (by simpa using hn)) hagrees⟩

end Layout

/-! ## Settling -/

namespace Planning

variable {s : Score} {l : Layout} {byMeasure : List Bool} {plans : List Plan} {m : Merge}
  {X : Set Nat} {n : Nat}

/-- Hand `n` plans the merge. -/
def Plans (plans : List Plan) (n : Nat) (m : Merge) : Prop := ∃ plan, plans[n]? = some plan ∧ m ∈ plan

theorem holds_of_within (hplans : ∀ n ∈ X, Plans plans n m)
    (hn : l.Within s (byMeasure[n]?.getD false) m X n) :
    holds s l byMeasure plans.toArray n m = true := by
  have haccepts : ∀ n' ∈ X, (plans.toArray[n']?.getD []).contains m = true := by
    intro n' hn'
    obtain ⟨plan, hplan, hm⟩ := hplans n' hn'
    simp [hplan, hm]
  obtain ⟨h, dest, src, hh, hdest, hsrc, hagrees⟩ := hn.agrees haccepts
  simpa only [holds, hh, Option.bind_some, hdest, hsrc] using hagrees

theorem plans_prune (hplans : Plans plans n m)
    (hholds : holds s l byMeasure plans.toArray n m = true) :
    Plans (prune s l byMeasure plans) n m := by
  obtain ⟨plan, hplan, hm⟩ := hplans
  refine ⟨plan.filter (holds s l byMeasure plans.toArray n), ?_, List.mem_filter.mpr ⟨hm, hholds⟩⟩
  simp [prune, List.getElem?_zipIdx, hplan]

/-- Settling withdraws nothing from hands that need none but each other. -/
theorem plans_settle (hwithin : ∀ n ∈ X, l.Within s (byMeasure[n]?.getD false) m X n)
    (hplans : ∀ n ∈ X, Plans plans n m) :
    ∀ n ∈ X, Plans (settle s l byMeasure plans).plans n m := by
  induction plans using settle.induct s l byMeasure with
  | case1 plans hnone =>
    rw [settle, if_pos hnone]
    exact hplans
  | case2 plans hsome ih =>
    rw [settle, if_neg hsome]
    exact ih fun n hn => plans_prune (hplans n hn) (holds_of_within hplans (hwithin n hn))

/-! ## Planning -/

variable {h : Hand} {d : Draft} {tables : Array Affinity}

theorem consider_of_absent (bm : Bool) (hdest : h.voice? m.dest = none) :
    consider s l n h bm d m = d := by
  unfold consider
  simp [hdest]

theorem consider_first {bm : Bool} {dest src : GroupKey} (hnone : d.choice.plan = [])
    (hdest : h.voice? m.dest = some dest) (hsrc : h.voice? m.src = some src)
    (hallows : allows d.tables m n = true)
    (hagrees : l.agrees s bm (allows d.tables m) dest src = true) :
    m ∈ (consider s l n h bm d m).choice.plan := by
  unfold consider
  simp [hnone, Plan.capacity, usedUp, hdest, hsrc, hallows, hagrees]

theorem mem_consider {bm : Bool} {m' : Merge} (hm : m ∈ d.choice.plan) :
    m ∈ (consider s l n h bm d m').choice.plan := by
  unfold consider
  split
  · exact hm
  · split
    · split
      · exact hm
      · split
        · exact List.mem_append_left _ hm
        · exact hm
    · exact hm

theorem mem_foldl_consider {bm : Bool} {pairs : List Merge} (hm : m ∈ d.choice.plan) :
    m ∈ (pairs.foldl (consider s l n h bm) d).choice.plan := by
  induction pairs generalizing d with
  | nil => exact hm
  | cons m' rest ih => exact ih (mem_consider hm)

theorem foldl_consider_of_absent {bm : Bool} {pairs : List Merge}
    (hpairs : ∀ m ∈ pairs, h.voice? m.dest = none) :
    pairs.foldl (consider s l n h bm) d = d := by
  induction pairs with
  | nil => rfl
  | cons m rest ih =>
    rw [List.foldl_cons, consider_of_absent bm (hpairs m List.mem_cons_self)]
    exact ih fun m' hm' => hpairs m' (List.mem_cons_of_mem m hm')

/-- A hand that merges voice 2 into voice 1 still allows it when its plan is made. -/
theorem get_of_shape {t : Affinity} {plan : Plan} (hshape : Plan.Shape t.Allows h plan)
    (hm : ⟨1, 2⟩ ∈ plan) :
    (plan.foldl (fun t m => t.absorb m.dest m.src) t).get 1 2 = true := by
  cases hshape with
  | none => cases hm
  | one m _ _ hallows =>
    cases List.mem_singleton.mp hm
    have hget : t.get 1 2 = true := hallows
    simpa [Affinity.absorb, Affinity.get, Affinity.set] using hget
  | both _ _ h₁₂ h₁₃ h₂₃ =>
    have hget : t.get 1 2 = true ∧ t.get 1 3 = true ∧ t.get 2 3 = true := ⟨h₁₂, h₁₃, h₂₃⟩
    simpa [Affinity.absorb, Affinity.get, Affinity.set] using hget

/-- Planning a hand that asks to merge voice 2 into voice 1, and whose neighbours allow it. -/
theorem hand_chooses {r : Request} {dest src : GroupKey} (hr : h.request = some r)
    (hone : 1 ∈ r.voices) (htwo : 2 ∈ r.voices) (hdest : h.voice? 1 = some dest)
    (hsrc : h.voice? 2 = some src) (hallows : allows tables ⟨1, 2⟩ n = true)
    (hagrees : l.agrees s r.byMeasure (allows tables ⟨1, 2⟩) dest src = true) :
    ⟨1, 2⟩ ∈ (hand s l tables h n).choice.plan ∧
      allows (hand s l tables h n).tables ⟨1, 2⟩ n = true := by
  obtain ⟨hpairs, hlt⟩ := r.pairs_ascending
  have hchosen : ⟨1, 2⟩ ∈ (hand s l tables h n).choice.plan := by
    have hpair : ⟨1, 2⟩ ∈ r.pairs := Request.mem_pairs.mpr ⟨hone, htwo, by decide⟩
    obtain ⟨before, after, hsplit⟩ := List.append_of_mem hpair
    have habsent : ∀ m ∈ before, h.voice? m.dest = none := by
      intro m hm
      have hbefore : Request.Before m ⟨1, 2⟩ := by
        rw [hsplit] at hpairs
        exact (List.pairwise_append.mp hpairs).2.2 m hm _ List.mem_cons_self
      have hascends := hlt m (by simp [hsplit, hm])
      have hzero : m.dest = 0 := by
        simp only [Request.Before] at hbefore
        omega
      cases hv : h.voice? m.dest with
      | none => rfl
      | some k =>
        have hle := Hand.le_of_voice? hv
        omega
    simp only [hand, hr, hsplit, List.foldl_append, List.foldl_cons,
      foldl_consider_of_absent habsent]
    exact mem_foldl_consider (consider_first rfl hdest hsrc hallows hagrees)
  refine ⟨hchosen, ?_⟩
  have hdrafted : Drafted (tables[n]?.getD {}) n h [] (hand s l tables h n) := by
    simp only [hand, hr]
    exact drafted_foldl ⟨.none, rfl, by simp⟩ hpairs hlt
  rw [allows, hdrafted.table]
  exact get_of_shape hdrafted.shape hchosen

/-- Front to back, all hands of a set plan to merge voice 2 into voice 1 if they ask for it, need
none but each other for it, and still allow it. -/
theorem hands_choose (hX : ∀ n ∈ X, ∃ h r, l.hands[n]? = some h ∧ h.request = some r ∧
      1 ∈ r.voices ∧ 2 ∈ r.voices ∧ l.Within s r.byMeasure ⟨1, 2⟩ X n)
    (xs : List Hand) (i : Nat) (hxs : ∀ n, xs[n]? = l.hands[i + n]?) (tables : Array Affinity)
    (hallows : ∀ n ∈ X, allows tables ⟨1, 2⟩ n = true) :
    ∀ n, i + n ∈ X → Plans ((hands s l tables (xs.zipIdx i)).map (·.plan)) n ⟨1, 2⟩ := by
  induction xs generalizing i tables with
  | nil =>
    intro n hn
    obtain ⟨h, r, hh, -⟩ := hX _ hn
    rw [← hxs, List.getElem?_nil] at hh
    cases hh
  | cons x rest ih =>
    have hfirst : i ∈ X → ⟨1, 2⟩ ∈ (hand s l tables x i).choice.plan ∧
        allows (hand s l tables x i).tables ⟨1, 2⟩ i = true := by
      intro hi
      obtain ⟨h, r, hh, hr, hone, htwo, hwithin⟩ := hX i hi
      obtain ⟨h', dest, src, hh', hdest, hsrc, hagrees⟩ := hwithin.agrees hallows
      cases hh.symm.trans hh'
      have hx : some x = some h := (hxs 0).trans hh
      cases hx
      exact hand_chooses hr hone htwo hdest hsrc (hallows i hi) hagrees
    rw [List.zipIdx_cons, hands]
    intro n hn
    cases n with
    | zero => exact ⟨_, rfl, (hfirst hn).1⟩
    | succ n =>
      refine ih (i + 1) (fun n' => ?_) (hand s l tables x i).tables (fun n' hn' => ?_) n
        (by rwa [Nat.add_assoc, Nat.add_comm 1])
      · rw [Nat.add_assoc, Nat.add_comm 1, ← hxs, List.getElem?_cons_succ]
      · by_cases hi : n' = i
        · subst hi
          exact (hfirst hn').2
        · rw [allows, (hand_spec s l tables x i).2 n' hi]
          exact hallows n' hn'

end Planning

/-! ## The largest closed set -/

namespace Combination

/-- Hand `n` asks for the merge: the request `r` in force there names both voices, the hand has
a group of each, and the two were found compatible. -/
structure Asks (c : Combination) (t : Score) (m : Merge) (n : Nat) (h : Hand) (r : Request) :
    Prop where
  hand : c.layout.hands[n]? = some h
  inForce : ∃ p ∈ t.placed, ∃ chord, h.Seated t p chord ∧ p.inForce.request h.staff = some r
  named : m.dest ∈ r.voices ∧ m.src ∈ r.voices
  groups : (∃ dest, h.voice? m.dest = some dest) ∧ ∃ src, h.voice? m.src = some src
  judged : ∃ verdicts, c.verdicts[n]? = some verdicts ∧ ⟨m, true⟩ ∈ verdicts

/-- A set of hands that ask for the merge, and that need none but each other to make it: the
ways from each of them, forth and back, are followed where just its hands are accepted. -/
def Closed (c : Combination) (t : Score) (m : Merge) (X : Set Nat) : Prop :=
  ∀ n ∈ X, ∃ h r, c.Asks t m n h r ∧ c.layout.Within t r.byMeasure m X n

variable {c : Combination} {t : Score} {m : Merge} {n : Nat} {h : Hand} {r : Request}

theorem Asks.request (ha : c.Asks t m n h r) : h.request = some r := by
  obtain ⟨p, -, chord, hseated, hr⟩ := ha.inForce
  exact hseated.request.trans hr

theorem Asks.byMeasure (ha : c.Asks t m n h r) :
    c.layout.byMeasure[n]?.getD false = r.byMeasure := by
  simp [Layout.byMeasure, ha.hand, ha.request]

theorem Of.asks_of_makes (hof : c.Of t) (hcombine : t.combineVoices = .ok c)
    (hm : c.planned.Makes n m) : ∃ h r, c.Asks t m n h r := by
  obtain ⟨plan, hplan, hm⟩ := hm
  obtain ⟨h, verdicts, hn, hverdicts, hjudge, hshape⟩ := hof.shape_of_verdicts hcombine hplan
  obtain ⟨p, hp, chord, hseated⟩ := hof.laidOut.seated h (List.mem_of_getElem? hn)
  obtain ⟨-, hyes⟩ := hshape.goes_of_mem m hm
  obtain ⟨r, hr, hpair, ⟨-, hgroups⟩, -⟩ := Hand.exists_of_judge hjudge hyes
  obtain ⟨hdest, hsrc, -⟩ := Request.mem_pairs.mp hpair
  exact ⟨h, r, hn, ⟨p, hp, chord, hseated, hseated.request.symm.trans hr⟩, ⟨hdest, hsrc⟩, hgroups,
    verdicts, hverdicts, hyes⟩

/-- The hands that make a merge need none but each other for it. -/
theorem Of.closed_makes (hof : c.Of t) (hcombine : t.combineVoices = .ok c) (m : Merge) :
    c.Closed t m {n | c.planned.Makes n m} := by
  intro n hm
  obtain ⟨h, r, hasks⟩ := hof.asks_of_makes hcombine hm
  obtain ⟨tables, hplanned⟩ := hof.planned
  obtain ⟨h', dest, src, hn, hdest, hsrc, hfollow⟩ :=
    Planned.follow_of_makes (hplanned ▸ show c.planned.Makes n m from hm)
  refine ⟨h, r, hasks, h', dest, src, hn, hdest, hsrc, ?_⟩
  rw [← hasks.byMeasure, Layout.agrees, List.all_eq_true]
  refine fun heading _ => Layout.follow_mono (fun n' hn' => ?_) _ _ (hfollow heading)
  have hmakes := Planned.makes_of_accepts hn'
  rw [← hplanned] at hmakes
  simpa using hmakes

/-- Planning and settling leave out no closed set. -/
theorem makes_of_closed (hcombine : t.combineVoices = .ok c) {X : Set Nat}
    (hX : c.Closed t ⟨1, 2⟩ X) : ∀ n ∈ X, c.planned.Makes n ⟨1, 2⟩ := by
  obtain ⟨-, hjudged, hplanned, -⟩ := Score.combineVoices_eq_ok hcombine
  have hallows : ∀ n ∈ X, Planning.allows (c.verdicts.map Affinity.ofVerdicts).toArray ⟨1, 2⟩ n =
      true := by
    intro n hn
    obtain ⟨h, r, hasks, -⟩ := hX n hn
    obtain ⟨verdicts, hverdicts, hyes⟩ := hasks.judged
    obtain ⟨verdicts', hverdicts', hjudge⟩ := exists_of_forall₂ (mapM_eq_ok hjudged) hasks.hand
    cases hverdicts.symm.trans hverdicts'
    have hget : (Affinity.ofVerdicts verdicts).get 1 2 = true :=
      (Hand.allows_iff hjudge (by decide) (by decide) (by decide)).mpr hyes
    simpa [Planning.allows, hverdicts] using hget
  have hchosen := Planning.hands_choose (s := t) (fun n hn => by
    obtain ⟨h, r, hasks, hwithin⟩ := hX n hn
    exact ⟨h, r, hasks.hand, hasks.request, hasks.named.1, hasks.named.2, hwithin⟩)
    c.layout.hands 0 (fun n => by rw [Nat.zero_add]) _ hallows
  have hwithin : ∀ n ∈ X, c.layout.Within t (c.layout.byMeasure[n]?.getD false) ⟨1, 2⟩ X n := by
    intro n hn
    obtain ⟨h, r, hasks, hwithin⟩ := hX n hn
    rwa [hasks.byMeasure]
  rw [hplanned]
  exact Planning.plans_settle hwithin fun n hn => hchosen n (by rwa [Nat.zero_add])

end Combination

/-- **Voice 2 joins voice 1 wherever it can.** The hands in which the final plan merges voice 2
into voice 1 are the largest closed set of hands that ask for it, and so the union of all
closed sets. -/
theorem Score.Chorded.merges_greatest {t : Score} (ht : t.Chorded) :
    ∃ c, t.combineVoices = .ok c ∧
      IsGreatest {X | c.Closed t ⟨1, 2⟩ X} {n | c.planned.Makes n ⟨1, 2⟩} ∧
      {n | c.planned.Makes n ⟨1, 2⟩} = ⋃₀ {X | c.Closed t ⟨1, 2⟩ X} := by
  obtain ⟨c, hcombine, hof⟩ := ht.combined
  have hclosed := hof.closed_makes hcombine ⟨1, 2⟩
  have hlargest : ∀ X, c.Closed t ⟨1, 2⟩ X → X ⊆ {n | c.planned.Makes n ⟨1, 2⟩} := fun X hX =>
    Combination.makes_of_closed hcombine hX
  exact ⟨c, hcombine, ⟨hclosed, hlargest⟩,
    Set.Subset.antisymm (Set.subset_sUnion_of_mem hclosed) (Set.sUnion_subset hlargest)⟩

/-- A half note in each of two voices, then two quarters tied to each other. The last of them
overlap, so that the first stay apart as well, although they would go together. -/
def tiedApart : String :=
  "vcombine:\n voices: [1,2]\nmusic:\n- measure:\n  - voices:\n     1:\n     - time: 2\n" ++
  "       notes: [g5]\n     - time: 4\n       notes: [[a5,true]]\n     - time: 4\n" ++
  "       notes: [a5]\n     2:\n     - time: 2\n       notes: [c4]\n     - time: 4\n" ++
  "       notes: [[c4,true]]\n     - time: 4\n       notes: [b5]\n"

theorem greatest_of_tiedApart : ∃ t : Score, t.Chorded ∧ ∃ c, t.combineVoices = .ok c ∧
    c.verdicts = [[⟨⟨1, 2⟩, true⟩], [⟨⟨1, 2⟩, true⟩], [⟨⟨1, 2⟩, false⟩]] ∧
    c.planned.plans = [[⟨1, 2⟩], [], []] ∧
    IsGreatest {X | c.Closed t ⟨1, 2⟩ X} {n | c.planned.Makes n ⟨1, 2⟩} := by
  obtain ⟨s, hs, hfault, hmade⟩ := Score.exists_of_spelled tiedApart
    (.append (.append (.append (.ofList _) (.ofList _)) (.ofList _)) (.ofList _))
    (P := fun s => s.buildChords.fault = none ∧
      (s.buildChords.now.combineVoices.toOption.any fun c =>
        c.verdicts == [[⟨⟨1, 2⟩, true⟩], [⟨⟨1, 2⟩, true⟩], [⟨⟨1, 2⟩, false⟩]] &&
          c.planned.plans == [[⟨1, 2⟩], [], []]) = true)
    (by decide +kernel)
  have ht : s.buildChords.now.Chorded := ⟨s, .of_text hs, hfault, rfl⟩
  obtain ⟨c, hc, hgreatest, -⟩ := Score.Chorded.merges_greatest ht
  simp only [hc, Except.toOption, Option.any_some, Bool.and_eq_true, beq_iff_eq] at hmade
  exact ⟨_, ht, c, hc, hmade.1, hmade.2, hgreatest⟩

end Divisi
