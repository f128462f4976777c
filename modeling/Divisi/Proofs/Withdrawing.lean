/-
Withdrawing merges loses nothing.

Each round of settling withdraws all merges that fail at once, and a merge fails by what the
other hands plan at the time. A family of merges is sustained if it needs nothing but itself.
Accepting more hands never breaks a way (`Layout.follow_mono`), so no round takes anything
from a sustained family, and what no round takes anything from is sustained: settling leaves
the largest sustained family that was planned (`Planning.settle_greatest`).
-/
import Mathlib.Logic.Function.Iterate
import Divisi.Proofs.Greatest

namespace Divisi

namespace Layout

variable {s : Score} {l : Layout} {heading : Heading} {byMeasure : Bool} {accept : Nat → Bool}
  {m : Merge} {X : Set Nat} {n : Nat}

/-- Ways that are not followed are followed nowhere, or there is a hand that was refused and
without which they are not followed either. -/
theorem follow_lacks (ds es : List Stop) (h : follow s heading byMeasure accept ds es = false) :
    follow s heading byMeasure (fun _ => true) ds es = false ∨
      ∃ n, accept n = false ∧ follow s heading byMeasure (· != n) ds es = false := by
  induction ds generalizing es with
  | nil => simp [follow] at h
  | cons d ds ih =>
    cases es with
    | nil => simp [follow] at h
    | cons e es =>
      rw [follow] at h
      simp only [follow]
      by_cases hlinked :
          (linked s heading byMeasure d ds.head? || linked s heading byMeasure e es.head?) = true
      · simp only [hlinked, if_true] at h ⊢
        -- both ways reach a hand each, or the ways part and accepting more is no help
        cases hd : ds.head? with
        | none => cases he : es.head? <;> simp_all
        | some d' =>
          cases he : es.head? with
          | none => simp
          | some e' =>
            rw [hd, he] at h
            cases hn : d'.hand with
            | none => simp [hn]
            | some n =>
              cases hn' : e'.hand with
              | none => simp [hn, hn']
              | some n' =>
                simp only [hn, hn', Bool.and_eq_false_iff] at h ⊢
                rcases h with (hne | hrefused) | hrest
                · exact .inl (.inl (.inl hne))
                · exact .inr ⟨n, hrefused, .inl (.inr (by simp))⟩
                · rcases ih es hrest with hnowhere | ⟨i, hi, hfails⟩
                  · exact .inl (.inr hnowhere)
                  · exact .inr ⟨i, hi, .inr hfails⟩
      · simp [hlinked] at h

theorem Within.mono {Y : Set Nat} (hX : X ⊆ Y) (h : l.Within s byMeasure m X n) :
    l.Within s byMeasure m Y n := h.agrees fun n' hn' => by simpa using hX hn'

/-- What is not within a set of hands is within no set, or needs a hand that the set lacks. -/
theorem within_lacks (h : ¬l.Within s byMeasure m X n) :
    ¬l.Within s byMeasure m Set.univ n ∨ ∃ n' ∉ X, ¬l.Within s byMeasure m {n'}ᶜ n := by
  by_contra hnone
  push Not at hnone
  obtain ⟨⟨hand, dest, src, hhand, hdest, hsrc, hall⟩, hneeds⟩ := hnone
  refine h ⟨hand, dest, src, hhand, hdest, hsrc, ?_⟩
  rw [agrees, List.all_eq_true] at hall ⊢
  intro heading hheading
  by_contra hfails
  rcases follow_lacks _ _ (by simpa using hfails) with hnowhere | ⟨n', hn', hwithout⟩
  · have hfollow := hall heading hheading
    simp only [Set.mem_univ, decide_true] at hfollow
    rw [hnowhere] at hfollow
    cases hfollow
  · obtain ⟨hand', dest', src', hhand', hdest', hsrc', hagrees⟩ := hneeds n' (by simpa using hn')
    cases hhand.symm.trans hhand'
    cases hdest.symm.trans hdest'
    cases hsrc.symm.trans hsrc'
    have hfollow := List.all_eq_true.mp hagrees heading hheading
    rw [← Bool.not_eq_true] at hwithout
    refine hwithout (follow_mono (fun i hi => ?_) _ _ hfollow)
    simpa using hi

end Layout

namespace Planning

variable {s : Score} {l : Layout} {byMeasure : List Bool} {plans : List Plan} {m : Merge}
  {n : Nat} {F : Set (Nat × Merge)}

/-- The merges of some plans, each with its hand. -/
def planned (plans : List Plan) : Set (Nat × Merge) := {x | Plans plans x.1 x.2}

/-- A family of merges that needs nothing but itself: the ways from the two groups of each of
its merges are followed, forth and back, where exactly those hands are accepted that have the
same merge in the family. -/
def Sustained (s : Score) (l : Layout) (byMeasure : List Bool) (F : Set (Nat × Merge)) : Prop :=
  ∀ n m, (n, m) ∈ F → l.Within s (byMeasure[n]?.getD false) m {n' | (n', m) ∈ F} n

/-! ## Rounds -/

theorem getElem?_prune (s : Score) (l : Layout) (byMeasure : List Bool) (plans : List Plan)
    (n : Nat) : (prune s l byMeasure plans)[n]? =
      plans[n]?.map fun plan => plan.filter (holds s l byMeasure plans.toArray n) := by
  simp only [prune, List.getElem?_map, List.getElem?_zipIdx, Nat.zero_add, Option.map_map]
  rfl

theorem holds_of_failing_nil (hnone : failing s l byMeasure plans = []) {plan : Plan}
    (hplan : plans[n]? = some plan) (hm : m ∈ plan) :
    holds s l byMeasure plans.toArray n m = true := by
  have hplans : (settle s l byMeasure plans).plans = plans := by rw [settle, if_pos hnone]
  have hleft : (settle s l byMeasure plans).plans[n]? = some plan := by rwa [hplans]
  have hholds := holds_of_mem hleft hm
  rwa [hplans] at hholds

theorem prune_of_failing_nil (hnone : failing s l byMeasure plans = []) :
    prune s l byMeasure plans = plans := by
  refine List.ext_getElem? fun n => ?_
  rw [getElem?_prune]
  cases hplan : plans[n]? with
  | none => rfl
  | some plan =>
    rw [Option.map_some, List.filter_eq_self.mpr fun m hm => holds_of_failing_nil hnone hplan hm]

/-- What settling leaves is what some number of rounds leaves, no more than there are merges. -/
theorem settle_eq_iterate (s : Score) (l : Layout) (byMeasure : List Bool) (plans : List Plan) :
    ∃ rounds ≤ size plans,
      (prune s l byMeasure)^[rounds] plans = (settle s l byMeasure plans).plans := by
  induction plans using settle.induct s l byMeasure with
  | case1 plans hnone => exact ⟨0, Nat.zero_le _, by rw [settle, if_pos hnone]; rfl⟩
  | case2 plans hsome ih =>
    obtain ⟨rounds, hle, heq⟩ := ih
    refine ⟨rounds + 1, Nat.lt_of_le_of_lt hle (size_prune_lt hsome), ?_⟩
    rw [settle, if_neg hsome, Function.iterate_succ_apply, heq]

theorem iterate_prune_settle (s : Score) (l : Layout) (byMeasure : List Bool) (plans : List Plan)
    (more : Nat) : (prune s l byMeasure)^[more] (settle s l byMeasure plans).plans =
      (settle s l byMeasure plans).plans :=
  Function.iterate_fixed (prune_of_failing_nil (failing_settle s l byMeasure plans)) more

/-! ## What is left -/

/-- Of a plan, settling keeps some merges, in their order. -/
theorem exists_filter_settle (s : Score) (l : Layout) (byMeasure : List Bool) (plans : List Plan)
    (n : Nat) : ∃ keep : Merge → Bool,
      (settle s l byMeasure plans).plans[n]? = plans[n]?.map fun plan => plan.filter keep := by
  induction plans using settle.induct s l byMeasure with
  | case1 plans hnone =>
    refine ⟨fun _ => true, ?_⟩
    rw [settle, if_pos hnone]
    simp
  | case2 plans hsome ih =>
    obtain ⟨keep, hkeep⟩ := ih
    refine ⟨fun m => keep m && holds s l byMeasure plans.toArray n m, ?_⟩
    rw [settle, if_neg hsome, hkeep, getElem?_prune, Option.map_map]
    simp [Function.comp_def, List.filter_filter]

open Classical in
/-- Of a plan, settling keeps the merges that are still planned when it ends. -/
theorem getElem?_settle (s : Score) (l : Layout) (byMeasure : List Bool) (plans : List Plan)
    (n : Nat) : (settle s l byMeasure plans).plans[n]? = plans[n]?.map fun plan =>
      plan.filter fun m => decide ((n, m) ∈ planned (settle s l byMeasure plans).plans) := by
  obtain ⟨keep, hkeep⟩ := exists_filter_settle s l byMeasure plans n
  cases hplan : plans[n]? with
  | none => rw [hkeep, hplan, Option.map_none, Option.map_none]
  | some plan =>
    rw [hplan, Option.map_some] at hkeep
    rw [hkeep, Option.map_some]
    refine congrArg some (List.filter_congr fun m hm => ?_)
    simp [planned, Plans, hkeep, hm]

theorem planned_settle_subset (s : Score) (l : Layout) (byMeasure : List Bool)
    (plans : List Plan) : planned (settle s l byMeasure plans).plans ⊆ planned plans := by
  rintro ⟨n, m⟩ ⟨plan, hplan, hm⟩
  obtain ⟨keep, hkeep⟩ := exists_filter_settle s l byMeasure plans n
  obtain ⟨plan', hplan', rfl⟩ := Option.map_eq_some_iff.mp (hkeep.symm.trans hplan)
  exact ⟨plan', hplan', List.mem_of_mem_filter hm⟩

theorem within_of_holds (hholds : holds s l byMeasure plans.toArray n m = true) :
    l.Within s (byMeasure[n]?.getD false) m {n' | (n', m) ∈ planned plans} n := by
  unfold holds at hholds
  split at hholds
  next dest src hdest hsrc =>
    obtain ⟨h, hh, hdest⟩ := Option.bind_eq_some_iff.mp hdest
    obtain ⟨h', hh', hsrc⟩ := Option.bind_eq_some_iff.mp hsrc
    cases hh.symm.trans hh'
    refine ⟨h, dest, src, hh, hdest, hsrc, Layout.agrees_mono (fun n' hn' => ?_) hholds⟩
    rw [List.getElem?_toArray] at hn'
    cases hplan : plans[n']? with
    | none => simp [hplan] at hn'
    | some plan => simpa [planned, Plans, hplan] using hn'
  next => cases hholds

theorem sustained_settle (s : Score) (l : Layout) (byMeasure : List Bool) (plans : List Plan) :
    Sustained s l byMeasure (planned (settle s l byMeasure plans).plans) := by
  rintro n m ⟨plan, hplan, hm⟩
  exact within_of_holds (holds_of_mem hplan hm)

/-- No round takes anything from a sustained family. -/
theorem Sustained.subset_settle (hF : Sustained s l byMeasure F) (hplanned : F ⊆ planned plans) :
    F ⊆ planned (settle s l byMeasure plans).plans := fun x hx =>
  plans_settle (X := {n | (n, x.2) ∈ F}) (fun n hn => hF n x.2 hn) (fun _ hn => hplanned hn) x.1 hx

/-- A merge that is withdrawn needs more than the merges that are left: with it they would be a
larger sustained family. -/
theorem not_within_of_withdrawn (hplanned : (n, m) ∈ planned plans)
    (hwithdrawn : (n, m) ∉ planned (settle s l byMeasure plans).plans) :
    ¬l.Within s (byMeasure[n]?.getD false) m
      {n' | (n', m) ∈ planned (settle s l byMeasure plans).plans} n := by
  intro hwithin
  have hlarger : Sustained s l byMeasure
      (insert (n, m) (planned (settle s l byMeasure plans).plans)) := by
    rintro n' m' (heq | hleft)
    · cases heq
      exact hwithin.mono fun i hi => .inr hi
    · exact (sustained_settle s l byMeasure plans n' m' hleft).mono fun i hi => .inr hi
  refine hwithdrawn (hlarger.subset_settle ?_ (.inl rfl))
  exact Set.insert_subset hplanned (planned_settle_subset s l byMeasure plans)

open Classical in
/-- **Withdrawing loses nothing.** Settling is done after no more rounds than there are merges,
and further rounds change nothing. It keeps, in their order, the merges of the largest sustained
family among those planned. A merge is withdrawn only if the ways from its groups part, or if
they lead to a hand that makes the same merge in no sustained family. -/
theorem settle_greatest (s : Score) (l : Layout) (byMeasure : List Bool) (plans : List Plan) :
    (∃ rounds ≤ size plans, ∀ more, (prune s l byMeasure)^[rounds + more] plans =
      (settle s l byMeasure plans).plans) ∧
    (∀ n, (settle s l byMeasure plans).plans[n]? = plans[n]?.map fun plan : Plan =>
      plan.filter fun m => decide ((n, m) ∈ planned (settle s l byMeasure plans).plans)) ∧
    IsGreatest {F | F ⊆ planned plans ∧ Sustained s l byMeasure F}
      (planned (settle s l byMeasure plans).plans) ∧
    ∀ n m, (n, m) ∈ planned plans → (n, m) ∉ planned (settle s l byMeasure plans).plans →
      ¬l.Within s (byMeasure[n]?.getD false) m Set.univ n ∨
        ∃ n', ¬l.Within s (byMeasure[n]?.getD false) m {n'}ᶜ n ∧
          ∀ F ⊆ planned plans, Sustained s l byMeasure F → (n', m) ∉ F := by
  refine ⟨?_, getElem?_settle s l byMeasure plans, ⟨⟨planned_settle_subset s l byMeasure plans,
    sustained_settle s l byMeasure plans⟩, fun F hF => hF.2.subset_settle hF.1⟩, ?_⟩
  · obtain ⟨rounds, hle, heq⟩ := settle_eq_iterate s l byMeasure plans
    refine ⟨rounds, hle, fun more => ?_⟩
    rw [Nat.add_comm, Function.iterate_add_apply, heq, iterate_prune_settle]
  · intro n m hplanned hwithdrawn
    exact (Layout.within_lacks (not_within_of_withdrawn hplanned hwithdrawn)).imp_right
      fun ⟨n', hn', hneeds⟩ => ⟨n', hneeds, fun F hsub hF hmem => hn' (hF.subset_settle hsub hmem)⟩

end Planning

end Divisi
