/-
What a plan can be.

Three voices make at most two merges, and then voices 2 and 3 both join voice 1
(`Layout.plan_spec`). Each merge that is planned was judged possible in its hand; where both
are made, voices 2 and 3 were judged to go together too, since voice 2 carries its
incompatibilities along.
-/
import Divisi.Proofs.Performed
import Divisi.Proofs.Settled

namespace Divisi

/-! ## Candidates -/

namespace Request

theorem distinct_ascending (voices : List Nat) : (distinct voices).Pairwise (· < ·) := by
  have hinsert : ∀ (v : Nat) (l : List Nat), l.Pairwise (· < ·) →
      (insertVoice v l).Pairwise (· < ·) := by
    intro v l hl
    induction l with
    | nil => simp [insertVoice]
    | cons w rest ih =>
      obtain ⟨hw, hrest⟩ := List.pairwise_cons.mp hl
      rw [insertVoice]
      split
      next hlt =>
        exact .cons (fun x hx => (List.mem_cons.mp hx).elim (fun he => he ▸ hlt) fun hx =>
          hlt.trans (hw x hx)) hl
      next =>
        split
        · exact hl
        · refine .cons (fun x hx => ?_) (ih hrest)
          rcases mem_insertVoice.mp hx with rfl | hx
          · omega
          · exact hw x hx
  induction voices with
  | nil => exact .nil
  | cons v rest ih => exact hinsert v _ ih

/-- The order in which candidates are considered. -/
def Before (m m' : Merge) : Prop := m.dest < m'.dest ∨ m.dest = m'.dest ∧ m.src < m'.src

theorem mem_mergesAmong {voices : List Nat} {m : Merge} (h : m ∈ mergesAmong voices) :
    m.dest ∈ voices ∧ m.src ∈ voices := by
  induction voices with
  | nil => simp [mergesAmong] at h
  | cons v rest ih =>
    rcases List.mem_append.mp h with h | h
    · obtain ⟨w, hw, rfl⟩ := List.mem_map.mp h
      exact ⟨by simp, by simp [hw]⟩
    · exact ⟨by simp [(ih h).1], by simp [(ih h).2]⟩

theorem mergesAmong_ascending {voices : List Nat} (h : voices.Pairwise (· < ·)) :
    (mergesAmong voices).Pairwise Before ∧ ∀ m ∈ mergesAmong voices, m.dest < m.src := by
  induction voices with
  | nil => simp [mergesAmong]
  | cons v rest ih =>
    obtain ⟨hv, hrest⟩ := List.pairwise_cons.mp h
    obtain ⟨hpairs, hlt⟩ := ih hrest
    refine ⟨List.pairwise_append.mpr ⟨?_, hpairs, fun m hm m' hm' => ?_⟩, fun m hm => ?_⟩
    · exact List.pairwise_map.mpr (hrest.imp fun hlt => .inr ⟨rfl, hlt⟩)
    · obtain ⟨w, -, rfl⟩ := List.mem_map.mp hm
      exact .inl (hv _ (mem_mergesAmong hm').1)
    · rcases List.mem_append.mp hm with hm | hm
      · obtain ⟨w, hw, rfl⟩ := List.mem_map.mp hm
        exact hv w hw
      · exact hlt m hm

theorem pairs_ascending (r : Request) :
    r.pairs.Pairwise Before ∧ ∀ m ∈ r.pairs, m.dest < m.src :=
  mergesAmong_ascending (distinct_ascending r.voices)

theorem mem_mergesAmong_of_lt {voices : List Nat} (h : voices.Pairwise (· < ·)) {v w : Nat}
    (hv : v ∈ voices) (hw : w ∈ voices) (hlt : v < w) : ⟨v, w⟩ ∈ mergesAmong voices := by
  induction voices with
  | nil => cases hv
  | cons x rest ih =>
    obtain ⟨hx, hrest⟩ := List.pairwise_cons.mp h
    rw [mergesAmong, List.mem_append]
    rcases List.mem_cons.mp hv with heq | hvrest
    · subst heq
      exact .inl (List.mem_map.mpr ⟨w, (List.mem_cons.mp hw).resolve_left (by omega), rfl⟩)
    · have hlow := hx v hvrest
      exact .inr (ih hrest hvrest ((List.mem_cons.mp hw).resolve_left (by omega)))

theorem mem_pairs {r : Request} {m : Merge} :
    m ∈ r.pairs ↔ m.dest ∈ r.voices ∧ m.src ∈ r.voices ∧ m.dest < m.src := by
  constructor
  · intro hm
    have hnamed := mem_mergesAmong hm
    exact ⟨mem_distinct.mp hnamed.1, mem_distinct.mp hnamed.2, r.pairs_ascending.2 m hm⟩
  · rintro ⟨hdest, hsrc, hlt⟩
    exact mem_mergesAmong_of_lt (distinct_ascending r.voices) (mem_distinct.mpr hdest)
      (mem_distinct.mpr hsrc) hlt

end Request

/-! ## Choosing -/

@[simp] theorem Affinity.get_empty (v w : Nat) : ({} : Affinity).get v w = false := by
  unfold get
  split <;> rfl

/-- The plans of a hand that make use of pairs that go together. -/
inductive Plan.Shape (goes : Nat → Nat → Prop) (h : Hand) : Plan → Prop
  | none : Shape goes h []
  | one (m : Merge) : m.dest < m.src → h.Offers m → goes m.dest m.src → Shape goes h [m]
  | both : h.Offers ⟨1, 2⟩ → h.Offers ⟨1, 3⟩ → goes 1 2 → goes 1 3 → goes 2 3 →
      Shape goes h [⟨1, 2⟩, ⟨1, 3⟩]

/-- The two voices go together as a table says. -/
def Affinity.Allows (t : Affinity) (v w : Nat) : Prop := t.get v w = true

theorem Hand.le_of_voice? {h : Hand} {v : Nat} {k : GroupKey} (hk : h.voice? v = some k) :
    1 ≤ v ∧ v ≤ 3 := by
  obtain ⟨x, hx⟩ : ∃ x, h.voices.get? v = some x := by
    rw [← Option.isSome_iff_exists]
    cases hx : h.voices.get? v <;> simp [voice?, hx] at hk ⊢
  exact PerVoice.le_of_get? hx

theorem Hand.Offers.cases {h : Hand} {m : Merge} (hm : h.Offers m) (hlt : m.dest < m.src) :
    m = ⟨1, 2⟩ ∨ m = ⟨1, 3⟩ ∨ m = ⟨2, 3⟩ := by
  obtain ⟨-, ⟨x, hx⟩, y, hy⟩ := hm
  have hd := le_of_voice? hx
  have hs := le_of_voice? hy
  obtain ⟨dest, src⟩ := m
  simp only [Merge.mk.injEq]
  simp only at hlt hd hs
  omega

namespace Plan.Shape

variable {goes goes' : Nat → Nat → Prop} {h : Hand} {plan plan' : Plan}

theorem imp (hs : Shape goes h plan)
    (himp : ∀ v w, v < w → 1 ≤ v → w ≤ 3 → goes v w → goes' v w) : Shape goes' h plan := by
  cases hs with
  | none => exact .none
  | one m hlt hm hgoes =>
    have hle : 1 ≤ m.dest ∧ m.src ≤ 3 := by
      rcases hm.cases hlt with rfl | rfl | rfl <;> simp
    exact .one m hlt hm (himp _ _ hlt hle.1 hle.2 hgoes)
  | both hm hm' h₁₂ h₁₃ h₂₃ =>
    exact .both hm hm' (himp 1 2 (by simp) (by simp) (by simp) h₁₂)
      (himp 1 3 (by simp) (by simp) (by simp) h₁₃) (himp 2 3 (by simp) (by simp) (by simp) h₂₃)

theorem offers (hs : Shape goes h plan) : ∀ m ∈ plan, h.Offers m := by
  cases hs with
  | none => simp
  | one m hlt hm hgoes => simpa using hm
  | both hm hm' => simpa using ⟨hm, hm'⟩

theorem goes_of_mem (hs : Shape goes h plan) : ∀ m ∈ plan, m.dest < m.src ∧ goes m.dest m.src := by
  cases hs with
  | none => simp
  | one m hlt _ hgoes => simpa using ⟨hlt, hgoes⟩
  | both _ _ h₁₂ h₁₃ _ => simpa using ⟨h₁₂, h₁₃⟩

/-- A merge comes first in a plan, or as the second of two. -/
theorem split {m : Merge} {rest : Plan} (hs : Shape goes h (plan ++ m :: rest)) :
    h.Offers m ∧ ((plan = [] ∧ goes m.dest m.src) ∨
      plan = [⟨1, 2⟩] ∧ m = ⟨1, 3⟩ ∧ h.Offers ⟨1, 2⟩ ∧ goes 1 3 ∧ goes 2 3) := by
  refine ⟨hs.offers m (by simp), ?_⟩
  generalize hwhole : plan ++ m :: rest = whole at hs
  cases hs with
  | none => simp at hwhole
  | one m' _ _ hgoes =>
    obtain ⟨rfl, heq⟩ | ⟨ys, rfl, heq⟩ := List.append_eq_cons_iff.mp hwhole
    · cases heq
      exact .inl ⟨rfl, hgoes⟩
    · simp at heq
  | both hm _ h₁₂ h₁₃ h₂₃ =>
    obtain ⟨rfl, heq⟩ | ⟨ys, rfl, heq⟩ := List.append_eq_cons_iff.mp hwhole
    · cases heq
      exact .inl ⟨rfl, h₁₂⟩
    · obtain ⟨rfl, heq⟩ | ⟨zs, rfl, heq⟩ := List.append_eq_cons_iff.mp heq.symm
      · cases heq
        exact .inr ⟨rfl, rfl, hm, h₁₃, h₂₃⟩
      · simp at heq

theorem sublist (hs : Shape goes h plan) (hsub : List.Sublist plan' plan) :
    Shape goes h plan' := by
  cases hs with
  | none =>
    rw [List.sublist_nil.mp hsub]
    exact .none
  | one m hlt hm ht =>
    rcases List.sublist_singleton.mp hsub with rfl | rfl
    · exact .none
    · exact .one m hlt hm ht
  | both hm hm' ht ht' ht'' =>
    have hone : Shape goes h [⟨1, 2⟩] := .one _ (by decide) hm ht
    have htwo : Shape goes h [⟨1, 3⟩] := .one _ (by decide) hm' ht'
    rcases List.sublist_cons_iff.mp hsub with hrest | ⟨rest, rfl, hrest⟩
    · rcases List.sublist_singleton.mp hrest with rfl | rfl
      · exact .none
      · exact htwo
    · rcases List.sublist_singleton.mp hrest with rfl | rfl
      · exact hone
      · exact .both hm hm' ht ht' ht''

end Plan.Shape

namespace Planning

variable {s : Score} {l : Layout} {n : Nat} {h : Hand} {byMeasure : Bool} {d : Draft} {m : Merge}
  {t : Affinity}

/-- A hand on its way: what it has chosen, and how its table stands. -/
structure Drafted (t : Affinity) (n : Nat) (h : Hand) (rest : List Merge) (d : Draft) : Prop where
  shape : Plan.Shape t.Allows h d.choice.plan
  table : d.tables[n]?.getD {} =
    d.choice.plan.foldl (fun t m => t.absorb m.dest m.src) t
  later : ∀ m ∈ d.choice.plan, ∀ m' ∈ rest, Request.Before m m'

theorem tables_consider {n' : Nat} (hne : n' ≠ n) :
    (consider s l n h byMeasure d m).tables[n']? = d.tables[n']? := by
  unfold consider
  split
  · rfl
  · split
    · split
      · rfl
      · split
        · simp [Array.getElem?_modify, hne.symm]
        · rfl
    · rfl

theorem Drafted.append {rest : List Merge} (hd : Drafted t n h (m :: rest) d)
    (hlt : m.dest < m.src) (hm : h.Offers m)
    (hroom : ¬(Plan.capacity ≤ d.choice.plan.length || usedUp d.choice.plan m) = true)
    (hallows : (d.choice.plan.foldl (fun t m => t.absorb m.dest m.src) t).get m.dest m.src = true) :
    Plan.Shape t.Allows h (d.choice.plan ++ [m]) := by
  obtain ⟨hshape, -, hlater⟩ := hd
  generalize d.choice.plan = plan at *
  cases hshape with
  | none => exact .one m hlt hm hallows
  | one m₁ hlt₁ hm₁ ht₁ =>
    have hbefore := hlater m₁ (by simp) m (by simp)
    rcases hm₁.cases hlt₁ with rfl | rfl | rfl <;> rcases hm.cases hlt with rfl | rfl | rfl <;>
      simp [Plan.capacity, usedUp, Request.Before] at hroom hbefore
    -- voice 2 is in voice 1 when voice 3 is considered
    have hboth : t.get 1 3 = true ∧ t.get 2 3 = true := by
      simpa [Affinity.absorb, Affinity.get, Affinity.set] using hallows
    exact .both hm₁ hm ht₁ hboth.1 hboth.2
  | both => simp [Plan.capacity] at hroom

theorem Drafted.consider {rest : List Merge} (hd : Drafted t n h (m :: rest) d)
    (hlt : m.dest < m.src) (hrest : ∀ m' ∈ rest, Request.Before m m') :
    Drafted t n h rest (consider s l n h byMeasure d m) := by
  have hskip : Drafted t n h rest d :=
    ⟨hd.shape, hd.table, fun m hm m' hm' => hd.later m hm m' (by simp [hm'])⟩
  unfold Planning.consider
  split
  · exact hskip
  next hroom =>
  split
  next dest src hdest hsrc =>
    split
    · exact hskip
    next hallows =>
    split
    · have hm : h.Offers m := ⟨Nat.ne_of_lt hlt, ⟨dest, hdest⟩, src, hsrc⟩
      have hallows : (d.choice.plan.foldl (fun t m => t.absorb m.dest m.src) t).get m.dest m.src =
          true := by
        rw [← hd.table]
        simpa [allows] using hallows
      have htable : (d.tables.modify n fun t => t.absorb m.dest m.src)[n]?.getD {} =
          (d.choice.plan ++ [m]).foldl (fun t m => t.absorb m.dest m.src) t := by
        rw [List.foldl_append, ← hd.table, List.foldl_cons, List.foldl_nil, Array.getElem?_modify,
          if_pos rfl]
        rw [← hd.table] at hallows
        cases ht : d.tables[n]? with
        | some t => rfl
        | none => simp [ht] at hallows
      refine ⟨hd.append hlt hm hroom hallows, htable, fun m₁ hm₁ m' hm' => ?_⟩
      rcases List.mem_append.mp hm₁ with hm₁ | hm₁
      · exact hskip.later m₁ hm₁ m' hm'
      · rw [List.mem_singleton.mp hm₁]
        exact hrest m' hm'
    · exact ⟨hskip.shape, hskip.table, hskip.later⟩
  · exact hskip

theorem drafted_foldl {pairs : List Merge} (hd : Drafted t n h pairs d)
    (hpairs : pairs.Pairwise Request.Before) (hlt : ∀ m ∈ pairs, m.dest < m.src) :
    Drafted t n h [] (pairs.foldl (Planning.consider s l n h byMeasure) d) := by
  induction pairs generalizing d with
  | nil => exact hd
  | cons m rest ih =>
    obtain ⟨hm, hrest⟩ := List.pairwise_cons.mp hpairs
    exact ih (hd.consider (hlt m (by simp)) hm) hrest fun m' hm' => hlt m' (by simp [hm'])

theorem tables_foldl {pairs : List Merge} {n' : Nat} (hne : n' ≠ n) :
    (pairs.foldl (Planning.consider s l n h byMeasure) d).tables[n']? = d.tables[n']? := by
  induction pairs generalizing d with
  | nil => rfl
  | cons m rest ih => rw [List.foldl_cons, ih, tables_consider hne]

theorem hand_spec (s : Score) (l : Layout) (tables : Array Affinity) (h : Hand) (n : Nat) :
    Plan.Shape (tables[n]?.getD {}).Allows h (hand s l tables h n).choice.plan ∧
      ∀ n', n' ≠ n → (hand s l tables h n).tables[n']? = tables[n']? := by
  have hstart : ∀ rest, Drafted (tables[n]?.getD {}) n h rest { tables } := fun rest =>
    ⟨.none, rfl, by simp⟩
  unfold hand
  cases h.request with
  | none => exact ⟨.none, fun _ _ => rfl⟩
  | some r =>
    obtain ⟨hpairs, hlt⟩ := r.pairs_ascending
    exact ⟨(drafted_foldl (hstart _) hpairs hlt).shape, fun n' hne => tables_foldl hne⟩

/-- Planning all hands: each is planned with its own table as it was at first. -/
theorem hands_spec (s : Score) (l : Layout) (xs : List Hand) (i : Nat)
    (tables tables' : Array Affinity) (htables : ∀ n, i ≤ n → tables[n]? = tables'[n]?) :
    (hands s l tables (xs.zipIdx i)).length = xs.length ∧
      ∀ n h choice, xs[n]? = some h → (hands s l tables (xs.zipIdx i))[n]? = some choice →
        Plan.Shape (tables'[i + n]?.getD {}).Allows h choice.plan := by
  induction xs generalizing i tables with
  | nil => simp [hands]
  | cons x rest ih =>
    obtain ⟨hshape, hothers⟩ := hand_spec s l tables x i
    obtain ⟨hlength, hrest⟩ := ih (i + 1) (hand s l tables x i).tables fun n hn =>
      (hothers n (by omega)).trans (htables n (by omega))
    rw [List.zipIdx_cons, hands]
    refine ⟨by simp [hlength], fun n h choice hx hchoice => ?_⟩
    cases n with
    | zero =>
      simp only [List.getElem?_cons_zero, Option.some.injEq] at hx hchoice
      subst hx hchoice
      rw [Nat.add_zero, ← htables i (Nat.le_refl i)]
      exact hshape
    | succ n =>
      rw [List.getElem?_cons_succ] at hx hchoice
      rw [show i + (n + 1) = i + 1 + n by omega]
      exact hrest n h choice hx hchoice

end Planning

/-- **What is planned.** -/
theorem Layout.plan_spec (s : Score) (l : Layout) (tables : List Affinity) :
    (l.plan s tables).plans.length = l.hands.length ∧
      ∀ (n : Nat) h plan, l.hands[n]? = some h → (l.plan s tables).plans[n]? = some plan →
        Plan.Shape (tables[n]?.getD {}).Allows h plan := by
  have hsub : List.Forall₂ List.Sublist (l.plan s tables).plans
      ((Planning.hands s l tables.toArray l.hands.zipIdx).map (·.plan)) :=
    Planning.settle_sublist s l l.byMeasure _
  obtain ⟨hlength, hshape⟩ := Planning.hands_spec s l l.hands 0 tables.toArray tables.toArray
    fun _ _ => rfl
  refine ⟨hsub.length_eq.trans (by rw [List.length_map, hlength]), fun n h plan hh hplan => ?_⟩
  obtain ⟨chosen, hchosen, hkept⟩ := exists_of_forall₂ hsub hplan
  rw [List.getElem?_map] at hchosen
  obtain ⟨choice, hchoice, rfl⟩ := Option.map_eq_some_iff.mp hchosen
  have := hshape n h choice hh hchoice
  rw [Nat.zero_add, List.getElem?_toArray] at this
  exact this.sublist hkept

end Divisi
