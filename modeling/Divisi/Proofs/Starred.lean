/-
Final plans are stars.

A hand makes at most two merges, all into one voice, and any two of the voices that it joins
were judged to go together in that hand (`Score.Chorded.plans_are_stars`). Planning reads this
off tables that it overwrites as it goes; what it keeps of them is what the verdicts said.
-/
import Divisi.Proofs.Verdicts

namespace Divisi

/-- The voices that a plan names, sources and destinations alike. -/
def Plan.voices (plan : Plan) : List Nat := plan.flatMap fun m => [m.dest, m.src]

/-- Voices that join one other, each two of them going together. -/
structure Plan.Star (goes : Nat → Nat → Prop) (plan : Plan) : Prop where
  few : plan.length ≤ 2
  centre : ∀ m ∈ plan, ∀ m' ∈ plan, m.dest = m'.dest
  sources : (plan.map (·.src)).Nodup
  upward : ∀ m ∈ plan, m.dest < m.src
  /-- Two sources go together as well as each with the destination. -/
  together : ∀ v ∈ plan.voices, ∀ w ∈ plan.voices, v < w → goes v w

namespace Plan

variable {goes : Nat → Nat → Prop} {h : Hand} {plan : Plan} {v : Nat}

theorem mem_voices : v ∈ plan.voices ↔ ∃ m ∈ plan, v = m.dest ∨ v = m.src := by
  simp [voices]

theorem Shape.star (hs : Shape goes h plan) : plan.Star goes := by
  cases hs with
  | none => exact ⟨by simp, by simp, by simp, by simp, by simp [voices]⟩
  | one m hlt _ hgoes =>
    refine ⟨by simp, by simp, by simp, by simpa using hlt, fun v hv w hw hvw => ?_⟩
    simp only [voices, List.flatMap_cons, List.flatMap_nil, List.append_nil, List.mem_cons,
      List.not_mem_nil, or_false] at hv hw
    obtain ⟨rfl, rfl⟩ : v = m.dest ∧ w = m.src := by omega
    exact hgoes
  | both _ _ h₁₂ h₁₃ h₂₃ =>
    refine ⟨by simp, by simp, by simp, by simp, fun v hv w hw hvw => ?_⟩
    simp only [voices, List.flatMap_cons, List.flatMap_nil, List.append_nil, List.cons_append,
      List.nil_append, List.mem_cons, List.not_mem_nil, or_false] at hv hw
    obtain ⟨rfl, rfl⟩ | ⟨rfl, rfl⟩ | ⟨rfl, rfl⟩ :
        v = 1 ∧ w = 2 ∨ v = 1 ∧ w = 3 ∨ v = 2 ∧ w = 3 := by omega
    · exact h₁₂
    · exact h₁₃
    · exact h₂₃

end Plan

/-- **Final plans are stars of voices that go together.** The plan of a hand has at most two
merges, into one destination, from different and higher voices. Each voice that it names is in
the request in force for the staff and has a group in the hand; each two of them, two sources
included, were found compatible in that hand, so that no pair that was rejected meets in it. -/
theorem Score.Chorded.plans_are_stars {t : Score} (ht : t.Chorded) :
    ∃ c, t.combineVoices = .ok c ∧ c.planned.plans.length = c.layout.hands.length ∧
      ∀ (n : Nat) h plan, c.layout.hands[n]? = some h → c.planned.plans[n]? = some plan →
        ∃ p ∈ t.placed, ∃ chord verdicts, h.Seated t p chord ∧
          h.judge t c.layout = .ok verdicts ∧ c.verdicts[n]? = some verdicts ∧
          plan.Star (fun v w => ⟨⟨v, w⟩, true⟩ ∈ verdicts) ∧
          (∀ v ∈ plan.voices, (∃ r, p.inForce.request h.staff = some r ∧ v ∈ r.voices) ∧
            ∃ k, h.voice? v = some k) ∧
          ∀ x ∈ verdicts, x.compatible = false →
            ¬(x.merge.dest ∈ plan.voices ∧ x.merge.src ∈ plan.voices) := by
  obtain ⟨c, hcombine, hof⟩ := ht.combined
  refine ⟨c, hcombine, hof.length, fun n h plan hn hplan => ?_⟩
  obtain ⟨p, hp, chord, hseated⟩ := hof.laidOut.seated h (List.mem_of_getElem? hn)
  obtain ⟨h', verdicts, hn', hverdicts, hjudge, hshape⟩ := hof.shape_of_verdicts hcombine hplan
  cases hn.symm.trans hn'
  have hstar := hshape.star
  refine ⟨p, hp, chord, verdicts, hseated, hjudge, hverdicts, hstar, fun v hv => ?_, ?_⟩
  · obtain ⟨m, hm, hvm⟩ := Plan.mem_voices.mp hv
    obtain ⟨r, hr, hpair, ⟨-, hdest, hsrc⟩, -⟩ :=
      Hand.exists_of_judge hjudge (hshape.goes_of_mem m hm).2
    obtain ⟨hdestNamed, hsrcNamed, -⟩ := Request.mem_pairs.mp hpair
    rw [hseated.request] at hr
    rcases hvm with rfl | rfl
    · exact ⟨⟨r, hr, hdestNamed⟩, hdest⟩
    · exact ⟨⟨r, hr, hsrcNamed⟩, hsrc⟩
  · intro x hx hno hmeet
    obtain ⟨r, -, hpair, -⟩ := Hand.exists_of_judge hjudge hx
    have hyes := hstar.together _ hmeet.1 _ hmeet.2 (Request.mem_pairs.mp hpair).2.2
    rw [Hand.verdict_unique hjudge hx hyes rfl] at hno
    cases hno

/-- Three voices that move together, the third between the others. -/
def stacked : String :=
  "vcombine:\n voices: [1,2,3]\nmusic:\n- measure:\n  - voices:\n     1:\n     - time: 1\n" ++
  "       notes: [g5]\n     2:\n     - time: 1\n       notes: [c4]\n     3:\n     - time: 1\n" ++
  "       notes: [c5]\n"

theorem star_of_stacked : ∃ t : Score, t.Chorded ∧ ∃ c, t.combineVoices = .ok c ∧
    c.planned.plans = [[⟨1, 2⟩, ⟨1, 3⟩]] ∧ ∃ verdicts, c.verdicts[0]? = some verdicts ∧
      Plan.Star (fun v w => ⟨⟨v, w⟩, true⟩ ∈ verdicts) [⟨1, 2⟩, ⟨1, 3⟩] := by
  obtain ⟨s, hs, hfault, hplans⟩ := Score.exists_of_spelled stacked
    (.append (.append (.ofList _) (.ofList _)) (.ofList _))
    (P := fun s => s.buildChords.fault = none ∧
      (s.buildChords.now.combineVoices.toOption.any fun c =>
        c.planned.plans == [[⟨1, 2⟩, ⟨1, 3⟩]]) = true)
    (by decide +kernel)
  have ht : s.buildChords.now.Chorded := ⟨s, .of_text hs, hfault, rfl⟩
  obtain ⟨c, hc, hlength, hplan⟩ := Score.Chorded.plans_are_stars ht
  simp only [hc, Except.toOption, Option.any_some, beq_iff_eq] at hplans
  rw [hplans] at hlength
  obtain ⟨h, hn⟩ : ∃ h, c.layout.hands[0]? = some h :=
    ⟨_, List.getElem?_eq_getElem (by simp [← hlength])⟩
  obtain ⟨p, hp, chord, verdicts, -, -, hverdicts, hstar, -⟩ := hplan 0 h _ hn (by rw [hplans]; rfl)
  exact ⟨_, ht, c, hc, hplans, verdicts, hverdicts, hstar⟩

end Divisi
