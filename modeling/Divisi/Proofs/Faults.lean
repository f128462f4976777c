/-
Where processing can fail.

Once the chords of a score that was read have been built, its voices are combined without
fail: its groups can be seated and laid out, every pair that some request may name can be
judged in every hand, and whatever merges of two voices that a hand has are planned, few or
many, they can be made. So processing fails where a measure has no chords to make, and nowhere
else (`Score.Parsed.combining_never_fails`).
-/
import Divisi.Engraving
import Divisi.Proofs.Verdicts

namespace Divisi

/-- A score is processed to what its chords and its options make of it. -/
theorem Score.process_result {s : Score} (hfault : s.buildChords.fault = none) :
    s.process.result =
      if s.header.options.combine then s.buildChords.now.combineVoices.map (·.score)
      else .ok s.buildChords.now := by
  have hcombine : s.buildChords.now.header.options.combine = s.header.options.combine := rfl
  simp only [process, hfault, hcombine]
  split
  · cases s.buildChords.now.combineVoices <;> rfl
  · rfl

theorem Score.process_of_fault {s : Score} {fault : Fault} (hfault : s.buildChords.fault = some fault) :
    s.process.result = .error fault := by
  simp only [process, hfault]

theorem Score.fault_of_process {s u : Score} (h : s.process.result = .ok u) :
    s.buildChords.fault = none := by
  cases hfault : s.buildChords.fault with
  | none => rfl
  | some fault => cases (process_of_fault hfault).symm.trans h

theorem Score.Parsed.exists_process {s : Score} (h : s.Parsed) (hfault : s.buildChords.fault = none) :
    ∃ t, s.process.result = .ok t := by
  have hchorded : s.buildChords.now.Chorded := ⟨s, h, hfault, rfl⟩
  obtain ⟨c, hc, -⟩ := hchorded.combined
  rw [process_result hfault, hc]
  split
  · exact ⟨c.score, rfl⟩
  · exact ⟨_, rfl⟩

/-- Processing fails exactly as building chords does. -/
theorem Score.Parsed.process_error_iff {s : Score} (h : s.Parsed) {fault : Fault} :
    s.process.result = .error fault ↔ s.buildChords.fault = some fault := by
  refine ⟨fun herror => ?_, process_of_fault⟩
  cases hfault : s.buildChords.fault with
  | none =>
    obtain ⟨t, ht⟩ := h.exists_process hfault
    cases herror.symm.trans ht
  | some other =>
    rw [process_of_fault hfault] at herror
    cases herror
    rfl

namespace Combination

variable {c : Combination} {t : Score}

theorem Of.judge?_ok (hc : c.Of t) {h : Hand} (hh : h ∈ c.layout.hands) (q : Qualifier) (m : Merge) :
    ∃ verdict, h.judge? t c.layout q m = .ok verdict :=
  (Hand.judge?_ok hc.stands hh q m).imp fun _ hverdict => hverdict.1

/-- Any plans can be carried out that merge voices which the hands have. -/
theorem Of.perform_total (hc : c.Of t) (plans : List Plan)
    (hplans : ∀ x ∈ c.layout.hands.zip plans, ∀ m ∈ x.2, x.1.Offers m) :
    ∃ p, Merging.perform t c.layout plans = .ok p := by
  have hapart : List.Pairwise (fun x y : Hand × Plan => x.1.Apart y.1)
      (c.layout.hands.zip plans ++ []) := by
    rw [List.append_nil]
    refine List.pairwise_map.mp ?_
    rw [Merging.map_fst_zip]
    exact hc.apart.sublist (List.take_sublist _ _)
  have hhands : ∀ x ∈ c.layout.hands.zip plans ++ [], x.1 ∈ c.layout.hands := fun x hx => by
    rw [List.append_nil] at hx
    exact (List.of_mem_zip (a := x.1) (b := x.2) hx).1
  obtain ⟨s, hs, -⟩ := Merging.plans_total hc.stands hhands
    (fun x hx => hplans x (by rwa [List.append_nil] at hx)) hapart
  exact ⟨_, by rw [Merging.perform_eq, hs]; rfl⟩

end Combination

/-- **Combining never fails.** A score that was read and whose chords could be built can be laid
out; each hand can be judged as to any two voices and under any qualifier, not only those of the
request in force; and any plans can be carried out whose merges name two different voices that
the hand has, those made by the planner as well as those that leave some or all of their merges
out. So the voices are combined, and processing does not fail. -/
theorem Score.Parsed.combining_never_fails {s : Score} (h : s.Parsed)
    (hfault : s.buildChords.fault = none) :
    (∃ c, s.buildChords.now.combineVoices = .ok c ∧
      Layout.of s.buildChords.now = .ok c.layout ∧
      (∀ hand ∈ c.layout.hands, ∀ q m,
        ∃ verdict, hand.judge? s.buildChords.now c.layout q m = .ok verdict) ∧
      c.layout.judge s.buildChords.now = .ok c.verdicts ∧
      (∀ x ∈ c.layout.hands.zip c.planned.plans, ∀ m ∈ x.2, x.1.Offers m) ∧
      ∀ plans : List Plan, (∀ x ∈ c.layout.hands.zip plans, ∀ m ∈ x.2, x.1.Offers m) →
        ∃ t, Merging.perform s.buildChords.now c.layout plans = .ok t) ∧
    ∃ t, s.process.result = .ok t := by
  have hchorded : s.buildChords.now.Chorded := ⟨s, h, hfault, rfl⟩
  obtain ⟨c, hcombine, hc⟩ := hchorded.combined
  obtain ⟨hlayout, hjudged, -, -⟩ := combineVoices_eq_ok hcombine
  refine ⟨⟨c, hcombine, hlayout, fun hand hh => hc.judge?_ok hh, hjudged, fun x hx => ?_,
    hc.perform_total⟩, h.exists_process hfault⟩
  obtain ⟨n, hn⟩ := List.getElem?_of_mem hx
  obtain ⟨hh, hplan⟩ := List.getElem?_zip_eq_some.mp hn
  exact (hc.shape n x.1 x.2 hh hplan).offers

/-- Three voices, of which the second is hidden in the second measure; the third has a grace note
in both. -/
def crowded : String :=
  "vcombine:\n voices: [1,2,3]\nmusic:\n- measure:\n  - voices:\n     1:\n     - time: 1\n" ++
  "       notes: [g5]\n     2:\n     - time: 1\n       notes: [c4]\n     3:\n     - time: 16\n" ++
  "       grace: true\n       notes: [d5]\n     - time: 1\n       notes: [c5]\n" ++
  "- params: {staff: 1, voice: 2, visible: false}\n- measure:\n  - voices:\n     1:\n" ++
  "     - time: 1\n       notes: [g5]\n     2:\n     - time: 1\n       notes: [c4]\n     3:\n" ++
  "     - time: 16\n       grace: true\n       notes: [d5]\n     - time: 1\n       notes: [c5]\n"

/-- Its four merges can be made, and each hand can do without its first. -/
theorem combined_crowded : ∃ s : Score, s.Parsed ∧ s.buildChords.fault = none ∧
    ∃ c, s.buildChords.now.combineVoices = .ok c ∧ c.steps.map Prod.snd =
        [⟨1, 2⟩, ⟨1, 3⟩, ⟨1, 2⟩, ⟨1, 3⟩] ∧
      ∃ t, Merging.perform s.buildChords.now c.layout (c.planned.plans.map List.tail) = .ok t := by
  obtain ⟨s, hs, hfault, hsteps⟩ := Score.exists_of_spelled crowded
    (.append (.append (.append (.append (.append (.ofList _) (.ofList _)) (.ofList _)) (.ofList _))
      (.ofList _)) (.ofList _))
    (P := fun s => s.buildChords.fault = none ∧
      (s.buildChords.now.combineVoices.toOption.any fun c =>
        c.steps.map Prod.snd == [⟨1, 2⟩, ⟨1, 3⟩, ⟨1, 2⟩, ⟨1, 3⟩]) = true)
    (by decide +kernel)
  obtain ⟨⟨c, hc, -, -, -, hoffers, hany⟩, -⟩ := Score.Parsed.combining_never_fails (.of_text hs) hfault
  simp only [hc, Except.toOption, Option.any_some, beq_iff_eq] at hsteps
  refine ⟨s, .of_text hs, hfault, c, hc, hsteps, hany _ fun x hx m hm => ?_⟩
  rw [List.zip_map_right] at hx
  obtain ⟨y, hy, rfl⟩ := List.mem_map.mp hx
  exact hoffers y hy m (List.mem_of_mem_tail hm)

end Divisi
