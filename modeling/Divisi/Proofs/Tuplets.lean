/-
Tuplets under combining.

Two groups are merged only where their tuplet marks agree, so a group that stays keeps its
marks; one that is folded leaves a space without any (`Combination.Of.keepsTuplet`). A tuplet
links nothing: neighbours in a tuplet are planned each for itself unless a beam, tie or slur, or
a request for whole measures, leads from one to the other. So a voice keeps its tuplets
complete exactly if each of them is folded as a whole or not at all
(`Score.Chorded.tuplets_complete_iff`).
-/
import Divisi.Proofs.Beams

namespace Divisi

/-- The place of a group in its tuplet. -/
def Group.tupletLoc (g : Group) : Span := (g.tuplet.map (·.loc)).getD .none

/-- Every tuplet runs on from its start to its end, along neighbours of one voice. -/
def Score.TupletsComplete (s : Score) : Prop := ∀ staff voice, s.RunsOn Group.tupletLoc staff voice

namespace Group

variable {a b : Group}

theorem tupletLoc_congr (h : a.tupletShape = b.tupletShape) : a.tupletLoc = b.tupletLoc := by
  have hloc : ∀ g : Group, g.tupletLoc = (g.tupletShape.map (·.1)).getD .none := fun g => by
    cases hg : g.tuplet <;> simp [tupletLoc, tupletShape, hg]
  rw [hloc, hloc, h]

theorem tupletShape_blend (h : a.tupletShape = b.tupletShape) :
    (a.blend b).group.tupletShape = a.tupletShape := by
  have hmarks : (Blend.marks a b).tupletShape = a.tupletShape := by
    cases ha : a.tuplet with
    | none => cases hb : b.tuplet <;> simp_all [tupletShape, Blend.marks, Blend.tuplet]
    | some ours =>
      cases hb : b.tuplet with
      | none => simp [tupletShape, Blend.marks, Blend.tuplet, ha, hb]
      | some theirs =>
        simp only [tupletShape, Blend.marks, Blend.tuplet, ha, hb, Option.map_some]
        split <;> rfl
  unfold blend
  split
  · rfl
  · split
    · exact h.symm
    · split
      · exact hmarks
      · exact hmarks

end Group

namespace Combination

open Merging

variable {c : Combination} {t : Score} {h : Hand} {m : Merge} {k k' : GroupKey}
  {staff voice : Nat}

/-! ## The marks of one group -/

theorem Of.tupletShape_of_step (hc : c.Of t) {x y : GroupKey} (hmem : (h, m) ∈ c.steps)
    (hx : h.voice? m.dest = some x) (hy : h.voice? m.src = some y) :
    (t.groups.get x).tupletShape = (t.groups.get y).tupletShape := by
  obtain ⟨-, q, hq⟩ := hc.judged_of_step hmem
  have hcompatible := hq (x, y) (hc.mem_zip_of_voice? (hc.offers hmem).1 hx hy)
  simp only [Layout.compatible, Group.sameTiming, Bool.and_eq_true, beq_iff_eq] at hcompatible
  exact hcompatible.1.1.1.1.1.1.2

/-- What is known of the tuplet marks of a group that is no grace note after some of the merges. -/
structure KeepsTuplet (t : Score) (steps : List (Hand × Merge)) (k : GroupKey) (s : Score) :
    Prop where
  folded : Folded steps k → (s.groups.get k).tuplet = none
  kept : ¬Folded steps k → (s.groups.get k).tupletShape = (t.groups.get k).tupletShape

/-- **Who keeps a tuplet.** A group that is folded has none; any other keeps the marks of its own. -/
theorem Of.keepsTuplet (hc : c.Of t) (hk : t.graceAt k = false) :
    KeepsTuplet t c.steps k c.score := by
  refine (hc.induction_steps (P := fun before s => s.graceAt k = false ∧ KeepsTuplet t before k s)
    (fun before h m after s s' hsteps hs hmerge ⟨hmain, hkeeps⟩ => ?_)
    ⟨hk, fun ⟨x, hx, _⟩ => absurd hx List.not_mem_nil, fun _ => rfl⟩).2
  obtain ⟨hmain', ⟨-, hfolded, hempty⟩ | ⟨y, hdest, hsrc, hfree, hstill, hblend⟩ |
      ⟨-, hstill, hsame⟩⟩ := hc.main_becomes hsteps ⟨⟨before, after, hsteps, hs⟩, hmerge⟩ hmain
  · exact ⟨hmain', fun _ => by rw [hempty]; rfl, fun hno => absurd hfolded hno⟩
  · refine ⟨hmain', fun hf => absurd hf hstill, fun _ => ?_⟩
    have hkept := hkeeps.kept hfree
    rw [hblend, Group.tupletShape_blend, hkept]
    exact hkept.trans (hc.tupletShape_of_step (by simp [hsteps]) hdest hsrc)
  · exact ⟨hmain', fun hf => hsame ▸ hkeeps.folded (hstill.mp hf),
      fun hno => hsame ▸ hkeeps.kept (mt hstill.mpr hno)⟩

/-! ## The tuplets of a voice -/

theorem KeepsTuplet.continues_eq {s : Score} {steps : List (Hand × Merge)}
    (h : KeepsTuplet t steps k s) [Decidable (Folded steps k)] :
    (s.groups.get k).tupletLoc.continues =
      (!decide (Folded steps k) && (t.groups.get k).tupletLoc.continues) := by
  by_cases hf : Folded steps k
  · simp [hf, Group.tupletLoc, h.folded hf, Span.continues]
  · simp [hf, Group.tupletLoc_congr (h.kept hf)]

theorem KeepsTuplet.carriedOn_eq {s : Score} {steps : List (Hand × Merge)}
    (h : KeepsTuplet t steps k s) [Decidable (Folded steps k)] :
    (s.groups.get k).tupletLoc.carriedOn =
      (!decide (Folded steps k) && (t.groups.get k).tupletLoc.carriedOn) := by
  by_cases hf : Folded steps k
  · simp [hf, Group.tupletLoc, h.folded hf, Span.carriedOn]
  · simp [hf, Group.tupletLoc_congr (h.kept hf)]

/-- The tuplets of a voice stay complete exactly if each is folded as a whole or not at all. -/
theorem Of.runsOn_tuplet_iff (hc : c.Of t) (ht : t.Chorded)
    (hcomplete : t.RunsOn Group.tupletLoc staff voice) :
    c.score.RunsOn Group.tupletLoc staff voice ↔ ∀ k k', t.Follows staff voice k k' →
      (t.groups.get k).tupletLoc.continues = true → (Folded c.steps k ↔ Folded c.steps k') := by
  classical
  have hfollows : ∀ {k k'}, c.score.Follows staff voice k k' ↔ t.Follows staff voice k k' :=
    hc.keepsTime.follows ht.sound
  have hbeats : ∀ {n}, c.score.beatsAt staff voice n = t.beatsAt staff voice n :=
    hc.keepsTime.beatsAt ht.sound
  have hkeeps : ∀ {n k}, k ∈ t.beatsAt staff voice n → KeepsTuplet t c.steps k c.score :=
    fun hk => hc.keepsTuplet (Score.graceAt_of_beatsAt hk)
  -- marks that matched are both left or both gone, unless one of the two groups is folded alone
  have hjoined : ∀ {k k'}, t.Follows staff voice k k' →
      ((c.score.groups.get k).tupletLoc.continues = (c.score.groups.get k').tupletLoc.carriedOn ↔
        ((t.groups.get k).tupletLoc.continues = true → (Folded c.steps k ↔ Folded c.steps k'))) := by
    intro k k' hkk'
    obtain ⟨⟨i, hi⟩, j, hj⟩ := hkk'.mem
    rw [(hkeeps hi).continues_eq, (hkeeps hj).carriedOn_eq, ← hcomplete.joined k k' hkk']
    by_cases hf : Folded c.steps k <;> by_cases hf' : Folded c.steps k' <;>
      cases (t.groups.get k).tupletLoc.continues <;> simp [hf, hf']
  constructor
  · exact fun hafter k k' hkk' => (hjoined hkk').mp (hafter.joined k k' (hfollows.mpr hkk'))
  · intro hwhole
    refine ⟨fun k k' hkk' => (hjoined (hfollows.mp hkk')).mpr (hwhole k k' (hfollows.mp hkk')),
      fun n k hk hlast => ?_, fun n k hk hfirst => ?_⟩
    · rw [hbeats] at hk
      rw [(hkeeps hk).continues_eq, hcomplete.ended n k hk fun k' hkk' =>
        hlast k' (hfollows.mpr hkk'), Bool.and_false]
    · rw [hbeats] at hk
      rw [(hkeeps hk).carriedOn_eq, hcomplete.begun n k hk fun k' hkk' =>
        hfirst k' (hfollows.mpr hkk'), Bool.and_false]

theorem Of.not_folded_one (hc : c.Of t) (ht : t.Chorded) {n : Nat} (hk : k ∈ t.beatsAt staff 1 n) :
    ¬Folded c.steps k := by
  rintro ⟨⟨h, m⟩, hmem, hsrc⟩
  obtain ⟨hh, -, ⟨d, hd⟩, -⟩ := hc.offers hmem
  have hone : m.src = 1 := (hc.place_unique ht hh hsrc hk).2
  have hupward := (hc.judged_of_step hmem).1
  have hdest := Hand.le_of_voice? hd
  omega

end Combination

/-- **Tuplets under combining.** A group that is merged into another has no tuplet any more; one
that is not keeps its place in the tuplet, the numbers and the side. So where tuplets are complete
they stay so in a voice exactly if of two neighbours in a tuplet both are merged into other voices
or neither is: always in voice 1, and wherever a beam, tie or slur leads through the tuplet. -/
theorem Score.Chorded.tuplets_complete_iff {t : Score} (ht : t.Chorded)
    (hcomplete : t.TupletsComplete) : ∃ c, t.combineVoices = .ok c ∧
      (∀ staff voice n, ∀ k ∈ t.beatsAt staff voice n,
        (Merging.Folded c.steps k → (c.score.groups.get k).tuplet = none) ∧
        (¬Merging.Folded c.steps k →
          (c.score.groups.get k).tupletShape = (t.groups.get k).tupletShape)) ∧
      (∀ staff voice, c.score.RunsOn Group.tupletLoc staff voice ↔
        ∀ k k', t.Follows staff voice k k' → (t.groups.get k).tupletLoc.continues = true →
          (Merging.Folded c.steps k ↔ Merging.Folded c.steps k')) ∧
      (∀ staff, c.score.RunsOn Group.tupletLoc staff 1) ∧
      ((∀ staff voice k k', t.Follows staff voice k k' →
          (t.groups.get k).tupletLoc.continues = true →
          (t.groups.get k).continuesOnward = true) → c.score.TupletsComplete) := by
  obtain ⟨c, hcombine, hc⟩ := ht.combined
  have hiff := fun staff voice => hc.runsOn_tuplet_iff ht (hcomplete staff voice)
  refine ⟨c, hcombine, fun staff voice n k hk => ?_, hiff, fun staff => ?_,
    fun hlinked staff voice => ?_⟩
  · have hkeeps := hc.keepsTuplet (graceAt_of_beatsAt hk)
    exact ⟨hkeeps.folded, hkeeps.kept⟩
  · refine (hiff staff 1).mpr fun k k' hkk' _ => ?_
    obtain ⟨⟨i, hi⟩, j, hj⟩ := hkk'.mem
    exact iff_of_false (hc.not_folded_one ht hi) (hc.not_folded_one ht hj)
  · refine (hiff staff voice).mpr fun k k' hkk' hon => ?_
    have honward := hlinked staff voice k k' hkk' hon
    exact ⟨fun hf => hc.folded_next ht hf hkk' honward, fun hf => hc.folded_prev ht hf hkk' honward⟩

/-- A duplet under one beam in each of two voices. -/
def beamedDuplets : String :=
  "time: 3/8\nvcombine:\n voices: [1,2]\nmusic:\n- measure:\n  - voices:\n     1:\n" ++
  "     - time: 8\n       notes: [g5]\n       beam: start\n       tuplet:\n        loc: start\n" ++
  "        num: 2\n     - time: 8\n       notes: [g5]\n       beam: end\n       tuplet:\n" ++
  "        loc: end\n        num: 2\n     2:\n     - time: 8\n       notes: [c4]\n" ++
  "       beam: start\n       tuplet:\n        loc: start\n        num: 2\n     - time: 8\n" ++
  "       notes: [c4]\n       beam: end\n       tuplet:\n        loc: end\n        num: 2\n"

theorem complete_beamedDuplets : ∃ t : Score, t.Chorded ∧ t.TupletsComplete ∧
    ∃ c, t.combineVoices = .ok c ∧ c.steps.length = 2 ∧ c.score.TupletsComplete := by
  obtain ⟨s, hs, hfault, hmade⟩ := Score.exists_of_spelled beamedDuplets
    (.append (.append (.append (.append (.append (.ofList _) (.ofList _)) (.ofList _)) (.ofList _))
      (.ofList _)) (.ofList _))
    (P := fun s => s.buildChords.fault = none ∧
      (s.buildChords.now.combineVoices.toOption.any fun c =>
        let t := s.buildChords.now
        c.layout.marksMeet Group.tupletLoc t && c.steps.length == 2 &&
          t.groups.slots.all fun g? => g?.all fun g =>
            !g.tupletLoc.continues || g.continuesOnward) = true)
    (by decide +kernel)
  have ht : s.buildChords.now.Chorded := ⟨s, .of_text hs, hfault, rfl⟩
  obtain ⟨c, hc, hof⟩ := ht.combined
  simp only [hc, Except.toOption, Option.any_some, Bool.and_eq_true, beq_iff_eq] at hmade
  obtain ⟨⟨hmeet, htwo⟩, hbeamed⟩ := hmade
  have hcomplete : s.buildChords.now.TupletsComplete := hof.laidOut.runsOn ht.sound hmeet
  obtain ⟨c', hc', -, -, -, hlinked⟩ := Score.Chorded.tuplets_complete_iff ht hcomplete
  cases hc.symm.trans hc'
  refine ⟨_, ht, hcomplete, c, hc, htwo, hlinked fun staff voice k k' hkk' hon => ?_⟩
  obtain ⟨i, hi⟩ := hkk'.mem.1
  obtain ⟨g, hg, -⟩ := ht.sound.get?_of_beatsAt hi
  rw [Arena.get_of_get? hg] at hon ⊢
  have hslot : some g ∈ s.buildChords.now.groups.slots :=
    Array.mem_of_getElem? (Option.join_eq_some_iff.mp hg)
  have hboth := Array.all_eq_true_iff_forall_mem.mp hbeamed _ hslot
  simpa [hon] using hboth

/-- A triplet in each of two voices, without a beam. The last two notes cross. -/
def crossingTriplets : String :=
  "vcombine:\n voices: [1,2]\nmusic:\n- measure:\n  - voices:\n     1:\n     - time: 2\n" ++
  "       notes: [g5]\n       tuplet:\n        loc: start\n        num: 3\n     - time: 2\n" ++
  "       notes: [g5]\n       tuplet:\n        loc: inner\n        num: 3\n     - time: 2\n" ++
  "       notes: [g5]\n       tuplet:\n        loc: end\n        num: 3\n     2:\n" ++
  "     - time: 2\n       notes: [c4]\n       tuplet:\n        loc: start\n        num: 3\n" ++
  "     - time: 2\n       notes: [c4]\n       tuplet:\n        loc: inner\n        num: 3\n" ++
  "     - time: 2\n       notes: [a5]\n       tuplet:\n        loc: end\n        num: 3\n"

/-- The first two notes of the lower triplet move up and leave its end alone. -/
theorem torn_crossingTriplets : ∃ t : Score, t.Chorded ∧ t.TupletsComplete ∧
    ∃ c, t.combineVoices = .ok c ∧ ¬c.score.TupletsComplete := by
  obtain ⟨s, hs, hfault, hmade⟩ := Score.exists_of_spelled crossingTriplets
    (.append (.append (.append (.append (.append (.append (.ofList _) (.ofList _)) (.ofList _))
      (.ofList _)) (.ofList _)) (.ofList _)) (.ofList _))
    (P := fun s => s.buildChords.fault = none ∧
      (s.buildChords.now.combineVoices.toOption.any fun c =>
        c.layout.marksMeet Group.tupletLoc s.buildChords.now &&
          c.score.beatsAt 1 2 0 == [⟨3⟩, ⟨4⟩, ⟨5⟩] &&
          (c.score.groups.get ⟨4⟩).tupletLoc == .none &&
          (c.score.groups.get ⟨5⟩).tupletLoc == .stop) = true)
    (by decide +kernel)
  have ht : s.buildChords.now.Chorded := ⟨s, .of_text hs, hfault, rfl⟩
  obtain ⟨c, hc, hof⟩ := ht.combined
  simp only [hc, Except.toOption, Option.any_some, Bool.and_eq_true, beq_iff_eq] at hmade
  obtain ⟨⟨⟨hmeet, hbeats⟩, hnone⟩, hstop⟩ := hmade
  refine ⟨_, ht, hof.laidOut.runsOn ht.sound hmeet, c, hc, fun hafter => ?_⟩
  have hfollows : c.score.Follows 1 2 ⟨4⟩ ⟨5⟩ := .within 0 [⟨3⟩] [] hbeats
  have hjoined := (hafter 1 2).joined _ _ hfollows
  rw [hnone, hstop] at hjoined
  cases hjoined

end Divisi
