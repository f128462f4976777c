/-
Merges along beams, ties and slurs.

Where a beam, tie or slur runs on from a group, the group that follows it is in a hand that
makes the same merge (`Score.Chorded.merges_along_links`); so a chain of hands makes a merge
in all of them or in none.
-/
import Mathlib.Logic.Relation
import Divisi.Proofs.Combined

namespace Divisi

/-- A beam, tie or slur of one of the two voices of a merge runs on from hand `n` into hand
`n'`. -/
def Layout.RunsOn (s : Score) (l : Layout) (m : Merge) (n n' : Nat) : Prop :=
  ∃ h h' v k k', l.hands[n]? = some h ∧ l.hands[n']? = some h' ∧ h'.staff = h.staff ∧
    (v = m.dest ∨ v = m.src) ∧ h.voice? v = some k ∧ h'.voice? v = some k' ∧
    s.Follows h.staff v k k' ∧ (s.groups.get k).continuesOnward = true

namespace Planned

variable {fits : Group → Prop} {s : Score} {l : Layout} {tables : List Affinity} {n n' : Nat}
  {m : Merge} {h h' : Hand} {dest src k k' : GroupKey}

theorem Makes.groups (hm : (l.plan s tables).Makes n m) : ∃ h dest src, l.hands[n]? = some h ∧
    h.voice? m.dest = some dest ∧ h.voice? m.src = some src := by
  obtain ⟨h, dest, src, hn, hdest, hsrc, -⟩ := follow_of_makes hm
  exact ⟨h, dest, src, hn, hdest, hsrc⟩

/-- Where one of the two groups of a merge runs on, both go on into one hand that makes the
merge, or neither does. -/
theorem next_of_makes (hl : l.LaidOut s) (hs : s.Sound fits) (hc : s.Charted)
    (hm : (l.plan s tables).Makes n m) (hn : l.hands[n]? = some h)
    (hdest : h.voice? m.dest = some dest) (hsrc : h.voice? m.src = some src)
    (hon : (s.groups.get dest).continuesOnward = true ∨
      (s.groups.get src).continuesOnward = true) :
    (∀ k, ¬s.Follows h.staff m.dest dest k ∧ ¬s.Follows h.staff m.src src k) ∨
      ∃ n' h' dest' src', l.hands[n']? = some h' ∧ h'.voice? m.dest = some dest' ∧
        h'.voice? m.src = some src' ∧ s.Follows h.staff m.dest dest dest' ∧
        s.Follows h.staff m.src src src' ∧ (l.plan s tables).Makes n' m := by
  have hh := List.mem_of_getElem? hn
  obtain ⟨i, -, -, -, hi⟩ := hl.beatsAt_of_voice? hs hc hh hdest
  obtain ⟨j, -, -, -, hj⟩ := hl.beatsAt_of_voice? hs hc hh hsrc
  have hleads : l.Leads s .forth dest ∨ l.Leads s .forth src := hon
  rcases step_of_makes hl hs hc hm hn hdest hsrc hleads with
    ⟨hd, he⟩ | ⟨n', h', dest', src', hd, he, hn', -, hdest', hsrc', hmakes⟩
  · refine .inl fun k => ⟨fun hf => ?_, fun hf => ?_⟩
    · exact Option.some_ne_none _ (((hl.next?_eq_some hs hi).mpr hf).symm.trans hd)
    · exact Option.some_ne_none _ (((hl.next?_eq_some hs hj).mpr hf).symm.trans he)
  · exact .inr ⟨n', h', dest', src', hn', hdest', hsrc', (hl.next?_eq_some hs hi).mp hd,
      (hl.next?_eq_some hs hj).mp he, hmakes⟩

/-- Where something runs on into one of the two groups of a merge, both come from one hand
that makes the merge. -/
theorem prev_of_makes (hl : l.LaidOut s) (hs : s.Sound fits) (hc : s.Charted)
    (hm : (l.plan s tables).Makes n m) (hn : l.hands[n]? = some h)
    (hdest : h.voice? m.dest = some dest) (hsrc : h.voice? m.src = some src)
    (hon : ∃ k, (s.Follows h.staff m.dest k dest ∨ s.Follows h.staff m.src k src) ∧
      (s.groups.get k).continuesOnward = true) :
    ∃ n' h' dest' src', l.hands[n']? = some h' ∧ h'.voice? m.dest = some dest' ∧
      h'.voice? m.src = some src' ∧ s.Follows h.staff m.dest dest' dest ∧
      s.Follows h.staff m.src src' src ∧ (l.plan s tables).Makes n' m := by
  have hh := List.mem_of_getElem? hn
  obtain ⟨i, -, -, -, hi⟩ := hl.beatsAt_of_voice? hs hc hh hdest
  obtain ⟨j, -, -, -, hj⟩ := hl.beatsAt_of_voice? hs hc hh hsrc
  obtain ⟨k, hfollows, hon⟩ := hon
  have hleads : l.Leads s .back dest ∨ l.Leads s .back src := hfollows.imp
    (fun hf => ⟨k, (hl.prev?_eq_some hs hi).mpr hf, hon⟩)
    fun hf => ⟨k, (hl.prev?_eq_some hs hj).mpr hf, hon⟩
  rcases step_of_makes hl hs hc hm hn hdest hsrc hleads with
    ⟨hd, he⟩ | ⟨n', h', dest', src', hd, he, hn', -, hdest', hsrc', hmakes⟩
  · rcases hfollows with hf | hf
    · exact absurd (((hl.prev?_eq_some hs hi).mpr hf).symm.trans hd) (Option.some_ne_none _)
    · exact absurd (((hl.prev?_eq_some hs hj).mpr hf).symm.trans he) (Option.some_ne_none _)
  · exact ⟨n', h', dest', src', hn', hdest', hsrc', (hl.prev?_eq_some hs hi).mp hd,
      (hl.prev?_eq_some hs hj).mp he, hmakes⟩

/-- Hands that something runs on between make a merge together. -/
theorem makes_iff_of_runsOn (hl : l.LaidOut s) (hs : s.Sound fits) (hc : s.Charted)
    (hon : l.RunsOn s m n n') : (l.plan s tables).Makes n m ↔ (l.plan s tables).Makes n' m := by
  obtain ⟨h, h', v, k, k', hn, hn', -, hv, hk, hk', hfollows, hon⟩ := hon
  obtain ⟨⟨i, hi⟩, j, hj⟩ := hfollows.mem
  have hnext : l.neighbour? .forth k = some k' := (hl.next?_eq_some hs hi).mpr hfollows
  have hprev : l.neighbour? .back k' = some k := (hl.prev?_eq_some hs hj).mpr hfollows
  constructor
  · intro hm
    exact makes_of_linked hl hs hc hm hn hn' hv hk hk' hnext
      (hl.linkedFrom_of_leads hs hi (show l.Leads s .forth k from hon) _)
  · intro hm
    exact makes_of_linked hl hs hc hm hn' hn hv hk' hk hprev
      (hl.linkedFrom_of_leads hs hj (show l.Leads s .back k' from ⟨k, hprev, hon⟩) _)

end Planned

/-- **Merges along links.** Where a beam, tie or slur runs on from a group of a planned merge,
both groups are followed in one hand that makes the merge, or neither is followed; where one
runs on into such a group, both follow groups of one hand that makes the merge. Hands that are
linked by any chain of these make the merge together. -/
theorem Score.Chorded.merges_along_links {t : Score} (ht : t.Chorded) :
    ∃ c, t.combineVoices = .ok c ∧ ∀ m,
      (∀ n, c.planned.Makes n m → ∃ h dest src, c.layout.hands[n]? = some h ∧
        h.voice? m.dest = some dest ∧ h.voice? m.src = some src ∧
        ((t.groups.get dest).continuesOnward = true ∨ (t.groups.get src).continuesOnward = true →
          (∀ k, ¬t.Follows h.staff m.dest dest k ∧ ¬t.Follows h.staff m.src src k) ∨
            ∃ n' h' dest' src', c.layout.hands[n']? = some h' ∧ h'.voice? m.dest = some dest' ∧
              h'.voice? m.src = some src' ∧ t.Follows h.staff m.dest dest dest' ∧
              t.Follows h.staff m.src src src' ∧ c.planned.Makes n' m) ∧
        ((∃ k, (t.Follows h.staff m.dest k dest ∨ t.Follows h.staff m.src k src) ∧
            (t.groups.get k).continuesOnward = true) →
          ∃ n' h' dest' src', c.layout.hands[n']? = some h' ∧ h'.voice? m.dest = some dest' ∧
            h'.voice? m.src = some src' ∧ t.Follows h.staff m.dest dest' dest ∧
            t.Follows h.staff m.src src' src ∧ c.planned.Makes n' m)) ∧
      ∀ n n', Relation.EqvGen (c.layout.RunsOn t m) n n' →
        (c.planned.Makes n m ↔ c.planned.Makes n' m) := by
  obtain ⟨c, hcombine, hof⟩ := ht.combined
  obtain ⟨tables, hplanned⟩ := hof.planned
  have hl := hof.laidOut
  refine ⟨c, hcombine, fun m => ?_⟩
  rw [hplanned]
  refine ⟨fun n hm => ?_, fun n n' hchain => ?_⟩
  · obtain ⟨h, dest, src, hn, hdest, hsrc⟩ := hm.groups
    exact ⟨h, dest, src, hn, hdest, hsrc,
      Planned.next_of_makes hl ht.sound ht.charted hm hn hdest hsrc,
      Planned.prev_of_makes hl ht.sound ht.charted hm hn hdest hsrc⟩
  · induction hchain with
    | rel _ _ hon => exact Planned.makes_iff_of_runsOn hl ht.sound ht.charted hon
    | refl => exact Iff.rfl
    | symm _ _ _ ih => exact ih.symm
    | trans _ _ _ _ _ ih ih' => exact ih.trans ih'

/-- Two voices, each tied from one half note to the next. -/
def tied : String :=
  "vcombine:\n voices: [1,2]\nmusic:\n- measure:\n  - voices:\n     1:\n     - time: 2\n" ++
  "       notes: [[g5,true]]\n     - time: 2\n       notes: [g5]\n     2:\n     - time: 2\n" ++
  "       notes: [[c4,true]]\n     - time: 2\n       notes: [c4]\n"

theorem merged_tied : ∃ t : Score, t.Chorded ∧ ∃ c, t.combineVoices = .ok c ∧
    ∃ h dest src, c.layout.hands[0]? = some h ∧ h.voice? 1 = some dest ∧ h.voice? 2 = some src ∧
      (t.groups.get dest).continuesOnward = true ∧
      ((∀ k, ¬t.Follows h.staff 1 dest k ∧ ¬t.Follows h.staff 2 src k) ∨
        ∃ n' h' dest' src', c.layout.hands[n']? = some h' ∧ h'.voice? 1 = some dest' ∧
          h'.voice? 2 = some src' ∧ t.Follows h.staff 1 dest dest' ∧
          t.Follows h.staff 2 src src' ∧ c.planned.Makes n' ⟨1, 2⟩) := by
  obtain ⟨s, hs, hfault, hplans⟩ := Score.exists_of_text tied
    (P := fun s => s.buildChords.fault = none ∧
      (s.buildChords.now.combineVoices.toOption.any fun c =>
        c.planned.plans == [[⟨1, 2⟩], [⟨1, 2⟩]] &&
          (c.layout.hands[0]?.bind (·.voice? 1)).any fun k =>
            (s.buildChords.now.groups.get k).continuesOnward) = true)
    (by decide +kernel)
  have ht : s.buildChords.now.Chorded := ⟨s, .of_text hs, hfault, rfl⟩
  obtain ⟨c, hc, hmerges⟩ := Score.Chorded.merges_along_links ht
  simp only [hc, Except.toOption, Option.any_some, Bool.and_eq_true, beq_iff_eq] at hplans
  obtain ⟨hplans, hon⟩ := hplans
  have hmakes : c.planned.Makes 0 ⟨1, 2⟩ := ⟨[⟨1, 2⟩], by rw [hplans]; rfl, by simp⟩
  obtain ⟨h, dest, src, hn, hdest, hsrc, hnext, -⟩ := (hmerges ⟨1, 2⟩).1 0 hmakes
  have hon : (s.buildChords.now.groups.get dest).continuesOnward = true := by
    simpa [hn, show h.voice? 1 = some dest from hdest] using hon
  exact ⟨_, ht, c, hc, h, dest, src, hn, hdest, hsrc, hon, hnext (.inl hon)⟩

end Divisi
