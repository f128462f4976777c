/-
Processing a score that passed the check.

The check sums up the voices and verses of each measure; chords need besides that each of
their groups takes time. What a tuplet in the time of no notes leaves without time passes
the check, so a checked score is processed exactly if no such group is shown, as long as the
times between its onsets are in range (`Score.Parsed.process_of_validate`).
-/
import Divisi.Engraving
import Divisi.Proofs.Combined

namespace Divisi

/-! ## What the check asks for -/

namespace Validation

variable {s : Score} {p : Placed} {st : Stave}

theorem stave_of_validate (h : s.validate = .ok ()) (hp : p ∈ s.placed)
    (hst : st ∈ p.measure.staves) : stave s p.length st = .ok () := by
  have hmeasure : measure s p = .ok () := forM_eq_ok.mp h p hp
  unfold measure at hmeasure
  cases hstaves : p.measure.staves.forM (stave s p.inForce.time.duration) with
  | error e => simp [hstaves, Except.mapError] at hmeasure
  | ok u => exact forM_eq_ok.mp hstaves st hst

theorem length_eq_ok {part : Part} {spans : List Time} {expected : Time} :
    length part spans expected = .ok () ↔ Time.Addable 0 spans ∧ Time.total spans = expected := by
  unfold length
  split
  next hnone =>
    refine ⟨(nomatch ·), fun ⟨haddable, _⟩ => ?_⟩
    exact (nomatch hnone.symm.trans (Time.end?_eq_some.mpr ⟨haddable, rfl⟩))
  next total hsome =>
    obtain ⟨haddable, rfl⟩ := Time.end?_eq_some.mp hsome
    rw [zero_add, and_iff_right haddable]
    split <;> simp_all

/-- A checked voice has something besides grace notes, can be added up, and lasts as long as its
measure. -/
theorem voice_of_validate (h : s.validate = .ok ()) (hp : p ∈ s.placed)
    (hst : st ∈ p.measure.staves) {v : Nat} {list : List GroupKey} (hlist : st.list? v = some list) :
    s.timed list ≠ [] ∧ Time.Addable 0 (s.voiceSpans list) ∧
      Time.total (s.voiceSpans list) = p.length := by
  obtain ⟨_, hvoices, -⟩ := bind_eq_ok.mp (stave_of_validate h hp hst)
  have hvoice := forM_eq_ok.mp hvoices (v, list) (Stave.mem_present.mpr hlist)
  unfold voice at hvoice
  split at hvoice
  next => cases hvoice
  next hne => exact ⟨hne, length_eq_ok.mp hvoice⟩

theorem verse_of_validate (h : s.validate = .ok ()) (hp : p ∈ s.placed)
    (hst : st ∈ p.measure.staves) {list : List SyllableKey} (hlist : list ∈ st.verses) :
    Time.Addable 0 (s.verseSpans list) ∧ Time.total (s.verseSpans list) = p.length := by
  obtain ⟨_, -, hverses⟩ := bind_eq_ok.mp (stave_of_validate h hp hst)
  obtain ⟨n, hn⟩ := List.getElem?_of_mem hlist
  exact length_eq_ok.mp (forM_eq_ok.mp hverses (list, n) (List.mk_mem_zipIdx_iff_getElem?.mpr hn))

end Validation

/-! ## Groups without time -/

instance (g : Group) : Decidable g.Timeless :=
  inferInstanceAs (Decidable (g.wholeMeasure = false ∧ ∃ t, g.tuplet = some t ∧ t.inTimeOf = 0))

/-- A group without time is shown in the measure. -/
def Placed.Stalls (s : Score) (p : Placed) : Prop :=
  ∃ st ∈ p.measure.staves, p.inForce.staffVisible st.staff = true ∧
    ∃ x ∈ st.present, p.inForce.voiceVisible st.staff x.1 = true ∧
      ∃ k ∈ x.2, (s.groups.get k).grace = false ∧ (s.groups.get k).Timeless

instance (s : Score) (p : Placed) : Decidable (p.Stalls s) :=
  inferInstanceAs (Decidable (∃ st ∈ p.measure.staves, p.inForce.staffVisible st.staff = true ∧
    ∃ x ∈ st.present, p.inForce.voiceVisible st.staff x.1 = true ∧
      ∃ k ∈ x.2, (s.groups.get k).grace = false ∧ (s.groups.get k).Timeless))

section Process

variable {s : Score} {p : Placed} {st : Stave}

/-- A group takes time unless its tuplet leaves it none. -/
theorem Score.Sound.duration_pos_iff (hs : s.Sound Group.Written) {layer : Layer}
    {list : List GroupKey} (hlist : s.list? layer = some list) {k : GroupKey} (hk : k ∈ list)
    (hgrace : (s.groups.get k).grace = false) :
    0 < (s.groups.get k).duration ↔ ¬(s.groups.get k).Timeless := by
  obtain ⟨g, -, hg, -⟩ := hs.get?_of_mem hlist hk
  have hwritten := hs.stocked.fits k g hg
  rw [Arena.get_of_get? hg] at hgrace ⊢
  rw [← hwritten.timeless hgrace]
  exact ⟨fun h => h.ne', fun h => lt_of_le_of_ne hwritten.nonneg (Ne.symm h)⟩

/-- A checked measure is filled unless it shows a group without time. -/
theorem Placed.filled_iff_of_validate (hs : s.Sound Group.Written) (h : s.validate = .ok ())
    (hp : p ∈ s.placed) : p.Filled s ↔ ¬p.Stalls s := by
  have hmeasure := hs.measures _ (Placed.measure_mem hp)
  have hlayer : ∀ st ∈ p.measure.staves, ∀ v list, st.list? v = some list →
      s.list? ⟨p.item, st.staff, v⟩ = some list := fun st hst v list hlist =>
    Score.list?_eq_some.mpr ⟨_, st, Placed.measureAt?_item hp,
      Measure.stave?_of_mem hmeasure.ascending hst, hlist⟩
  constructor
  · rintro hfilled ⟨st, hst, hvisible, ⟨v, list⟩, hx, hshown, k, hk, hgrace, htimeless⟩
    have hlist := Stave.mem_present.mp hx
    have hfills := hfilled _ (mem_strands.mpr ⟨st, hst, hvisible, .inl ⟨v, list, hlist, rfl⟩⟩)
    simp only [Strand.lengths, if_pos hshown] at hfills
    refine (hs.duration_pos_iff (hlayer st hst v list hlist) hk hgrace).mp (hfills.2.1 _ ?_) htimeless
    refine List.mem_map_of_mem (List.mem_filter.mpr ⟨List.mem_map_of_mem hk, ?_⟩)
    simp [hgrace]
  · intro hstalls strand hstrand
    obtain ⟨st, hst, hvisible, ⟨v, list, hlist, rfl⟩ | ⟨list, hlist, rfl⟩⟩ :=
      mem_strands.mp hstrand
    · simp only [Strand.lengths]
      split
      next hshown =>
        obtain ⟨hne, -, htotal⟩ := Validation.voice_of_validate h hp hst hlist
        refine ⟨by simpa using hne, fun d hd => ?_, htotal⟩
        obtain ⟨g, hg, rfl⟩ := List.mem_map.mp hd
        obtain ⟨hg, hgrace⟩ := List.mem_filter.mp hg
        obtain ⟨k, hk, rfl⟩ := List.mem_map.mp hg
        have hgrace : (s.groups.get k).grace = false := by simpa using hgrace
        refine (hs.duration_pos_iff (hlayer st hst v list hlist) hk hgrace).mpr fun htimeless => ?_
        exact hstalls ⟨st, hst, hvisible, (v, list), Stave.mem_present.mpr hlist, hshown, k, hk,
          hgrace, htimeless⟩
      next =>
        -- a hidden voice counts as one space
        refine ⟨by simp, ?_, by simp [Time.total, length]⟩
        simpa using (hs.inForce p hp).duration_pos
    · have htotal := (Validation.verse_of_validate h hp hst hlist).2
      refine ⟨by simpa [Strand.lengths] using (hmeasure.staves st hst).verses list hlist,
        fun d hd => ?_, htotal⟩
      obtain ⟨k, hk, rfl⟩ := List.mem_map.mp hd
      have hsung : k ∈ s.sung :=
        List.mem_flatMap.mpr ⟨_, Placed.measure_mem hp, List.mem_flatMap.mpr
          ⟨st, hst, List.mem_flatten.mpr ⟨list, hlist, hk⟩⟩⟩
      obtain ⟨x, hx⟩ := hs.stocked.syllables.get? hsung
      rw [Arena.get_of_get? hx]
      exact hs.stocked.timed k x hx

/-- The time from each onset of the measure until the next can be formed. -/
def Placed.GapsFormable (s : Score) (p : Placed) : Prop :=
  Time.GapsFormable p.length
    ((p.strands.map (Strand.lengths s p.inForce)).flatMap (Time.startsFrom 0))

instance (s : Score) (p : Placed) : Decidable (p.GapsFormable s) :=
  inferInstanceAs (Decidable (Time.GapsFormable _ _))

/-- Of a checked measure, what may leave the range is the time between its onsets. -/
theorem Placed.inRange_iff_of_validate (hs : s.Sound Group.Written) (h : s.validate = .ok ())
    (hp : p ∈ s.placed) : p.InRange s ↔ p.GapsFormable s := by
  refine and_iff_right ?_
  simp only [List.mem_map, forall_exists_index, and_imp, forall_apply_eq_imp_iff₂]
  intro strand hstrand
  obtain ⟨st, hst, hvisible, ⟨v, list, hlist, rfl⟩ | ⟨list, hlist, rfl⟩⟩ := mem_strands.mp hstrand
  · simp only [Strand.lengths]
    split
    · exact (Validation.voice_of_validate h hp hst hlist).2.1
    · exact (hs.inForce p hp).time.addable
  · exact (Validation.verse_of_validate h hp hst hlist).1

/-- **What becomes of a checked score.** A score that was read and passed the check is processed
exactly if no measure shows a group without time; otherwise processing stops at the first
measure that does, as at an inconsistency. This holds as far as the times between onsets can be
formed; the sums of the check are those of building. -/
theorem Score.Parsed.process_of_validate (h : s.Parsed) (hv : s.validate = .ok ())
    (hgaps : ∀ p ∈ s.placed, p.GapsFormable s) :
    ((∃ t, s.process.result = .ok t) ↔ ∀ p ∈ s.placed, ¬p.Stalls s) ∧
      ∀ before p after, s.placed = before ++ p :: after → (∀ q ∈ before, ¬q.Stalls s) →
        p.Stalls s → ∃ breach, breach ≠ .overflow ∧
          s.process.result = .error (.inconsistent p.measure.number breach) := by
  have hsound := h.sound
  have hrange : ∀ p ∈ s.placed, p.InRange s := fun p hp =>
    (Placed.inRange_iff_of_validate hsound hv hp).mpr (hgaps p hp)
  have hbuildable : ∀ p ∈ s.placed, p.Buildable s ↔ ¬p.Stalls s := fun p hp =>
    (and_iff_left (hrange p hp)).trans (Placed.filled_iff_of_validate hsound hv hp)
  have hgood : s.buildChords.fault = none → ∃ t, s.process.result = .ok t := by
    intro hfault
    have hchorded : s.buildChords.now.Chorded := ⟨s, h, hfault, rfl⟩
    obtain ⟨c, hc, -⟩ := hchorded.combined
    unfold process
    simp only [hfault, hc]
    split
    · exact ⟨_, rfl⟩
    · exact ⟨_, rfl⟩
  have hbad : ∀ fault, s.buildChords.fault = some fault → s.process.result = .error fault := by
    intro fault hfault
    unfold process
    simp only [hfault]
  constructor
  · rw [← forall₂_congr hbuildable, ← hsound.fault_eq_none_iff]
    refine ⟨fun ⟨t, ht⟩ => ?_, hgood⟩
    cases hfault : s.buildChords.fault with
    | none => rfl
    | some fault =>
      rw [hbad fault hfault] at ht
      cases ht
  · intro before p after hplaced hbefore hstalls
    have hp : p ∈ s.placed := by simp [hplaced]
    obtain ⟨breach, hfault, hfails⟩ := hsound.fault_of_first hplaced
      (fun q hq => (hbuildable q (by simp [hplaced, hq])).mpr (hbefore q hq))
      fun hb => (hbuildable p hp).mp hb hstalls
    exact ⟨breach, hfails.ne_overflow hsound hp (hrange p hp), hbad _ hfault⟩

/-- A triplet in the time of no notes, after a whole note that fills the measure. -/
def tripletInNoTime : String :=
  "music:\n- measure:\n  - voices:\n     1:\n     - time: 1\n       notes: [c4]\n" ++
  "     - time: 4\n       notes: [d4]\n       tuplet:\n        num: 3\n        in-time-of: 0\n"

theorem stopped_tripletInNoTime : ∃ s : Score, Score.ofText tripletInNoTime = .ok s ∧
    s.validate = .ok () ∧ (∀ p ∈ s.placed, p.GapsFormable s) ∧
      ¬∃ t, s.process.result = .ok t := by
  obtain ⟨s, hs, hvalid, hgaps, hstalls⟩ := Score.exists_of_text tripletInNoTime
    (P := fun s => s.validate.toOption = some () ∧ (∀ p ∈ s.placed, p.GapsFormable s) ∧
      ∃ p ∈ s.placed, p.Stalls s) (by decide +kernel)
  have hvalid : s.validate = .ok () := by
    cases h : s.validate with
    | error e => simp [h, Except.toOption] at hvalid
    | ok u => rfl
  refine ⟨s, hs, hvalid, hgaps, fun hok => ?_⟩
  obtain ⟨p, hp, hstalls⟩ := hstalls
  exact (Score.Parsed.process_of_validate (.of_text hs) hvalid hgaps).1.mp hok p hp hstalls

end Process

end Divisi
