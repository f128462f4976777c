/-
The pitches of a blended group.

Of the destination every pitch is kept. A note of the source is kept where the destination
has none at its position, if it prints as the first of the source does there; where the
destination has one, it is kept if that prints the same. Two groups that can be combined
print the same wherever they meet (`Group.Unites`), so a note of the source is lost only
behind one of the source's own (`Group.retains_blend`).
-/
import Divisi.Blend
import Divisi.Affinity

namespace Divisi

namespace Note

variable {x y z n : Note} {notes : List Note}

theorem samePosition_iff : x.samePosition y = true ↔ x.letter = y.letter ∧ x.octave = y.octave := by
  simp [samePosition]

@[simp] theorem samePosition_refl (x : Note) : x.samePosition x = true := by simp [samePosition]

theorem samePosition_congr (h : x.samePosition y = true) (z : Note) :
    z.samePosition x = z.samePosition y := by
  obtain ⟨hletter, hoctave⟩ := samePosition_iff.mp h
  simp only [samePosition, hletter, hoctave]

theorem samePosition_of_pitch (h : x.toPitch = y.toPitch) : x.samePosition y = true :=
  samePosition_iff.mpr ⟨congrArg Pitch.letter h, congrArg Pitch.octave h⟩

theorem pitch_eq (h : x.samePosition y = true) (ha : x.accidental = y.accidental) :
    x.toPitch = y.toPitch := by
  obtain ⟨hletter, hoctave⟩ := samePosition_iff.mp h
  cases hx : x.toPitch
  cases hy : y.toPitch
  simp_all

/-- The first of the notes at the position of `n` has its accidental too. -/
def Leads (n : Note) (notes : List Note) : Prop :=
  ∃ first, notes.find? (·.samePosition n) = some first ∧ first.toPitch = n.toPitch

instance (n : Note) (notes : List Note) : Decidable (n.Leads notes) :=
  match h : notes.find? (·.samePosition n) with
  | none => isFalse fun ⟨_, hfirst, _⟩ => by rw [h] at hfirst; cases hfirst
  | some first => decidable_of_iff (first.toPitch = n.toPitch)
      ⟨fun heq => ⟨first, h, heq⟩, fun ⟨_, hfirst, heq⟩ => by
        rw [h] at hfirst
        cases hfirst
        exact heq⟩

theorem Leads.exists (h : n.Leads notes) : ∃ first ∈ notes, first.toPitch = n.toPitch :=
  h.imp fun _ h => ⟨List.mem_of_find?_eq_some h.1, h.2⟩

theorem find?_position (hn : n ∈ notes) : ∃ first, notes.find? (·.samePosition n) = some first ∧
    first ∈ notes ∧ first.samePosition n = true := by
  obtain ⟨first, hfirst⟩ := Option.isSome_iff_exists.mp
    (List.find?_isSome.mpr ⟨n, hn, samePosition_refl n⟩ : (notes.find? (·.samePosition n)).isSome)
  exact ⟨first, hfirst, List.mem_of_find?_eq_some hfirst, by simpa using List.find?_some hfirst⟩

end Note

namespace Blend

variable {ours theirs : List Note}

/-- Some note has the pitch of `n`. -/
def Sounds (n : Note) (notes : List Note) : Prop := ∃ o ∈ notes, o.toPitch = n.toPitch

/-- Some note stands at the position of `n`. -/
def Meets (n : Note) (notes : List Note) : Prop := ∃ o ∈ notes, o.samePosition n = true

theorem Sounds.meets {n : Note} {notes : List Note} (h : Sounds n notes) : Meets n notes :=
  h.imp fun _ h => ⟨h.1, Note.samePosition_of_pitch h.2⟩

theorem sounds_iff_mem {n : Note} {notes : List Note} :
    Sounds n notes ↔ n.toPitch ∈ notes.map (·.toPitch) := by
  simp [Sounds]

@[simp] theorem toPitch_unison (kept added : Note) : (unison kept added).toPitch = kept.toPitch := rfl

theorem map_toPitch_modify (notes : List Note) (slot : Nat) (n : Note) :
    (notes.modify slot (unison · n)).map (·.toPitch) = notes.map (·.toPitch) := by
  induction notes generalizing slot with
  | nil => simp
  | cons o rest ih => cases slot <;> simp [ih]

theorem meets_congr {n : Note} {notes notes' : List Note}
    (h : notes.map (·.toPitch) = notes'.map (·.toPitch)) : Meets n notes ↔ Meets n notes' := by
  have hiff : ∀ notes : List Note, Meets n notes ↔
      ∃ p ∈ notes.map (·.toPitch), p.letter = n.letter ∧ p.octave = n.octave := fun notes => by
    simp only [Meets, Note.samePosition_iff, List.mem_map]
    exact ⟨fun ⟨o, ho, hpos⟩ => ⟨_, ⟨o, ho, rfl⟩, hpos⟩, fun ⟨_, ⟨o, ho, rfl⟩, hpos⟩ => ⟨o, ho, hpos⟩⟩
  rw [hiff, hiff, h]

theorem sounds_gather (n : Note) : Sounds n (gather ours theirs).notes ↔
    Sounds n ours ∨ ¬Meets n ours ∧ n.Leads theirs := by
  induction theirs generalizing ours with
  | nil => simp [gather, Note.Leads]
  | cons x rest ih =>
    have hskip : x.samePosition n = false → (n.Leads (x :: rest) ↔ n.Leads rest) := fun hx => by
      simp [Note.Leads, hx]
    rw [gather]
    cases hslot : ours.findIdx? (·.samePosition x) with
    | some slot =>
      obtain ⟨hlt, hox, -⟩ := List.findIdx?_eq_some_iff_getElem.mp hslot
      have hpitches := map_toPitch_modify ours slot x
      simp only [ih, sounds_iff_mem, hpitches, meets_congr hpitches]
      cases hx : x.samePosition n with
      | true =>
        have hmeets : Meets n ours :=
          ⟨_, List.getElem_mem hlt, (Note.samePosition_congr hx _).symm.trans hox⟩
        simp [hmeets]
      | false => rw [hskip hx]
    | none =>
      have hnone : ∀ o ∈ ours, o.samePosition x = false := by simpa using hslot
      simp only [ih]
      cases hx : x.samePosition n with
      | true =>
        have hmeets : ¬Meets n ours := fun ⟨o, ho, hon⟩ => by
          rw [← Note.samePosition_congr hx, hnone o ho] at hon
          cases hon
        have hmeets' : Meets n (ours ++ [x]) := ⟨x, by simp, hx⟩
        simp [hmeets, hmeets', Sounds, Note.Leads, hx]
      | false =>
        have hne : x.toPitch ≠ n.toPitch := fun he => by
          rw [Note.samePosition_of_pitch he] at hx
          cases hx
        rw [hskip hx]
        simp [Sounds, Meets, hne, hx]

/-- Of a C and a C sharp in one source only the first is kept. -/
example : (gather [{ letter := .g, accidental := .none, octave := 5 }]
    [{ letter := .c, accidental := .none, octave := 4 },
      { letter := .c, accidental := .sharp, octave := 4 }]).notes.map (·.toPitch) =
    [{ letter := .g, accidental := .none, octave := 5 },
      { letter := .c, accidental := .none, octave := 4 }] := by
  decide

theorem mem_order {n : Note} {notes : List Note} : n ∈ (order notes).map Prod.fst ↔ n ∈ notes := by
  have hperm : (order notes).Perm notes.zipIdx := List.mergeSort_perm _ _
  rw [(hperm.map Prod.fst).mem_iff, List.zipIdx_map_fst]

theorem sounds_order (n : Note) (notes : List Note) :
    Sounds n ((order notes).map Prod.fst) ↔ Sounds n notes := by
  simp only [Sounds, mem_order]

/-! ## Notes that agree -/

/-- Wherever the two meet, a note of the second sounds in the first if it leads. -/
def Agrees (ours theirs : List Note) : Prop :=
  ∀ n ∈ theirs, Meets n ours → (Sounds n ours ↔ n.Leads theirs)

theorem sounds_gather_of_agrees (h : Agrees ours theirs) {n : Note} (hn : n ∈ theirs) :
    Sounds n (gather ours theirs).notes ↔ n.Leads theirs := by
  rw [sounds_gather]
  by_cases hmeets : Meets n ours
  · simp [hmeets, h n hn hmeets]
  · have hnot : ¬Sounds n ours := fun hs => hmeets hs.meets
    simp [hmeets, hnot]

/-- What an upper note at a position of the lower has in common with the first of them. -/
theorem pitch_of_unisonsMatch {upper lower : List Note} (h : Group.unisonsMatch upper lower = true)
    {x y : Note} (hx : x ∈ upper) (hy : lower.find? (·.samePosition x) = some y) :
    y.toPitch = x.toPitch := by
  have hsame := List.all_eq_true.mp h x hx
  rw [hy, Option.all_some] at hsame
  simp only [Group.sameNote, Bool.and_eq_true, beq_iff_eq] at hsame
  exact Note.pitch_eq (by simpa using List.find?_some hy) hsame.1.1.1.symm

theorem find?_congr {x n : Note} (h : x.samePosition n = true) (notes : List Note) :
    notes.find? (·.samePosition x) = notes.find? (·.samePosition n) := by
  simp only [Note.samePosition_congr h]

theorem agrees_of_above (h : Group.unisonsMatch ours theirs = true) : Agrees ours theirs := by
  rintro n hn ⟨o, ho, hon⟩
  obtain ⟨first, hfirst, -, -⟩ := Note.find?_position hn
  have hall : ∀ o ∈ ours, o.samePosition n = true → first.toPitch = o.toPitch := fun o ho hon =>
    pitch_of_unisonsMatch h ho ((find?_congr hon theirs).trans hfirst)
  constructor
  · rintro ⟨o, ho, hpitch⟩
    exact ⟨first, hfirst, (hall o ho (Note.samePosition_of_pitch hpitch)).trans hpitch⟩
  · rintro ⟨_, hfirst', hpitch⟩
    cases hfirst.symm.trans hfirst'
    exact ⟨o, ho, (hall o ho hon).symm.trans hpitch⟩

/-- Below what is above it every note of a source sounds, where the two meet. -/
theorem first_of_below (h : Group.unisonsMatch theirs ours = true) {n : Note} (hn : n ∈ theirs)
    (hmeets : Meets n ours) :
    (∃ first, ours.find? (·.samePosition n) = some first ∧ first.toPitch = n.toPitch) ∧
      n.Leads theirs := by
  obtain ⟨o, ho, hon⟩ := hmeets
  obtain ⟨low, hlow⟩ := Option.isSome_iff_exists.mp
    (List.find?_isSome.mpr ⟨o, ho, hon⟩ : (ours.find? (·.samePosition n)).isSome)
  obtain ⟨first, hfirst, hmem, hpos⟩ := Note.find?_position hn
  have hpitch := pitch_of_unisonsMatch h hn hlow
  have hpitch' := pitch_of_unisonsMatch h hmem ((find?_congr hpos ours).trans hlow)
  exact ⟨⟨low, hlow, hpitch⟩, first, hfirst, hpitch'.symm.trans hpitch⟩

theorem agrees_of_below (h : Group.unisonsMatch theirs ours = true) : Agrees ours theirs := by
  intro n hn hmeets
  obtain ⟨⟨low, hlow, hpitch⟩, hleads⟩ := first_of_below h hn hmeets
  exact ⟨fun _ => hleads, fun _ => ⟨low, List.mem_of_find?_eq_some hlow, hpitch⟩⟩

/-- A destination that holds the notes of a voice above the source and of one below it. -/
theorem agrees_gather {upper lower : List Note} (h : Group.unisonsMatch upper theirs = true)
    (h' : Group.unisonsMatch theirs lower = true) :
    Agrees ((order (gather upper lower).notes).map Prod.fst) theirs := by
  rintro n hn ⟨o, ho, hon⟩
  rw [sounds_order, sounds_gather]
  by_cases hmeets : Meets n upper
  · simp [hmeets, agrees_of_above h n hn hmeets]
  · -- what meets the source there comes from the voice below
    have hlead : o.Leads lower := by
      refine (((sounds_gather o).mp ⟨o, mem_order.mp ho, rfl⟩).resolve_left ?_).2
      rintro ⟨u, hu, hpitch⟩
      exact hmeets ⟨u, hu, (Note.samePosition_of_pitch hpitch ▸ (Note.samePosition_congr hon u).symm)⟩
    obtain ⟨first, hfirst, -⟩ := hlead
    rw [find?_congr hon] at hfirst
    have hlower : Meets n lower :=
      ⟨first, List.mem_of_find?_eq_some hfirst, by simpa using List.find?_some hfirst⟩
    obtain ⟨⟨low, hlow, hpitch⟩, hleads⟩ := first_of_below h' hn hlower
    have hn' : n.Leads lower := ⟨low, hlow, hpitch⟩
    simp [hmeets, hn', hleads]

end Blend

/-! ## Groups -/

namespace Group

open Blend

variable {a b c : Group}

theorem grace_blend (h : a.grace = b.grace) : (a.blend b).group.grace = a.grace := by
  unfold blend
  split
  · rfl
  · split
    · exact h.symm
    · split <;> rfl

/-- What becomes of the notes of two groups, the second blended into the first. -/
structure Retains (a b c : Group) : Prop where
  /-- Every pitch of the destination is kept. -/
  dest : ∀ n ∈ a.notes, ∃ o ∈ c.notes, o.toPitch = n.toPitch
  /-- A note of the source is kept if it leads, or if it comes alone. -/
  src : ∀ n ∈ b.notes, (∃ o ∈ c.notes, o.toPitch = n.toPitch) ↔ a.isSpace = true ∨ n.Leads b.notes
  only : ∀ o ∈ c.notes, ∃ n, (n ∈ a.notes ∨ n ∈ b.notes) ∧ n.toPitch = o.toPitch

/-- The groups may be blended, the second into the first. -/
def Tallies (a b : Group) : Prop :=
  match a.kind, b.kind with
  | .space, _ | _, .space => True
  | .notes, .notes => Agrees a.notes b.notes
  | .notes, _ | _, .notes => False
  | _, _ => True

/-- The upper group goes with the lower as far as their pitches are concerned. -/
def Unites (upper lower : Group) : Prop :=
  match upper.kind, lower.kind with
  | .space, _ | _, .space => True
  | .notes, .notes => unisonsMatch upper.notes lower.notes = true
  | .notes, _ | _, .notes => False
  | _, _ => True

theorem Unites.tallies (h : Unites a b) : Tallies a b := by
  unfold Unites at h
  unfold Tallies
  cases ha : a.kind <;> cases hb : b.kind <;> simp only [ha, hb] at h ⊢
  exact agrees_of_above h

theorem Unites.tallies_below (h : Unites b a) : Tallies a b := by
  unfold Unites at h
  unfold Tallies
  cases ha : a.kind <;> cases hb : b.kind <;> simp only [ha, hb] at h ⊢
  exact agrees_of_below h

/-- Two groups print the same. -/
def SamePrint (a b : Group) : Prop := a.kind = b.kind ∧ a.notes = b.notes

theorem tallies_congr {a' b' : Group} (ha : a'.SamePrint a) (hb : b'.SamePrint b) :
    Tallies a' b' ↔ Tallies a b := by
  rw [Tallies, Tallies, ha.1, ha.2, hb.1, hb.2]

theorem kind_blend (a b : Group) : (a.blend b).group.kind =
    if a.kind = .space then b.kind else a.kind := by
  unfold blend isSpace
  cases ha : a.kind <;> cases hb : b.kind <;> simp [ha, Blend.marks]

theorem notes_blend (a b : Group) : (a.blend b).group.notes =
    match a.kind, b.kind with
    | _, .space => a.notes
    | .space, _ => b.notes
    | .notes, .notes => (order (gather a.notes b.notes).notes).map Prod.fst
    | _, _ => a.notes := by
  unfold blend isSpace
  cases ha : a.kind <;> cases hb : b.kind <;> simp [Blend.marks]

/-- A third group, between the two that have been blended. -/
theorem tallies_blend (h : Unites a c) (h' : Unites c b) : Tallies (a.blend b).group c := by
  unfold Unites at h h'
  unfold Tallies
  rw [kind_blend, notes_blend]
  cases ha : a.kind <;> cases hb : b.kind <;> cases hc : c.kind <;>
    simp [ha, hb, hc] at h h' ⊢
  · exact agrees_gather h h'
  · exact agrees_of_above h
  · exact agrees_of_below h'

/-- A group prints all the notes that it has. -/
def PrintsAll (g : Group) : Prop := g.kind ≠ .notes → g.notes = []

theorem PrintsAll.congr (h : a.PrintsAll) (hsame : b.SamePrint a) : b.PrintsAll := fun hk =>
  hsame.2.trans (h (hsame.1 ▸ hk))

theorem PrintsAll.toSpace (a : Group) : a.toSpace.PrintsAll := fun _ => rfl

theorem PrintsAll.blend (ha : a.PrintsAll) (hb : b.PrintsAll) : (a.blend b).group.PrintsAll := by
  unfold PrintsAll at *
  rw [kind_blend, notes_blend]
  cases hca : a.kind <;> cases hcb : b.kind <;> simp_all

/-- **What a blend keeps.** -/
theorem retains_blend (ha : a.PrintsAll) (hb : b.PrintsAll) (h : Tallies a b) :
    Retains a b (a.blend b).group := by
  have hshape : (a.kind = .space ∧ (a.blend b).group.notes = b.notes) ∨
      (b.notes = [] ∧ (a.blend b).group.notes = a.notes) ∨
      (a.isSpace = false ∧ Agrees a.notes b.notes ∧
        (a.blend b).group.notes = (order (gather a.notes b.notes).notes).map Prod.fst) := by
    unfold Tallies at h
    rw [notes_blend]
    unfold PrintsAll at ha hb
    cases hca : a.kind <;> cases hcb : b.kind <;> simp_all [isSpace]
  rcases hshape with ⟨hspace, hc⟩ | ⟨hnone, hc⟩ | ⟨hspace, hagrees, hc⟩
  · have hnone : a.notes = [] := ha (by simp [hspace])
    refine ⟨by simp [hnone], fun n hn => ?_, fun o ho => ⟨o, .inr (hc ▸ ho), rfl⟩⟩
    rw [hc]
    exact ⟨fun _ => .inl (by simp [isSpace, hspace]), fun _ => ⟨n, hn, rfl⟩⟩
  · exact ⟨fun n hn => ⟨n, hc ▸ hn, rfl⟩, by simp [hnone], fun o ho => ⟨o, .inl (hc ▸ ho), rfl⟩⟩
  · have hsounds : ∀ n, (∃ o ∈ (a.blend b).group.notes, o.toPitch = n.toPitch) ↔
        Sounds n (gather a.notes b.notes).notes := fun n => by
      rw [hc]
      exact sounds_order n _
    refine ⟨fun n hn => ?_, fun n hn => ?_, fun o ho => ?_⟩
    · rw [hsounds, sounds_gather]
      exact .inl ⟨n, hn, rfl⟩
    · rw [hsounds, sounds_gather_of_agrees hagrees hn, hspace]
      simp
    · rcases (sounds_gather o).mp ((hsounds o).mp ⟨o, ho, rfl⟩) with ⟨n, hn, hpitch⟩ | ⟨-, hleads⟩
      · exact ⟨n, .inl hn, hpitch⟩
      · obtain ⟨n, hn, hpitch⟩ := hleads.exists
        exact ⟨n, .inr hn, hpitch⟩

end Group

end Divisi
