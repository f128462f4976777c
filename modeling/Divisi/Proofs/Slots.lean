/-
Where the notes of two groups stand in their blend.

A note of the destination keeps all that it is but its parentheses (`Group.note_at_destSlot`); a
note of the source goes to a note at its own position (`Group.note_at_srcSlot`), whether it is
added, gives way to a note that was there before, or finds the destination a space.
-/
import Divisi.Proofs.Consistent

namespace Divisi

namespace Blend

variable {ours theirs notes : List Note} {n : Note} {i j : Nat}

theorem gather_dest (theirs : List Note) (h : ours[i]? = some n) : ∃ p q,
    (gather ours theirs).notes[i]? = some { n with paren := p, accParen := q } := by
  induction theirs generalizing ours n with
  | nil => exact ⟨n.paren, n.accParen, h⟩
  | cons x rest ih =>
    rw [gather]
    cases ours.findIdx? (·.samePosition x) with
    | some slot =>
      have hkept : ∃ p q, (ours.modify slot (unison · x))[i]? =
          some { n with paren := p, accParen := q } := by
        rw [List.getElem?_modify, h]
        by_cases hi : slot = i
        · exact ⟨n.paren && x.paren, n.accParen && x.accParen, by simp [hi, unison]⟩
        · exact ⟨n.paren, n.accParen, by simp [hi]⟩
      obtain ⟨p, q, hkept⟩ := hkept
      obtain ⟨p', q', hkept'⟩ := ih hkept
      exact ⟨p', q', hkept'⟩
    | none =>
      obtain ⟨hi, -⟩ := List.getElem?_eq_some_iff.mp h
      exact ih ((List.getElem?_append_left hi).trans h)

theorem gather_src (ours : List Note) (h : theirs[j]? = some n) :
    ∃ slot n', (gather ours theirs).slots[j]? = some slot ∧
      (gather ours theirs).notes[slot]? = some n' ∧ n'.samePosition n = true := by
  induction theirs generalizing ours j with
  | nil => simp at h
  | cons x rest ih =>
    rw [gather]
    cases j with
    | zero =>
      cases h
      -- later notes change but the parentheses of the one that the first went to
      cases hslot : ours.findIdx? (·.samePosition n) with
      | some slot =>
        obtain ⟨hlt, hpos, -⟩ := List.findIdx?_eq_some_iff_getElem.mp hslot
        have hmodified : (ours.modify slot (unison · n))[slot]? = some (unison ours[slot] n) := by
          rw [List.getElem?_modify_eq, List.getElem?_eq_getElem hlt]
          rfl
        obtain ⟨p, q, hkept⟩ := gather_dest rest hmodified
        exact ⟨slot, _, rfl, hkept, hpos⟩
      | none =>
        obtain ⟨p, q, hkept⟩ := gather_dest rest (List.getElem?_concat_length (l := ours))
        exact ⟨ours.length, _, rfl, hkept, Note.samePosition_refl n⟩
    | succ j =>
      cases ours.findIdx? (·.samePosition x) with
      | some slot => exact ih (ours.modify slot (unison · x)) h
      | none => exact ih (ours ++ [x]) h

theorem order_placeIn (h : notes[i]? = some n) :
    ((order notes).map Prod.fst)[placeIn (order notes) i]? = some n := by
  obtain ⟨hi, -⟩ := List.getElem?_eq_some_iff.mp h
  have hlt := placeIn_lt hi
  have hindex : (order notes)[placeIn (order notes) i].2 = i :=
    beq_iff_eq.mp (List.findIdx_getElem (p := fun x : Note × Nat => x.2 == i) (w := hlt))
  have hmem : ∀ x ∈ order notes, x ∈ notes.zipIdx := fun x hx => List.mem_mergeSort.mp hx
  have hnote := List.mem_zipIdx_iff_getElem?.mp (hmem _ (List.getElem_mem hlt))
  rw [hindex, h] at hnote
  rw [List.getElem?_map, List.getElem?_eq_getElem hlt, Option.map_some, ← hnote]

end Blend

namespace Group

variable {a b : Group} {n : Note} {i : Nat}

/-- A note of the destination is found where its slot says, with other parentheses at most. -/
theorem note_at_destSlot (hprints : a.PrintsAll) (h : a.notes[i]? = some n) : ∃ p q, (a.blend b).group.notes[
    (a.blend b).destSlots[i]?.getD i]? = some { n with paren := p, accParen := q } := by
  obtain ⟨hi, -⟩ := List.getElem?_eq_some_iff.mp h
  have hstays : (List.range a.notes.length)[i]?.getD i = i := by simp [hi]
  unfold blend
  split
  · exact ⟨n.paren, n.accParen, by rwa [hstays]⟩
  split
  next hspace =>
    rw [hprints (by simp_all [isSpace])] at h
    cases h
  split
  next =>
    obtain ⟨p, q, hkept⟩ := Blend.gather_dest b.notes h
    have hslot : ((List.range a.notes.length).map (Blend.placeIn (Blend.order
        (Blend.gather a.notes b.notes).notes)))[i]?.getD i =
          Blend.placeIn (Blend.order (Blend.gather a.notes b.notes).notes) i := by simp [hi]
    exact ⟨p, q, by rw [hslot]; exact Blend.order_placeIn hkept⟩
  next => exact ⟨n.paren, n.accParen, by rw [hstays]; exact h⟩

/-- A note of the source is found where its slot says, as a note at its position. -/
theorem note_at_srcSlot (hprints : b.PrintsAll) (htallies : a.Tallies b)
    (h : b.notes[i]? = some n) :
    ∃ slot n', (a.blend b).srcSlots[i]? = some slot ∧
      (a.blend b).group.notes[slot]? = some n' ∧ n'.samePosition n = true := by
  obtain ⟨hi, -⟩ := List.getElem?_eq_some_iff.mp h
  have hb : b.kind = .notes := Classical.not_not.mp fun hk => by
    rw [hprints hk] at h
    cases h
  unfold blend
  split
  next hspace => simp [isSpace, hb] at hspace
  split
  next => exact ⟨i, n, by simp [hi], h, Note.samePosition_refl n⟩
  next hspace =>
    split
    next =>
      obtain ⟨slot, n', hslot, hn', hpos⟩ := Blend.gather_src a.notes h
      exact ⟨_, n', by rw [List.getElem?_map, hslot]; rfl, Blend.order_placeIn hn', hpos⟩
    next hother =>
      -- notes go with notes and spaces alone
      unfold Tallies at htallies
      cases ha : a.kind with
      | notes => exact absurd hb (hother ha)
      | space => exact absurd (by simp [isSpace, ha]) hspace
      | _ => simp [ha, hb] at htallies

end Group

end Divisi
