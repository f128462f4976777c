/-
Every note of two blended groups is accounted for.

Gathering sends each note of the source to a note at its own position, which is a new one just
where nothing before it stands there; the two slot maps of a blend follow the notes through the
order into which they are brought. What is in parentheses afterwards is what was so in every note
that came to stand there (`Group.accounts_of_blend`).
-/
import Divisi.Proofs.Slots

namespace Divisi

namespace Blend

variable {ours theirs notes : List Note} {n m : Note} {i j slot : Nat} {f : Note → Bool}

/-- The letter and the octave of a note. -/
def position (n : Note) : Letter × Int := (n.letter, n.octave)

/-- Nothing that comes before the `j`-th note of the source stands at its position. -/
def isFresh (ours theirs : List Note) (j : Nat) : Bool :=
  theirs[j]?.any fun n => position n ∉ (ours ++ theirs.take j).map position

/-! ## Notes as they are gathered -/

theorem samePosition_iff_position : n.samePosition m = true ↔ position n = position m := by
  rw [Note.samePosition_iff, position, position, Prod.mk.injEq]

theorem map_position_modify (notes : List Note) (slot : Nat) (n : Note) :
    (notes.modify slot (unison · n)).map position = notes.map position := by
  have hpitch : (position : Note → Letter × Int) =
      (fun p : Pitch => (p.letter, p.octave)) ∘ Note.toPitch := rfl
  rw [hpitch, ← List.map_map, map_toPitch_modify, List.map_map]

/-- Gathering one note more: it joins the first at its position, or is added. -/
theorem gather_cons (ours : List Note) (x : Note) (rest : List Note) :
    (∃ slot, slot < ours.length ∧ position x ∈ ours.map position ∧
      gather ours (x :: rest) =
        { gather (ours.modify slot (unison · x)) rest with
          slots := slot :: (gather (ours.modify slot (unison · x)) rest).slots }) ∨
    (position x ∉ ours.map position ∧ gather ours (x :: rest) =
      { gather (ours ++ [x]) rest with
        slots := ours.length :: (gather (ours ++ [x]) rest).slots }) := by
  rw [gather]
  cases hslot : ours.findIdx? (·.samePosition x) with
  | some slot =>
    obtain ⟨hlt, hpos, -⟩ := List.findIdx?_eq_some_iff_getElem.mp hslot
    refine .inl ⟨slot, hlt, ?_, rfl⟩
    rw [← samePosition_iff_position.mp hpos]
    exact List.mem_map_of_mem (List.getElem_mem hlt)
  | none =>
    refine .inr ⟨fun hmem => ?_, rfl⟩
    obtain ⟨o, ho, hpos⟩ := List.mem_map.mp hmem
    have hnone := List.findIdx?_eq_none_iff.mp hslot o ho
    rw [samePosition_iff_position.mpr hpos] at hnone
    cases hnone

theorem length_slots (ours theirs : List Note) :
    (gather ours theirs).slots.length = theirs.length := by
  induction theirs generalizing ours with
  | nil => rfl
  | cons x rest ih =>
    obtain ⟨slot, -, -, hg⟩ | ⟨-, hg⟩ := gather_cons ours x rest <;>
      simp only [hg, List.length_cons, ih]

theorem mem_position_gather (ours theirs : List Note) (p : Letter × Int) :
    p ∈ (gather ours theirs).notes.map position ↔
      p ∈ ours.map position ∨ p ∈ theirs.map position := by
  induction theirs generalizing ours with
  | nil => simp [gather]
  | cons x rest ih =>
    rw [List.map_cons, List.mem_cons]
    obtain ⟨slot, -, hx, hg⟩ | ⟨-, hg⟩ := gather_cons ours x rest <;> rw [hg, ih]
    · rw [map_position_modify]
      exact ⟨Or.imp_right .inr, fun h => h.elim .inl fun h =>
        h.elim (fun h => .inl (h ▸ hx)) .inr⟩
    · rw [List.map_append, List.mem_append, List.map_singleton, List.mem_singleton, or_assoc]

theorem slot_gather (ours theirs : List Note) (h : slot < (gather ours theirs).notes.length) :
    slot < ours.length ∨ slot ∈ (gather ours theirs).slots := by
  induction theirs generalizing ours with
  | nil => exact .inl h
  | cons x rest ih =>
    obtain ⟨first, -, -, hg⟩ | ⟨-, hg⟩ := gather_cons ours x rest <;> rw [hg] at h ⊢ <;>
      have hslot := ih _ h
    · rw [List.length_modify] at hslot
      exact hslot.imp_right (List.mem_cons_of_mem _)
    · rw [List.length_append, List.length_singleton, Nat.lt_succ_iff_lt_or_eq, or_assoc] at hslot
      exact hslot.imp_right fun h => h.elim (fun h => h ▸ List.mem_cons_self)
        (List.mem_cons_of_mem _)

/-! ## Fresh notes -/

theorem isFresh_eq (h : theirs[j]? = some n) : isFresh ours theirs j = true ↔
    position n ∉ ours.map position ∧ position n ∉ (theirs.take j).map position := by
  simp only [isFresh, h, Option.any_some, decide_eq_true_eq, List.map_append, List.mem_append,
    not_or]

theorem isFresh_zero (ours rest : List Note) (x : Note) :
    isFresh ours (x :: rest) 0 = true ↔ position x ∉ ours.map position := by
  rw [isFresh_eq rfl]
  simp

theorem isFresh_congr {ours' theirs' : List Note} {j' : Nat} (hnote : theirs[j]? = theirs'[j']?)
    (h : ∀ p, p ∈ (ours ++ theirs.take j).map position ↔
      p ∈ (ours' ++ theirs'.take j').map position) :
    isFresh ours theirs j = isFresh ours' theirs' j' := by
  simp only [isFresh, hnote, h]

theorem isFresh_joined {x : Note} {rest : List Note} (hx : position x ∈ ours.map position)
    (slot j : Nat) :
    isFresh ours (x :: rest) (j + 1) = isFresh (ours.modify slot (unison · x)) rest j := by
  refine isFresh_congr (by simp) fun p => ?_
  simp only [List.take_succ_cons, List.map_append, List.map_cons, List.mem_append, List.mem_cons,
    map_position_modify]
  exact ⟨fun h => h.elim .inl fun h => h.elim (fun h => .inl (h ▸ hx)) .inr, Or.imp_right .inr⟩

theorem isFresh_added (ours rest : List Note) (x : Note) (j : Nat) :
    isFresh ours (x :: rest) (j + 1) = isFresh (ours ++ [x]) rest j :=
  isFresh_congr (by simp) fun p => by simp

/-- **A fresh note adds one note, any other none.** -/
theorem length_gather (ours theirs : List Note) : (gather ours theirs).notes.length =
    ours.length + (List.range theirs.length).countP (isFresh ours theirs) := by
  induction theirs generalizing ours with
  | nil => rfl
  | cons x rest ih =>
    rw [List.length_cons, List.range_succ_eq_map, List.countP_cons, List.countP_map]
    obtain ⟨slot, -, hx, hg⟩ | ⟨hx, hg⟩ := gather_cons ours x rest <;>
      rw [hg, ih]
    · have hstale : ¬isFresh ours (x :: rest) 0 = true := by simpa [isFresh_zero] using hx
      have hrest : isFresh ours (x :: rest) ∘ Nat.succ =
          isFresh (ours.modify slot (unison · x)) rest := funext (isFresh_joined hx slot)
      rw [if_neg hstale, hrest, List.length_modify, Nat.add_zero]
    · have hrest : isFresh ours (x :: rest) ∘ Nat.succ = isFresh (ours ++ [x]) rest :=
        funext (isFresh_added ours rest x)
      rw [if_pos ((isFresh_zero ours rest x).mpr hx), hrest, List.length_append,
        List.length_singleton]
      omega

/-- A note is sent where none was sent before just if it is fresh. -/
theorem slot_of_isFresh (hslot : (gather ours theirs).slots[j]? = some slot) :
    isFresh ours theirs j = true ↔
      ¬(slot < ours.length ∨ slot ∈ (gather ours theirs).slots.take j) := by
  induction theirs generalizing ours j with
  | nil => simp [gather] at hslot
  | cons x rest ih =>
    obtain ⟨first, hlt, hx, hg⟩ | ⟨hx, hg⟩ := gather_cons ours x rest <;> rw [hg] at hslot ⊢ <;>
      cases j with
      | zero => ?_
      | succ j => ?_
    · cases hslot
      simpa [isFresh_zero, hlt] using hx
    · rw [isFresh_joined hx first, ih (by simpa using hslot), List.length_modify,
        List.take_succ_cons, List.mem_cons]
      have hne : slot = first → slot < ours.length := fun h => h ▸ hlt
      tauto
    · cases hslot
      simpa [isFresh_zero] using hx
    · rw [isFresh_added, ih (by simpa using hslot), List.length_append, List.length_singleton,
        List.take_succ_cons, List.mem_cons, Nat.lt_succ_iff_lt_or_eq, or_assoc]

theorem gather_fresh (h : theirs[j]? = some n) (hfresh : isFresh ours theirs j = true) :
    ∃ slot p q, (gather ours theirs).slots[j]? = some slot ∧
      (gather ours theirs).notes[slot]? = some { n with paren := p, accParen := q } := by
  induction theirs generalizing ours j with
  | nil => simp at h
  | cons x rest ih =>
    cases j with
    | zero =>
      cases h
      obtain ⟨slot, -, hx, -⟩ | ⟨-, hg⟩ := gather_cons ours n rest
      · exact absurd hx ((isFresh_zero ours rest n).mp hfresh)
      · obtain ⟨p, q, hkept⟩ := gather_dest rest (List.getElem?_concat_length (l := ours))
        exact ⟨ours.length, p, q, by rw [hg]; rfl, by rw [hg]; exact hkept⟩
    | succ j =>
      obtain ⟨slot, -, hx, hg⟩ | ⟨-, hg⟩ := gather_cons ours x rest <;> rw [hg]
      · exact ih h (isFresh_joined hx slot j ▸ hfresh)
      · exact ih h (isFresh_added ours rest x j ▸ hfresh)

/-! ## Parentheses -/

/-- Whatever is sent to the slot has the mark. -/
def AllSent (f : Note → Bool) (notes : List Note) (slots : List Nat) (slot : Nat) : Prop :=
  ∀ (i : Nat) (n : Note), notes[i]? = some n → slots[i]? = some slot → f n = true

theorem allSent_cons {x : Note} {rest : List Note} {first : Nat} {slots : List Nat} :
    AllSent f (x :: rest) (first :: slots) slot ↔
      (first = slot → f x = true) ∧ AllSent f rest slots slot := by
  refine ⟨fun h => ⟨fun hfirst => h 0 x rfl (congrArg some hfirst), fun j => h (j + 1)⟩,
    fun ⟨hx, hrest⟩ j n hn hslot => ?_⟩
  cases j with
  | zero =>
    cases hn
    exact hx (Option.some.inj hslot)
  | succ j => exact hrest j n hn hslot

/-- A mark that two notes in unison must share is left where whatever came to stand there has
it. -/
theorem gather_mark (hf : ∀ x y, f (unison x y) = (f x && f y))
    (h : (gather ours theirs).notes[slot]? = some m) : f m = true ↔
      (∀ n, ours[slot]? = some n → f n = true) ∧
        AllSent f theirs (gather ours theirs).slots slot := by
  induction theirs generalizing ours with
  | nil =>
    have hm : ours[slot]? = some m := h
    simp [hm, AllSent]
  | cons x rest ih =>
    obtain ⟨first, hlt, -, hg⟩ | ⟨-, hg⟩ := gather_cons ours x rest <;> rw [hg] at h ⊢ <;>
      rw [ih h, allSent_cons, ← and_assoc] <;> refine and_congr_left fun _ => ?_
    · rw [List.getElem?_modify]
      by_cases hslot : first = slot
      · subst hslot
        simp [hf, List.getElem?_eq_getElem hlt]
      · simp [hslot]
    · rcases Nat.lt_trichotomy slot ours.length with hslot | hslot | hslot
      · simp [List.getElem?_append_left hslot, hslot.ne']
      · simp [hslot]
      · have hover : (ours ++ [x])[slot]? = none := by simp; omega
        have hnone : ours[slot]? = none := by simp; omega
        simp [hover, hnone, hslot.ne]

/-! ## The order of the notes -/

theorem index_placeIn (h : i < notes.length) :
    ((order notes).map Prod.snd)[placeIn (order notes) i]? = some i := by
  have hlt := placeIn_lt h
  have hindex : (order notes)[placeIn (order notes) i].2 = i :=
    beq_iff_eq.mp (List.findIdx_getElem (p := fun x : Note × Nat => x.2 == i) (w := hlt))
  rw [List.getElem?_map, List.getElem?_eq_getElem hlt, Option.map_some, hindex]

theorem placeIn_inj (hi : i < notes.length) (hj : j < notes.length) :
    placeIn (order notes) i = placeIn (order notes) j ↔ i = j := by
  refine ⟨fun h => ?_, fun h => h ▸ rfl⟩
  have hindex := index_placeIn hi
  rw [h, index_placeIn hj] at hindex
  exact (Option.some.inj hindex).symm

theorem exists_placeIn (h : slot < notes.length) :
    ∃ i < notes.length, placeIn (order notes) i = slot := by
  have hperm : ((order notes).map Prod.snd).Perm (List.range' 0 notes.length) := by
    rw [← List.zipIdx_map_snd]
    exact (List.mergeSort_perm _ _).map Prod.snd
  have hlt : slot < ((order notes).map Prod.snd).length := by
    rwa [List.length_map, length_order]
  obtain ⟨i, hslot⟩ : ∃ i, ((order notes).map Prod.snd)[slot]? = some i :=
    ⟨_, List.getElem?_eq_getElem hlt⟩
  have hi : i < notes.length := by
    simpa using hperm.mem_iff.mp (List.mem_of_getElem? hslot)
  have hnodup := hperm.nodup_iff.mpr List.nodup_range'
  exact ⟨i, hi, ((List.getElem?_inj hlt hnodup).mp (hslot.trans (index_placeIn hi).symm)).symm⟩

/-- Slots that are sent on to their places are as apart as they were. -/
theorem placeIn_mem {slots : List Nat} (hslots : ∀ s ∈ slots, s < notes.length)
    (h : slot < notes.length) :
    placeIn (order notes) slot ∈ slots.map (placeIn (order notes)) ↔ slot ∈ slots := by
  refine ⟨fun hmem => ?_, List.mem_map_of_mem⟩
  obtain ⟨s, hs, hplace⟩ := List.mem_map.mp hmem
  exact (placeIn_inj (hslots s hs) h).mp hplace ▸ hs

/-! ## The notes of a blend -/

/-- What becomes of the notes of two groups: those of the first are found where the first slots
say, those of the second where the others say. -/
structure Accounts (ours theirs heads : List Note) (destSlots srcSlots : List Nat) : Prop where
  /-- The highest note comes first. -/
  sorted : heads.Pairwise fun x y => y.step ≤ x.step
  positions : ∀ p, p ∈ heads.map position ↔ p ∈ ours.map position ∨ p ∈ theirs.map position
  destLength : destSlots.length = ours.length
  destNodup : destSlots.Nodup
  dest : ∀ (i : Nat) (n : Note), ours[i]? = some n → ∃ slot p q, destSlots[i]? = some slot ∧
    heads[slot]? = some { n with paren := p, accParen := q }
  srcLength : srcSlots.length = theirs.length
  src : ∀ (j : Nat) (n : Note), theirs[j]? = some n → ∃ slot m, srcSlots[j]? = some slot ∧
    heads[slot]? = some m ∧ position m = position n
  onto : ∀ slot < heads.length, slot ∈ destSlots ∨ slot ∈ srcSlots
  /-- A note of the source has a slot of its own just if it is fresh. -/
  fresh : ∀ j slot, srcSlots[j]? = some slot → (isFresh ours theirs j = true ↔
    slot ∉ destSlots ∧ slot ∉ srcSlots.take j)
  added : ∀ (j : Nat) (n : Note), theirs[j]? = some n → isFresh ours theirs j = true →
    ∃ slot p q, srcSlots[j]? = some slot ∧
      heads[slot]? = some { n with paren := p, accParen := q }
  length : heads.length = ours.length + (List.range theirs.length).countP (isFresh ours theirs)
  /-- A head stays in parentheses if all the heads that came to it were. -/
  paren : ∀ (slot : Nat) (m : Note), heads[slot]? = some m → (m.paren = true ↔
    AllSent Note.paren ours destSlots slot ∧ AllSent Note.paren theirs srcSlots slot)
  accParen : ∀ (slot : Nat) (m : Note), heads[slot]? = some m → (m.accParen = true ↔
    AllSent Note.accParen ours destSlots slot ∧ AllSent Note.accParen theirs srcSlots slot)

/-- What a place in the order is sent is what its index is. -/
theorem allSent_placeIn {slots : List Nat} (hslots : ∀ s ∈ slots, s < notes.length)
    (h : slot < notes.length) {sent : List Note} :
    AllSent f sent (slots.map (placeIn (order notes))) (placeIn (order notes) slot) ↔
      AllSent f sent slots slot := by
  have hsent : ∀ i : Nat, (slots.map (placeIn (order notes)))[i]? =
      some (placeIn (order notes) slot) ↔ slots[i]? = some slot := fun i => by
    rw [List.getElem?_map, Option.map_eq_some_iff]
    refine ⟨fun ⟨s, hs, hplace⟩ => ?_, fun hs => ⟨slot, hs, rfl⟩⟩
    exact (placeIn_inj (hslots s (List.mem_of_getElem? hs)) h).mp hplace ▸ hs
  simp only [AllSent, hsent]

theorem allSent_range {length : Nat} (h : notes.length = length) :
    AllSent f notes (List.range length) slot ↔ ∀ n, notes[slot]? = some n → f n = true := by
  refine ⟨fun hsent n hn => hsent slot n hn ?_, fun hall i n hn hslot => ?_⟩
  · obtain ⟨hlt, -⟩ := List.getElem?_eq_some_iff.mp hn
    exact List.getElem?_range (h ▸ hlt)
  · obtain ⟨hi, hslot⟩ := List.getElem?_eq_some_iff.mp hslot
    rw [List.getElem_range] at hslot
    exact hall n (hslot ▸ hn)

/-- A mark that two notes in unison must share, at a place in the order. -/
theorem mark_order (hf : ∀ x y, f (unison x y) = (f x && f y))
    (h : ((order (gather ours theirs).notes).map Prod.fst)[slot]? = some m) : f m = true ↔
      AllSent f ours
        ((List.range ours.length).map (placeIn (order (gather ours theirs).notes))) slot ∧
      AllSent f theirs
        ((gather ours theirs).slots.map (placeIn (order (gather ours theirs).notes))) slot := by
  obtain ⟨hlength, hslots⟩ := gather_slots ours theirs
  have hlt := (List.getElem?_eq_some_iff.mp h).1
  rw [List.length_map, length_order] at hlt
  obtain ⟨i, hi, rfl⟩ := exists_placeIn hlt
  have hat := order_placeIn (List.getElem?_eq_getElem hi)
  rw [h] at hat
  rw [allSent_placeIn (fun s hs => Nat.lt_of_lt_of_le (List.mem_range.mp hs) hlength) hi,
    allSent_placeIn hslots hi, allSent_range rfl]
  exact gather_mark hf ((List.getElem?_eq_getElem hi).trans hat.symm)

theorem accounts_gather (ours theirs : List Note) :
    Accounts ours theirs ((order (gather ours theirs).notes).map Prod.fst)
      ((List.range ours.length).map (placeIn (order (gather ours theirs).notes)))
      ((gather ours theirs).slots.map (placeIn (order (gather ours theirs).notes))) := by
  obtain ⟨hlength, hslots⟩ := gather_slots ours theirs
  have hrange : ∀ s ∈ List.range ours.length, s < (gather ours theirs).notes.length :=
    fun s hs => Nat.lt_of_lt_of_le (List.mem_range.mp hs) hlength
  have htake : ∀ j, ∀ s ∈ (gather ours theirs).slots.take j,
      s < (gather ours theirs).notes.length := fun j s hs => hslots s (List.mem_of_mem_take hs)
  refine
    { sorted := Note.sorted_highestFirst _
      positions := fun p => ?positions
      destLength := by simp
      destNodup := ?destNodup
      dest := fun i n h => ?dest
      srcLength := by rw [List.length_map, length_slots]
      src := fun j n h => ?src
      onto := fun slot hslot => ?onto
      fresh := fun j slot hslot => ?fresh
      added := fun j n h hfresh => ?added
      length := by rw [List.length_map, length_order, length_gather]
      paren := fun slot m => mark_order fun _ _ => rfl
      accParen := fun slot m => mark_order fun _ _ => rfl }
  case positions =>
    rw [← mem_position_gather, List.mem_map, List.mem_map]
    simp only [mem_order]
  case destNodup =>
    refine List.Nodup.map_on (fun i hi j hj h => ?_) List.nodup_range
    exact (placeIn_inj (hrange i hi) (hrange j hj)).mp h
  case dest =>
    obtain ⟨p, q, hkept⟩ := gather_dest theirs h
    obtain ⟨hi, -⟩ := List.getElem?_eq_some_iff.mp h
    exact ⟨_, p, q, by simp [hi], order_placeIn hkept⟩
  case src =>
    obtain ⟨slot, m, hslot, hm, hpos⟩ := gather_src ours h
    exact ⟨_, m, by rw [List.getElem?_map, hslot]; rfl, order_placeIn hm,
      samePosition_iff_position.mp hpos⟩
  case onto =>
    rw [List.length_map, length_order] at hslot
    obtain ⟨i, hi, rfl⟩ := exists_placeIn hslot
    exact (slot_gather ours theirs hi).imp (fun h => List.mem_map_of_mem (List.mem_range.mpr h))
      List.mem_map_of_mem
  case fresh =>
    rw [List.getElem?_map, Option.map_eq_some_iff] at hslot
    obtain ⟨s, hs, rfl⟩ := hslot
    have hlt := hslots s (List.mem_of_getElem? hs)
    rw [← List.map_take, placeIn_mem hrange hlt, placeIn_mem (htake j) hlt, List.mem_range,
      ← not_or]
    exact slot_of_isFresh hs
  case added =>
    obtain ⟨slot, p, q, hslot, hm⟩ := gather_fresh h hfresh
    exact ⟨_, p, q, by rw [List.getElem?_map, hslot]; rfl, order_placeIn hm⟩

end Blend

namespace Group

variable {a b : Group} {ours theirs : List Note}

/-- **Every note of two groups is accounted for in their blend.** The notes stand by step, highest
first, at the positions of both groups. A note of the destination has a slot of its own, where it
is found with all that it is but its parentheses; a note of the source is found at its position,
and has a slot of its own, where it is added, just if no note of the destination and none before
it in the source stands there. No slot is left over, and a head or an accidental stays in
parentheses just where it was so in every note that came there. -/
theorem accounts_of_blend (ha : a.content = .notes ours) (hb : b.content = .notes theirs) :
    ∃ heads, (a.blend b).group.content = .notes heads ∧
      Blend.Accounts ours theirs heads (a.blend b).destSlots (a.blend b).srcSlots := by
  obtain ⟨hka, rfl⟩ := content_eq_notes.mp ha
  obtain ⟨hkb, rfl⟩ := content_eq_notes.mp hb
  have hblend := Blend.accounts_gather a.notes b.notes
  rw [blend]
  simp only [isSpace, hka, hkb]
  exact ⟨_, content_eq_notes.mpr ⟨hka, rfl⟩, hblend⟩

/-- Two heads at one position, one of them in parentheses. -/
def doubled : Group :=
  { notes := [{ letter := .c, accidental := .none, octave := 4, paren := true },
      { letter := .c, accidental := .sharp, octave := 4 }] }

/-- Two heads at a position above, both in parentheses, and one that meets those below. -/
def doubledAbove : Group :=
  { notes := [{ letter := .c, accidental := .none, octave := 4, paren := true },
      { letter := .e, accidental := .none, octave := 4, paren := true },
      { letter := .e, accidental := .flat, octave := 4 }] }

/-- Three notes are left of five, with one slot for both of those above. -/
theorem accounts_of_doubled : ∃ heads,
    (doubled.blend doubledAbove).group.content = .notes heads ∧ heads.length = 3 ∧
    (doubled.blend doubledAbove).destSlots = [1, 2] ∧
    (doubled.blend doubledAbove).srcSlots = [1, 0, 0] ∧
    heads.map (·.paren) = [false, true, false] ∧
    Blend.Accounts doubled.notes doubledAbove.notes heads (doubled.blend doubledAbove).destSlots
      (doubled.blend doubledAbove).srcSlots := by
  obtain ⟨heads, hheads, haccounts⟩ := accounts_of_blend (a := doubled) (b := doubledAbove) rfl rfl
  have horder : Blend.order (Blend.gather doubled.notes doubledAbove.notes).notes =
      [({ letter := .e, accidental := .none, octave := 4 }, 2),
        ({ letter := .c, accidental := .none, octave := 4, paren := true }, 0),
        ({ letter := .c, accidental := .sharp, octave := 4 }, 1)] := by
    simp [doubled, doubledAbove, Blend.gather, Blend.order, Blend.unison, List.findIdx?_cons,
      Note.samePosition, Note.highestFirst, Pitch.step, Letter.ordinal, List.mergeSort,
      List.MergeSort.Internal.splitInTwo]
  have hnotes : (doubled.blend doubledAbove).group.content = .notes ((Blend.order
      (Blend.gather doubled.notes doubledAbove.notes).notes).map Prod.fst) := rfl
  have hdest : (doubled.blend doubledAbove).destSlots = [0, 1].map (Blend.placeIn (Blend.order
      (Blend.gather doubled.notes doubledAbove.notes).notes)) := rfl
  have hsrc : (doubled.blend doubledAbove).srcSlots = [0, 2, 2].map (Blend.placeIn (Blend.order
      (Blend.gather doubled.notes doubledAbove.notes).notes)) := rfl
  rw [horder] at hnotes hdest hsrc
  cases hheads.symm.trans hnotes
  exact ⟨_, hnotes, rfl, hdest, hsrc, rfl, haccounts⟩

end Group

end Divisi
