/-
What erasing takes out of a score.

Erasing a voice empties the slots of its groups for good, since no key is given out twice, and
puts its space behind all that is in the arena. So of what was there the groups of the voices
erased are gone and nothing else is, and of the tags just those are dropped that name one of them
(`Stock.Clears`).
-/
import Divisi.Proofs.Building

namespace Divisi

/-! ## Groups to be hidden -/

/-- The groups of the voices of a stave that are to hide. -/
def Stave.hidden (hide : Nat → Bool) (st : Stave) : List GroupKey :=
  [1, 2, 3].flatMap fun v => if hide v then (st.list? v).getD [] else []

/-- The groups of the voices of a measure that are to hide. -/
def Placed.hidden (p : Placed) : List GroupKey :=
  p.measure.staves.flatMap fun st => st.hidden (Erasing.hides p.inForce st.staff)

section Hidden

variable {st : Stave} {hide : Nat → Bool} {p : Placed} {k : GroupKey}

theorem Stave.mem_hidden : k ∈ st.hidden hide ↔
    ∃ v list, hide v = true ∧ st.list? v = some list ∧ k ∈ list := by
  simp only [hidden, List.mem_flatMap]
  constructor
  · rintro ⟨v, -, hk⟩
    split at hk
    next hv =>
      cases hl : st.list? v with
      | none => simp [hl] at hk
      | some list => exact ⟨v, list, hv, hl, by simpa [hl] using hk⟩
    next => cases hk
  · rintro ⟨v, list, hv, hl, hk⟩
    have hle := le_of_list? hl
    refine ⟨v, ?_, by rw [if_pos hv, hl]; exact hk⟩
    simp only [List.mem_cons, List.not_mem_nil, or_false]
    omega

theorem Stave.hidden_eq_nil (h : ∀ v, hide v = false) : st.hidden hide = [] := by
  simp [hidden, h]

theorem Placed.mem_hidden : k ∈ p.hidden ↔ ∃ st ∈ p.measure.staves, ∃ v list,
    Erasing.hides p.inForce st.staff v = true ∧ st.list? v = some list ∧ k ∈ list := by
  simp only [hidden, List.mem_flatMap, Stave.mem_hidden]

end Hidden

/-! ## Erasing voice by voice -/

/-- The groups at these keys have been taken out, and the tags that name one of them dropped. -/
structure Stock.Clears (keys : List GroupKey) (stock stock' : Stock) : Prop where
  grows : stock.groups.slots.size ≤ stock'.groups.slots.size
  get : ∀ k, k.slot < stock.groups.slots.size →
    stock'.groups.get? k = if k ∈ keys then none else stock.groups.get? k
  tags : stock'.tags = stock.tags.filter fun tag => tag.2.group ∉ keys

namespace Stock.Clears

variable {keys keys' : List GroupKey} {stock stock' stock'' : Stock}

theorem refl (stock : Stock) : Clears [] stock stock :=
  ⟨Nat.le_refl _, fun _ _ => by simp, by simp⟩

theorem trans (h : Clears keys stock stock') (h' : Clears keys' stock' stock'') :
    Clears (keys ++ keys') stock stock'' := by
  refine ⟨Nat.le_trans h.grows h'.grows, fun k hk => ?_, ?_⟩
  · rw [h'.get k (Nat.lt_of_lt_of_le hk h.grows), h.get k hk]
    by_cases hmem : k ∈ keys <;> by_cases hmem' : k ∈ keys' <;> simp [hmem, hmem']
  · rw [h'.tags, h.tags, List.filter_filter]
    refine List.filter_congr fun tag _ => ?_
    rw [← Bool.decide_and, decide_eq_decide, List.mem_append, not_or, and_comm]

end Stock.Clears

namespace Erasing

section Voice

variable {s : Score} {measure v : Nat} {length : Time} {ps : List Posting} {vs : List SyllableKey}
  {visible : Nat → Bool} {stock : Stock} {st : Stave} {e : Erasing Stave}

theorem erasure_clears {list : List GroupKey} (first : Group) (length : Time)
    (hlive : ∀ tag ∈ stock.tags, ∃ g, stock.groups.get? tag.2.group = some g) :
    stock.Clears list (erasure stock list first length).stock := by
  have hsize := Arena.size_slots_removeAll stock.groups list
  refine ⟨?_, fun k hk => ?_, List.filter_congr fun tag htag => ?_⟩
  · have hpush : (erasure stock list first length).stock.groups.slots.size =
        (stock.groups.removeAll list).slots.size + 1 := Array.size_push _
    omega
  · have hne : k ≠ spaceKey stock list := fun he => by
      rw [he, spaceKey, Arena.fresh] at hk
      simp only at hk
      omega
    rw [get?_erasure, if_neg hne]
  · obtain ⟨g, hg⟩ := hlive tag htag
    rw [Arena.contains, Arena.get?_removeAll, hg]
    by_cases hmem : tag.2.group ∈ list <;> simp [hmem]

theorem voice_clears
    (h : (e.stock.on s).Stocked Group.Written (e.now.postings measure ++ ps) vs)
    (hs : e.now.Sound) (visible : Nat → Bool) (length : Time) (v : Nat) :
    e.stock.Clears (if visible v then [] else (e.now.list? v).getD [])
      (voice measure length visible e v).stock := by
  cases hl : e.now.list? v with
  | none =>
    rw [Option.getD_none, ite_self, voice, hl]
    exact .refl _
  | some list =>
    cases hv : visible v with
    | true =>
      rw [if_pos rfl, voice, hl, Option.bind_some, hv, Stock.erase?, if_pos rfl]
      exact .refl _
    | false =>
      obtain ⟨k, rest, rfl⟩ := List.exists_cons_of_ne_nil (hs.lists v list hl)
      obtain ⟨g, hg, -⟩ := h.named ⟨measure, e.now.staff, v, k⟩ (List.mem_append_left _
        (Stave.mem_postings.mpr ⟨rfl, rfl, _, hl, List.mem_cons_self⟩))
      have herase : e.stock.erase? (k :: rest) false length =
          some (erasure e.stock (k :: rest) g length) := erase?_eq hg
      rw [if_neg (by simp), voice, hl, Option.bind_some, hv, herase]
      exact erasure_clears g length fun tag htag => (h.tags tag htag).imp fun _ hg => hg.1

theorem stave_clears (h : (stock.on s).Stocked Group.Written (st.postings measure ++ ps) vs)
    (hs : st.Sound) (hlength : 0 < length) (visible : Nat → Bool) :
    stock.Clears (st.hidden fun v => !visible v) (stave measure length visible stock st).stock := by
  have h₁ := voice_erases visible (e := { stock, now := st }) 1 h hs hlength
  have h₂ := voice_erases visible 2 h₁.stocked (h₁.shown.sound hs) hlength
  have h₁₂ := h₁.trans h₂
  have hclears := ((voice_clears (e := { stock, now := st }) h hs visible length 1).trans
    (voice_clears h₁.stocked (h₁.shown.sound hs) visible length 2)).trans
      (voice_clears h₂.stocked (h₁₂.shown.sound hs) visible length 3)
  -- the lists of voices 2 and 3 are still what they were when they are reached
  rw [(h₁.shown.kept 2 rfl).1, (h₁₂.shown.kept 3 rfl).1] at hclears
  have hkeys : (st.hidden fun v => !visible v) =
      (if visible 1 then [] else (st.list? 1).getD []) ++
        (if visible 2 then [] else (st.list? 2).getD []) ++
          (if visible 3 then [] else (st.list? 3).getD []) := by
    simp only [Stave.hidden, List.flatMap_cons, List.flatMap_nil, List.append_nil,
      List.append_assoc, Bool.not_eq_true', ← Bool.not_eq_true, ite_not]
  rw [hkeys]
  exact hclears

end Voice

section Staves

variable {s : Score} {f : InForce} {measure : Nat} {stock : Stock} {ps : List Posting}
  {vs : List SyllableKey} {ss : List Stave}

theorem staves_clears
    (h : (stock.on s).Stocked Group.Written (ss.flatMap (Stave.postings measure) ++ ps) vs)
    (hs : ∀ st ∈ ss, st.Sound) (hlength : 0 < f.time.duration) :
    stock.Clears (ss.flatMap fun st => st.hidden (hides f st.staff))
      (staves measure f stock ss).stock := by
  induction ss generalizing stock ps with
  | nil => exact .refl _
  | cons st rest ih =>
    obtain ⟨hst, hrest⟩ := List.forall_mem_cons.mp hs
    rw [List.flatMap_cons, List.append_assoc] at h
    -- the first stave alone
    have hone : (stock.on s).Stocked Group.Written ([st].flatMap (Stave.postings measure) ++
        (rest.flatMap (Stave.postings measure) ++ ps)) vs := by
      rwa [List.flatMap_singleton]
    obtain ⟨hstocked, -, -⟩ := staves_shows hone (by simpa using hst) hlength
    have hfirst : stock.Clears (st.hidden (hides f st.staff))
        (staves measure f stock [st]).stock := by
      simp only [staves]
      split
      next hv =>
        have hhides : hides f st.staff = fun v => !f.voiceVisible st.staff v := by
          funext v
          simp [hides, hv]
        rw [hhides]
        exact stave_clears h hst hlength _
      next hv =>
        rw [Stave.hidden_eq_nil fun v => by simp [hides, hv]]
        exact .refl _
    have hperm : ((staves measure f stock [st]).now.flatMap (Stave.postings measure) ++
        (rest.flatMap (Stave.postings measure) ++ ps)).Perm
          (rest.flatMap (Stave.postings measure) ++
            ((staves measure f stock [st]).now.flatMap (Stave.postings measure) ++ ps)) :=
      List.perm_append_comm_assoc _ _ _
    rw [List.flatMap_cons]
    exact hfirst.trans (ih (hstocked.perm hperm (.refl _)) hrest)

end Staves

end Erasing

end Divisi
