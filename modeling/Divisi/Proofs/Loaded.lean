/-
Loaded scores are sound.

Loading adds groups, syllables and tags one after the other, and each addition
keeps the arenas stocked with what the lists name so far. The voices of a staff
come in ascending order from a tree (`Description.Ordered`), so none is
overwritten; a measure is finished before the next begins.
-/
import Mathlib.Tactic.NormNum
import Divisi.Engraving
import Divisi.Proofs.Numerals
import Divisi.Proofs.Outcome
import Divisi.Proofs.Sound

namespace Divisi

/-- The voices of every staff are given in ascending order. -/
def Description.Ordered (d : Description) : Prop :=
  ∀ entry ∈ d.music, ∀ staves, entry.measure = some staves →
    ∀ stave ∈ staves, (stave.voices.map Prod.fst).Pairwise (· < ·)

namespace Loading

/-! ## Single values -/

theorem signature_sound {text : String} {t : Signature} (h : signature text = .ok t) : t.Sound := by
  unfold signature at h
  split at h
  next t' ht =>
    cases h
    simp only [Signature.parse?] at ht
    split at ht
    · cases ht
    · simp only [Option.bind_eq_bind, Option.bind_eq_some_iff, Signature.part?,
        Option.filter_eq_some_iff, decide_eq_true_eq] at ht
      obtain ⟨beats, ⟨hbeats, hbeats0⟩, unit, ⟨hunit, hunit0⟩, ht⟩ := ht
      cases ht
      exact ⟨Nat.pos_of_ne_zero hbeats0, Nat.pos_of_ne_zero hunit0,
        (Text.natural?_eq_some.mp hbeats).2, (Text.natural?_eq_some.mp hunit).2⟩
  next => cases h

theorem voice_eq_ok {number v : Nat} (h : voice number = .ok v) :
    v = number ∧ 1 ≤ number ∧ number ≤ maxVoices := by
  unfold voice at h
  split at h
  next hv => exact ⟨(Except.ok.inj h).symm, hv⟩
  next => cases h

theorem given_eq_ok {α β : Type} {check : α → Except Flaw β} {x : Option α} {y : Option β}
    (h : given check x = .ok y) : (x = none ∧ y = none) ∨
      ∃ a b, x = some a ∧ y = some b ∧ check a = .ok b := by
  cases x with
  | none => exact .inl ⟨rfl, (Except.ok.inj h).symm⟩
  | some a =>
    obtain ⟨b, hb, rfl⟩ := map_eq_ok.mp h
    exact .inr ⟨a, b, rfl, rfl, hb⟩

theorem request_sound {r q : Request} (h : request r = .ok q) : q.Sound := by
  unfold request at h
  split at h
  next => cases h
  next hlen =>
    simp only [bind_eq_ok, discard_eq_ok, pure_eq_ok] at h
    obtain ⟨-, ⟨vs, hvs⟩, rfl⟩ := h
    refine ⟨Nat.not_lt.mp hlen, fun v hv => ?_⟩
    obtain ⟨w, -, hw⟩ := exists_of_mapM hvs hv
    exact (voice_eq_ok hw).2

theorem settings_sound {d q : Option Request} {text : Option String} {t : Option Signature}
    {visible : Option Bool} (hq : given request d = .ok q) (ht : given signature text = .ok t) :
    Settings.Sound { time := t, visible, request := q } := by
  constructor
  · intro u hu
    rcases given_eq_ok ht with ⟨-, hnone⟩ | ⟨a, b, -, hb, hab⟩
    · simp [hnone] at hu
    · cases hb.symm.trans hu
      exact signature_sound hab
  · intro r hr
    rcases given_eq_ok hq with ⟨-, hnone⟩ | ⟨a, b, -, hb, hab⟩
    · simp [hnone] at hr
    · cases hb.symm.trans hr
      exact request_sound hab

theorem change_sound {last : Nat} {d : Description.Change} {c : Change}
    (h : change last d = .ok c) : c.settings.Sound := by
  simp only [change, bind_eq_ok] at h
  obtain ⟨scope, -, h⟩ := h
  split at h
  next => cases h
  next =>
    have hgiven : (do
        let request ← given request d.request
        let time ← given signature d.time
        pure ({ scope, settings := { time, visible := d.visible, request } } : Change)) = .ok c := by
      split at h
      · split at h
        · cases h
        · exact h
      · exact h
    simp only [bind_eq_ok, pure_eq_ok] at hgiven
    obtain ⟨q, hq, t, ht, rfl⟩ := hgiven
    exact settings_sound hq ht

theorem opening_sound {d : Description} {c : Change} (h : opening d = .ok c) :
    c.settings.Sound := by
  simp only [opening, bind_eq_ok, pure_eq_ok] at h
  obtain ⟨q, hq, t, ht, rfl⟩ := h
  exact settings_sound hq ht

/-! ## Groups -/

theorem noteValue_pos (value dots : Nat) : 0 < noteValue value dots := by
  unfold noteValue
  have hpow : (1 : Rat) ≤ (Nat.pow 2 dots : Nat) := by exact_mod_cast Nat.one_le_two_pow
  have hdots : (0 : Rat) < 2 - 1 / (Nat.pow 2 dots : Nat) := by
    have : 1 / ((Nat.pow 2 dots : Nat) : Rat) ≤ 1 := by
      rw [div_le_one (by linarith)]
      exact hpow
    linarith
  refine mul_pos ?_ hdots
  split
  next => norm_num
  next hv =>
    have : (0 : Rat) < value := by exact_mod_cast Nat.pos_of_ne_zero hv
    positivity

theorem tuplet_num {measure : Nat} {d : Description.Tuplet} {t : Tuplet}
    (h : tuplet measure d = .ok t) : 2 ≤ t.num := by
  unfold tuplet at h
  split at h
  next => cases h
  next hnum =>
    cases h
    exact Nat.not_lt.mp hnum

/-- A written value takes time unless its tuplet leaves it none. -/
theorem duration_nonneg {time : Signature} (htime : time.Sound) {t : Option Tuplet}
    (ht : ∀ u, t = some u → 2 ≤ u.num) (w : WrittenTime) :
    0 ≤ duration time t w ∧ (duration time t w = 0 ↔
      w ≠ .wholeMeasure ∧ ∃ u, t = some u ∧ u.inTimeOf = 0) := by
  unfold duration
  cases w with
  | wholeMeasure =>
    have := htime.duration_pos
    exact ⟨this.le, by simp [this.ne']⟩
  | note value dots =>
    have hpos := noteValue_pos value dots
    cases t with
    | none => exact ⟨hpos.le, by simp [hpos.ne']⟩
    | some u =>
      have hnum : (0 : Rat) < u.num := by exact_mod_cast (by have := ht u rfl; omega : 0 < u.num)
      refine ⟨by positivity, ?_⟩
      simp [hpos.ne', hnum.ne']

theorem kind_eq_ok {measure staff voice : Nat} {d : Description.Group} {k : Kind}
    (h : kind measure staff voice d = .ok k) : d.notes ≠ [] ↔ k = .notes := by
  obtain ⟨k', -, h⟩ := bind_eq_ok.mp h
  split at h
  next => cases h
  next hnone =>
    split at h
    next => cases h
    next hstray =>
      obtain rfl := pure_eq_ok.mp h
      exact ⟨fun hne => by_contra fun hk => hstray ⟨hk, hne⟩, fun hk he => hnone ⟨hk, he⟩⟩

theorem note_tied {d : Description.Head} {n : Note} {tag : Option String}
    (h : note d = .ok (n, tag)) (hn : n.tiedToVoice.isSome = true) : n.tie = true := by
  simp only [note, bind_eq_ok, pure_eq_ok, Prod.mk.injEq] at h
  obtain ⟨p, -, -, -, slurs, -, rfl, -⟩ := h
  exact Bool.or_eq_true_iff.mpr (.inr hn)

theorem group_eq_ok {time : Signature} {measure staff voice : Nat} {d : Description.Group}
    {g : Group} {tags : List (Option String)} (htime : time.Sound)
    (h : group time measure staff voice d = .ok (g, tags)) :
    g.measure = measure ∧ g.staff = staff ∧ g.voice = voice ∧ g.Written ∧
      tags.length = g.notes.length := by
  simp only [group, bind_eq_ok, pure_eq_ok, Prod.mk.injEq] at h
  obtain ⟨k, hk, t, ht, written, -, heads, hheads, offset, -, rfl, rfl⟩ := h
  have hnum : ∀ u, t = some u → 2 ≤ u.num := by
    intro u hu
    rcases given_eq_ok ht with ⟨-, hnone⟩ | ⟨a, b, -, hb, hab⟩
    · simp [hnone] at hu
    · cases hb.symm.trans hu
      exact tuplet_num hab
  obtain ⟨hnonneg, hzero⟩ := duration_nonneg htime hnum written
  have hlength := (mapM_eq_ok hheads).length_eq
  refine ⟨rfl, rfl, rfl, ⟨⟨?_, ?_, ?_, Note.sorted_highestFirst heads⟩, ?_, ?_⟩, ?_⟩
  · intro hg
    exact if_pos hg
  · simp only
    split
    · exact le_refl 0
    · exact hnonneg
  · rw [← kind_eq_ok hk, ← List.length_pos_iff, ← List.length_pos_iff]
    simp [hlength]
  · intro hg
    simp only at hg
    simp only [hg, Bool.false_eq_true, if_false, hzero, Group.Timeless, beq_eq_false_iff_ne]
  · intro n hn
    obtain ⟨⟨n, tag⟩, hmem, rfl⟩ := List.mem_map.mp hn
    obtain ⟨d, -, hd⟩ := mem_of_mapM hheads (List.mem_mergeSort.mp hmem)
    exact note_tied hd
  · simp only [List.length_map, List.length_mergeSort]

/-! ## Growing a score -/

theorem mem_insert_tags {tags : Tags} {name : String} {tag : Tag} {x : String × Tag}
    (h : x ∈ tags.insert name tag) : x = (name, tag) ∨ x ∈ tags := by
  induction tags with
  | nil => simpa [Tags.insert] using h
  | cons t rest ih =>
    obtain ⟨other, old⟩ := t
    unfold Tags.insert at h
    split at h
    · simpa using h
    · rcases List.mem_cons.mp h with rfl | h
      · simp
      · rcases ih h with rfl | h
        · simp
        · simp [h]

/-- The score has the same header and the same items. -/
def SameFrame (s t : Score) : Prop := t.header = s.header ∧ t.items = s.items

theorem SameFrame.trans {s t u : Score} (h : SameFrame s t) (h' : SameFrame t u) : SameFrame s u :=
  ⟨h'.1.trans h.1, h'.2.trans h.2⟩

section Growing

variable {s t : Score} {ps : List Posting} {vs : List SyllableKey}

theorem addTag?_stocked {name : Option String} {tag : Tag} (h : s.Stocked Group.Written ps vs)
    (htag : ∃ g, s.groups.get? tag.group = some g ∧ ∀ i, tag.note = some i → i < g.notes.length)
    (ht : addTag? s name tag = .ok t) :
    t.Stocked Group.Written ps vs ∧ SameFrame s t ∧ t.groups = s.groups := by
  unfold addTag? at ht
  split at ht
  · cases ht
    exact ⟨h, ⟨rfl, rfl⟩, rfl⟩
  · unfold addTag at ht
    split at ht
    · cases ht
    · cases ht
      refine ⟨{ h with tags := fun x hx => ?_ }, ⟨rfl, rfl⟩, rfl⟩
      rcases mem_insert_tags hx with rfl | hx
      · exact htag
      · exact h.tags x hx

theorem addGroup_stocked {time : Signature} {measure staff voice : Nat} {d : Description.Group}
    {key : GroupKey} (htime : time.Sound) (h : s.Stocked Group.Written ps vs)
    (ht : addGroup time measure staff voice s d = .ok (t, key)) :
    t.Stocked Group.Written ({ measure, staff, voice, key } :: ps) vs ∧ SameFrame s t := by
  simp only [addGroup, bind_eq_ok, pure_eq_ok, Prod.exists, Prod.mk.injEq] at ht
  obtain ⟨g, noteTags, hg, s₁, h₁, s₂, h₂, rfl, rfl⟩ := ht
  obtain ⟨hmeasure, hstaff, hvoice, hwritten, hlength⟩ := group_eq_ok htime hg
  have hfresh : s.groups.fresh ∉ ps.map (·.key) := h.groups.fresh_notMem
  have hget : (s.groups.insert g).get? s.groups.fresh = some g := by simp
  -- the group alone, before any tag is added
  have hadded : ({ s with groups := s.groups.insert g } : Score).Stocked Group.Written
      ({ measure, staff, voice, key := s.groups.fresh } :: ps) vs := by
    refine ⟨h.groups.insert g, ?_, ?_, h.syllables, h.timed, ?_⟩
    · intro p hp
      rcases List.mem_cons.mp hp with rfl | hp
      · exact ⟨g, hget, hmeasure, hstaff, hvoice⟩
      · obtain ⟨x, hx, hnamed⟩ := h.named p hp
        refine ⟨x, ?_, hnamed⟩
        rw [Arena.get?_insert, if_neg]
        · exact hx
        · intro he
          exact hfresh (he ▸ List.mem_map_of_mem hp)
    · intro k x hx
      rw [Arena.get?_insert] at hx
      split at hx
      · cases hx
        exact hwritten
      · exact h.fits k x hx
    · intro tag htag
      obtain ⟨x, hx, hnote⟩ := h.tags tag htag
      refine ⟨x, ?_, hnote⟩
      rw [Arena.get?_insert, if_neg]
      · exact hx
      · intro he
        rw [he, Arena.get?_fresh] at hx
        cases hx
  obtain ⟨hstocked, hframe, hgroups⟩ := addTag?_stocked hadded ⟨g, hget, by simp⟩ h₁
  have hrest := foldlM_induction (P := fun (rest : List (Option String × Nat)) (u : Score) =>
      (u.Stocked Group.Written ({ measure, staff, voice, key := s.groups.fresh } :: ps) vs ∧
        SameFrame s u ∧ u.groups = s.groups.insert g) ∧ ∀ x ∈ rest, x.2 < g.notes.length)
    ?_ ⟨⟨hstocked, hframe, hgroups⟩, ?_⟩ h₂
  · exact ⟨hrest.1.1, hrest.1.2.1⟩
  · rintro x rest u v ⟨⟨hu, huframe, hugroups⟩, hx⟩ hv
    have htag : ∃ g', u.groups.get? s.groups.fresh = some g' ∧
        ∀ i, some x.2 = some i → i < g'.notes.length := by
      refine ⟨g, by rw [hugroups, hget], ?_⟩
      rintro i ⟨⟩
      exact hx x (by simp)
    obtain ⟨hv', hvframe, hvgroups⟩ := addTag?_stocked hu htag hv
    exact ⟨⟨hv', huframe.trans hvframe, hvgroups.trans hugroups⟩,
      fun y hy => hx y (by simp [hy])⟩
  · intro x hx
    have := (List.mem_zipIdx' (x := x.1) (i := x.2) hx).1
    omega

theorem addSyllable_stocked {time : Signature} {measure staff verse : Nat}
    {d : Description.Syllable} {key : SyllableKey} (htime : time.Sound)
    (h : s.Stocked Group.Written ps vs)
    (ht : addSyllable time measure staff verse s d = .ok (t, key)) :
    t.Stocked Group.Written ps (key :: vs) ∧ SameFrame s t := by
  simp only [addSyllable, bind_eq_ok, pure_eq_ok, Prod.mk.injEq] at ht
  obtain ⟨written, -, rfl, rfl⟩ := ht
  refine ⟨{ h with syllables := h.syllables.insert _, timed := fun k x hx => ?_ }, rfl, rfl⟩
  rw [Arena.get?_insert] at hx
  split at hx
  · cases hx
    obtain ⟨hnonneg, hzero⟩ := duration_nonneg htime (t := none) (by simp) written
    exact lt_of_le_of_ne hnonneg fun he => by simpa using hzero.mp he.symm
  · exact h.timed k x hx

theorem addVerse_stocked {time : Signature} {measure staff verse : Nat}
    {ds : List Description.Syllable} {keys : List SyllableKey} (htime : time.Sound)
    (h : s.Stocked Group.Written ps vs)
    (ht : mapCarrying (addSyllable time measure staff verse) s ds = .ok (t, keys)) :
    t.Stocked Group.Written ps (keys ++ vs) ∧ SameFrame s t := by
  refine mapCarrying_induction (P := fun (u : Score) (sung : List SyllableKey) =>
    u.Stocked Group.Written ps (sung ++ vs) ∧ SameFrame s u) (fun u y u' key sung h hu' => ?_)
    ⟨by simpa using h, rfl, rfl⟩ ht
  obtain ⟨hu, huframe⟩ := h
  obtain ⟨hstocked, hframe⟩ := addSyllable_stocked htime hu hu'
  refine ⟨hstocked.perm (.refl _) ?_, huframe.trans hframe⟩
  simp only [List.append_assoc, List.singleton_append]
  exact List.perm_middle.symm

theorem addVerses_stocked {time : Signature} {measure staff : Nat}
    {ds : List (List Description.Syllable × Nat)} {verses : List (List SyllableKey)}
    (htime : time.Sound) (h : s.Stocked Group.Written ps vs)
    (ht : mapCarrying (fun s d => mapCarrying (addSyllable time measure staff (d.2 + 1)) s d.1) s ds =
      .ok (t, verses)) :
    t.Stocked Group.Written ps (verses.flatten ++ vs) ∧ SameFrame s t := by
  refine mapCarrying_induction (P := fun (u : Score) (done : List (List SyllableKey)) =>
    u.Stocked Group.Written ps (done.flatten ++ vs) ∧ SameFrame s u)
    (fun u d u' verse done h hu' => ?_) ⟨by simpa using h, rfl, rfl⟩ ht
  obtain ⟨hu, huframe⟩ := h
  obtain ⟨hstocked, hframe⟩ := addVerse_stocked htime hu hu'
  refine ⟨hstocked.perm (.refl _) ?_, huframe.trans hframe⟩
  simp only [List.flatten_append, List.flatten_cons, List.flatten_nil, List.append_nil]
  rw [← List.append_assoc]
  exact List.perm_append_comm.append_right _

theorem addVoice_stocked {time : Signature} {measure number : Nat} {stave stave' : Stave}
    {groups : List Description.Group} (htime : time.Sound)
    (h : s.Stocked Group.Written (stave.postings measure ++ ps) vs)
    (hnone : stave.list? number = none) (hlists : ∀ v list, stave.list? v = some list → list ≠ [])
    (ht : addVoice time measure stave.staff s stave number groups = .ok (t, stave')) :
    t.Stocked Group.Written (stave'.postings measure ++ ps) vs ∧ SameFrame s t ∧
      stave'.staff = stave.staff ∧ stave'.verses = stave.verses ∧
      (∀ v list, stave'.list? v = some list → list ≠ []) ∧
      ∀ v, v ≠ number → stave'.list? v = stave.list? v := by
  simp only [addVoice, bind_eq_ok] at ht
  obtain ⟨v, hv, ht⟩ := ht
  obtain ⟨rfl, hrange⟩ := voice_eq_ok hv
  split at ht
  next hempty =>
    cases ht
    exact ⟨h, ⟨rfl, rfl⟩, rfl, rfl, hlists, fun _ _ => rfl⟩
  next hne =>
    simp only [bind_eq_ok, pure_eq_ok, Prod.exists, Prod.mk.injEq] at ht
    obtain ⟨s', list, hlist, rfl, rfl⟩ := ht
    have hadded := mapCarrying_induction (P := fun (u : Score) (done : List GroupKey) =>
        u.Stocked Group.Written
          (postingsOf measure stave.staff v done ++ (stave.postings measure ++ ps)) vs ∧
        SameFrame s u)
      (fun u x u' y done h hu' => by
        obtain ⟨hu, huframe⟩ := h
        obtain ⟨hstocked, hframe⟩ := addGroup_stocked htime hu hu'
        refine ⟨hstocked.perm ?_ (.refl _), huframe.trans hframe⟩
        simp only [postingsOf, List.map_append, List.map_cons, List.map_nil, List.append_assoc,
          List.singleton_append]
        exact List.perm_middle.symm)
      ⟨by simpa [postingsOf] using h, rfl, rfl⟩ hlist
    obtain ⟨hstocked, hframe⟩ := hadded
    obtain ⟨others, hbefore, hafter⟩ := Stave.postings_setList (s := stave) measure hrange
    rw [hnone] at hbefore
    refine ⟨hstocked.perm ?_ (.refl _), hframe, rfl, rfl, ?_, ?_⟩
    · rw [← List.append_assoc]
      exact (((hbefore.append_left _).trans (hafter (some list)).symm).append_right _)
    · intro w l hl
      rw [Stave.list?_setList hrange] at hl
      split at hl
      next =>
        cases hl
        rintro rfl
        have := length_of_mapCarrying hlist
        exact hne (List.isEmpty_iff.mpr (List.length_eq_zero_iff.mp this.symm))
      next => exact hlists w l hl
    · intro w hw
      rw [Stave.list?_setList hrange, if_neg (Ne.symm hw)]

theorem list?_empty (staff v : Nat) : ({ staff } : Stave).list? v = none := by
  simp only [Stave.list?, PerVoice.all, PerVoice.get?]
  split <;> rfl

theorem postings_empty (staff measure : Nat) : ({ staff } : Stave).postings measure = [] := rfl

/-- A stave is loaded: its voices, given in ascending order, and its verses. -/
theorem addStave_stocked {time : Signature} {measure staff : Nat} {d : Description.Stave}
    {stave : Stave} (htime : time.Sound) (hordered : (d.voices.map Prod.fst).Pairwise (· < ·))
    (h : s.Stocked Group.Written ps vs)
    (ht : addStave time measure staff s d = .ok (t, stave)) :
    t.Stocked Group.Written (stave.postings measure ++ ps) (stave.sung ++ vs) ∧ SameFrame s t ∧
      stave.staff = staff ∧ stave.Sound := by
  simp only [addStave, bind_eq_ok, pure_eq_ok, Prod.exists, Prod.mk.injEq] at ht
  obtain ⟨s₁, stave₁, hvoices, s₂, verses, hverses, rfl, rfl⟩ := ht
  -- the voices still to come are above those that are there
  have hloaded := foldlM_induction (P := fun rest (u : Score × Stave) =>
      (u.1.Stocked Group.Written (u.2.postings measure ++ ps) vs ∧ SameFrame s u.1 ∧
        u.2.staff = staff ∧ u.2.verses = [] ∧ ∀ v list, u.2.list? v = some list → list ≠ []) ∧
      (rest.map Prod.fst).Pairwise (· < ·) ∧ ∀ x ∈ rest, u.2.list? x.1 = none)
    ?_ ⟨⟨?_, ⟨rfl, rfl⟩, rfl, rfl, ?_⟩, hordered, ?_⟩ hvoices
  · obtain ⟨⟨hstocked, hframe, hstaff, hnone, hlists⟩, -⟩ := hloaded
    obtain ⟨hstocked', hverses⟩ := addVerses_stocked htime hstocked hverses
    refine ⟨?_, hframe.trans hverses, hstaff, ⟨hlists, ?_⟩⟩
    · change s₂.Stocked _ (stave₁.postings measure ++ ps)
        ((verses.filter fun verse => !verse.isEmpty).flatten ++ vs)
      rw [List.flatten_filter_not_isEmpty]
      exact hstocked'
    · intro verse hverse
      simpa using (List.mem_filter.mp hverse).2
  · rintro ⟨number, groups⟩ rest ⟨u, stave'⟩ ⟨v, stave''⟩ ⟨⟨hu, hframe, hstaff, hnone, hlists⟩,
      hasc, hfree⟩ hv
    simp only at hu hframe hstaff hnone hlists hfree hv ⊢
    rw [← hstaff] at hv
    obtain ⟨hv', hvframe, hvstaff, hvverses, hvlists, hvothers⟩ :=
      addVoice_stocked htime hu (hfree (number, groups) (by simp)) hlists hv
    simp only [List.map_cons, List.pairwise_cons] at hasc
    refine ⟨⟨hv', hframe.trans hvframe, hvstaff.trans hstaff,
      hvverses.trans hnone, hvlists⟩, hasc.2, fun x hx => ?_⟩
    have := hasc.1 x.1 (List.mem_map_of_mem hx)
    rw [hvothers x.1 (by omega)]
    exact hfree x (by simp [hx])
  · simpa [postings_empty] using h
  · simp [list?_empty]
  · simp [list?_empty]

theorem insertStave_perm (stave : Stave) (staves : List Stave) :
    (insertStave stave staves).Perm (stave :: staves) := by
  induction staves with
  | nil => exact .refl _
  | cons other rest ih =>
    unfold insertStave
    split
    · exact .refl _
    · exact (ih.cons other).trans (.swap stave other rest)

theorem insertStave_ascending {stave : Stave} {staves : List Stave}
    (h : (staves.map (·.staff)).Pairwise (· < ·)) (hne : ∀ s ∈ staves, s.staff ≠ stave.staff) :
    ((insertStave stave staves).map (·.staff)).Pairwise (· < ·) := by
  induction staves with
  | nil => simp [insertStave]
  | cons other rest ih =>
    simp only [List.map_cons, List.pairwise_cons, List.mem_map, forall_exists_index, and_imp,
      forall_apply_eq_imp_iff₂, List.mem_cons, forall_eq_or_imp] at h hne
    unfold insertStave
    split
    next hlt =>
      simp only [List.map_cons, List.pairwise_cons, List.mem_cons, List.mem_map,
        forall_eq_or_imp, forall_exists_index, and_imp, forall_apply_eq_imp_iff₂]
      exact ⟨⟨hlt, fun s hs => hlt.trans (h.1 s hs)⟩, h⟩
    next hnot =>
      have hlt : other.staff < stave.staff := by have := hne.1; omega
      simp only [List.map_cons, List.pairwise_cons, List.mem_map, forall_exists_index, and_imp,
        forall_apply_eq_imp_iff₂]
      refine ⟨fun s hs => ?_, ih h.2 hne.2⟩
      rcases List.mem_cons.mp ((insertStave_perm stave rest).mem_iff.mp hs) with rfl | hs
      · exact hlt
      · exact h.1 s hs

theorem addMeasure_stocked {time : Signature} {number : Nat} {d : List Description.Stave}
    {m : Measure} (htime : time.Sound)
    (hordered : ∀ stave ∈ d, (stave.voices.map Prod.fst).Pairwise (· < ·))
    (h : s.Stocked Group.Written ps vs) (ht : addMeasure time number s d = .ok (t, m)) :
    t.Stocked Group.Written (m.postings ++ ps) (m.sung ++ vs) ∧ SameFrame s t ∧
      m.number = number ∧ m.Sound := by
  unfold addMeasure at ht
  have hloaded := foldlM_induction (P := fun (rest : List Description.Stave)
      (u : Score × Measure) =>
      (u.1.Stocked Group.Written (u.2.postings ++ ps) (u.2.sung ++ vs) ∧ SameFrame s u.1 ∧
        u.2.number = number ∧ u.2.Sound) ∧
      ∀ stave ∈ rest, (stave.voices.map Prod.fst).Pairwise (· < ·))
    ?_ ⟨⟨?_, ⟨rfl, rfl⟩, rfl, ⟨by simp, by simp⟩⟩, hordered⟩ ht
  · exact hloaded.1
  · rintro x rest ⟨u, n⟩ ⟨v, n'⟩ ⟨⟨hu, hframe, hnumber, hsound⟩, hx⟩ hv
    simp only at hu hframe hnumber hsound hv ⊢
    simp only [bind_eq_ok] at hv
    obtain ⟨staff, hstaff, hv⟩ := hv
    split at hv
    next => cases hv
    next hfree =>
      simp only [bind_eq_ok, pure_eq_ok, Prod.exists, Prod.mk.injEq] at hv
      obtain ⟨w, stave, hstave, rfl, rfl⟩ := hv
      obtain ⟨hw, hwframe, hwstaff, hwsound⟩ :=
        addStave_stocked htime (hx x (by simp)) hu hstave
      have hperm := insertStave_perm stave n.staves
      refine ⟨⟨hw.perm ?_ ?_, hframe.trans hwframe, hnumber, ?_⟩,
        fun y hy => hx y (by simp [hy])⟩
      · rw [← List.append_assoc]
        refine List.Perm.append_right ps ?_
        have := hperm.flatMap_right (Stave.postings number)
        simpa only [Measure.postings, hnumber, List.flatMap_cons] using this.symm
      · rw [← List.append_assoc]
        refine List.Perm.append_right vs ?_
        have := hperm.flatMap_right Stave.sung
        simpa only [Measure.sung, List.flatMap_cons] using this.symm
      · refine ⟨fun r hr => ?_, insertStave_ascending hsound.ascending fun r hr he => ?_⟩
        · rcases List.mem_cons.mp (hperm.mem_iff.mp hr) with rfl | hr
          · exact hwsound
          · exact hsound.staves r hr
        · simp only [Measure.stave?, Option.isSome_iff_exists, not_exists] at hfree
          cases hfind : n.staves.find? (·.staff == staff) with
          | some r => exact hfree r hfind
          | none =>
            have := List.find?_eq_none.mp hfind r hr
            simp only [beq_iff_eq] at this
            exact this (he.trans hwstaff)
  · simpa [Measure.postings, Measure.sung] using h

end Growing

/-! ## Whole scores -/

/-- A sound score, and the settings and the measures that loading counts on. -/
structure Progress.Sound (p : Progress) : Prop where
  score : p.score.Sound Group.Written
  inForce : p.inForce = InForce.after (changesOf p.score.items)
  settings : p.inForce.Sound
  measures : p.measures = p.score.measures.length

theorem Progress.Sound.empty (header : Header) : Progress.Sound { score := { header } } := by
  refine ⟨⟨⟨.empty, ?_, ?_, .empty, ?_, ?_⟩, ?_, rfl, ?_⟩, rfl, .start, rfl⟩
  · simp [Score.postings, Score.measures]
  · simp [Arena.get?]
  · simp [Arena.get?]
  · simp
  · simp [Score.measures]
  · simp

theorem addChange_sound {p : Progress} {c : Change} (h : p.Sound) (hc : c.settings.Sound) :
    (addChange p c).Sound := by
  have hmeasures : (addChange p c).score.measures = p.score.measures := by
    simp [addChange, Score.measures]
  refine ⟨⟨?_, ?_, ?_, ?_⟩, ?_, h.settings.apply hc, ?_⟩
  · have hpostings : (addChange p c).score.postings = p.score.postings := by
      rw [Score.postings, hmeasures, Score.postings]
    have hsung : (addChange p c).score.sung = p.score.sung := by
      rw [Score.sung, hmeasures, Score.sung]
    rw [hpostings, hsung]
    obtain ⟨hgroups, hnamed, hfits, hsyllables, htimed, htags⟩ := h.score.stocked
    exact ⟨hgroups, hnamed, hfits, hsyllables, htimed, htags⟩
  · rw [hmeasures]
    exact h.score.measures
  · rw [hmeasures]
    exact h.score.numbered
  · intro c' hc'
    rcases List.mem_append.mp hc' with hc' | hc'
    · exact h.score.changes c' hc'
    · simp only [List.mem_singleton, Item.change.injEq] at hc'
      exact hc' ▸ hc
  · simp [addChange, changesOf, InForce.after, h.inForce]
  · rw [hmeasures]
    exact h.measures

theorem addEntry_sound {p q : Progress} {d : Description.Entry} (h : p.Sound)
    (hordered : ∀ staves, d.measure = some staves →
      ∀ stave ∈ staves, (stave.voices.map Prod.fst).Pairwise (· < ·))
    (hq : addEntry p d = .ok q) : q.Sound ∧ q.score.header = p.score.header := by
  unfold addEntry at hq
  split at hq
  next c hc =>
    simp only [bind_eq_ok, pure_eq_ok] at hq
    obtain ⟨c', hc', rfl⟩ := hq
    exact ⟨addChange_sound h (change_sound hc'), rfl⟩
  next staves _ hstaves =>
    simp only [bind_eq_ok, pure_eq_ok, Prod.exists] at hq
    obtain ⟨s, m, hm, rfl⟩ := hq
    obtain ⟨hstocked, ⟨hheader, hitems⟩, hnumber, hsound⟩ :=
      addMeasure_stocked h.settings.time (hordered staves hstaves) h.score.stocked hm
    have hmeasures : ({ s with items := s.items ++ [.measure m] } : Score).measures =
        p.score.measures ++ [m] := by
      simp [Score.measures, hitems]
    refine ⟨⟨⟨?_, ?_, ?_, ?_⟩, ?_, h.settings, ?_⟩, hheader⟩
    · rw [Score.postings, Score.sung, hmeasures]
      simp only [List.flatMap_append, List.flatMap_cons, List.flatMap_nil, List.append_nil]
      obtain ⟨hgroups, hnamed, hfits, hsyllables, htimed, htags⟩ :=
        hstocked.perm List.perm_append_comm List.perm_append_comm
      exact ⟨hgroups, hnamed, hfits, hsyllables, htimed, htags⟩
    · rw [hmeasures]
      intro n hn
      rcases List.mem_append.mp hn with hn | hn
      · exact h.score.measures n hn
      · exact List.mem_singleton.mp hn ▸ hsound
    · rw [hmeasures, List.map_append, h.score.numbered, List.length_append, List.length_singleton,
        List.range'_1_concat]
      simp only [List.map_cons, List.map_nil, hnumber, h.measures, Nat.add_comm]
    · intro c hc
      rw [hitems] at hc
      exact h.score.changes c (by simpa using hc)
    · simp [changesOf, h.inForce, hitems]
    · rw [hmeasures]
      simp [h.measures]
  next => cases hq

end Loading

/-! ## Descriptions from trees -/

namespace Description.Decode

open Divisi.Yaml

variable {α : Type} {decode : Decoder α} {node : Node}

theorem exists_of_get {fields : Fields} {name : String} {default x : α}
    (h : fields.get name decode default = some x) : x = default ∨ ∃ n, decode n = some x := by
  unfold Fields.get at h
  split at h
  · exact .inl (Option.some.inj h).symm
  · exact .inr ⟨_, h⟩

theorem exists_of_optional {x : α} (h : optional decode node = some (some x)) :
    ∃ n, decode n = some x := by
  unfold optional at h
  split at h
  · split at h
    · cases h
    · simp only [Option.map_eq_some_iff, Option.some.injEq, exists_eq_right] at h
      exact ⟨_, h⟩
  · simp only [Option.map_eq_some_iff, Option.some.injEq, exists_eq_right] at h
    exact ⟨_, h⟩

theorem exists_of_mapM {f : Node → Option α} {ns : List Node} {xs : List α}
    (h : ns.mapM f = some xs) : ∀ x ∈ xs, ∃ n, f n = some x := by
  induction ns generalizing xs with
  | nil => simp_all
  | cons n rest ih =>
    simp only [List.mapM_cons, Option.bind_eq_bind, Option.bind_eq_some_iff, Option.pure_def,
      Option.some.injEq] at h
    obtain ⟨y, hy, ys, hys, rfl⟩ := h
    intro x hx
    rcases List.mem_cons.mp hx with rfl | hx
    · exact ⟨n, hy⟩
    · exact ih hys x hx

theorem exists_of_list {xs : List α} (h : list decode node = some xs) :
    ∀ x ∈ xs, ∃ n, decode n = some x := by
  unfold list at h
  split at h
  · exact exists_of_mapM h
  · split at h <;> simp_all

theorem keys_insertVoice {voice : Nat} {groups : List Group} {sorted : List (Nat × List Group)}
    {x : Nat × List Group} (h : x ∈ insertVoice voice groups sorted) :
    x.1 = voice ∨ x ∈ sorted := by
  induction sorted with
  | nil => simp_all [insertVoice]
  | cons v rest ih =>
    obtain ⟨other, old⟩ := v
    unfold insertVoice at h
    split at h
    · rcases List.mem_cons.mp h with rfl | h <;> simp_all
    · split at h
      · rcases List.mem_cons.mp h with rfl | h <;> simp_all
      · rcases List.mem_cons.mp h with rfl | h
        · simp
        · rcases ih h with h | h <;> simp_all

theorem insertVoice_ascending {voice : Nat} {groups : List Group}
    {sorted : List (Nat × List Group)} (h : (sorted.map Prod.fst).Pairwise (· < ·)) :
    ((insertVoice voice groups sorted).map Prod.fst).Pairwise (· < ·) := by
  induction sorted with
  | nil => simp [insertVoice]
  | cons v rest ih =>
    obtain ⟨other, old⟩ := v
    have hcons := h
    simp only [List.map_cons, List.pairwise_cons, List.mem_map, forall_exists_index, and_imp,
      forall_apply_eq_imp_iff₂] at h
    unfold insertVoice
    split
    next hlt =>
      simp only [List.map_cons, List.pairwise_cons, List.mem_cons, List.mem_map, forall_eq_or_imp,
        forall_exists_index, and_imp, forall_apply_eq_imp_iff₂]
      exact ⟨⟨hlt, fun x hx => hlt.trans (h.1 x hx)⟩, h⟩
    next hnot =>
      split
      next heq =>
        subst heq
        exact hcons
      next hne =>
        simp only [List.map_cons, List.pairwise_cons, List.mem_map, forall_exists_index, and_imp,
          forall_apply_eq_imp_iff₂]
        refine ⟨fun x hx => ?_, ih h.2⟩
        rcases keys_insertVoice hx with hv | hx
        · omega
        · exact h.1 x hx

theorem voices_ascending {vs : List (Nat × List Group)} (h : voices node = some vs) :
    (vs.map Prod.fst).Pairwise (· < ·) := by
  simp only [voices, Option.bind_eq_bind, Option.bind_eq_some_iff, Option.pure_def,
    Option.some.injEq] at h
  obtain ⟨-, -, given, -, rfl⟩ := h
  suffices hfold : ∀ (given sorted : List (Nat × List Group)),
      (sorted.map Prod.fst).Pairwise (· < ·) →
      ((given.foldl (fun sorted x => insertVoice x.1 x.2 sorted) sorted).map
        Prod.fst).Pairwise (· < ·) from hfold given [] (by simp)
  intro given
  induction given with
  | nil => exact fun _ h => h
  | cons x rest ih => exact fun sorted h => ih _ (insertVoice_ascending h)

end Description.Decode

open Description.Decode in
theorem Description.ordered_of_ofNode? {node : Yaml.Node} {d : Description}
    (h : ofNode? node = some d) : d.Ordered := by
  simp only [ofNode?, description, Option.bind_eq_bind, Option.bind_eq_some_iff, Option.pure_def,
    Option.some.injEq] at h
  obtain ⟨fields, -, -, -, -, -, -, -, -, -, -, -, -, -, -, -, music, hmusic, rfl⟩ := h
  intro entry hentry staves hstaves stave hstave
  rcases exists_of_get hmusic with rfl | ⟨n, hn⟩
  · simp at hentry
  obtain ⟨n', hn'⟩ := exists_of_list hn entry hentry
  simp only [Decode.entry, Option.bind_eq_bind, Option.bind_eq_some_iff, Option.pure_def,
    Option.some.injEq] at hn'
  obtain ⟨_, -, _, -, m, hm, rfl⟩ := hn'
  obtain rfl : m = some staves := hstaves
  rcases exists_of_get hm with hnone | ⟨k, hk⟩
  · cases hnone
  obtain ⟨k', hk'⟩ := exists_of_optional hk
  obtain ⟨l, hl⟩ := exists_of_list hk' stave hstave
  simp only [Decode.stave, Option.bind_eq_bind, Option.bind_eq_some_iff, Option.pure_def,
    Option.some.injEq] at hl
  obtain ⟨_, -, _, -, vs, hvs, _, -, rfl⟩ := hl
  rcases exists_of_get hvs with rfl | ⟨v, hv⟩
  · simp
  · exact voices_ascending hv

/-- The description that a document holds. -/
def Description.ofText? (text : String) : Option Description :=
  (Yaml.Node.ofText? text).bind ofNode?

theorem Description.ordered_of_ofText? {text : String} {d : Description}
    (h : ofText? text = some d) : d.Ordered := by
  obtain ⟨node, -, hd⟩ := Option.bind_eq_some_iff.mp h
  exact ordered_of_ofNode? hd

namespace Score

/-- Reading a score is loading the description that its text holds. -/
theorem ofText_of_description {text : String} {d : Description}
    (h : Description.ofText? text = some d) :
    ofText text = (load d).mapError .invalid := by
  obtain ⟨node, hnode, hd⟩ := Option.bind_eq_some_iff.mp h
  simp only [ofText, hnode, ofNode, hd]

/-- A text reads as a score where it holds a description that loads as one. -/
theorem ofText_eq_ok {text : String} {s : Score} :
    ofText text = .ok s ↔ ∃ d, Description.ofText? text = some d ∧ load d = .ok s := by
  cases h : Description.ofText? text with
  | none =>
    have hnone : ofText text = .error .unreadable := by
      unfold ofText ofNode
      cases hnode : Yaml.Node.ofText? text with
      | none => rfl
      | some node =>
        have hd : Description.ofNode? node = none := by
          simpa [Description.ofText?, hnode] using h
        simp only [hd]
    simp [hnone]
  | some d =>
    rw [ofText_of_description h]
    cases hload : load d <;> simp [hload, Except.mapError]

/-- The score was loaded from a description, the voices of which are in order. -/
def Parsed (s : Score) : Prop := ∃ d : Description, d.Ordered ∧ load d = .ok s

/-- Any score that is read from a text is of this kind. -/
theorem Parsed.of_text {text : String} {s : Score} (h : ofText text = .ok s) : s.Parsed := by
  obtain ⟨d, hd, hload⟩ := ofText_eq_ok.mp h
  exact ⟨d, Description.ordered_of_ofText? hd, hload⟩

/-- **Loaded scores are sound**, and their groups are as they were written. -/
theorem load_sound {d : Description} {s : Score} (hordered : d.Ordered) (h : load d = .ok s) :
    s.Sound Group.Written ∧ s.header = Loading.header d := by
  simp only [load] at h
  split at h
  next => cases h
  next =>
    simp only [bind_eq_ok, pure_eq_ok] at h
    obtain ⟨c, hc, p, hp, rfl⟩ := h
    have hloaded := foldlM_induction (P := fun rest (p : Loading.Progress) =>
        (p.Sound ∧ p.score.header = Loading.header d) ∧
          ∀ entry ∈ rest, ∀ staves, Description.Entry.measure entry = some staves →
            ∀ stave ∈ staves, (stave.voices.map Prod.fst).Pairwise (· < ·))
      (fun x rest p q h hq => ?_)
      ⟨⟨Loading.addChange_sound (.empty _) (Loading.opening_sound hc), rfl⟩, hordered⟩ hp
    · exact ⟨hloaded.1.1.score, hloaded.1.2⟩
    · obtain ⟨hsound, hheader⟩ := Loading.addEntry_sound h.1.1 (h.2 x (by simp)) hq
      exact ⟨⟨hsound, hheader.trans h.1.2⟩, fun y hy => h.2 y (by simp [hy])⟩

theorem Parsed.loaded {s : Score} (h : s.Parsed) :
    s.Sound Group.Written ∧ ∃ d, s.header = Loading.header d := by
  obtain ⟨d, hordered, hd⟩ := h
  exact (load_sound hordered hd).imp_right fun h => ⟨d, h⟩

theorem Parsed.sound {s : Score} (h : s.Parsed) : s.Sound Group.Written := h.loaded.1

/-- Nothing in a document turns combining off. -/
theorem Parsed.combine {s : Score} (h : s.Parsed) : s.header.options.combine = true := by
  obtain ⟨-, d, hheader⟩ := h.loaded
  rw [hheader]
  rfl

end Score

/-! ## Scores of given texts -/

/-- The text is made of these characters. -/
def Spells (text : String) (cs : List Char) : Prop := text.toList = cs

namespace Spells

variable {text text' : String} {cs cs' : List Char}

theorem ofList (cs : List Char) : Spells (String.ofList cs) cs := String.toList_ofList

theorem append (h : Spells text cs) (h' : Spells text' cs') : Spells (text ++ text') (cs ++ cs') := by
  unfold Spells at h h' ⊢
  rw [String.toList_append, h, h']

end Spells

namespace Score

/-- The score that a document of these characters describes. -/
def ofChars (cs : List Char) : Except Fault Score :=
  let glyphs := Yaml.Glyph.dropMark (Yaml.Glyph.along 0 0 (Yaml.Glyph.unifyBreaks cs))
  let glyphs := if cs.all Yaml.isAllowed then some glyphs else none
  match glyphs.bind fun glyphs => (Yaml.Token.ofGlyphs? glyphs).bind Yaml.Node.ofTokens? with
  | none => .error .unreadable
  | some node => ofNode node

theorem ofText_eq_ofChars {text : String} {cs : List Char} (h : Spells text cs) :
    ofText text = ofChars cs := by
  unfold Spells at h
  rw [ofText, Yaml.Node.ofText?, Yaml.Glyph.ofText?, h]
  rfl

/-- A text that reads as a score of some kind. To decide what kind, the characters of the text
are given: a kernel reads them off a string slowly. -/
theorem exists_of_spelled (text : String) {cs : List Char} (hcs : Spells text cs)
    {P : Score → Prop} [DecidablePred P] (h : ((ofChars cs).toOption.any fun s => decide (P s)) = true) :
    ∃ s, ofText text = .ok s ∧ P s := by
  rw [ofText_eq_ofChars hcs]
  cases hread : ofChars cs with
  | error fault => simp [hread, Except.toOption] at h
  | ok s => exact ⟨s, rfl, by simpa [hread, Except.toOption] using h⟩

theorem exists_of_text (text : String) {P : Score → Prop} [DecidablePred P]
    (h : ((ofText text).toOption.any fun s => decide (P s)) = true) :
    ∃ s, ofText text = .ok s ∧ P s := by
  refine exists_of_spelled text rfl ?_
  rwa [← ofText_eq_ofChars rfl]

/-- Two texts that read as scores of some kind. -/
theorem exists_two_of_spelled (text text' : String) {cs cs' : List Char} (hcs : Spells text cs)
    (hcs' : Spells text' cs') {P : Score → Score → Prop} [∀ s s', Decidable (P s s')]
    (h : ((ofChars cs).toOption.any fun s => (ofChars cs').toOption.any fun s' => decide (P s s')) =
      true) : ∃ s s', ofText text = .ok s ∧ ofText text' = .ok s' ∧ P s s' := by
  obtain ⟨s, hs, h⟩ := exists_of_spelled text hcs
    (P := fun s => ((ofChars cs').toOption.any fun s' => decide (P s s')) = true) (by simpa using h)
  obtain ⟨s', hs', h⟩ := exists_of_spelled text' hcs' h
  exact ⟨s, s', hs, hs', h⟩

end Score

end Divisi
