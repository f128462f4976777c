/-
Sound scores: the invariant of the relations that tie a score together.

Every group of the arena stands in one voice list and names it, every syllable
in one verse, and every tag points at something; the staves of a measure and
the measures of a score are in order; and what the settings name can be named.
Loading makes sound scores, and all that is done to them later keeps them so.
-/
import Mathlib.Algebra.Order.Field.Rat
import Mathlib.Tactic.Linarith
import Mathlib.Tactic.Positivity
import Divisi.Proofs.Listing
import Divisi.Proofs.Range

namespace Divisi

/-! ## Settings -/

/-- Both numbers of a signature are from 1 to 255. -/
structure Signature.Sound (t : Signature) : Prop where
  beats : 0 < t.beats
  unit : 0 < t.unit
  beats_lt : t.beats < 256
  unit_lt : t.unit < 256

/-- The request names voices of a staff, at most as many as there are. -/
def Request.Sound (r : Request) : Prop :=
  r.voices.length ≤ maxVoices ∧ ∀ v ∈ r.voices, 1 ≤ v ∧ v ≤ maxVoices

structure Settings.Sound (s : Settings) : Prop where
  time : ∀ t, s.time = some t → t.Sound
  request : ∀ r, s.request = some r → r.Sound

def InForce.Sound (f : InForce) : Prop := ∀ scope, (f.settings scope).Sound

theorem Signature.Sound.duration_pos {t : Signature} (h : t.Sound) : 0 < t.duration := by
  unfold Signature.duration
  have : (0 : Rat) < t.beats := by exact_mod_cast h.beats
  have : (0 : Rat) < t.unit := by exact_mod_cast h.unit
  positivity

theorem Signature.Sound.onGrid {t : Signature} (h : t.Sound) : t.duration.OnGrid t.unit := by
  have hunit : (t.unit : Rat) ≠ 0 := by exact_mod_cast h.unit.ne'
  have hbeats : (t.beats : Rat) < 256 := by exact_mod_cast h.beats_lt
  refine ⟨h.unit, ?_, ?_, h.duration_pos.le, ?_⟩
  · have := h.unit_lt
    unfold Time.Fits
    omega
  · have hdvd := Rat.den_dvd t.beats t.unit
    rwa [Rat.divInt_eq_div, Int.cast_natCast, Int.cast_natCast, Int.natCast_dvd_natCast] at hdvd
  · rw [Signature.duration, div_mul_cancel₀ _ hunit]
    linarith

/-- A measure can be added up that one span fills. -/
theorem Signature.Sound.addable {t : Signature} (h : t.Sound) : Time.Addable 0 [t.duration] := by
  have hzero : Time.OnGrid t.unit 0 := h.onGrid.mono (one_dvd _) (le_refl 0) h.duration_pos.le
  exact (Time.addable_of_onGrid hzero (by simpa using ⟨h.duration_pos.le, h.onGrid.dvd⟩)
    (by simpa using h.onGrid.le)).1

theorem Settings.Sound.empty : ({} : Settings).Sound := ⟨by simp, by simp⟩

theorem Settings.Sound.orElse {new old : Settings} (hnew : new.Sound) (hold : old.Sound) :
    (new.orElse old).Sound := by
  constructor
  · intro t ht
    cases hn : new.time with
    | none => exact hold.time t (by simpa [Settings.orElse, hn] using ht)
    | some u => exact hnew.time t (by simpa [Settings.orElse, hn] using ht)
  · intro r hr
    cases hn : new.request with
    | none => exact hold.request r (by simpa [Settings.orElse, hn] using hr)
    | some u => exact hnew.request r (by simpa [Settings.orElse, hn] using hr)

namespace InForce.Sound

variable {f : InForce}

theorem start : InForce.start.Sound := fun _ => Settings.Sound.empty

theorem apply (h : f.Sound) {c : Change} (hc : c.settings.Sound) : (f.apply c).Sound := by
  intro scope
  simp only [InForce.apply]
  split
  · exact hc.orElse (h scope)
  · exact h scope

theorem time (h : f.Sound) : f.time.Sound := by
  unfold InForce.time
  cases ht : (f.settings .score).time with
  | none => exact ⟨by decide, by decide, by decide, by decide⟩
  | some t => exact (h .score).time t ht

theorem duration_pos (h : f.Sound) : 0 < f.time.duration := h.time.duration_pos

theorem request (h : f.Sound) {staff : Nat} {r : Request} (hr : f.request staff = some r) :
    r.Sound := by
  simp only [InForce.request, Option.filter_eq_some_iff] at hr
  obtain ⟨hr, -⟩ := hr
  cases hs : (f.settings (.staff staff)).request with
  | none => exact (h .score).request r (by simpa [hs] using hr)
  | some q => exact (h (.staff staff)).request r (by simpa [hs] using hr)

end InForce.Sound

/-! ## Groups -/

theorem Note.sorted_highestFirst {α : Type} (heads : List (Note × α)) :
    ((heads.mergeSort fun x y => Note.highestFirst x.1 y.1).map Prod.fst).Pairwise
      fun x y => y.step ≤ x.step := by
  rw [List.pairwise_map]
  refine (@List.pairwise_mergeSort _ (fun x y => Note.highestFirst x.1 y.1) ?_ ?_ heads).imp ?_
  · intro x y z hxy hyz
    simp only [Note.highestFirst, decide_eq_true_eq] at hxy hyz ⊢
    omega
  · intro x y
    simp only [Note.highestFirst, Bool.or_eq_true, decide_eq_true_eq]
    omega
  · intro x y hxy
    simpa [Note.highestFirst] using hxy

namespace Group

/-- The group is in a tuplet in the time of no notes, which leaves it no time. -/
def Timeless (g : Group) : Prop := g.wholeMeasure = false ∧ ∃ t, g.tuplet = some t ∧ t.inTimeOf = 0

structure Sound (g : Group) : Prop where
  grace : g.grace = true → g.duration = 0
  nonneg : 0 ≤ g.duration
  /-- Notes are there exactly where they are printed. -/
  printed : g.notes ≠ [] ↔ g.kind = .notes
  /-- The highest note comes first. -/
  sorted : g.notes.Pairwise fun x y => y.step ≤ x.step

/-- A group as it was written: it takes time unless it is a grace note or its
tuplet leaves it none. -/
structure Written (g : Group) : Prop extends Sound g where
  timeless : g.grace = false → (g.duration = 0 ↔ g.Timeless)
  /-- A tie into another voice is a tie. -/
  tied : ∀ n ∈ g.notes, n.tiedToVoice.isSome = true → n.tie = true

end Group

/-! ## Scores -/

/-- The arenas and the tags of a score go with these postings and syllables. -/
structure Score.Stocked (fits : Group → Prop) (s : Score) (postings : List Posting)
    (sung : List SyllableKey) : Prop where
  groups : s.groups.Lists (postings.map (·.key))
  named : ∀ p ∈ postings, p.Named s.groups
  fits : ∀ k g, s.groups.get? k = some g → fits g
  syllables : s.syllables.Lists sung
  timed : ∀ k x, s.syllables.get? k = some x → 0 < x.duration
  tags : ∀ tag ∈ s.tags, ∃ g, s.groups.get? tag.2.group = some g ∧
    ∀ i, tag.2.note = some i → i < g.notes.length

structure Stave.Sound (s : Stave) : Prop where
  lists : ∀ v list, s.list? v = some list → list ≠ []
  verses : ∀ verse ∈ s.verses, verse ≠ []

structure Measure.Sound (m : Measure) : Prop where
  staves : ∀ s ∈ m.staves, s.Sound
  ascending : (m.staves.map (·.staff)).Pairwise (· < ·)

structure Score.Sound (fits : Group → Prop) (s : Score) : Prop where
  stocked : s.Stocked fits s.postings s.sung
  measures : ∀ m ∈ s.measures, m.Sound
  numbered : s.measures.map (·.number) = List.range' 1 s.measures.length
  changes : ∀ c, Item.change c ∈ s.items → c.settings.Sound

namespace Score.Stocked

variable {fits : Group → Prop} {s : Score} {ps qs : List Posting} {vs ws : List SyllableKey}

theorem perm (h : s.Stocked fits ps vs) (hp : ps.Perm qs) (hv : vs.Perm ws) :
    s.Stocked fits qs ws where
  groups := h.groups.perm (hp.map _)
  named := fun p hq => h.named p (hp.mem_iff.mpr hq)
  fits := h.fits
  syllables := h.syllables.perm hv
  timed := h.timed
  tags := h.tags

end Score.Stocked

/-! ## Settings along a score -/

/-- The measures among items. -/
def measuresOf (items : List Item) : List Measure :=
  items.filterMap fun
    | .measure m => some m
    | .change _ => none

@[simp] theorem measuresOf_measure (m : Measure) (items : List Item) :
    measuresOf (.measure m :: items) = m :: measuresOf items := rfl

/-- The changes among items. -/
def changesOf (items : List Item) : List Change :=
  items.filterMap fun
    | .change c => some c
    | .measure _ => none

theorem mem_measuresOf {m : Measure} {items : List Item} :
    m ∈ measuresOf items ↔ Item.measure m ∈ items := by
  simp only [measuresOf, List.mem_filterMap]
  constructor
  · rintro ⟨i, hi, h⟩
    cases i <;> simp_all
  · exact fun h => ⟨_, h, rfl⟩

theorem mem_changesOf {c : Change} {items : List Item} :
    c ∈ changesOf items ↔ Item.change c ∈ items := by
  simp only [changesOf, List.mem_filterMap]
  constructor
  · rintro ⟨i, hi, h⟩
    cases i <;> simp_all
  · exact fun h => ⟨_, h, rfl⟩

namespace Placed

theorem along_append (i : Nat) (f : InForce) (pre rest : List Item) :
    along i f (pre ++ rest) =
      along i f pre ++ along (i + pre.length) ((changesOf pre).foldl InForce.apply f) rest := by
  induction pre generalizing i f with
  | nil => rfl
  | cons item pre ih =>
    rw [List.cons_append, List.length_cons, Nat.add_comm pre.length, ← Nat.add_assoc]
    cases item with
    | change c => exact ih (i + 1) (f.apply c)
    | measure m => exact congrArg _ (ih (i + 1) f)

/-- A placed measure stands somewhere among the items, with what the changes
before it have left in force. -/
theorem mem_along {item : Nat} {f : InForce} {items : List Item} {p : Placed}
    (h : p ∈ along item f items) : ∃ before after, items = before ++ .measure p.measure :: after ∧
      p.item = item + before.length ∧ p.inForce = (changesOf before).foldl InForce.apply f := by
  induction items generalizing item f with
  | nil => simp [along] at h
  | cons i rest ih =>
    cases i with
    | change c =>
      obtain ⟨before, after, rfl, hitem, hforce⟩ := ih h
      exact ⟨.change c :: before, after, rfl, by simp only [List.length_cons]; omega,
        by simpa [changesOf] using hforce⟩
    | measure m =>
      rcases List.mem_cons.mp h with rfl | h
      · exact ⟨[], rest, rfl, rfl, rfl⟩
      · obtain ⟨before, after, rfl, hitem, hforce⟩ := ih h
        exact ⟨.measure m :: before, after, rfl, by simp only [List.length_cons]; omega,
          by simpa [changesOf] using hforce⟩

theorem map_measure_along (item : Nat) (f : InForce) (items : List Item) :
    (along item f items).map (·.measure) = items.filterMap fun
      | .measure m => some m
      | .change _ => none := by
  induction items generalizing item f with
  | nil => rfl
  | cons i rest ih => cases i <;> simp [along, ih]

theorem sound_along {item : Nat} {f : InForce} {items : List Item} (hf : f.Sound)
    (hc : ∀ c, Item.change c ∈ items → c.settings.Sound) :
    ∀ p ∈ along item f items, p.inForce.Sound := by
  induction items generalizing item f with
  | nil => simp [along]
  | cons i rest ih =>
    have hrest : ∀ c, Item.change c ∈ rest → c.settings.Sound := fun c h => hc c (by simp [h])
    cases i with
    | change c => exact ih (hf.apply (hc c (by simp))) hrest
    | measure m =>
      intro p hp
      rcases List.mem_cons.mp hp with rfl | hp
      · exact hf
      · exact ih hf hrest p hp

end Placed

theorem Score.map_measure_placed (s : Score) : s.placed.map (·.measure) = s.measures :=
  Placed.map_measure_along ..

theorem Score.getElem?_measures {s : Score} {n : Nat} {p : Placed} (h : s.placed[n]? = some p) :
    s.measures[n]? = some p.measure := by
  rw [← map_measure_placed, List.getElem?_map, h, Option.map_some]

theorem Score.Sound.inForce {fits : Group → Prop} {s : Score} (h : s.Sound fits) :
    ∀ p ∈ s.placed, p.inForce.Sound :=
  Placed.sound_along InForce.Sound.start h.changes

end Divisi
