/-
What a written value is, and how long it lasts.

A text is read as a written value exactly if it is spelled as one (`WrittenTime.parse_eq_ok`), with
white space around it or not. A group that is read lasts as long as its value and its dots add up
to, in the time that its tuplet leaves it (`Loading.written_values`).
-/
import Mathlib.Algebra.BigOperators.Group.Finset.Basic
import Mathlib.Tactic.FieldSimp
import Mathlib.Tactic.Ring
import Divisi.Proofs.Numerals
import Divisi.Proofs.Transcribed

namespace Divisi

namespace WrittenTime

/-- How a value is spelled: `m`; or `1/2`, or the numeral of a power of two up to 256, and up to
eight dots behind it. -/
inductive Spelling : WrittenTime → List Char → Prop
  | wholeMeasure : Spelling .wholeMeasure ['m']
  | doubleWhole {dots : Nat} (hdots : dots ≤ 8) :
      Spelling (.note 0 dots) (['1', '/', '2'] ++ List.replicate dots '.')
  | powerOfTwo {k dots : Nat} {base : List Char} (hk : k ≤ 8) (hdots : dots ≤ 8)
      (hbase : Text.Numeral (2 ^ k) base) : Spelling (.note (2 ^ k) dots) (base ++ List.replicate dots '.')

/-- The text is a spelling of the value, within white space. -/
def Spelled (text : String) (w : WrittenTime) : Prop :=
  ∃ core, Text.Within core text.toList ∧ Spelling w core

theorem mem_values {n : Nat} : n ∈ values ↔ ∃ k ≤ 8, n = 2 ^ k := by
  have hpowers : ∀ n ∈ values, ∃ k < 9, n = 2 ^ k := by decide
  have hvalues : ∀ k < 9, 2 ^ k ∈ values := by decide
  constructor
  · intro h
    obtain ⟨k, hk, rfl⟩ := hpowers n h
    exact ⟨k, Nat.le_of_lt_succ hk, rfl⟩
  · rintro ⟨k, hk, rfl⟩
    exact hvalues k (Nat.lt_succ_of_le hk)

theorem base_eq_ok {text : String} {cs : List Char} {n : Nat} : base text cs = .ok n ↔
    (cs = ['1', '/', '2'] ∧ n = 0) ∨ ∃ k ≤ 8, n = 2 ^ k ∧ Text.Numeral n cs := by
  have hslash : ∀ {n : Nat}, ¬Text.Numeral n ['1', '/', '2'] := fun h => by
    rcases h.mem (List.mem_cons_of_mem _ List.mem_cons_self) with h | h <;> exact absurd h (by decide)
  have hlt : ∀ n ∈ values, n < 65536 := by decide
  unfold base
  split
  next hcs =>
    subst hcs
    exact ⟨fun h => .inl ⟨rfl, (Except.ok.inj h).symm⟩, fun h => by
      rcases h with ⟨-, rfl⟩ | ⟨_, -, -, hn⟩
      · rfl
      · exact absurd hn hslash⟩
  next hcs =>
    constructor
    · intro h
      split at h
      next => cases h
      next m hm =>
        split at h <;> cases h
        next hvalue =>
          obtain ⟨k, hk, rfl⟩ := mem_values.mp hvalue
          exact .inr ⟨k, hk, rfl, (Text.natural?_eq_some.mp hm).1⟩
    · rintro (⟨hcs', -⟩ | ⟨k, hk, hn, hnumeral⟩)
      · exact absurd hcs' hcs
      · have hvalue := mem_values.mpr ⟨k, hk, hn⟩
        rw [Text.natural?_eq_some.mpr ⟨hnumeral, hlt n hvalue⟩]
        exact if_pos hvalue

theorem base_eq_error {text : String} {cs : List Char} {flaw : Flaw} (h : base text cs = .error flaw) :
    flaw = .timeValue text ∨ flaw = .powerOfTwo text := by
  unfold base at h
  split at h
  · cases h
  · split at h
    · exact .inl (Except.error.inj h).symm
    · split at h <;> cases h
      exact .inr rfl

theorem base_char {text : String} {cs : List Char} {n : Nat} (h : base text cs = .ok n) :
    ∀ c ∈ cs, c ≠ 'm' ∧ c ≠ '.' ∧ Text.isBlank c = false := by
  intro c hc
  rcases base_eq_ok.mp h with ⟨rfl, -⟩ | ⟨_, -, -, hnumeral⟩
  · simp only [List.mem_cons, List.not_mem_nil, or_false] at hc
    rcases hc with rfl | rfl | rfl <;> decide
  · rcases hnumeral.mem hc with rfl | hdigit
    · decide
    · refine ⟨?_, ?_, Text.isBlank_of_isDigit hdigit⟩ <;> rintro rfl <;> exact absurd hdigit (by decide)

section Dots

variable {base : List Char} {dots : Nat}

theorem takeWhile_dots (h : ∀ c ∈ base, c ≠ '.') :
    (base ++ List.replicate dots '.').takeWhile (· ≠ '.') = base := by
  rw [List.takeWhile_append_of_pos fun c hc => by simpa using h c hc]
  cases dots <;> simp [List.replicate_succ]

theorem dropWhile_dots (h : ∀ c ∈ base, c ≠ '.') :
    (base ++ List.replicate dots '.').dropWhile (· ≠ '.') = List.replicate dots '.' := by
  rw [List.dropWhile_append_of_pos fun c hc => by simpa using h c hc]
  cases dots <;> simp [List.replicate_succ]

end Dots

/-- A spelling is `m`, or a base with dots behind it. -/
theorem spelling_iff {w : WrittenTime} {cs : List Char} (text : String) : Spelling w cs ↔
    (w = .wholeMeasure ∧ cs = ['m']) ∨ ∃ n dots front, w = .note n dots ∧ dots ≤ 8 ∧
      cs = front ++ List.replicate dots '.' ∧ base text front = .ok n := by
  constructor
  · intro h
    cases h with
    | wholeMeasure => exact .inl ⟨rfl, rfl⟩
    | doubleWhole hdots => exact .inr ⟨_, _, _, rfl, hdots, rfl, rfl⟩
    | powerOfTwo hk hdots hbase =>
      exact .inr ⟨_, _, _, rfl, hdots, rfl, base_eq_ok.mpr (.inr ⟨_, hk, rfl, hbase⟩)⟩
  · rintro (⟨rfl, rfl⟩ | ⟨n, dots, front, rfl, hdots, rfl, hbase⟩)
    · exact .wholeMeasure
    · rcases base_eq_ok.mp hbase with ⟨rfl, rfl⟩ | ⟨k, hk, rfl, hnumeral⟩
      · exact .doubleWhole hdots
      · exact .powerOfTwo hk hdots hnumeral

theorem parse_of_spelling {text : String} {w : WrittenTime} {core : List Char}
    (hwithin : Text.Within core text.toList) (h : Spelling w core) : parse text = .ok w := by
  rcases (spelling_iff (String.ofList core)).mp h with
    ⟨rfl, rfl⟩ | ⟨n, dots, front, rfl, hdots, rfl, hbase⟩
  · rw [parse, Text.trim_of_within hwithin (List.forall_mem_singleton.mpr (by decide))]
    rfl
  · have hchar := base_char hbase
    have hblank : ∀ c ∈ front ++ List.replicate dots '.', Text.isBlank c = false := by
      intro c hc
      rcases List.mem_append.mp hc with hc | hc
      · exact (hchar c hc).2.2
      · exact List.eq_of_mem_replicate hc ▸ by decide
    have hne : front ++ List.replicate dots '.' ≠ ['m'] := fun heq => by
      rcases List.mem_append.mp (heq ▸ List.mem_singleton_self 'm') with hm | hm
      · exact (hchar 'm' hm).1 rfl
      · exact absurd (List.eq_of_mem_replicate hm) (by decide)
    have hfront : ∀ c ∈ front, c ≠ '.' := fun c hc => (hchar c hc).2.1
    have hall : (List.replicate dots '.').any (· ≠ '.') = false := by simp
    simp only [parse, Text.trim_of_within hwithin hblank, takeWhile_dots hfront,
      dropWhile_dots hfront, if_neg hne, hall, List.length_replicate, hbase, maxDots,
      Nat.not_lt.mpr hdots, if_false, Bool.false_eq_true, Except.map]

theorem spelling_of_parse {text : String} {w : WrittenTime} (h : parse text = .ok w) :
    Spelling w (Text.trim text.toList) := by
  refine (spelling_iff (String.ofList (Text.trim text.toList))).mpr ?_
  simp only [parse] at h
  split at h
  next hm => exact .inl ⟨(Except.ok.inj h).symm, hm⟩
  next =>
    split at h
    next => cases h
    next hall =>
      split at h
      next => cases h
      next hlength =>
        obtain ⟨n, hn, rfl⟩ := map_eq_ok.mp h
        refine .inr ⟨n, _, _, rfl, Nat.not_lt.mp hlength, ?_, hn⟩
        have hdots : (Text.trim text.toList).dropWhile (· ≠ '.') = List.replicate _ '.' :=
          List.eq_replicate_of_mem fun c hc => by
            by_contra hne
            exact hall (List.any_eq_true.mpr ⟨c, hc, by simpa using hne⟩)
        rw [← hdots, List.takeWhile_append_dropWhile]

theorem flaw_of_parse {text : String} {flaw : Flaw} (h : parse text = .error flaw) :
    let shown := String.ofList (Text.trim text.toList)
    flaw = .timeValue shown ∨ flaw = .dots shown ∨ flaw = .powerOfTwo shown := by
  simp only [parse] at h
  split at h
  next => cases h
  next =>
    split at h
    next => exact .inl (Except.error.inj h).symm
    next =>
      split at h
      next => exact .inr (.inl (Except.error.inj h).symm)
      next =>
        cases hbase : base (String.ofList (Text.trim text.toList))
            ((Text.trim text.toList).takeWhile (· ≠ '.')) with
        | ok n =>
          rw [hbase] at h
          cases h
        | error flaw' =>
          rw [hbase] at h
          cases h
          exact (base_eq_error hbase).imp_right .inr

/-- Exactly the spelled texts are read. -/
theorem parse_eq_ok {text : String} {w : WrittenTime} : parse text = .ok w ↔ Spelled text w :=
  ⟨fun h => ⟨_, Text.within_trim _, spelling_of_parse h⟩,
    fun ⟨_, hwithin, h⟩ => parse_of_spelling hwithin h⟩

end WrittenTime

/-! ## Lengths -/

/-- What each dot adds is half of what was added before. -/
theorem noteValue_eq_sum (value dots : Nat) : noteValue value dots =
    (if value = 0 then 2 else 1 / (value : Time)) * ∑ i ∈ Finset.range (dots + 1), (1 / 2) ^ i := by
  have hsum : ∀ n : Nat, (2 - 1 / (Nat.pow 2 n : Time)) = ∑ i ∈ Finset.range (n + 1), (1 / 2 : Time) ^ i := by
    intro n
    induction n with
    | zero => norm_num
    | succ n ih =>
      rw [Finset.sum_range_succ, ← ih]
      simp only [Nat.pow_eq, Nat.cast_pow, Nat.cast_ofNat, div_pow, one_pow]
      field_simp
      ring
  rw [noteValue, hsum]

/-- The part of its time that a tuplet leaves a note: the time of `inTimeOf` notes, or of as many as
is the convention, for `num` of them. -/
def Description.tupletRatio : Option Description.Tuplet → Time
  | none => 1
  | some t => ((t.inTimeOf.getD (Loading.conventionalTime t.num) : Nat) : Time) / (t.num : Time)

namespace Loading

variable {time : Signature} {measure staff voice : Nat}

theorem duration_note {given : Option Description.Tuplet} {t : Option Tuplet}
    (h : Loading.given (tuplet measure) given = .ok t) (value dots : Nat) :
    duration time t (.note value dots) = noteValue value dots * Description.tupletRatio given := by
  rcases given_eq_ok h with ⟨rfl, rfl⟩ | ⟨d, u, rfl, rfl, hu⟩
  · exact (mul_one _).symm
  · unfold tuplet at hu
    split at hu <;> cases hu
    rfl

/-- How long a group lasts that was written with a value of its own. -/
theorem group_duration {d : Description.Group} {g : Group} {tags : List (Option String)}
    (h : group time measure staff voice d = .ok (g, tags)) (hgrace : d.grace = false)
    {value dots : Nat} (hwritten : WrittenTime.Spelled d.time (.note value dots)) :
    g.duration = (if value = 0 then 2 else 1 / (value : Time)) *
      (∑ i ∈ Finset.range (dots + 1), (1 / 2) ^ i) * Description.tupletRatio d.tuplet := by
  obtain ⟨written, t, hparse, htuplet, -, -, -, hduration⟩ := group_timing h
  cases hparse.symm.trans (WrittenTime.parse_eq_ok.mpr hwritten)
  rw [hduration, hgrace, if_neg (by decide), duration_note htuplet, noteValue_eq_sum]

end Loading

namespace Score

/-- Nothing that is not spelled as a value stands in a description that loads. -/
theorem spelled_of_load {d : Description} {s : Score} (hordered : d.Ordered) (hs : load d = .ok s)
    {text : String} (h : (∃ g, d.WritesGroup g ∧ g.time = text) ∨
      ∃ x, d.WritesSyllable x ∧ x.time = text) : ∃ w, WrittenTime.Spelled text w := by
  rcases h with ⟨g, hg, rfl⟩ | ⟨x, hx, rfl⟩
  · obtain ⟨_, _, _, _, _, _, _, hgroup, -⟩ := hasGroup_of_writes hordered hs hg
    obtain ⟨written, _, hparse, -⟩ := Loading.group_timing hgroup
    exact ⟨written, WrittenTime.parse_eq_ok.mp hparse⟩
  · obtain ⟨_, _, _, _, _, written, hparse, -⟩ := hasSyllable_of_writes hordered hs hx
    exact ⟨written, WrittenTime.parse_eq_ok.mp hparse⟩

/-- **What a written value is, and how long it lasts.** A text is read as a value exactly if it is
spelled as one, within white space or not: `m`, or `1/2` or the numeral of a power of two up to
256, with up to eight dots and nothing else. Any other is refused, and so is a document where it
is written for a group or a syllable. A group that is no grace note and has a value of its own lasts
twice a whole note for `1/2` and the `n`-th part of one otherwise, times `1 + 1/2 + ...` with a half
for each dot, times the ratio of its tuplet if it is in one; no other group of a score that was read
has a value of its own. -/
theorem written_values :
    (∀ text w, WrittenTime.parse text = .ok w ↔ WrittenTime.Spelled text w) ∧
    (∀ text, (∀ w, ¬WrittenTime.Spelled text w) →
      (let shown := String.ofList (Text.trim text.toList)
        ∃ flaw, WrittenTime.parse text = .error flaw ∧
          (flaw = .timeValue shown ∨ flaw = .dots shown ∨ flaw = .powerOfTwo shown)) ∧
      ∀ d : Description, d.Ordered →
        ((∃ g, d.WritesGroup g ∧ g.time = text) ∨ ∃ x, d.WritesSyllable x ∧ x.time = text) →
          ∃ flaw, load d = .error flaw ∧ ∀ document, Description.ofText? document = some d →
            ofText document = .error (.invalid flaw)) ∧
    (∀ time measure staff voice d g tags, Loading.group time measure staff voice d = .ok (g, tags) →
      d.grace = false → ∀ value dots, WrittenTime.Spelled d.time (.note value dots) →
        g.duration = (if value = 0 then 2 else 1 / (value : Time)) *
          (∑ i ∈ Finset.range (dots + 1), (1 / 2) ^ i) * Description.tupletRatio d.tuplet) ∧
    ∀ (d : Description) s, d.Ordered → load d = .ok s →
      ∀ k g, s.groups.get? k = some g → g.grace = false → g.wholeMeasure = false →
        ∃ dg, d.WritesGroup dg ∧ WrittenTime.Spelled dg.time (.note g.value g.dots) ∧
          g.duration = (if g.value = 0 then 2 else 1 / (g.value : Time)) *
            (∑ i ∈ Finset.range (g.dots + 1), (1 / 2) ^ i) * Description.tupletRatio dg.tuplet := by
  refine ⟨fun _ _ => WrittenTime.parse_eq_ok, fun text hnot => ⟨?_, fun d hordered hwrites => ?_⟩,
    fun _ _ _ _ _ _ _ hgroup hgrace _ _ => Loading.group_duration hgroup hgrace, ?_⟩
  · cases hparse : WrittenTime.parse text with
    | ok w => exact absurd (WrittenTime.parse_eq_ok.mp hparse) (hnot w)
    | error flaw => exact ⟨flaw, rfl, WrittenTime.flaw_of_parse hparse⟩
  · cases hload : load d with
    | ok s =>
      obtain ⟨w, hw⟩ := spelled_of_load hordered hload hwrites
      exact absurd hw (hnot w)
    | error flaw =>
      exact ⟨flaw, rfl, fun document hd => by rw [ofText_of_description hd, hload]; rfl⟩
  · intro d s hordered hs k g hk hgrace hwhole
    obtain ⟨dg, hdg, p, hp, staff, v, g', tags, hgroup, hk'⟩ := exists_written hordered hs hk
    obtain rfl := Option.some.inj (hk.symm.trans hk')
    obtain ⟨written, -, hparse, -, hgrace', hwhole', hvalue, -⟩ := Loading.group_timing hgroup
    cases written with
    | wholeMeasure => simp [hwhole'] at hwhole
    | note value dots =>
      obtain ⟨rfl, rfl⟩ := hvalue value dots rfl
      have hspelled := WrittenTime.parse_eq_ok.mp hparse
      exact ⟨dg, hdg, hspelled, Loading.group_duration hgroup (hgrace'.symm.trans hgrace) hspelled⟩

/-- A sixteenth with two dots, spelled at length, in a triplet. -/
def dottedTriplet : String :=
  "music:\n- measure:\n  - voices:\n     1:\n     - time: +016..\n       notes: [c5]\n" ++
  "       tuplet:\n        num: 3\n"

/-- A third, which is no written value. -/
def thirdNote : String :=
  "music:\n- measure:\n  - voices:\n     1:\n     - time: 3\n       notes: [c5]\n"

theorem written_dottedTriplet :
    (∃ d s k g dg, Description.ofText? dottedTriplet = some d ∧ load d = .ok s ∧
      s.groups.get? k = some g ∧ g.duration = 7 / 96 ∧ d.WritesGroup dg ∧
      WrittenTime.Spelled dg.time (.note 16 2)) ∧
    ∃ flaw, ofText thirdNote = .error (.invalid flaw) := by
  obtain ⟨hread, hrefused, -, hgroups⟩ := written_values
  constructor
  · obtain ⟨d, s, hd, hs, g, hk, hgrace, hwhole, hvalue, hdots, hduration⟩ :=
      exists_of_description dottedTriplet (.append (.ofList _) (.ofList _))
        (P := fun _ s => ∃ g ∈ s.groups.get? ⟨0⟩, g.grace = false ∧ g.wholeMeasure = false ∧
          g.value = 16 ∧ g.dots = 2 ∧ g.duration = 7 / 96) (by decide +kernel)
    obtain ⟨dg, hdg, hspelled, -⟩ := hgroups d s (Description.ordered_of_ofText? hd) hs ⟨0⟩ g hk hgrace
      hwhole
    rw [hvalue, hdots] at hspelled
    exact ⟨d, s, ⟨0⟩, g, dg, hd, hs, hk, hduration, hdg, hspelled⟩
  · have hnot : ∀ w, ¬WrittenTime.Spelled "3" w := fun w hw => by
      have hparse : WrittenTime.parse "3" = .error (.powerOfTwo "3") := by decide +kernel
      cases hparse.symm.trans ((hread "3" w).mpr hw)
    obtain ⟨d, hd, hwrites⟩ := (Option.any_eq_true ..).mp (by decide +kernel :
      ((Description.ofText? thirdNote).any fun d => decide (∃ entry ∈ d.music,
        ∃ written ∈ entry.measure, ∃ sd ∈ written, ∃ x ∈ sd.voices, ∃ g ∈ x.2, g.time = "3")) = true)
    obtain ⟨entry, hentry, written, hwritten, sd, hsd, x, hx, g, hg, htime⟩ :=
      of_decide_eq_true hwrites
    obtain ⟨flaw, -, hdocument⟩ := (hrefused "3" hnot).2 d (Description.ordered_of_ofText? hd)
      (.inl ⟨g, ⟨entry, hentry, written, hwritten, sd, hsd, x, hx, hg⟩, htime⟩)
    exact ⟨flaw, hdocument thirdNote hd⟩

end Score

end Divisi
