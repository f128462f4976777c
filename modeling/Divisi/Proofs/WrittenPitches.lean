/-
What a written pitch is.

A text is read as a pitch exactly if it is spelled as one (`Pitch.parse?_eq_some`), with white
space around it or not: a letter in either case, an accidental in one of its spellings, and an
integer from 0 to 9. The letter `b` is never mistaken for a flat, since the letter comes first and
the integer begins with a digit or a minus sign. Every pitch that can be read is read back from its
name (`Score.written_pitches`).
-/
import Divisi.Proofs.Numerals
import Divisi.Proofs.Transcribed

namespace Divisi

namespace Letter

/-- The letter is written in either case. -/
def Spelling (l : Letter) (c : Char) : Prop := c = l.char ∨ c = l.char.toUpper

theorem spelling_of_toLower {l : Letter} {c : Char} (h : c.toLower = l.char) : l.Spelling c := by
  unfold Char.toLower at h
  split at h
  next =>
    have hval : c.val = l.char.val - ('a'.val - 'A'.val) := by rw [← h, UInt32.add_sub_cancel]
    exact .inr (Char.ext (hval.trans (by cases l <;> rfl)))
  next => exact .inl h

theorem ofChar?_eq_some {c : Char} {l : Letter} : ofChar? c = some l ↔ l.Spelling c := by
  constructor
  · intro h
    refine spelling_of_toLower ?_
    unfold ofChar? at h
    split at h <;> cases h <;> assumption
  · rintro (rfl | rfl) <;> cases l <;> rfl

theorem Spelling.isBlank {l : Letter} {c : Char} (h : l.Spelling c) : Text.isBlank c = false := by
  rcases h with rfl | rfl <;> cases l <;> decide

end Letter

namespace Accidental

/-- The spellings of an accidental; where none is printed there is nothing to spell. -/
inductive Spelling : Accidental → List Char → Prop
  | none : Spelling .none []
  | sharp : Spelling .sharp ['#']
  | flat : Spelling .flat ['b']
  | ampersand : Spelling .flat ['&']
  | natural : Spelling .natural ['n']
  | doubleSharp : Spelling .doubleSharp ['x']
  | twoSharps : Spelling .doubleSharp ['#', '#']
  | doubleFlat : Spelling .doubleFlat ['b', 'b']
  | ampersands : Spelling .doubleFlat ['&', '&']

theorem ofChars?_eq_some {cs : List Char} {x : Accidental} : ofChars? cs = some x ↔ x.Spelling cs := by
  constructor
  · intro h
    unfold ofChars? at h
    split at h <;> cases h <;> constructor
  · intro h
    cases h <;> rfl

theorem spelling_sign (x : Accidental) : x.Spelling x.sign.toList :=
  ofChars?_eq_some.mp (ofChars?_sign x)

/-- No sign is taken for the beginning of the octave, and none has white space in it. -/
theorem Spelling.mem {cs : List Char} {x : Accidental} (h : x.Spelling cs) :
    ∀ c ∈ cs, Pitch.opensOctave c = false ∧ Text.isBlank c = false := by
  cases h <;> simp only [List.mem_cons, List.not_mem_nil, or_false, forall_eq_or_imp, forall_eq,
    false_imp_iff, implies_true] <;> decide

end Accidental

namespace Pitch

/-- How a pitch is spelled: its letter, its accidental and an integer from 0 to 9. -/
inductive Spelling : Pitch → List Char → Prop
  | mk {p : Pitch} {first : Char} {sign octave : List Char} (hletter : p.letter.Spelling first)
      (hsign : p.accidental.Spelling sign) (hoctave : Text.Integer p.octave octave)
      (hrange : 0 ≤ p.octave ∧ p.octave ≤ 9) : Spelling p (first :: (sign ++ octave))

/-- The text is a spelling of the pitch, within white space. -/
def Spelled (text : String) (p : Pitch) : Prop :=
  ∃ core, Text.Within core text.toList ∧ Spelling p core

/-- The text of an integer is made of digits and a minus sign. -/
theorem opensOctave_of_integer {v : Int} {cs : List Char} (h : Text.Integer v cs) :
    ∀ c ∈ cs, opensOctave c = true := by
  have hdigits : ∀ {n ds}, Text.Digits n ds → ∀ c ∈ ds, opensOctave c = true := fun hn c hc => by
    simp [opensOctave, hn.isDigit c hc]
  obtain ⟨n, ⟨-, hn⟩ | ⟨-, rest, rfl, hn⟩⟩ := h
  · exact hdigits hn
  · exact List.forall_mem_cons.mpr ⟨rfl, hdigits hn⟩

theorem isBlank_of_opensOctave {c : Char} (h : opensOctave c = true) : Text.isBlank c = false := by
  rcases Bool.or_eq_true_iff.mp h with hdigit | hminus
  · exact Text.isBlank_of_isDigit hdigit
  · rw [beq_iff_eq.mp hminus]
    decide

/-- What follows the letter is parted where the octave begins. -/
theorem tail_parts {sign octave : List Char} (hsign : ∀ c ∈ sign, opensOctave c = false)
    (hoctave : ∀ c ∈ octave, opensOctave c = true) :
    (sign ++ octave).takeWhile (fun c => !opensOctave c) = sign ∧
      (sign ++ octave).dropWhile (fun c => !opensOctave c) = octave := by
  have hsign : ∀ c ∈ sign, (!opensOctave c) = true := fun c hc => by simp [hsign c hc]
  rw [List.takeWhile_append_of_pos hsign, List.dropWhile_append_of_pos hsign]
  cases octave with
  | nil => simp
  | cons c rest => simp [hoctave c List.mem_cons_self]

/-- What is read behind a letter is an accidental and an integer from 0 to 9. -/
theorem ofTail?_eq_some {letter : Letter} {tail : List Char} {p : Pitch} :
    ofTail? letter tail = some p ↔ p.letter = letter ∧ ∃ sign octave, tail = sign ++ octave ∧
      p.accidental.Spelling sign ∧ Text.Integer p.octave octave ∧ 0 ≤ p.octave ∧ p.octave ≤ 9 := by
  constructor
  · intro h
    simp only [ofTail?, Option.bind_eq_bind, Option.bind_eq_some_iff] at h
    obtain ⟨accidental, haccidental, octave, hoctave, h⟩ := h
    split at h
    next hrange =>
      obtain rfl := Option.some.inj h
      refine ⟨rfl, _, _, List.takeWhile_append_dropWhile.symm,
        Accidental.ofChars?_eq_some.mp haccidental,
        (Text.integer?_eq_some fun hplus => ?_).mp hoctave, hrange⟩
      -- the octave does not begin with a plus sign
      have hfirst := List.head?_dropWhile_not (fun c => !opensOctave c) tail
      rw [hplus] at hfirst
      exact absurd (show opensOctave '+' = true by simpa using hfirst) (by decide)
    next => cases h
  · rintro ⟨rfl, sign, octave, rfl, hsign, hoctave, hrange⟩
    have hopens := opensOctave_of_integer hoctave
    have hplus : octave.head? ≠ some '+' := fun hplus =>
      absurd (hopens '+' (List.mem_of_mem_head? hplus)) (by decide)
    obtain ⟨htake, hdrop⟩ := tail_parts (fun c hc => (hsign.mem c hc).1) hopens
    simp only [ofTail?, htake, hdrop, Accidental.ofChars?_eq_some.mpr hsign,
      (Text.integer?_eq_some hplus).mpr hoctave, Option.bind_eq_bind, Option.bind_some, if_pos hrange]
    rfl

theorem Spelling.isBlank {p : Pitch} {cs : List Char} (h : p.Spelling cs) :
    ∀ c ∈ cs, Text.isBlank c = false := by
  obtain ⟨hletter, hsign, hoctave, -⟩ := h
  refine List.forall_mem_cons.mpr ⟨hletter.isBlank, fun c hc => ?_⟩
  rcases List.mem_append.mp hc with hc | hc
  · exact (hsign.mem c hc).2
  · exact isBlank_of_opensOctave (opensOctave_of_integer hoctave c hc)

/-- **What a pitch is written as.** Exactly the spelled texts are read. -/
theorem parse?_eq_some {text : String} {p : Pitch} : parse? text = some p ↔ Spelled text p := by
  constructor
  · intro h
    refine ⟨_, Text.within_trim _, ?_⟩
    unfold parse? at h
    split at h
    next => cases h
    next first tail htrim =>
      rw [htrim]
      obtain ⟨letter, hletter, htail⟩ := Option.bind_eq_some_iff.mp h
      obtain ⟨rfl, sign, octave, rfl, hsign, hoctave, hrange⟩ := ofTail?_eq_some.mp htail
      exact .mk (Letter.ofChar?_eq_some.mp hletter) hsign hoctave hrange
  · rintro ⟨core, hwithin, h⟩
    rw [parse?, Text.trim_of_within hwithin h.isBlank]
    obtain ⟨hletter, hsign, hoctave, hrange⟩ := h
    simp only [Letter.ofChar?_eq_some.mpr hletter, Option.bind_some]
    exact ofTail?_eq_some.mpr ⟨rfl, _, _, rfl, hsign, hoctave, hrange⟩

theorem spelling_name {p : Pitch} (hrange : 0 ≤ p.octave ∧ p.octave ≤ 9) :
    p.Spelling p.name.toList := by
  obtain ⟨n, hn⟩ := Int.eq_ofNat_of_zero_le hrange.1
  have hname : p.name.toList = p.letter.char :: (p.accidental.sign.toList ++ Nat.toDigits 10 n) := by
    have hoctave : (toString (n : Int)).toList = Nat.toDigits 10 n := by
      change (Nat.repr n).toList = _
      rw [Nat.repr_eq_ofList_toDigits, String.toList_ofList]
    simp only [name, hn, String.toList_append, Char.toString, String.toList_singleton, hoctave,
      List.cons_append, List.nil_append]
  rw [hname]
  exact .mk (.inl rfl) p.accidental.spelling_sign ⟨n, .inl ⟨hn, 0, rfl⟩⟩ hrange

theorem parse?_name {text : String} {p : Pitch} (h : parse? text = some p) :
    parse? p.name = some p := by
  obtain ⟨core, -, -, -, -, hrange⟩ := parse?_eq_some.mp h
  exact parse?_eq_some.mpr ⟨_, ⟨[], [], by simp⟩, spelling_name hrange⟩

end Pitch

/-- A pitch is written so somewhere in the description, for a note or for the end of a slur. -/
def Description.WritesPitch (d : Description) (text : String) : Prop :=
  ∃ g, d.WritesGroup g ∧ ∃ head ∈ g.notes, head.pitch = text ∨ text ∈ head.slur

namespace Loading

theorem pitch_eq_ok {text : String} {p : Pitch} : pitch text = .ok p ↔ Pitch.Spelled text p := by
  rw [← Pitch.parse?_eq_some, pitch]
  cases Pitch.parse? text <;> simp

theorem pitch_eq_error {text : String} (h : ∀ p, ¬Pitch.Spelled text p) :
    pitch text = .error (.pitch text) := by
  unfold pitch
  split
  next p hp => exact absurd (Pitch.parse?_eq_some.mp hp) (h p)
  next => rfl

theorem note_pitches {d : Description.Head} {n : Note} {tag : Option String}
    (h : note d = .ok (n, tag)) :
    pitch d.pitch = .ok n.toPitch ∧ ∀ text ∈ d.slur, ∃ p, pitch text = .ok p := by
  simp only [note, bind_eq_ok, pure_eq_ok, Prod.mk.injEq] at h
  obtain ⟨p, hp, -, -, slurs, hslurs, rfl, -⟩ := h
  refine ⟨hp, fun text htext => ?_⟩
  obtain ⟨target, -, htarget⟩ := exists_of_mapM hslurs htext
  simp only [slurTarget, bind_eq_ok] at htarget
  obtain ⟨q, hq, -⟩ := htarget
  exact ⟨q, hq⟩

theorem group_notes {time : Signature} {measure staff voice : Nat} {d : Description.Group}
    {g : Group} {tags : List (Option String)}
    (h : group time measure staff voice d = .ok (g, tags)) :
    (∀ head ∈ d.notes, ∃ n tag, note head = .ok (n, tag)) ∧
      ∀ n ∈ g.notes, ∃ head ∈ d.notes, ∃ tag, note head = .ok (n, tag) := by
  simp only [group, bind_eq_ok, pure_eq_ok, Prod.mk.injEq] at h
  obtain ⟨-, -, -, -, -, -, heads, hheads, -, -, rfl, -⟩ := h
  refine ⟨fun head hhead => ?_, fun n hn => ?_⟩
  · obtain ⟨⟨n, tag⟩, -, hn⟩ := exists_of_mapM hheads hhead
    exact ⟨n, tag, hn⟩
  · obtain ⟨⟨n, tag⟩, hmem, rfl⟩ := List.mem_map.mp hn
    obtain ⟨head, hhead, hread⟩ := mem_of_mapM hheads (List.mem_mergeSort.mp hmem)
    exact ⟨head, hhead, tag, hread⟩

end Loading

namespace Score

/-- Nothing that is not spelled as a pitch stands for one in a description that loads. -/
theorem spelled_of_writesPitch {d : Description} {s : Score} (hordered : d.Ordered)
    (hs : load d = .ok s) {text : String} (h : d.WritesPitch text) : ∃ p, Pitch.Spelled text p := by
  obtain ⟨g, hg, head, hhead, htext⟩ := h
  obtain ⟨_, _, _, _, _, _, _, hgroup, -⟩ := hasGroup_of_writes hordered hs hg
  obtain ⟨n, tag, hnote⟩ := (Loading.group_notes hgroup).1 head hhead
  obtain ⟨hpitch, hslurs⟩ := Loading.note_pitches hnote
  rcases htext with rfl | hslur
  · exact ⟨_, Loading.pitch_eq_ok.mp hpitch⟩
  · obtain ⟨p, hp⟩ := hslurs text hslur
    exact ⟨p, Loading.pitch_eq_ok.mp hp⟩

/-- Each note of a score that was read has a pitch that was read. -/
theorem exists_pitch_of_load {d : Description} {s : Score} (hordered : d.Ordered)
    (hs : load d = .ok s) {k : GroupKey} {g : Group} (hk : s.groups.get? k = some g) {n : Note}
    (hn : n ∈ g.notes) : ∃ text, d.WritesPitch text ∧ Loading.pitch text = .ok n.toPitch := by
  obtain ⟨dg, hdg, p, -, staff, v, g', tags, hgroup, hk'⟩ := exists_written hordered hs hk
  obtain rfl := Option.some.inj (hk.symm.trans hk')
  obtain ⟨head, hhead, tag, hnote⟩ := (Loading.group_notes hgroup).2 n hn
  exact ⟨head.pitch, ⟨dg, hdg, head, hhead, .inl rfl⟩, (Loading.note_pitches hnote).1⟩

/-- **What a written pitch is, and how it is written again.** A text is read as a pitch exactly if
it is spelled as one, within white space or not: a letter from `a` to `g` in either case, a
spelling of an accidental, and an integer from 0 to 9. Any other is refused, and so is a document
where it is written for a note or for the end of a slur. The name of a pitch that was read is read
as that pitch, and so is the name of every note of a score that was read. -/
theorem written_pitches :
    (∀ text p, Loading.pitch text = .ok p ↔ Pitch.Spelled text p) ∧
    (∀ text, (∀ p, ¬Pitch.Spelled text p) → Loading.pitch text = .error (.pitch text) ∧
      ∀ d : Description, d.Ordered → d.WritesPitch text → ∃ flaw, load d = .error flaw ∧
        ∀ document, Description.ofText? document = some d →
          ofText document = .error (.invalid flaw)) ∧
    (∀ text p, Loading.pitch text = .ok p → Loading.pitch p.name = .ok p) ∧
    ∀ s : Score, s.Parsed → ∀ k g, s.groups.get? k = some g →
      ∀ n ∈ g.notes, Loading.pitch n.name = .ok n.toPitch := by
  have hname : ∀ text p, Loading.pitch text = .ok p → Loading.pitch p.name = .ok p := by
    intro text p h
    have hparse := Pitch.parse?_name (Pitch.parse?_eq_some.mpr (Loading.pitch_eq_ok.mp h))
    exact Loading.pitch_eq_ok.mpr (Pitch.parse?_eq_some.mp hparse)
  refine ⟨fun _ _ => Loading.pitch_eq_ok,
    fun text hnot => ⟨Loading.pitch_eq_error hnot, fun d hordered hwrites => ?_⟩, hname,
    fun s ⟨d, hordered, hload⟩ k g hk n hn => ?_⟩
  · cases hload : load d with
    | ok s =>
      obtain ⟨p, hp⟩ := spelled_of_writesPitch hordered hload hwrites
      exact absurd hp (hnot p)
    | error flaw =>
      exact ⟨flaw, rfl, fun document hd => by rw [ofText_of_description hd, hload]; rfl⟩
  · obtain ⟨text, -, htext⟩ := exists_pitch_of_load hordered hload hk hn
    exact hname text _ htext

/-- B double flat, its letter a capital, its octave with zeros in front and white space around. -/
def flatLetters : String :=
  "music:\n- measure:\n  - voices:\n     1:\n     - time: 1\n       notes: [' Bbb007 ']\n"

/-- A pitch whose octave has a plus sign. -/
def plusOctave : String :=
  "music:\n- measure:\n  - voices:\n     1:\n     - time: 1\n       notes: [c+4]\n"

theorem written_flatLetters :
    (Pitch.Spelled " Bbb007 " ⟨.b, .doubleFlat, 7⟩ ∧
      Loading.pitch "bbb7" = .ok ⟨.b, .doubleFlat, 7⟩) ∧
    (∃ s k g n, ofText flatLetters = .ok s ∧ s.groups.get? k = some g ∧ n ∈ g.notes ∧
      n.toPitch = ⟨.b, .doubleFlat, 7⟩ ∧ Loading.pitch n.name = .ok n.toPitch) ∧
    Loading.pitch "c+4" = .error (.pitch "c+4") ∧
    ∃ flaw, ofText plusOctave = .error (.invalid flaw) := by
  obtain ⟨hread, hrefused, hname, hnotes⟩ := written_pitches
  have hpitch : Loading.pitch " Bbb007 " = .ok ⟨.b, .doubleFlat, 7⟩ := by decide +kernel
  have hprinted : (⟨.b, .doubleFlat, 7⟩ : Pitch).name = "bbb7" := by decide +kernel
  refine ⟨⟨(hread _ _).mp hpitch, hprinted ▸ hname _ _ hpitch⟩, ?_, ?_⟩
  · obtain ⟨s, hs, g, hk, n, hn, hpitch⟩ := exists_of_spelled flatLetters (.ofList _)
      (P := fun s => ∃ g ∈ s.groups.get? ⟨0⟩, ∃ n ∈ g.notes, n.toPitch = ⟨.b, .doubleFlat, 7⟩)
      (by decide +kernel)
    exact ⟨s, ⟨0⟩, g, n, hs, hk, hn, hpitch, hnotes s (.of_text hs) ⟨0⟩ g hk n hn⟩
  · have hnot : ∀ p, ¬Pitch.Spelled "c+4" p := fun p hp => by
      have hrefuse : Loading.pitch "c+4" = .error (.pitch "c+4") := by decide +kernel
      cases hrefuse.symm.trans ((hread "c+4" p).mpr hp)
    obtain ⟨hflaw, hdescription⟩ := hrefused "c+4" hnot
    have hspelled : Description.ofText? plusOctave = _ := Description.ofText?_eq_ofChars? (.ofList _)
    obtain ⟨d, hd, hwrites⟩ := (Option.any_eq_true ..).mp (by rw [hspelled]; decide +kernel :
      ((Description.ofText? plusOctave).any fun d => decide (∃ entry ∈ d.music,
        ∃ written ∈ entry.measure, ∃ sd ∈ written, ∃ x ∈ sd.voices, ∃ g ∈ x.2,
          ∃ head ∈ g.notes, head.pitch = "c+4")) = true)
    obtain ⟨entry, hentry, written, hwritten, sd, hsd, x, hx, g, hg, head, hhead, hpitch⟩ :=
      of_decide_eq_true hwrites
    obtain ⟨flaw, -, hdocument⟩ := hdescription d (Description.ordered_of_ofText? hd)
      ⟨g, ⟨entry, hentry, written, hwritten, sd, hsd, x, hx, hg⟩, head, hhead, .inl hpitch⟩
    exact ⟨hflaw, flaw, hdocument plusOctave hd⟩

end Score

end Divisi
