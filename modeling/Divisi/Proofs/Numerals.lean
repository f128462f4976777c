/-
Numerals, and white space around a text, told by how they are written.

A numeral of a number is its decimal digits behind any number of zeros and an optional plus sign;
reading finds these and no other (`natural?_eq_some`). An integer may have a minus sign instead
(`integer?_eq_some`). White space at either end of a text that has none in itself is what is
trimmed away (`trim_of_within`, `within_trim`).
-/
import Mathlib.Data.List.Induction
import Mathlib.Data.List.TakeWhile
import Divisi.Text.Blank
import Divisi.Text.Numeral

namespace Divisi.Text

/-! ## Numerals -/

/-- The digits of a number, behind any number of zeros. -/
def Digits (n : Nat) (cs : List Char) : Prop :=
  ∃ zeros, cs = List.replicate zeros '0' ++ Nat.toDigits 10 n

/-- The digits of a number with an optional plus sign. -/
def Numeral (n : Nat) (cs : List Char) : Prop := Digits n cs ∨ ∃ rest, cs = '+' :: rest ∧ Digits n rest

/-- The text of an integer: the digits of a number, with a minus sign in front or not. -/
def Integer (v : Int) (cs : List Char) : Prop :=
  ∃ n : Nat, (v = n ∧ Digits n cs) ∨ (v = -n ∧ ∃ rest, cs = '-' :: rest ∧ Digits n rest)

theorem digitsValue_append (cs ds : List Char) :
    digitsValue (cs ++ ds) = Nat.ofDigitChars 10 ds (digitsValue cs) :=
  Nat.ofDigitChars_append 0

theorem digit_of_isDigit {c : Char} (h : c.isDigit = true) :
    digitValue c < 10 ∧ Nat.toDigits 10 (digitValue c) = [c] := by
  have hrange : 48 ≤ c.toNat ∧ c.toNat ≤ 57 := by
    simpa [Char.isDigit, UInt32.le_iff_toNat_le] using h
  have hlt : digitValue c < 10 := by
    change c.toNat - 48 < 10
    omega
  refine ⟨hlt, ?_⟩
  rw [Nat.toDigits_of_lt_base hlt]
  refine congrArg (· :: []) (Char.toNat_inj.mp ?_)
  rw [Nat.toNat_digitChar_of_lt_ten hlt]
  change 48 + (c.toNat - 48) = c.toNat
  omega

/-- A run of digits is one for its value. -/
theorem digits_digitsValue {cs : List Char} (hne : cs ≠ []) (h : ∀ c ∈ cs, c.isDigit = true) :
    Digits (digitsValue cs) cs := by
  induction cs using List.reverseRecOn with
  | nil => exact absurd rfl hne
  | append_singleton cs c ih =>
    obtain ⟨hlt, hdigit⟩ := digit_of_isDigit (h c (by simp))
    have hvalue : digitsValue (cs ++ [c]) = 10 * digitsValue cs + digitValue c := digitsValue_append cs [c]
    by_cases hcs : cs = []
    · subst hcs
      exact ⟨0, by rw [hvalue]; simpa [digitsValue] using hdigit.symm⟩
    obtain ⟨zeros, hzeros⟩ := ih hcs fun x hx => h x (by simp [hx])
    rw [hvalue]
    rcases Nat.eq_zero_or_pos (digitsValue cs) with hzero | hpos
    · -- so far there were zeros only
      refine ⟨zeros + 1, ?_⟩
      rw [hzero, Nat.toDigits_zero] at hzeros
      rw [hzero, Nat.mul_zero, Nat.zero_add, hdigit, List.replicate_succ', ← hzeros]
    · refine ⟨zeros, ?_⟩
      rw [← Nat.toDigits_append_toDigits (by decide) hpos hlt, hdigit, ← List.append_assoc, ← hzeros]

theorem Digits.isDigit {n : Nat} {cs : List Char} (h : Digits n cs) : ∀ c ∈ cs, c.isDigit = true := by
  obtain ⟨zeros, rfl⟩ := h
  intro c hc
  rcases List.mem_append.mp hc with hc | hc
  · obtain rfl := List.eq_of_mem_replicate hc
    rfl
  · exact Nat.isDigit_of_mem_toDigits (by decide) (by decide) hc

theorem Digits.ne_nil {n : Nat} {cs : List Char} (h : Digits n cs) : cs ≠ [] := by
  obtain ⟨zeros, rfl⟩ := h
  simp [Nat.toDigits_ne_nil]

theorem Digits.value {n : Nat} {cs : List Char} (h : Digits n cs) : digitsValue cs = n := by
  obtain ⟨zeros, rfl⟩ := h
  have hzeros : digitsValue (List.replicate zeros '0') = 0 :=
    Nat.ofDigitChars_replicate_zero.trans (Nat.mul_zero _)
  rw [digitsValue_append, hzeros, Nat.ofDigitChars_ten_toDigits]

theorem digits?_eq_some {cs : List Char} {n : Nat} : digits? cs = some n ↔ Digits n cs := by
  unfold digits?
  split
  next h =>
    have hdigits := digits_digitsValue h.1 (List.all_eq_true.mp h.2)
    rw [Option.some.injEq]
    exact ⟨fun heq => heq ▸ hdigits, fun hn => hn.value⟩
  next h =>
    refine ⟨nofun, fun hn => absurd ⟨hn.ne_nil, List.all_eq_true.mpr hn.isDigit⟩ h⟩

/-- Exactly the numerals of the numbers below the bound are read. -/
theorem natural?_eq_some {bound n : Nat} {cs : List Char} :
    natural? bound cs = some n ↔ Numeral n cs ∧ n < bound := by
  have hplus : ∀ rest, ¬Digits n ('+' :: rest) := fun rest h =>
    absurd (h.isDigit '+' (by simp)) (by decide)
  simp only [natural?, Option.filter_eq_some_iff, decide_eq_true_eq, digits?_eq_some, Numeral]
  refine and_congr_left fun _ => ?_
  split
  next rest => simp [hplus]
  next hne => exact ⟨.inl, fun h => h.resolve_right fun ⟨rest, heq, _⟩ => hne rest heq⟩

theorem Numeral.mem {n : Nat} {cs : List Char} (h : Numeral n cs) {c : Char} (hc : c ∈ cs) :
    c = '+' ∨ c.isDigit = true := by
  rcases h with h | ⟨rest, rfl, h⟩
  · exact .inr (h.isDigit c hc)
  · exact (List.mem_cons.mp hc).imp_right (h.isDigit c)

theorem integer?_minus (rest : List Char) :
    integer? ('-' :: rest) = (digits? rest).map fun n : Nat => -(n : Int) := by
  simp only [integer?]
  cases digits? rest <;> rfl

/-- Exactly the integers are read, a plus sign in front apart. -/
theorem integer?_eq_some {cs : List Char} {v : Int} (hplus : cs.head? ≠ some '+') :
    integer? cs = some v ↔ Integer v cs := by
  have hread : ∀ {f : Nat → Int} {ds : List Char}, (digits? ds).map f = some v ↔
      ∃ n, v = f n ∧ Digits n ds := by
    intro f ds
    rw [Option.map_eq_some_iff]
    exact exists_congr fun n => by rw [digits?_eq_some, and_comm, eq_comm]
  by_cases hminus : ∃ rest, cs = '-' :: rest
  · obtain ⟨rest, rfl⟩ := hminus
    have hnot : ∀ n, ¬Digits n ('-' :: rest) := fun n h =>
      absurd (h.isDigit '-' List.mem_cons_self) (by decide)
    rw [integer?_minus, hread]
    exact exists_congr fun n => by simp [hnot]
  · have hnone : integer? cs = (digits? cs).map Int.ofNat := by
      unfold integer?
      split
      next rest => exact absurd ⟨rest, rfl⟩ hminus
      next => exact absurd rfl hplus
      next => rfl
    rw [hnone, hread]
    exact exists_congr fun n =>
      ⟨.inl, fun h => h.resolve_right fun ⟨_, rest, hrest, _⟩ => hminus ⟨rest, hrest⟩⟩

/-! ## White space -/

/-- The text `cs` is `core` within white space. -/
def Within (core cs : List Char) : Prop :=
  ∃ left right, cs = left ++ core ++ right ∧ (∀ c ∈ left, isBlank c = true) ∧
    ∀ c ∈ right, isBlank c = true

theorem dropWhile_isBlank_of_not {cs : List Char} (h : ∀ c ∈ cs, isBlank c = false) :
    cs.dropWhile isBlank = cs := by
  cases cs with
  | nil => rfl
  | cons c rest => exact List.dropWhile_cons_of_neg (by simp [h c])

theorem within_trim (cs : List Char) : Within (trim cs) cs := by
  refine ⟨cs.takeWhile isBlank, ((cs.dropWhile isBlank).reverse.takeWhile isBlank).reverse, ?_, ?_, ?_⟩
  · rw [trim, List.append_assoc, ← List.reverse_append, List.takeWhile_append_dropWhile,
      List.reverse_reverse, List.takeWhile_append_dropWhile]
  · exact fun c hc => (List.all_eq_true.mp List.all_takeWhile) c hc
  · exact fun c hc => (List.all_eq_true.mp List.all_takeWhile) c (List.mem_reverse.mp hc)

/-- A text that has no white space in itself is found within any. -/
theorem trim_of_within {core cs : List Char} (h : Within core cs)
    (hcore : ∀ c ∈ core, isBlank c = false) : trim cs = core := by
  obtain ⟨left, right, rfl, hleft, hright⟩ := h
  rw [trim, List.append_assoc, List.dropWhile_append_of_pos hleft]
  cases core with
  | nil =>
    have hnil : right.dropWhile isBlank = [] := List.dropWhile_eq_nil_iff.mpr hright
    rw [List.nil_append, hnil]
    rfl
  | cons c rest =>
    rw [List.cons_append, List.dropWhile_cons_of_neg (by simp [hcore c]), ← List.cons_append,
      List.reverse_append, List.dropWhile_append_of_pos fun x hx => hright x (List.mem_reverse.mp hx),
      dropWhile_isBlank_of_not fun x hx => hcore x (List.mem_reverse.mp hx), List.reverse_reverse]

theorem isBlank_of_isDigit {c : Char} (h : c.isDigit = true) : isBlank c = false := by
  have hrange : 48 ≤ c.toNat ∧ c.toNat ≤ 57 := by
    simpa [Char.isDigit, UInt32.le_iff_toNat_le] using h
  unfold isBlank
  simp only [Bool.or_eq_false_iff, Bool.and_eq_false_iff, decide_eq_false_iff_not, beq_eq_false_iff_ne]
  omega

end Divisi.Text
