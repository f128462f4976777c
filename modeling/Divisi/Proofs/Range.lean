/-
Sums and differences that can be formed.

A sum or a difference of times, where there is one, is the exact one (`Time.add?_eq_some`,
`Time.sub?_eq_some`). So spans that can be added up end where their exact length says
(`Time.end?_eq_some`), and what is left to say of a measure is that it stays in range
(`Stream.InRange`): its streams can be added up, and the time from each moment at which
something begins until the next one can be formed.
-/
import Mathlib.Algebra.Order.Field.Rat
import Mathlib.Data.List.Chain
import Mathlib.Data.Rat.Lemmas
import Mathlib.Tactic.FieldSimp
import Mathlib.Tactic.Linarith
import Divisi.Time

namespace Divisi

namespace Time

variable {t u v start length : Time} {spans starts : List Time} {den : Nat}

/-! ## One sum, one difference -/

theorem cast_scaled (h : t.den ∣ den) : ((scaled den t : Int) : Rat) = t * den := by
  obtain ⟨k, rfl⟩ := h
  have hden : (t.den : Rat) ≠ 0 := by exact_mod_cast t.den_nz
  rw [scaled, Nat.mul_div_cancel_left k t.den_pos]
  nth_rewrite 2 [← Rat.num_div_den t]
  push_cast
  field_simp

theorem mkRat_combine (t u : Time) : let den := t.den.lcm u.den
    mkRat (scaled den t + scaled den u) den = t + u ∧
      mkRat (scaled den t - scaled den u) den = t - u := by
  intro den
  have hden : (den : Rat) ≠ 0 := by exact_mod_cast (Nat.lcm_pos t.den_pos u.den_pos).ne'
  simp only [Rat.mkRat_eq_div, Int.cast_add, Int.cast_sub, cast_scaled (Nat.dvd_lcm_left t.den u.den),
    cast_scaled (Nat.dvd_lcm_right t.den u.den), den]
  constructor <;> field_simp

/-- A sum is the exact one, where it can be formed. -/
theorem add?_eq_some : add? t u = some v ↔ Formable (· + ·) t u ∧ t + u = v := by
  simp [add?, combine?, (mkRat_combine t u).1]

theorem sub?_eq_some : sub? t u = some v ↔ Formable (· - ·) t u ∧ t - u = v := by
  simp [sub?, combine?, (mkRat_combine t u).2]

theorem add?_eq_none : add? t u = none ↔ ¬Formable (· + ·) t u := by
  simp [add?, combine?]

theorem sub?_eq_none : sub? t u = none ↔ ¬Formable (· - ·) t u := by
  simp [sub?, combine?]

/-! ## Times that fit -/

/-- Both numbers of a time fit. -/
def Held (t : Time) : Prop := Fits t.num ∧ Fits t.den

theorem Fits.ediv {n : Int} (h : Fits n) (k : Nat) : Fits (n / k) := by
  obtain ⟨hlow, hhigh⟩ := h
  rcases k.eq_zero_or_pos with rfl | hk
  · simp [Fits]
  · have hk : (0 : Int) < k := by exact_mod_cast hk
    exact ⟨Int.le_ediv_of_mul_le hk (by nlinarith), Int.ediv_le_of_le_mul hk (by nlinarith)⟩

theorem held_mkRat {n : Int} (hn : Fits n) (hden : Fits den) : Held (mkRat n den) := by
  rcases den.eq_zero_or_pos with rfl | hpos
  · simp [Held, Fits]
  · refine ⟨?_, ?_⟩
    · rw [Rat.num_mkRat, if_neg hpos.ne']
      exact hn.ediv _
    · rw [Rat.den_mkRat, if_neg hpos.ne', Int.natCast_ediv]
      exact hden.ediv _

theorem held_zero : Held 0 := by simp [Held, Fits]

theorem Formable.held_add (h : Formable (· + ·) t u) : Held (t + u) := by
  obtain ⟨hden, -, -, hsum⟩ := h
  exact (mkRat_combine t u).1 ▸ held_mkRat hsum hden

theorem Held.formable_sub_self (h : Held t) : Formable (· - ·) t t := by
  obtain ⟨hnum, hden⟩ := h
  simpa [Formable, scaled, t.den_pos] using ⟨hden, hnum, held_zero.1⟩

/-! ## Times on a grid -/

theorem fits_of_cast {n : Int} (hlow : 0 ≤ (n : Rat)) (hhigh : (n : Rat) ≤ 9223372036854775807) :
    Fits n := by
  have hlow : 0 ≤ n := by exact_mod_cast hlow
  have hhigh : n ≤ 9223372036854775807 := by exact_mod_cast hhigh
  exact ⟨by omega, hhigh⟩

/-- A multiple of `1 / den`, with both `den` and the numerator over it in range. -/
structure OnGrid (den : Nat) (t : Time) : Prop where
  pos : 0 < den
  fits : Fits den
  dvd : t.den ∣ den
  nonneg : 0 ≤ t
  le : t * den ≤ 9223372036854775807

namespace OnGrid

variable (ht : t.OnGrid den)
include ht

theorem mono (hu : u.den ∣ den) (hnonneg : 0 ≤ u) (hle : u ≤ t) : u.OnGrid den where
  pos := ht.pos
  fits := ht.fits
  dvd := hu
  nonneg := hnonneg
  le := (mul_le_mul_of_nonneg_right hle (Nat.cast_nonneg den)).trans ht.le

theorem fits_of_cast_eq {n : Int} {l : Nat} (hl : l ≤ den) (hn : (n : Rat) = t * l) : Fits n := by
  have hl : (l : Rat) ≤ den := by exact_mod_cast hl
  refine fits_of_cast (hn ▸ mul_nonneg ht.nonneg (Nat.cast_nonneg l)) (hn ▸ ?_)
  exact (mul_le_mul_of_nonneg_left hl ht.nonneg).trans ht.le

theorem formable {op : Int → Int → Int} (hu : u.OnGrid den) (hv : v.OnGrid den)
    (hop : (op (scaled (t.den.lcm u.den) t) (scaled (t.den.lcm u.den) u) : Rat) =
      v * (t.den.lcm u.den : Nat)) : Formable op t u := by
  have hle : t.den.lcm u.den ≤ den := Nat.le_of_dvd ht.pos (Nat.lcm_dvd ht.dvd hu.dvd)
  refine ⟨?_, ht.fits_of_cast_eq hle (cast_scaled (Nat.dvd_lcm_left t.den u.den)),
    hu.fits_of_cast_eq hle (cast_scaled (Nat.dvd_lcm_right t.den u.den)),
    hv.fits_of_cast_eq hle hop⟩
  have hfits := ht.fits
  unfold Fits at hfits ⊢
  omega

theorem formable_add (hu : u.OnGrid den) (hsum : (t + u).OnGrid den) : Formable (· + ·) t u := by
  refine ht.formable hu hsum ?_
  rw [Int.cast_add, cast_scaled (Nat.dvd_lcm_left t.den u.den),
    cast_scaled (Nat.dvd_lcm_right t.den u.den), add_mul]

theorem formable_sub (hu : u.OnGrid den) (hle : u ≤ t) : Formable (· - ·) t u := by
  have hdiff : (t - u).OnGrid den := ht.mono
    ((Rat.sub_den_dvd_lcm t u).trans (Nat.lcm_dvd ht.dvd hu.dvd)) (by linarith)
    (by linarith [hu.nonneg])
  refine ht.formable hu hdiff ?_
  rw [Int.cast_sub, cast_scaled (Nat.dvd_lcm_left t.den u.den),
    cast_scaled (Nat.dvd_lcm_right t.den u.den), sub_mul]

end OnGrid

/-! ## Spans that follow one another -/

/-- Spans can be added up one after the other, from `start` on. -/
def Addable (start : Time) : List Time → Prop
  | [] => True
  | d :: rest => Formable (· + ·) start d ∧ Addable (start + d) rest

instance decidableAddable : (start : Time) → (spans : List Time) → Decidable (Addable start spans)
  | _, [] => inferInstanceAs (Decidable True)
  | start, d :: rest =>
    have := decidableAddable (start + d) rest
    inferInstanceAs (Decidable (_ ∧ _))

/-- The moments at which spans begin that follow one another. -/
def startsFrom (start : Time) : List Time → List Time
  | [] => []
  | d :: rest => start :: startsFrom (start + d) rest

theorem total_nonneg (h : ∀ d ∈ spans, 0 ≤ d) : 0 ≤ total spans := by
  induction spans with
  | nil => exact le_refl 0
  | cons d rest ih =>
    simp only [List.mem_cons, forall_eq_or_imp] at h
    exact add_nonneg h.1 (ih h.2)

/-- Spans that take no negative time begin between the start of the first and the end of the
last. -/
theorem bounds_of_startsFrom (h : ∀ d ∈ spans, 0 ≤ d) :
    ∀ t ∈ startsFrom start spans, start ≤ t ∧ t ≤ start + total spans := by
  induction spans generalizing start with
  | nil => simp [startsFrom]
  | cons d rest ih =>
    have htotal := total_nonneg h
    simp only [List.mem_cons, forall_eq_or_imp] at h
    have hrest : ∀ t ∈ startsFrom (start + d) rest,
        start + d ≤ t ∧ t ≤ start + d + total rest := ih h.2
    simp only [startsFrom, total_cons, List.mem_cons, forall_eq_or_imp] at htotal ⊢
    refine ⟨⟨le_refl start, by linarith⟩, fun t ht => ?_⟩
    obtain ⟨hlow, hhigh⟩ := hrest t ht
    exact ⟨by linarith, by linarith⟩

/-- Spans that can be added up end where their exact length says. -/
theorem end?_eq_some : end? start spans = some v ↔
    Addable start spans ∧ start + total spans = v := by
  induction spans generalizing start with
  | nil => simp [end?, Addable]
  | cons d rest ih =>
    simp only [end?, List.foldlM_cons, Option.bind_eq_bind, Option.bind_eq_some_iff,
      add?_eq_some] at ih ⊢
    constructor
    · rintro ⟨_, ⟨hadd, rfl⟩, h⟩
      obtain ⟨haddable, rfl⟩ := ih.mp h
      exact ⟨⟨hadd, haddable⟩, by rw [total_cons, add_assoc]⟩
    · rintro ⟨⟨hadd, haddable⟩, rfl⟩
      exact ⟨_, ⟨hadd, rfl⟩, ih.mpr ⟨haddable, by rw [total_cons, add_assoc]⟩⟩

theorem Addable.held_end (h : Addable start spans) (hstart : Held start) :
    Held (start + total spans) := by
  induction spans generalizing start with
  | nil => simpa using hstart
  | cons d rest ih =>
    rw [total_cons, ← add_assoc]
    exact ih h.2 h.1.held_add

theorem Addable.held_starts (h : Addable start spans) (hstart : Held start) :
    ∀ t ∈ startsFrom start spans, Held t := by
  induction spans generalizing start with
  | nil => simp [startsFrom]
  | cons d rest ih =>
    simp only [startsFrom, List.mem_cons, forall_eq_or_imp]
    exact ⟨hstart, ih h.2 h.1.held_add⟩

/-- Spans on a grid can be added up if they end in range; they begin and end on the grid. -/
theorem addable_of_onGrid (hstart : start.OnGrid den) (h : ∀ d ∈ spans, 0 ≤ d ∧ d.den ∣ den)
    (hend : (start + total spans) * den ≤ 9223372036854775807) :
    Addable start spans ∧ ∀ t ∈ startsFrom start spans, t.OnGrid den := by
  induction spans generalizing start with
  | nil => simp [Addable, startsFrom]
  | cons d rest ih =>
    simp only [List.mem_cons, forall_eq_or_imp] at h
    obtain ⟨⟨hd, hdvd⟩, hrest⟩ := h
    have htotal := total_nonneg fun d hd => (hrest d hd).1
    rw [total_cons, ← add_assoc] at hend
    have hden : (0 : Rat) ≤ den := Nat.cast_nonneg den
    have hnext : (start + d).OnGrid den := by
      refine ⟨hstart.pos, hstart.fits, ?_, add_nonneg hstart.nonneg hd, ?_⟩
      · exact (Rat.add_den_dvd_lcm start d).trans (Nat.lcm_dvd hstart.dvd hdvd)
      · exact (mul_le_mul_of_nonneg_right (by linarith) hden).trans hend
    have hd : d.OnGrid den := hnext.mono hdvd hd (by linarith [hstart.nonneg])
    obtain ⟨haddable, hstarts⟩ := ih hnext hrest hend
    refine ⟨⟨hstart.formable_add hd hnext, haddable⟩, ?_⟩
    simpa [startsFrom] using ⟨hstart, hstarts⟩

/-! ## Moments that follow one another -/

/-- The time from each moment until the next can be formed, from the last one until the end
at `length`. -/
def Spaced (length : Time) (starts : List Time) : Prop :=
  (starts ++ [length]).IsChain fun t u => Formable (· - ·) u t

/-- The same, for moments in any order. -/
def GapsFormable (length : Time) (starts : List Time) : Prop :=
  ∀ t ∈ starts, ∀ u ∈ length :: starts, t < u → (∀ v ∈ starts, t < v → u ≤ v) →
    Formable (· - ·) u t

instance (length : Time) (starts : List Time) : Decidable (GapsFormable length starts) :=
  inferInstanceAs (Decidable (∀ t ∈ starts, ∀ u ∈ length :: starts, _))

theorem gapsFormable_congr {starts' : List Time} (h : ∀ t, t ∈ starts ↔ t ∈ starts') :
    GapsFormable length starts ↔ GapsFormable length starts' := by
  simp only [GapsFormable, List.mem_cons, h]

/-- A relation holds along an ascending list if it does for each two members with none between
them. -/
theorem isChain_iff_neighbours {R : Time → Time → Prop} {ts : List Time} (hasc : ts.Pairwise (· ≤ ·))
    (hself : ∀ t ∈ ts, R t t) : ts.IsChain R ↔
      ∀ t ∈ ts, ∀ u ∈ ts, t < u → (∀ v ∈ ts, t < v → u ≤ v) → R t u := by
  induction ts with
  | nil => simp
  | cons a rest ih =>
    obtain ⟨hle, hsorted⟩ := List.pairwise_cons.mp hasc
    have ih := ih hsorted fun t ht => hself t (List.mem_cons_of_mem a ht)
    rw [List.isChain_cons, ih]
    constructor
    · rintro ⟨hhead, hrest⟩ t ht u hu htu hnext
      have hmem : u ∈ rest := (List.mem_cons.mp hu).resolve_left fun hua => by
        subst hua
        rcases List.mem_cons.mp ht with rfl | ht
        · exact lt_irrefl _ htu
        · exact absurd (hle t ht) (not_le.mpr htu)
      have hnext' : ∀ v ∈ rest, t < v → u ≤ v := fun v hv => hnext v (List.mem_cons_of_mem a hv)
      rcases List.mem_cons.mp ht with rfl | ht
      · -- `u` stands next, or after a moment that is `t` again
        obtain ⟨b, rest', rfl⟩ := List.exists_cons_of_ne_nil (List.ne_nil_of_mem hmem)
        have hbu : b ≤ u := (List.mem_cons.mp hmem).elim (fun h => h.ge)
          ((List.pairwise_cons.mp hsorted).1 u)
        rcases (hle b (by simp)).eq_or_lt with rfl | htb
        · exact hrest t (by simp) u hmem htu hnext'
        · obtain rfl := le_antisymm hbu (hnext' b (by simp) htb)
          exact hhead b rfl
      · exact hrest t ht u hmem htu hnext'
    · intro h
      refine ⟨fun b hb => ?_, fun t ht u hu htu hnext => ?_⟩
      · have hb' := List.mem_of_mem_head? hb
        rcases (hle b hb').eq_or_lt with rfl | hab
        · exact hself a (by simp)
        · refine h a (by simp) b (List.mem_cons_of_mem a hb') hab fun v hv hav => ?_
          have hv := (List.mem_cons.mp hv).resolve_left hav.ne'
          obtain ⟨rest', rfl⟩ := List.head?_eq_some_iff.mp hb
          exact (List.mem_cons.mp hv).elim (fun h => h.ge) ((List.pairwise_cons.mp hsorted).1 v)
      · refine h t (List.mem_cons_of_mem a ht) u (List.mem_cons_of_mem a hu) htu fun v hv htv => ?_
        refine hnext v ((List.mem_cons.mp hv).resolve_left fun hva => ?_) htv
        exact absurd (hle t ht) (not_le.mpr (hva ▸ htv))

theorem spaced_iff (hasc : starts.Pairwise (· ≤ ·)) (hle : ∀ t ∈ starts, t ≤ length)
    (hheld : ∀ t ∈ starts, Held t) (hlength : Held length) :
    Spaced length starts ↔ GapsFormable length starts := by
  have hasc' : (starts ++ [length]).Pairwise (· ≤ ·) :=
    List.pairwise_append.mpr ⟨hasc, by simp, by simpa using hle⟩
  rw [Spaced, isChain_iff_neighbours hasc' fun t ht => ?_]
  · simp only [GapsFormable, List.mem_append, List.mem_cons, List.not_mem_nil, or_false]
    constructor
    · intro h t ht u hu htu hnext
      refine h t (.inl ht) u hu.symm htu fun v hv htv => ?_
      rcases hv with hv | rfl
      · exact hnext v hv htv
      · exact hu.elim (fun h => h.le) (hle u)
    · rintro h t (ht | rfl) u hu htu hnext
      · exact h t ht u hu.symm htu fun v hv => hnext v (.inl hv)
      · exact absurd htu (not_lt.mpr (hu.elim (hle u) (fun h => h.le)))
  · rcases List.mem_append.mp ht with ht | ht
    · exact (hheld t ht).formable_sub_self
    · exact (List.mem_singleton.mp ht) ▸ hlength.formable_sub_self

end Time

/-- The times of a measure that lasts `length` can be formed, each stream being told by the
spans that follow one another on it. -/
def Stream.InRange (length : Time) (streams : List (List Time)) : Prop :=
  (∀ spans ∈ streams, Time.Addable 0 spans) ∧
    Time.GapsFormable length (streams.flatMap (Time.startsFrom 0))

instance (length : Time) (streams : List (List Time)) :
    Decidable (Stream.InRange length streams) := inferInstanceAs (Decidable (_ ∧ _))

/-- Streams stay in range whose spans have a common denominator that is not too large for their
lengths: what leaves the range has many different denominators. -/
theorem Stream.inRange_of_onGrid {length : Time} {streams : List (List Time)} {den : Nat}
    (hlength : length.OnGrid den) (h : ∀ spans ∈ streams, ∀ d ∈ spans, 0 ≤ d ∧ d.den ∣ den)
    (hends : ∀ spans ∈ streams, Time.total spans * den ≤ 9223372036854775807) :
    InRange length streams := by
  have hzero : Time.OnGrid den 0 := hlength.mono (one_dvd den) (le_refl 0) hlength.nonneg
  have hstreams : ∀ spans ∈ streams, Time.Addable 0 spans ∧
      ∀ t ∈ Time.startsFrom 0 spans, t.OnGrid den := fun spans hspans =>
    Time.addable_of_onGrid hzero (h spans hspans) (by simpa using hends spans hspans)
  have hstarts : ∀ t ∈ streams.flatMap (Time.startsFrom 0), Time.OnGrid den t := by
    intro t ht
    obtain ⟨spans, hspans, ht⟩ := List.mem_flatMap.mp ht
    exact (hstreams spans hspans).2 t ht
  refine ⟨fun spans hspans => (hstreams spans hspans).1, fun t ht u hu htu _ => ?_⟩
  have hu : u.OnGrid den := (List.mem_cons.mp hu).elim (fun hul => hul ▸ hlength) (hstarts u)
  exact hu.formable_sub (hstarts t ht) htu.le

end Divisi
