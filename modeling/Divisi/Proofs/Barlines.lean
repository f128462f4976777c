/-
Ways that lead over a barline.

A way is cut off at a barline where nothing leads on from its last stop before the line. Two
voices side by side can then be followed exactly as far as the line (`Layout.follow_cut`): what
stands behind it has no say.
-/
import Divisi.Proofs.Settled

namespace Divisi

namespace Layout

variable {s : Score} {byMeasure : Bool} {accept : Nat → Bool} {n : Nat} {d e : Stop}
  {ds es cs bs : List Stop}

/-! ## Following two voices -/

/-- Stops that know one hand stand in one measure. -/
def Abreast (ds es : List Stop) : Prop :=
  ∀ d ∈ ds, ∀ e ∈ es, ∀ h, d.hand = some h → e.hand = some h → d.measure = e.measure

theorem follow_ends (s : Score) (heading : Heading) (byMeasure : Bool) (accept : Nat → Bool)
    (d e : Stop) : follow s heading byMeasure accept [d] [e] = true := by
  rw [follow]
  split <;> rfl

theorem follow_together {d' e' : Stop} {h : Nat} (hd : d'.hand = some h) (he : e'.hand = some h)
    (heading : Heading) : follow s heading byMeasure accept (d :: d' :: ds) (e :: e' :: es) =
      (!(linked s heading byMeasure d (some d') || linked s heading byMeasure e (some e')) ||
        accept h && follow s heading byMeasure accept (d' :: ds) (e' :: es)) := by
  rw [follow]
  simp only [List.head?_cons, hd, he, BEq.rfl, Bool.true_and]
  cases linked s heading byMeasure d (some d') || linked s heading byMeasure e (some e') <;> rfl

theorem follow_apart (happart : ∀ d' ∈ ds.head?, ∀ e' ∈ es.head?, ∀ h, d'.hand = some h →
      e'.hand ≠ some h) (hne : ds ≠ [] ∨ es ≠ []) (heading : Heading) :
    follow s heading byMeasure accept (d :: ds) (e :: es) =
      !(linked s heading byMeasure d ds.head? || linked s heading byMeasure e es.head?) := by
  rw [follow]
  cases hlinked : linked s heading byMeasure d ds.head? || linked s heading byMeasure e es.head? with
  | false => rfl
  | true =>
    rw [if_pos rfl]
    cases ds with
    | nil =>
      cases es with
      | nil => simp at hne
      | cons e' es => rfl
    | cons d' ds =>
      cases es with
      | nil => rfl
      | cons e' es =>
        have happart := happart d' rfl e' rfl
        simp only [List.head?_cons]
        cases hd : d'.hand with
        | none => rfl
        | some h =>
          cases he : e'.hand with
          | none => rfl
          | some h' =>
            have hne : h ≠ h' := fun heq => happart h hd (heq ▸ he)
            simp [hne]

theorem follow_comm (s : Score) (heading : Heading) (byMeasure : Bool) (accept : Nat → Bool)
    (ds es : List Stop) :
    follow s heading byMeasure accept ds es = follow s heading byMeasure accept es ds := by
  induction ds generalizing es with
  | nil => cases es <;> simp only [follow]
  | cons d ds ih =>
    cases es with
    | nil => simp only [follow]
    | cons e es =>
      by_cases htogether : ∃ d' ∈ ds.head?, ∃ e' ∈ es.head?, ∃ h, d'.hand = some h ∧ e'.hand = some h
      · obtain ⟨d', hd', e', he', h, hd, he⟩ := htogether
        obtain ⟨ds, rfl⟩ : ∃ rest, ds = d' :: rest := ⟨_, List.eq_cons_of_mem_head? hd'⟩
        obtain ⟨es, rfl⟩ : ∃ rest, es = e' :: rest := ⟨_, List.eq_cons_of_mem_head? he'⟩
        rw [follow_together hd he, follow_together he hd, Bool.or_comm, ih (e' :: es),
          Bool.or_comm (linked s heading byMeasure d _), Bool.or_comm]
      by_cases hends : ds = [] ∧ es = []
      · rw [hends.1, hends.2, follow_ends, follow_ends]
      · have hne : ds ≠ [] ∨ es ≠ [] := not_and_or.mp hends
        rw [follow_apart (fun d' hd' e' he' h hd he => htogether ⟨d', hd', e', he', h, hd, he⟩) hne,
          follow_apart (fun e' he' d' hd' h he hd => htogether ⟨d', hd', e', he', h, hd, he⟩)
            hne.symm, Bool.or_comm]

/-! ## The barline -/

/-- A way that begins in the first `n` measures with the stops `ds` and goes on behind the
barline with `cs`. From its last stop before the line nothing leads on. -/
structure Cut (s : Score) (n : Nat) (ds cs : List Stop) : Prop where
  inside : ∀ x ∈ ds, x.measure < n
  outside : ∀ x ∈ cs, n ≤ x.measure
  reach : cs ≠ [] → ∀ x ∈ ds.getLast?, x.measure + 1 = n
  quiet : ∀ x ∈ ds.getLast?, x.measure + 1 = n → leadsOn s x = false

namespace Cut

theorem tail {d' : Stop} (h : Cut s n (d :: d' :: ds) cs) : Cut s n (d' :: ds) cs :=
  ⟨fun x hx => h.inside x (List.mem_cons_of_mem d hx), h.outside, h.reach, h.quiet⟩

theorem linked_eq (h : Cut s n [d] cs) (byMeasure : Bool) :
    linked s .forth byMeasure d cs.head? = linked s .forth byMeasure d none := by
  cases cs with
  | nil => rfl
  | cons c cs =>
    have hlast := h.reach (by simp) d (by simp)
    have hout := h.outside c (by simp)
    have hne : c.measure ≠ d.measure := by omega
    simp [linked, hne]

end Cut

theorem follow_cut_end {e' : Stop} (hd : Cut s n [d] cs) (he : Cut s n (e :: e' :: es) bs)
    (hands : Abreast (d :: cs) (e :: e' :: es ++ bs)) :
    follow s .forth byMeasure accept (d :: cs) (e :: e' :: es ++ bs) =
      follow s .forth byMeasure accept [d] (e :: e' :: es) := by
  have hapart : ∀ d' ∈ cs.head?, ∀ h, d'.hand = some h → e'.hand ≠ some h := by
    intro d' hd' h hh hh'
    have hmem := List.mem_of_mem_head? hd'
    have hmeasure := hands d' (List.mem_cons_of_mem d hmem) e' (by simp) h hh hh'
    have := hd.outside d' hmem
    have := he.inside e' (by simp)
    omega
  rw [List.cons_append, List.cons_append, follow_apart (by simpa using hapart) (by simp),
    follow_apart (by simp) (by simp), hd.linked_eq]
  rfl

/-- **What stands behind the barline has no say** in how far two voices can be followed. -/
theorem follow_cut (hd : Cut s n (d :: ds) cs) (he : Cut s n (e :: es) bs)
    (hmeasure : d.measure = e.measure) (hands : Abreast (d :: ds ++ cs) (e :: es ++ bs)) :
    follow s .forth byMeasure accept (d :: ds ++ cs) (e :: es ++ bs) =
      follow s .forth byMeasure accept (d :: ds) (e :: es) := by
  induction ds generalizing d e es with
  | nil =>
    cases es with
    | cons e' es => exact follow_cut_end hd he hands
    | nil =>
      rw [follow_ends]
      -- both voices end in one measure, the last one or an earlier one
      by_cases hlast : d.measure + 1 = n
      · have hquiet := hd.quiet d (by simp) hlast
        have hquiet' := he.quiet e (by simp) (by omega)
        have hlinked : linked s .forth byMeasure d cs.head? = false := by
          rw [hd.linked_eq]
          simp [linked, hquiet]
        have hlinked' : linked s .forth byMeasure e bs.head? = false := by
          rw [he.linked_eq]
          simp [linked, hquiet']
        simp [follow, hlinked, hlinked']
      · have hcs : cs = [] := by
          by_contra hne
          exact hlast (hd.reach hne d (by simp))
        have hbs : bs = [] := by
          by_contra hne
          exact hlast (hmeasure ▸ he.reach hne e (by simp))
        rw [hcs, hbs]
        exact follow_ends s _ _ _ d e
  | cons d' ds ih =>
    cases es with
    | nil =>
      rw [follow_comm, follow_comm s _ _ _ (d :: d' :: ds)]
      exact follow_cut_end he hd fun x hx y hy h hx' hy' => (hands y hy x hx h hy' hx').symm
    | cons e' es =>
      simp only [List.cons_append] at ih ⊢
      by_cases htogether : ∃ h, d'.hand = some h ∧ e'.hand = some h
      · obtain ⟨h, hh, hh'⟩ := htogether
        have hnext := hands d' (by simp) e' (by simp) h hh hh'
        rw [follow_together hh hh', follow_together hh hh', ih hd.tail he.tail hnext fun x hx y hy =>
          hands x (List.mem_cons_of_mem d hx) y (List.mem_cons_of_mem e hy)]
      · have hapart : ∀ h, d'.hand = some h → e'.hand ≠ some h := fun h hh hh' =>
          htogether ⟨h, hh, hh'⟩
        rw [follow_apart (by simpa using hapart) (by simp), follow_apart (by simpa using hapart)
          (by simp)]
        rfl

/-! ## Gaps -/

/-- More stops lengthen a way only where they stand next to the last one. -/
theorem untilGap_append (d : Stop) (ds cs : List Stop) : ∃ bs,
    untilGap (d :: ds ++ cs) = untilGap (d :: ds) ++ bs ∧ (∀ x ∈ bs, x ∈ cs) ∧
      (bs ≠ [] → ∃ c ∈ cs, ∀ x ∈ (untilGap (d :: ds)).getLast?, adjacent x c = true) := by
  induction ds generalizing d with
  | nil =>
    cases cs with
    | nil => exact ⟨[], rfl, by simp, by simp⟩
    | cons c cs =>
      simp only [List.singleton_append, untilGap]
      by_cases hadjacent : adjacent d c = true
      · rw [if_pos hadjacent]
        exact ⟨untilGap (c :: cs), rfl, fun x => mem_untilGap, fun _ => ⟨c, by simp, by simpa⟩⟩
      · rw [if_neg hadjacent]
        exact ⟨[], by simp, by simp, by simp⟩
  | cons y ds ih =>
    simp only [List.cons_append] at ih ⊢
    rw [untilGap, untilGap]
    split
    · obtain ⟨bs, heq, hmem, hreach⟩ := ih y
      refine ⟨bs, by rw [heq]; rfl, hmem, fun hne => ?_⟩
      obtain ⟨c, hc, hadjacent⟩ := hreach hne
      obtain ⟨rest, hrest, -⟩ := untilGap_cons y ds
      refine ⟨c, hc, fun x hx => hadjacent x ?_⟩
      rw [hrest] at hx ⊢
      rwa [List.getLast?_cons_cons] at hx
    · exact ⟨[], by simp, by simp, by simp⟩

/-- A way that comes to the last measure before the barline has no gap in it. -/
theorem getLast?_untilGap {x : Stop} (hasc : ds.Pairwise fun x y => x.measure ≤ y.measure)
    (hinside : ∀ y ∈ ds, y.measure < n) (hx : (untilGap ds).getLast? = some x)
    (hlast : x.measure + 1 = n) : ds.getLast? = some x := by
  induction ds with
  | nil => simp [untilGap] at hx
  | cons d ds ih =>
    cases ds with
    | nil => exact hx
    | cons y ds =>
      rw [untilGap] at hx
      split at hx
      · obtain ⟨rest, hrest, -⟩ := untilGap_cons y ds
        rw [hrest, List.getLast?_cons_cons, ← hrest] at hx
        rw [List.getLast?_cons_cons]
        exact ih hasc.of_cons (fun z hz => hinside z (List.mem_cons_of_mem d hz)) hx
      next hgap =>
        obtain rfl : d = x := by simpa using hx
        have hle := (List.pairwise_cons.mp hasc).1 y (by simp)
        have hlt := hinside y (by simp)
        simp only [adjacent, Bool.and_eq_true, decide_eq_true_eq, not_and, not_le] at hgap
        omega

/-- **A way over the barline.** Nothing leads on from the stops at the end of `ds` that stand in
the last measure before it. -/
theorem exists_cut (d : Stop) (ds cs : List Stop)
    (hasc : (d :: ds).Pairwise fun x y => x.measure ≤ y.measure)
    (hinside : ∀ x ∈ d :: ds, x.measure < n) (houtside : ∀ x ∈ cs, n ≤ x.measure)
    (hquiet : ∀ x ∈ (d :: ds).getLast?, x.measure + 1 = n → leadsOn s x = false) : ∃ bs,
      untilGap (d :: ds ++ cs) = untilGap (d :: ds) ++ bs ∧ (∀ x ∈ bs, x ∈ cs) ∧
        Cut s n (untilGap (d :: ds)) bs := by
  obtain ⟨bs, heq, hmem, hreach⟩ := untilGap_append d ds cs
  refine ⟨bs, heq, hmem, ⟨fun x hx => hinside x (mem_untilGap hx), fun x hx => houtside x (hmem x hx),
    fun hne x hx => ?_, fun x hx hlast => ?_⟩⟩
  · obtain ⟨c, hc, hadjacent⟩ := hreach hne
    have hxc := hadjacent x hx
    simp only [adjacent, Bool.and_eq_true, decide_eq_true_eq] at hxc
    have := hinside x (mem_untilGap (List.mem_of_getLast? hx))
    have := houtside c hc
    omega
  · exact hquiet x (getLast?_untilGap hasc hinside hx hlast) hlast

end Layout

end Divisi
