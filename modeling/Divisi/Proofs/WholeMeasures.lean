/-
Requests for whole measures.

Where the request in force is for whole measures, something links each group of a voice to
the next one of its measure, as a beam would. So a merge that is made in one hand of a staff
and measure is made in all of them that hold a group of either voice
(`Score.Chorded.merges_by_measure`).
-/
import Divisi.Proofs.Linked

namespace Divisi

namespace Layout

variable {fits : Group → Prop} {s : Score} {l : Layout} {staff voice n : Nat} {k k' : GroupKey}

/-- A request for whole measures links a group to its neighbour in the measure. -/
theorem LaidOut.linkedFrom_within {heading : Heading} (hl : l.LaidOut s) (hs : s.Sound fits)
    (hk : k ∈ s.beatsAt staff voice n) (hk' : k' ∈ s.beatsAt staff voice n)
    (hnext : l.neighbour? heading k = some k') : l.LinkedFrom s heading true k := by
  obtain ⟨x, rest, hway, hx, rfl, hrest⟩ := hl.way_cons hs hk heading
  rw [neighbour?_of_way hway] at hnext
  obtain ⟨y, hy, rfl⟩ := Option.map_eq_some_iff.mp hnext
  have hmeasure : y.measure = x.measure := by
    have hxn := ordinal_unique hs (mem_beatsAt_of_line hs hx) hk
    have hyn := ordinal_unique hs (mem_beatsAt_of_line hs (hrest y (List.mem_of_mem_head? hy))) hk'
    exact hyn.trans hxn.symm
  exact ⟨x, rest, hway, by simp [linked, hy, hmeasure]⟩

/-- The hands of a staff in the measure of an ordinal all ask for whole measures. -/
def AsksWhole (s : Score) (l : Layout) (staff o : Nat) : Prop :=
  ∀ (n : Nat) (h : Hand) (v : Nat) (k : GroupKey), l.hands[n]? = some h → h.staff = staff →
    h.voice? v = some k → k ∈ s.beatsAt staff v o → l.byMeasure[n]?.getD false = true

end Layout

theorem iff_of_neighbours {α : Type} {P : α → Prop} {xs : List α}
    (h : ∀ before x y after, xs = before ++ x :: y :: after → (P x ↔ P y)) {x y : α} (hx : x ∈ xs)
    (hy : y ∈ xs) : P x ↔ P y := by
  induction xs generalizing x y with
  | nil => cases hx
  | cons a rest ih =>
    have ih : ∀ {x y : α}, x ∈ rest → y ∈ rest → (P x ↔ P y) :=
      ih fun before x y after hrest => h (a :: before) x y after (by rw [hrest, List.cons_append])
    have hfirst : ∀ b ∈ rest, P a ↔ P b := by
      intro b hb
      cases rest with
      | nil => cases hb
      | cons c rest => exact (h [] a c rest rfl).trans (ih List.mem_cons_self hb)
    rcases List.mem_cons.mp hx with rfl | hx'
    · rcases List.mem_cons.mp hy with rfl | hy'
      · exact Iff.rfl
      · exact hfirst y hy'
    · rcases List.mem_cons.mp hy with rfl | hy'
      · exact (hfirst x hx').symm
      · exact ih hx' hy'

namespace Planned

variable {fits : Group → Prop} {s : Score} {l : Layout} {tables : List Affinity} {n o : Nat}
  {m : Merge} {staff v : Nat} {k k' : GroupKey}

/-- Some hand that holds the group as the given voice makes the merge. -/
def MakesAt (s : Score) (l : Layout) (tables : List Affinity) (staff v : Nat) (m : Merge)
    (k : GroupKey) : Prop :=
  ∃ n h, l.hands[n]? = some h ∧ h.staff = staff ∧ h.voice? v = some k ∧ (l.plan s tables).Makes n m

/-- Where all hands of a staff and measure ask for whole measures, a merge goes on from a group
of either of its voices to its neighbour in the measure. -/
theorem makesAt_of_neighbour (hl : l.LaidOut s) (hs : s.Sound fits) (hc : s.Charted)
    (hwhole : l.AsksWhole s staff o)
    (hv : v = m.dest ∨ v = m.src) (hk : k ∈ s.beatsAt staff v o) (hk' : k' ∈ s.beatsAt staff v o)
    {heading : Heading} (hnext : l.neighbour? heading k = some k')
    (hm : MakesAt s l tables staff v m k) : MakesAt s l tables staff v m k' := by
  obtain ⟨n, h, hn, hstaff, hvoice, hmakes⟩ := hm
  have hlinked : l.LinkedFrom s heading (l.byMeasure[n]?.getD false) k :=
    hwhole n h v k hn hstaff hvoice hk ▸ hl.linkedFrom_within hs hk hk' hnext
  obtain ⟨n', h', hn', hstaff', hvoice', hmakes'⟩ :=
    exists_of_linked hl hs hc hmakes hn hv hvoice hnext hlinked
  exact ⟨n', h', hn', hstaff'.trans hstaff, hvoice', hmakes'⟩

theorem makesAt_iff (hl : l.LaidOut s) (hs : s.Sound fits) (hc : s.Charted)
    (hwhole : l.AsksWhole s staff o)
    (hv : v = m.dest ∨ v = m.src) (hk : k ∈ s.beatsAt staff v o)
    (hk' : k' ∈ s.beatsAt staff v o) :
    MakesAt s l tables staff v m k ↔ MakesAt s l tables staff v m k' := by
  refine iff_of_neighbours (fun before x y after hbeats => ?_) hk hk'
  have hx : x ∈ s.beatsAt staff v o := by simp [hbeats]
  have hy : y ∈ s.beatsAt staff v o := by simp [hbeats]
  have hfollows : s.Follows staff v x y := .within o before after hbeats
  exact ⟨makesAt_of_neighbour hl hs hc hwhole hv hx hy ((hl.next?_eq_some hs hx).mpr hfollows),
    makesAt_of_neighbour hl hs hc hwhole hv hy hx ((hl.prev?_eq_some hs hy).mpr hfollows)⟩

end Planned

/-- **Whole measures are all or nothing.** Where the request in force for a staff is for whole
measures, a merge that is made in one hand of the staff and measure is made in every hand there
that holds a group of one of the two voices. -/
theorem Score.Chorded.merges_by_measure {t : Score} (ht : t.Chorded) :
    ∃ c, t.combineVoices = .ok c ∧ ∀ p ∈ t.placed, ∀ staff r, p.inForce.request staff = some r →
      r.byMeasure = true → ∀ m n h, c.layout.hands[n]? = some h → h.item = p.item →
        h.staff = staff → c.planned.Makes n m →
          ∀ n' h', c.layout.hands[n']? = some h' → h'.item = p.item → h'.staff = staff →
            ((∃ k, h'.voice? m.dest = some k) ∨ ∃ k, h'.voice? m.src = some k) →
              c.planned.Makes n' m := by
  obtain ⟨c, hcombine, hof⟩ := ht.combined
  obtain ⟨tables, hplanned⟩ := hof.planned
  have hl := hof.laidOut
  have hs := ht.sound
  refine ⟨c, hcombine, fun p hp staff r hr hwhole m n h hn hitem hstaff hm n' h' hn' hitem' hstaff'
    hheld => ?_⟩
  rw [hplanned] at hm ⊢
  obtain ⟨o, ho⟩ := List.getElem?_of_mem hp
  have hon : ∀ (n : Nat) (h : Hand) v k, c.layout.hands[n]? = some h → h.staff = staff → h.voice? v = some k →
      (h.item = p.item ↔ k ∈ t.beatsAt staff v o) := fun n h v k hn hstaff hk =>
    hstaff ▸ hl.item_eq_iff hs ht.charted (List.mem_of_getElem? hn) ho hk
  have hwhole : c.layout.AsksWhole t staff o := by
    intro n h v k hn hstaff hk hbeat
    have hitem := (hon n h v k hn hstaff hk).mpr hbeat
    obtain ⟨q, hq, chord, hseated⟩ := hl.seated h (List.mem_of_getElem? hn)
    obtain rfl : q = p := Placed.eq_of_item hq hp (hseated.item.symm.trans hitem)
    have hrequest : h.request = some r := by rw [hseated.request, hstaff, hr]
    simp [Layout.byMeasure, hn, hrequest, hwhole]
  -- the hand that makes the merge holds both voices, so all groups of either follow
  obtain ⟨h₁, dest, src, hn₁, hdest, hsrc⟩ := hm.groups
  cases hn.symm.trans hn₁
  have hmade : ∀ v k k', (v = m.dest ∨ v = m.src) → h.voice? v = some k → h'.voice? v = some k' →
      (c.layout.plan t tables).Makes n' m := by
    intro v k k' hv hk hk'
    have hbeat := (hon n h v k hn hstaff hk).mp hitem
    have hbeat' := (hon n' h' v k' hn' hstaff' hk').mp hitem'
    obtain ⟨n₂, h₂, hn₂, -, hk₂, hmakes⟩ :=
      (Planned.makesAt_iff hl hs ht.charted hwhole hv hbeat hbeat').mp ⟨n, h, hn, hstaff, hk, hm⟩
    rwa [(hl.hand_unique hs ht.charted hn' hn₂ hk' hk₂).1]
  rcases hheld with ⟨k', hk'⟩ | ⟨k', hk'⟩
  · exact hmade m.dest dest k' (.inl rfl) hdest hk'
  · exact hmade m.src src k' (.inr rfl) hsrc hk'

/-- Two measures of two half notes in each of two voices, which asks for whole measures. In the
second measure the voices cross on the last of them. -/
def wholeMeasures : String :=
  "vcombine:\n voices: [1,2]\n bymeas: true\nmusic:\n- measure:\n  - voices:\n     1:\n" ++
  "     - time: 2\n       notes: [g5]\n     - time: 2\n       notes: [a5]\n     2:\n" ++
  "     - time: 2\n       notes: [c4]\n     - time: 2\n       notes: [d4]\n- measure:\n" ++
  "  - voices:\n     1:\n     - time: 2\n       notes: [g5]\n     - time: 2\n" ++
  "       notes: [a5]\n     2:\n     - time: 2\n       notes: [c4]\n     - time: 2\n" ++
  "       notes: [b5]\n"

theorem merged_wholeMeasures : ∃ t : Score, t.Chorded ∧ ∃ c, t.combineVoices = .ok c ∧
    c.planned.plans = [[⟨1, 2⟩], [⟨1, 2⟩], [], []] ∧ ∃ p ∈ t.placed, ∃ r h h',
      p.inForce.request 1 = some r ∧ r.byMeasure = true ∧ c.layout.hands[0]? = some h ∧
      c.layout.hands[1]? = some h' ∧ h.item = p.item ∧ h'.item = p.item ∧
      c.planned.Makes 0 ⟨1, 2⟩ ∧ (∃ k, h'.voice? 1 = some k) ∧ c.planned.Makes 1 ⟨1, 2⟩ := by
  obtain ⟨s, hs, hfault, hmade⟩ := Score.exists_of_text wholeMeasures
    (P := fun s => s.buildChords.fault = none ∧
      (s.buildChords.now.combineVoices.toOption.any fun c =>
        c.planned.plans == [[⟨1, 2⟩], [⟨1, 2⟩], [], []] &&
          s.buildChords.now.placed.head?.any fun p =>
            (p.inForce.request 1).any (·.byMeasure) &&
            c.layout.hands[0]?.any (fun h => h.item == p.item && h.staff == 1) &&
            c.layout.hands[1]?.any fun h => h.item == p.item && h.staff == 1 &&
              (h.voice? 1).isSome) = true)
    (by decide +kernel)
  have ht : s.buildChords.now.Chorded := ⟨s, .of_text hs, hfault, rfl⟩
  obtain ⟨c, hc, hmerges⟩ := Score.Chorded.merges_by_measure ht
  simp only [hc, Except.toOption, Option.any_some, Bool.and_eq_true, beq_iff_eq,
    Option.any_eq_true, Option.isSome_iff_exists] at hmade
  obtain ⟨hplans, p, hp, ⟨⟨r, hr, hwhole⟩, h, hn, hitem, hstaff⟩, h', hn', ⟨hitem', hstaff'⟩, hk⟩ :=
    hmade
  have hp := List.mem_of_mem_head? hp
  have hmakes : c.planned.Makes 0 ⟨1, 2⟩ := ⟨[⟨1, 2⟩], by rw [hplans]; rfl, by simp⟩
  exact ⟨_, ht, c, hc, hplans, p, hp, r, h, h', hr, hwhole, hn, hn', hitem, hitem', hmakes, hk,
    hmerges p hp 1 r hr hwhole ⟨1, 2⟩ 0 h hn hitem hstaff hmakes 1 h' hn' hitem' hstaff' (.inl hk)⟩

end Divisi
