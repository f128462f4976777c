/-
Beams under combining.

The beams of a score are complete if each runs from its start to its end along neighbours of
one voice (`Score.BeamsComplete`). What a beam links is merged together or not at all, so a beam
that is folded is folded as a whole, and one that is borne by the groups of another voice stays
complete as long as that voice bears it. It is torn where two neighbours bear the marks of
different voices and these do not meet (`Score.Chorded.beams_complete_iff`): the marks of two
rests are never compared, nor is that of a space.
-/
import Divisi.Proofs.Bearers
import Divisi.Proofs.Linked
import Divisi.Proofs.Starred
import Divisi.Proofs.Timing

namespace Divisi

/-- The run carries on from the group before. -/
def Span.carriedOn : Span → Bool
  | inner | stop => true
  | _ => false

/-- The marks of a voice make runs, each from its start to its end along neighbours. -/
structure Score.RunsOn (s : Score) (mark : Group → Span) (staff voice : Nat) : Prop where
  joined : ∀ k k', s.Follows staff voice k k' →
    (mark (s.groups.get k)).continues = (mark (s.groups.get k')).carriedOn
  ended : ∀ n k, k ∈ s.beatsAt staff voice n → (∀ k', ¬s.Follows staff voice k k') →
    (mark (s.groups.get k)).continues = false
  begun : ∀ n k, k ∈ s.beatsAt staff voice n → (∀ k', ¬s.Follows staff voice k' k) →
    (mark (s.groups.get k)).carriedOn = false

/-- The marks of all neighbours match, as far as the lines of a layout tell. -/
def Layout.marksMeet (mark : Group → Span) (s : Score) (l : Layout) : Bool :=
  l.lines.all fun line => line.all fun x =>
    (mark (s.groups.get x.key)).continues ==
        (l.next? x.key).any (fun k => (mark (s.groups.get k)).carriedOn) &&
      (mark (s.groups.get x.key)).carriedOn ==
        (l.prev? x.key).any fun k => (mark (s.groups.get k)).continues

/-- Whether marks make runs can be read off the lines. -/
theorem Layout.LaidOut.runsOn {fits : Group → Prop} {s : Score} {l : Layout}
    {mark : Group → Span} (hl : l.LaidOut s) (hs : s.Sound fits) (h : l.marksMeet mark s = true)
    (staff voice : Nat) : s.RunsOn mark staff voice := by
  have hmeet : ∀ {n k}, k ∈ s.beatsAt staff voice n →
      (mark (s.groups.get k)).continues =
          (l.next? k).any (fun k => (mark (s.groups.get k)).carriedOn) ∧
        (mark (s.groups.get k)).carriedOn =
          (l.prev? k).any fun k => (mark (s.groups.get k)).continues := by
    intro n k hk
    obtain ⟨x, rest, -, hx, rfl, -⟩ := hl.way_cons hs hk .forth
    have hline := Lined.line_mem hl.lines hk
    simpa [marksMeet] using List.all_eq_true.mp (List.all_eq_true.mp h _ hline) x hx
  refine ⟨fun k k' hkk' => ?_, fun n k hk hlast => ?_, fun n k hk hfirst => ?_⟩
  · obtain ⟨⟨i, hi⟩, -⟩ := hkk'.mem
    rw [(hmeet hi).1, (hl.next?_eq_some hs hi).mpr hkk', Option.any_some]
  · rw [(hmeet hk).1, Option.any_eq_false]
    exact fun k' hk' => absurd ((hl.next?_eq_some hs hk).mp hk') (hlast k')
  · rw [(hmeet hk).2, Option.any_eq_false]
    exact fun k' hk' => absurd ((hl.prev?_eq_some hs hk).mp hk') (hfirst k')

theorem Score.RunsOn.exists_prev {s : Score} {mark : Group → Span} {staff voice n : Nat}
    {k : GroupKey} (h : s.RunsOn mark staff voice) (hk : k ∈ s.beatsAt staff voice n)
    (hon : (mark (s.groups.get k)).carriedOn = true) :
    ∃ k', s.Follows staff voice k' k ∧ (mark (s.groups.get k')).continues = true := by
  by_contra hnone
  have hfirst : ∀ k', ¬s.Follows staff voice k' k := fun k' hk' =>
    hnone ⟨k', hk', (h.joined k' k hk').trans hon⟩
  rw [h.begun n k hk hfirst] at hon
  cases hon

/-- Every beam runs on from its start to its end, along neighbours of one voice. -/
def Score.BeamsComplete (s : Score) : Prop := ∀ staff voice, s.RunsOn Group.beam staff voice

theorem Group.continuesOnward_of_beam {g : Group} (h : g.beam.continues = true) :
    g.continuesOnward = true :=
  continuesOnward_iff.mpr (.inl (Span.continues_iff.mp h))

/-! ## The lines of a combined score -/

namespace Score

variable {fits : Group → Prop} {s t : Score} {staff voice n : Nat} {k : GroupKey}

theorem Sound.voice_of_beatsAt (h : s.Sound fits) (hk : k ∈ s.beatsAt staff voice n) :
    (s.groups.get k).voice = voice := by
  obtain ⟨g, hg, -, hvoice⟩ := h.get?_of_beatsAt hk
  rw [Arena.get_of_get? hg, hvoice]

theorem graceAt_of_beatsAt (hk : k ∈ s.beatsAt staff voice n) : s.graceAt k = false := by
  obtain ⟨-, -, -, -, -, -, -, hgrace⟩ := mem_beatsAt.mp hk
  exact hgrace

theorem beatsAt_eq (s : Score) (staff voice n : Nat) : s.beatsAt staff voice n =
    ((s.placed[n]?.bind fun p => s.list? ⟨p.item, staff, voice⟩).map s.mains).getD [] := by
  rw [beatsAt, ← map_measure_placed, List.getElem?_map]
  cases hp : s.placed[n]? with
  | none => rfl
  | some p =>
    rw [Option.map_some, Option.bind_some, Option.bind_some, list?,
      Placed.measureAt?_item (List.mem_of_getElem? hp), Option.bind_some]
    cases (p.measure.stave? staff).bind (·.list? voice) <;> rfl

theorem KeepsTime.beatsAt (h : t.KeepsTime s) (ht : t.Sound fits) :
    s.beatsAt staff voice n = t.beatsAt staff voice n := by
  have hplaced : s.placed.map (Placed.mapLists t.mains) = t.placed.map (Placed.mapLists t.mains) := by
    rw [placed, placed, ← Placed.along_mapLists, ← Placed.along_mapLists, h.items ht]
  have hitem := congrArg (fun ps => (ps[n]?).map (·.item)) hplaced
  simp only [List.getElem?_map, Option.map_map, Function.comp_def, Placed.mapLists] at hitem
  rw [beatsAt_eq, beatsAt_eq]
  cases hp : t.placed[n]? with
  | none =>
    rw [hp, Option.map_none, Option.map_eq_none_iff] at hitem
    rw [hitem]
    rfl
  | some p =>
    rw [hp, Option.map_some, Option.map_eq_some_iff] at hitem
    obtain ⟨q, hq, hitem⟩ := hitem
    rw [hq, Option.bind_some, Option.bind_some, hitem, h.lists]

theorem KeepsTime.follows (h : t.KeepsTime s) (ht : t.Sound fits) {k k' : GroupKey} :
    s.Follows staff voice k k' ↔ t.Follows staff voice k k' := by
  constructor
  · intro hfollows
    cases hfollows with
    | within n before after heq => exact .within n before after ((h.beatsAt ht).symm.trans heq)
    | across n before after heq heq' =>
      exact .across n before after ((h.beatsAt ht).symm.trans heq) ((h.beatsAt ht).symm.trans heq')
  · intro hfollows
    cases hfollows with
    | within n before after heq => exact .within n before after ((h.beatsAt ht).trans heq)
    | across n before after heq heq' =>
      exact .across n before after ((h.beatsAt ht).trans heq) ((h.beatsAt ht).trans heq')

end Score

/-! ## Merges along a beam -/

namespace Combination

open Merging

variable {c : Combination} {t : Score} {h h' : Hand} {m m' : Merge} {k k' e e' : GroupKey}
  {staff voice n : Nat}

theorem mem_steps : (h, m) ∈ c.steps ↔
    ∃ n, c.layout.hands[n]? = some h ∧ c.planned.Makes n m := by
  simp only [steps, List.mem_flatMap, List.mem_map, Prod.mk.injEq, Prod.exists]
  constructor
  · rintro ⟨h₁, plan, hmem, m₁, hm, rfl, rfl⟩
    obtain ⟨n, hn⟩ := List.getElem?_of_mem hmem
    obtain ⟨hh, hplan⟩ := List.getElem?_zip_eq_some.mp hn
    exact ⟨n, hh, plan, hplan, hm⟩
  · rintro ⟨n, hh, plan, hplan, hm⟩
    exact ⟨h, plan, List.mem_of_getElem? (List.getElem?_zip_eq_some.mpr ⟨hh, hplan⟩), m, hm, rfl, rfl⟩

/-- A merge that is made is into a voice further up, and the two were judged to go together. -/
theorem Of.judged_of_step (hc : c.Of t) (hmem : (h, m) ∈ c.steps) :
    m.dest < m.src ∧ h.Judged t c.layout m.dest m.src := by
  obtain ⟨n, hn, plan, hplan, hm⟩ := mem_steps.mp hmem
  have hshape := hc.shape n h plan hn hplan
  exact ⟨hshape.star.upward m hm, (hshape.goes_of_mem m hm).2⟩

theorem Of.mem_zip_of_voice? (hc : c.Of t) (hh : h ∈ c.layout.hands) {v w : Nat}
    (hk : h.voice? v = some k) (he : h.voice? w = some e) :
    (k, e) ∈ (t.columnAt h v).zip (t.columnAt h w) := by
  obtain ⟨-, list, hlist, -⟩ := hc.stands.main h hh v k hk
  obtain ⟨-, list', hlist', -⟩ := hc.stands.main h hh w e he
  rw [Score.columnAt_eq hk hlist, Score.columnAt_eq he hlist']
  exact List.mem_cons_self

theorem Of.place (hc : c.Of t) (ht : t.Chorded) (hh : h ∈ c.layout.hands)
    (hk : h.voice? voice = some k) : (∃ n, k ∈ t.beatsAt h.staff voice n) ∧
      (t.groups.get k).staff = h.staff ∧ (t.groups.get k).voice = voice := by
  obtain ⟨n, -, -, -, hon⟩ := hc.laidOut.beatsAt_of_voice? ht.sound ht.charted hh hk
  obtain ⟨g, hg, hstaff, hvoice⟩ := ht.sound.get?_of_beatsAt hon
  exact ⟨⟨n, hon⟩, by rw [Arena.get_of_get? hg, hstaff], by rw [Arena.get_of_get? hg, hvoice]⟩

theorem Of.place_unique (hc : c.Of t) (ht : t.Chorded) (hh : h ∈ c.layout.hands) {v : Nat}
    (hk : h.voice? v = some k) (hon : k ∈ t.beatsAt staff voice n) : h.staff = staff ∧ v = voice := by
  obtain ⟨-, hstaff, hvoice⟩ := hc.place ht hh hk
  obtain ⟨g, hg, hgstaff, hgvoice⟩ := ht.sound.get?_of_beatsAt hon
  rw [Arena.get_of_get? hg] at hstaff hvoice
  exact ⟨hstaff.symm.trans hgstaff, hvoice.symm.trans hgvoice⟩

/-- Where one of the two groups of a merge runs on, the hand makes the merge that both go on
into, or neither goes on. -/
theorem Of.next (hc : c.Of t) (ht : t.Chorded) (hmem : (h, m) ∈ c.steps)
    (hk : h.voice? m.dest = some k) (he : h.voice? m.src = some e)
    (hon : (t.groups.get k).continuesOnward = true ∨ (t.groups.get e).continuesOnward = true) :
    (∀ k', ¬t.Follows h.staff m.dest k k' ∧ ¬t.Follows h.staff m.src e k') ∨
      ∃ h' k' e', (h', m) ∈ c.steps ∧ h'.voice? m.dest = some k' ∧ h'.voice? m.src = some e' ∧
        t.Follows h.staff m.dest k k' ∧ t.Follows h.staff m.src e e' := by
  obtain ⟨tables, hplanned⟩ := hc.planned
  obtain ⟨n, hn, hmakes⟩ := mem_steps.mp hmem
  rw [hplanned] at hmakes
  rcases Planned.next_of_makes hc.laidOut ht.sound ht.charted hmakes hn hk he hon with
    hnone | ⟨n', h', k', e', hn', hk', he', hkk', hee', hmakes'⟩
  · exact .inl hnone
  · exact .inr ⟨h', k', e', mem_steps.mpr ⟨n', hn', hplanned ▸ hmakes'⟩, hk', he', hkk', hee'⟩

/-- Where something runs on into one of the two groups of a merge, the hand that it comes from
makes the merge. -/
theorem Of.prev (hc : c.Of t) (ht : t.Chorded) (hmem : (h, m) ∈ c.steps)
    (hk : h.voice? m.dest = some k) (he : h.voice? m.src = some e)
    (hon : ∃ z, (t.Follows h.staff m.dest z k ∨ t.Follows h.staff m.src z e) ∧
      (t.groups.get z).continuesOnward = true) :
    ∃ h' k' e', (h', m) ∈ c.steps ∧ h'.voice? m.dest = some k' ∧ h'.voice? m.src = some e' ∧
      t.Follows h.staff m.dest k' k ∧ t.Follows h.staff m.src e' e := by
  obtain ⟨tables, hplanned⟩ := hc.planned
  obtain ⟨n, hn, hmakes⟩ := mem_steps.mp hmem
  rw [hplanned] at hmakes
  obtain ⟨n', h', k', e', hn', hk', he', hkk', hee', hmakes'⟩ :=
    Planned.prev_of_makes hc.laidOut ht.sound ht.charted hmakes hn hk he hon
  exact ⟨h', k', e', mem_steps.mpr ⟨n', hn', hplanned ▸ hmakes'⟩, hk', he', hkk', hee'⟩

theorem Of.folded_next (hc : c.Of t) (ht : t.Chorded) (hfolded : Folded c.steps k)
    (hfollows : t.Follows staff voice k k') (hon : (t.groups.get k).continuesOnward = true) :
    Folded c.steps k' := by
  obtain ⟨⟨h, m⟩, hmem, hk⟩ := hfolded
  obtain ⟨hh, -, ⟨d, hd⟩, -⟩ := hc.offers hmem
  obtain ⟨n, hkn⟩ := hfollows.mem.1
  obtain ⟨rfl, rfl⟩ := hc.place_unique ht hh hk hkn
  rcases hc.next ht hmem hd hk (.inr hon) with hnone | ⟨h', d', k₁, hmem', -, hk₁, -, hkk₁⟩
  · exact absurd hfollows (hnone k').2
  · cases hc.laidOut.follows_unique ht.sound hkk₁ hfollows
    exact ⟨(h', m), hmem', hk₁⟩

theorem Of.folded_prev (hc : c.Of t) (ht : t.Chorded) (hfolded : Folded c.steps k')
    (hfollows : t.Follows staff voice k k') (hon : (t.groups.get k).continuesOnward = true) :
    Folded c.steps k := by
  obtain ⟨⟨h, m⟩, hmem, hk'⟩ := hfolded
  obtain ⟨hh, -, ⟨d, hd⟩, -⟩ := hc.offers hmem
  obtain ⟨n, hkn⟩ := hfollows.mem.2
  obtain ⟨rfl, rfl⟩ := hc.place_unique ht hh hk' hkn
  obtain ⟨h', d', k₁, hmem', -, hk₁, -, hkk₁⟩ :=
    hc.prev ht hmem hd hk' ⟨k, .inr hfollows, hon⟩
  cases hc.laidOut.followed_unique ht.sound hkk₁ hfollows
  exact ⟨(h', m), hmem', hk₁⟩

theorem Of.not_joining (hc : c.Of t) (hfolded : Folded c.steps k) : e ∉ joining c.steps k := by
  intro he
  obtain ⟨⟨h, m⟩, hmem, hk⟩ := hfolded
  obtain ⟨h', m', hmem', hk', -⟩ := mem_joining.mp he
  obtain ⟨n, hn, plan, hplan, hm⟩ := mem_steps.mp hmem
  obtain ⟨n', hn', plan', hplan', hm'⟩ := mem_steps.mp hmem'
  have hsame : n = n' := by
    by_contra hne
    have happart := List.pairwise_iff_getElem.mp hc.apart
    obtain ⟨hlt, rfl⟩ := List.getElem?_eq_some_iff.mp hn
    obtain ⟨hlt', rfl⟩ := List.getElem?_eq_some_iff.mp hn'
    rcases Nat.lt_or_gt_of_ne hne with hlt₂ | hlt₂
    · exact happart n n' hlt hlt' hlt₂ _ _ k hk hk'
    · exact happart n' n hlt' hlt hlt₂ _ _ k hk' hk
  subst hsame
  cases hn.symm.trans hn'
  cases hplan.symm.trans hplan'
  have hstar := (hc.shape n h plan hn hplan).star
  have hvoice : m.src = m'.dest := hc.stands.voice_inj (List.mem_of_getElem? hn) hk hk'
  have hcentre := hstar.centre m hm m' hm'
  have hupward := hstar.upward m hm
  omega

/-- A group that joins another stands on a line of the same staff, of another voice. -/
theorem Of.place_joining (hc : c.Of t) (ht : t.Chorded) (he : e ∈ joining c.steps k)
    (hk : k ∈ t.beatsAt staff voice n) : (t.groups.get e).voice ≠ voice ∧
      ∃ n, e ∈ t.beatsAt staff (t.groups.get e).voice n := by
  obtain ⟨h, m, hmem, hd, hs⟩ := mem_joining.mp he
  obtain ⟨hh, hne, -⟩ := hc.offers hmem
  obtain ⟨rfl, rfl⟩ := hc.place_unique ht hh hd hk
  obtain ⟨hon, -, hvoice⟩ := hc.place ht hh hs
  rw [hvoice]
  exact ⟨hne.symm, hon⟩

theorem Of.joining_unique (hc : c.Of t) (ht : t.Chorded) (he : e ∈ joining c.steps k)
    (he' : e' ∈ joining c.steps k) (hvoice : (t.groups.get e).voice = (t.groups.get e').voice) :
    e = e' := by
  obtain ⟨h, m, hmem, hd, hs⟩ := mem_joining.mp he
  obtain ⟨h', m', hmem', hd', hs'⟩ := mem_joining.mp he'
  have hh := (hc.offers hmem).1
  have hh' := (hc.offers hmem').1
  obtain ⟨i, hi⟩ := List.getElem?_of_mem hh
  obtain ⟨j, hj⟩ := List.getElem?_of_mem hh'
  cases (hc.laidOut.hand_unique ht.sound ht.charted hi hj hd hd').1
  cases hi.symm.trans hj
  rw [(hc.place ht hh hs).2.2, (hc.place ht hh hs').2.2] at hvoice
  exact Option.some.inj (hs.symm.trans (hvoice ▸ hs'))

/-- Where a group that joins `k` runs on, what it runs on into joins what follows `k`. -/
theorem Of.joining_next (hc : c.Of t) (ht : t.Chorded) (he : e ∈ joining c.steps k)
    (hon : (t.groups.get e).continuesOnward = true) (hfollows : t.Follows staff voice k k') :
    ∃ e', t.Follows staff (t.groups.get e).voice e e' ∧ e' ∈ joining c.steps k' := by
  obtain ⟨h, m, hmem, hd, hs⟩ := mem_joining.mp he
  have hh := (hc.offers hmem).1
  obtain ⟨n, hkn⟩ := hfollows.mem.1
  obtain ⟨rfl, rfl⟩ := hc.place_unique ht hh hd hkn
  rw [(hc.place ht hh hs).2.2]
  rcases hc.next ht hmem hd hs (.inr hon) with hnone | ⟨h', k₁, e', hmem', hd', hs', hkk₁, hee'⟩
  · exact absurd hfollows (hnone k').1
  · cases hc.laidOut.follows_unique ht.sound hkk₁ hfollows
    exact ⟨e', hee', mem_joining.mpr ⟨h', m, hmem', hd', hs'⟩⟩

/-- Where nothing follows `k`, nothing follows a group that joins it and runs on. -/
theorem Of.joining_last (hc : c.Of t) (ht : t.Chorded) (he : e ∈ joining c.steps k)
    (hon : (t.groups.get e).continuesOnward = true) (hk : k ∈ t.beatsAt staff voice n)
    (hlast : ∀ k', ¬t.Follows staff voice k k') :
    ∀ e', ¬t.Follows staff (t.groups.get e).voice e e' := by
  obtain ⟨h, m, hmem, hd, hs⟩ := mem_joining.mp he
  have hh := (hc.offers hmem).1
  obtain ⟨rfl, rfl⟩ := hc.place_unique ht hh hd hk
  rw [(hc.place ht hh hs).2.2]
  rcases hc.next ht hmem hd hs (.inr hon) with hnone | ⟨h', k₁, e', -, -, -, hkk₁, -⟩
  · exact fun e' => (hnone e').2
  · exact absurd hkk₁ (hlast k₁)

/-- What runs on into a group that joins `k'` joins what `k'` follows. -/
theorem Of.joining_prev (hc : c.Of t) (ht : t.Chorded) (he : e' ∈ joining c.steps k')
    (hk' : k' ∈ t.beatsAt staff voice n)
    (hfollows : t.Follows staff (t.groups.get e').voice e e')
    (hon : (t.groups.get e).continuesOnward = true) :
    ∃ k, t.Follows staff voice k k' ∧ e ∈ joining c.steps k := by
  obtain ⟨h, m, hmem, hd, hs⟩ := mem_joining.mp he
  have hh := (hc.offers hmem).1
  obtain ⟨rfl, rfl⟩ := hc.place_unique ht hh hd hk'
  rw [(hc.place ht hh hs).2.2] at hfollows
  obtain ⟨h', k, e₁, hmem', hd', hs', hkk', hee'⟩ :=
    hc.prev ht hmem hd hs ⟨e, .inr hfollows, hon⟩
  cases hc.laidOut.followed_unique ht.sound hee' hfollows
  exact ⟨k, hkk', mem_joining.mpr ⟨h', m, hmem', hd', hs'⟩⟩

/-! ## Where beams stay complete -/

theorem Of.eq_of_voice (hc : c.Of t) (ht : t.Chorded) (hk : k ∈ t.beatsAt staff voice n)
    (he : e = k ∨ e ∈ joining c.steps k) (he' : e' = k ∨ e' ∈ joining c.steps k)
    (hvoice : (t.groups.get e).voice = (t.groups.get e').voice) : e = e' := by
  have hown := ht.sound.voice_of_beatsAt hk
  rcases he with rfl | he <;> rcases he' with rfl | he'
  · rfl
  · exact absurd (hvoice.symm.trans hown) (hc.place_joining ht he' hk).1
  · exact absurd (hvoice.trans hown) (hc.place_joining ht he hk).1
  · exact hc.joining_unique ht he he' hvoice

/-- A mark that leads on from a group, or from one that joins it, leads on into the next group,
or into one of that voice that joins it. -/
theorem Of.next_of_continues (hc : c.Of t) (ht : t.Chorded) (hb : t.BeamsComplete)
    (hfollows : t.Follows staff voice k k') (he : e = k ∨ e ∈ joining c.steps k)
    (hon : (t.groups.get e).beam.continues = true) :
    ∃ e', (t.groups.get e').beam.carriedOn = true ∧
      (t.groups.get e').voice = (t.groups.get e).voice ∧
      (e = k ∧ e' = k' ∨ e' ∈ joining c.steps k') := by
  obtain ⟨⟨i, hi⟩, j, hj⟩ := hfollows.mem
  rcases he with rfl | he
  · refine ⟨k', ((hb staff voice).joined e k' hfollows).symm.trans hon, ?_, .inl ⟨rfl, rfl⟩⟩
    rw [ht.sound.voice_of_beatsAt hi, ht.sound.voice_of_beatsAt hj]
  · obtain ⟨e', hee', he'⟩ := hc.joining_next ht he (Group.continuesOnward_of_beam hon) hfollows
    obtain ⟨l, hl⟩ := hee'.mem.2
    exact ⟨e', ((hb staff _).joined e e' hee').symm.trans hon, ht.sound.voice_of_beatsAt hl, .inr he'⟩

/-- So does a mark that leads on into a group. -/
theorem Of.prev_of_carriedOn (hc : c.Of t) (ht : t.Chorded) (hb : t.BeamsComplete)
    (hk' : k' ∈ t.beatsAt staff voice n) (he : e' = k' ∨ e' ∈ joining c.steps k')
    (hon : (t.groups.get e').beam.carriedOn = true) :
    ∃ k e, t.Follows staff voice k k' ∧ (t.groups.get e).beam.continues = true ∧
      (t.groups.get e).voice = (t.groups.get e').voice ∧
      (e = k ∧ e' = k' ∨ e ∈ joining c.steps k) := by
  rcases he with rfl | he
  · obtain ⟨k, hkk', hcontinues⟩ := (hb staff voice).exists_prev hk' hon
    obtain ⟨i, hi⟩ := hkk'.mem.1
    refine ⟨k, k, hkk', hcontinues, ?_, .inl ⟨rfl, rfl⟩⟩
    rw [ht.sound.voice_of_beatsAt hi, ht.sound.voice_of_beatsAt hk']
  · obtain ⟨-, j, hj⟩ := hc.place_joining ht he hk'
    obtain ⟨e, hee', hcontinues⟩ := (hb staff _).exists_prev hj hon
    obtain ⟨k, hkk', he'⟩ :=
      hc.joining_prev ht he hk' hee' (Group.continuesOnward_of_beam hcontinues)
    obtain ⟨i, hi⟩ := hee'.mem.1
    exact ⟨k, e, hkk', hcontinues, ht.sound.voice_of_beatsAt hi, .inr he'⟩

/-- The marks of one voice at two neighbours match, whether they are borne by the neighbours or
by groups that join them. -/
theorem Of.matched (hc : c.Of t) (ht : t.Chorded) (hb : t.BeamsComplete)
    (hfollows : t.Follows staff voice k k') (he : e = k ∨ e ∈ joining c.steps k)
    (he' : e' = k' ∨ e' ∈ joining c.steps k')
    (hvoice : (t.groups.get e).voice = (t.groups.get e').voice) :
    (t.groups.get e).beam.continues = (t.groups.get e').beam.carriedOn := by
  obtain ⟨⟨i, hi⟩, j, hj⟩ := hfollows.mem
  refine Bool.eq_iff_iff.mpr ⟨fun hon => ?_, fun hon => ?_⟩
  · obtain ⟨f, hcarried, hsame, hf⟩ := hc.next_of_continues ht hb hfollows he hon
    rwa [hc.eq_of_voice ht hj he' (hf.imp_left And.right) (hvoice.symm.trans hsame.symm)]
  · obtain ⟨k₀, f, hk₀, hcontinues, hsame, hf⟩ := hc.prev_of_carriedOn ht hb hj he' hon
    cases hc.laidOut.followed_unique ht.sound hk₀ hfollows
    rwa [hc.eq_of_voice ht hi he (hf.imp_left And.left) (hvoice.trans hsame.symm)]

/-- Neighbours that bear the marks of one voice, or that are both folded, or one of them, stay
matched. -/
theorem Of.joined (hc : c.Of t) (ht : t.Chorded) (hb : t.BeamsComplete)
    (hfollows : t.Follows staff voice k k')
    (hmeet : ¬Folded c.steps k → ¬Folded c.steps k' →
      (t.groups.get (bearer t c.steps k)).voice ≠ (t.groups.get (bearer t c.steps k')).voice →
      (t.groups.get (bearer t c.steps k)).beam.continues =
        (t.groups.get (bearer t c.steps k')).beam.carriedOn) :
    (c.score.groups.get k).beam.continues = (c.score.groups.get k').beam.carriedOn := by
  obtain ⟨⟨i, hi⟩, j, hj⟩ := hfollows.mem
  have hbears := hc.bears (Score.graceAt_of_beatsAt hi)
  have hbears' := hc.bears (Score.graceAt_of_beatsAt hj)
  have hunique : ∀ {z}, t.Follows staff voice z k' → z = k := fun hz =>
    hc.laidOut.followed_unique ht.sound hz hfollows
  by_cases hf : Folded c.steps k <;> by_cases hf' : Folded c.steps k'
  · rw [hbears.folded hf, hbears'.folded hf']
    rfl
  · -- nothing leads on from what is folded into a neighbour that is not
    rw [hbears.folded hf, hbears'.beam hf']
    refine (Bool.eq_false_iff.mpr fun hon => ?_).symm
    obtain ⟨z, e, hzk', hcontinues, -, ⟨rfl, -⟩ | he⟩ :=
      hc.prev_of_carriedOn ht hb hj (bearer_cases t c.steps k') hon
    · exact hf' (hc.folded_next ht (hunique hzk' ▸ hf) hzk' (Group.continuesOnward_of_beam hcontinues))
    · exact hc.not_joining hf (hunique hzk' ▸ he)
  · rw [hbears.beam hf, hbears'.folded hf']
    refine Bool.eq_false_iff.mpr fun hon => ?_
    obtain ⟨e', -, -, ⟨he, -⟩ | he'⟩ :=
      hc.next_of_continues ht hb hfollows (bearer_cases t c.steps k) hon
    · rw [he] at hon
      exact hf (hc.folded_prev ht hf' hfollows (Group.continuesOnward_of_beam hon))
    · exact hc.not_joining hf' he'
  · rw [hbears.beam hf, hbears'.beam hf']
    by_cases hvoice : (t.groups.get (bearer t c.steps k)).voice =
        (t.groups.get (bearer t c.steps k')).voice
    · exact hc.matched ht hb hfollows (bearer_cases t c.steps k) (bearer_cases t c.steps k') hvoice
    · exact hmeet hf hf' hvoice

theorem Of.ended (hc : c.Of t) (ht : t.Chorded) (hb : t.BeamsComplete)
    (hk : k ∈ t.beatsAt staff voice n) (hlast : ∀ k', ¬t.Follows staff voice k k') :
    (c.score.groups.get k).beam.continues = false := by
  have hbears := hc.bears (Score.graceAt_of_beatsAt hk)
  by_cases hf : Folded c.steps k
  · rw [hbears.folded hf]
    rfl
  · rw [hbears.beam hf]
    refine Bool.eq_false_iff.mpr fun hon => ?_
    rcases bearer_cases t c.steps k with he | he
    · rw [he, (hb staff voice).ended n k hk hlast] at hon
      cases hon
    · obtain ⟨-, j, hj⟩ := hc.place_joining ht he hk
      have hnone := hc.joining_last ht he (Group.continuesOnward_of_beam hon) hk hlast
      rw [(hb staff _).ended j _ hj hnone] at hon
      cases hon

theorem Of.begun (hc : c.Of t) (ht : t.Chorded) (hb : t.BeamsComplete)
    (hk : k ∈ t.beatsAt staff voice n) (hfirst : ∀ k', ¬t.Follows staff voice k' k) :
    (c.score.groups.get k).beam.carriedOn = false := by
  have hbears := hc.bears (Score.graceAt_of_beatsAt hk)
  by_cases hf : Folded c.steps k
  · rw [hbears.folded hf]
    rfl
  · rw [hbears.beam hf]
    refine Bool.eq_false_iff.mpr fun hon => ?_
    obtain ⟨z, -, hz, -⟩ := hc.prev_of_carriedOn ht hb hk (bearer_cases t c.steps k) hon
    exact hfirst z hz

/-! ## Notes under a beam -/

/-- Groups that go together and are no spaces are beamed alike if one of them has notes. -/
theorem beam_of_compatible {l : Layout} {q : Qualifier} {x y : GroupKey}
    (h : l.compatible t q x y = true) (hx : (t.groups.get x).isSpace = false)
    (hy : (t.groups.get y).isSpace = false)
    (hnotes : (t.groups.get x).kind = .notes ∨ (t.groups.get y).kind = .notes) :
    (t.groups.get x).beam = (t.groups.get y).beam := by
  simp only [Layout.compatible, hx, hy, Bool.false_or, Bool.and_eq_true] at h
  obtain ⟨-, -, h⟩ := h
  split at h
  next hrest hrest' => simp [hrest, hrest'] at hnotes
  next hrepeat hrepeat' => simp [hrepeat, hrepeat'] at hnotes
  next =>
    simp only [Bool.and_eq_true, beq_iff_eq] at h
    obtain ⟨⟨⟨⟨⟨-, hmarks⟩, -⟩, -⟩, -⟩, -⟩ := h
    simp only [Group.sameMarks, Bool.and_eq_true, beq_iff_eq] at hmarks
    exact hmarks.1.1.1.1.1.1.2
  next => cases h

/-- Groups that come together in a hand were found to go together. -/
theorem Of.compatible_of_joining (hc : c.Of t) (ht : t.Chorded) {z : GroupKey}
    (hz : z ∈ joining c.steps k) (he : e = k ∨ e ∈ joining c.steps k)
    (he' : e' = k ∨ e' ∈ joining c.steps k) (hne : e ≠ e') :
    ∃ q, c.layout.compatible t q e e' = true ∨ c.layout.compatible t q e' e = true := by
  obtain ⟨h, m, hmem, hd, -⟩ := mem_joining.mp hz
  obtain ⟨n, hn, plan, hplan, hm⟩ := mem_steps.mp hmem
  have hh := List.mem_of_getElem? hn
  have hstar := (hc.shape n h plan hn hplan).star
  have hvoice : ∀ {x}, x = k ∨ x ∈ joining c.steps k → ∃ v ∈ plan.voices, h.voice? v = some x := by
    rintro x (rfl | hx)
    · exact ⟨m.dest, Plan.mem_voices.mpr ⟨m, hm, .inl rfl⟩, hd⟩
    · obtain ⟨h', m', hmem', hd', hs'⟩ := mem_joining.mp hx
      obtain ⟨n', hn', plan', hplan', hm'⟩ := mem_steps.mp hmem'
      cases (hc.laidOut.hand_unique ht.sound ht.charted hn hn' hd hd').1
      cases hn.symm.trans hn'
      cases hplan.symm.trans hplan'
      exact ⟨m'.src, Plan.mem_voices.mpr ⟨m', hm', .inr rfl⟩, hs'⟩
  have hjudged : ∀ {v w x y}, h.voice? v = some x → h.voice? w = some y →
      h.Judged t c.layout v w → ∃ q, c.layout.compatible t q x y = true := by
    rintro v w x y hx hy ⟨q, hq⟩
    exact ⟨q, hq (x, y) (hc.mem_zip_of_voice? hh hx hy)⟩
  obtain ⟨v, hv, hx⟩ := hvoice he
  obtain ⟨w, hw, hy⟩ := hvoice he'
  rcases Nat.lt_trichotomy v w with hlt | rfl | hlt
  · exact (hjudged hx hy (hstar.together v hv w hw hlt)).imp fun _ => .inl
  · exact absurd (Option.some.inj (hx.symm.trans hy)) hne
  · exact (hjudged hy hx (hstar.together w hw v hv hlt)).imp fun _ => .inr

/-- Where a group with notes under a beam comes together with others, the one that bears the
mark in the end is beamed as it is. -/
theorem Of.beam_bearer (hc : c.Of t) (ht : t.Chorded) (he : e = k ∨ e ∈ joining c.steps k)
    (hnotes : (t.groups.get e).kind = .notes) :
    (t.groups.get (bearer t c.steps k)).beam = (t.groups.get e).beam := by
  by_cases hsame : bearer t c.steps k = e
  · rw [hsame]
  have hspace : (t.groups.get e).isSpace = false := by simp [Group.isSpace, hnotes]
  have hbearer : (t.groups.get (bearer t c.steps k)).isSpace = false := by
    refine Bool.eq_false_iff.mpr fun hon => ?_
    obtain ⟨hown, hall⟩ := isSpace_of_bearer hon
    rcases he with rfl | he
    · exact hsame hown
    · rw [hall e he] at hspace
      cases hspace
  obtain ⟨z, hz⟩ : ∃ z, z ∈ joining c.steps k := by
    rcases bearer_cases t c.steps k with hown | hz
    · rcases he with rfl | he
      · exact absurd hown hsame
      · exact ⟨e, he⟩
    · exact ⟨_, hz⟩
  obtain ⟨q, hq | hq⟩ := hc.compatible_of_joining ht hz (bearer_cases t c.steps k) he hsame
  · exact beam_of_compatible hq hbearer hspace (.inr hnotes)
  · exact (beam_of_compatible hq hspace hbearer (.inl hnotes)).symm

end Combination

/-- **Beams under combining.** In a score whose beams are complete they are complete after voices
have been combined exactly if, wherever two neighbours of a voice are left that bear the marks
of different voices, these match. They do where all that is beamed has notes. -/
theorem Score.Chorded.beams_complete_iff {t : Score} (ht : t.Chorded) (hb : t.BeamsComplete) :
    ∃ c, t.combineVoices = .ok c ∧
      (c.score.BeamsComplete ↔ ∀ staff voice k k', t.Follows staff voice k k' →
        ¬Merging.Folded c.steps k → ¬Merging.Folded c.steps k' →
        (t.groups.get (Merging.bearer t c.steps k)).voice ≠
          (t.groups.get (Merging.bearer t c.steps k')).voice →
        (t.groups.get (Merging.bearer t c.steps k)).beam.continues =
          (t.groups.get (Merging.bearer t c.steps k')).beam.carriedOn) ∧
      ((∀ staff voice n, ∀ k ∈ t.beatsAt staff voice n, (t.groups.get k).beam ≠ .none →
          ∃ heads, (t.groups.get k).content = .notes heads) → c.score.BeamsComplete) := by
  obtain ⟨c, hcombine, hc⟩ := ht.combined
  have htime := hc.keepsTime
  have hfollows : ∀ {staff voice k k'}, c.score.Follows staff voice k k' ↔
      t.Follows staff voice k k' := htime.follows ht.sound
  have hbeats : ∀ {staff voice n}, c.score.beatsAt staff voice n = t.beatsAt staff voice n :=
    htime.beatsAt ht.sound
  have hiff : c.score.BeamsComplete ↔ ∀ staff voice k k', t.Follows staff voice k k' →
      ¬Merging.Folded c.steps k → ¬Merging.Folded c.steps k' →
      (t.groups.get (Merging.bearer t c.steps k)).voice ≠
        (t.groups.get (Merging.bearer t c.steps k')).voice →
      (t.groups.get (Merging.bearer t c.steps k)).beam.continues =
        (t.groups.get (Merging.bearer t c.steps k')).beam.carriedOn := by
    constructor
    · intro hcomplete staff voice k k' hkk' hf hf' _
      obtain ⟨⟨i, hi⟩, j, hj⟩ := hkk'.mem
      rw [← (hc.bears (graceAt_of_beatsAt hi)).beam hf, ← (hc.bears (graceAt_of_beatsAt hj)).beam hf']
      exact (hcomplete staff voice).joined k k' (hfollows.mpr hkk')
    · intro hmeet staff voice
      refine ⟨fun k k' hkk' => ?_, fun n k hk hlast => ?_, fun n k hk hfirst => ?_⟩
      · exact hc.joined ht hb (hfollows.mp hkk') (hmeet staff voice k k' (hfollows.mp hkk'))
      · exact hc.ended ht hb (hbeats ▸ hk) fun k' hkk' => hlast k' (hfollows.mpr hkk')
      · exact hc.begun ht hb (hbeats ▸ hk) fun k' hkk' => hfirst k' (hfollows.mpr hkk')
  refine ⟨c, hcombine, hiff, fun hnotes => hiff.mpr fun staff voice k k' hkk' _ _ _ => ?_⟩
  obtain ⟨⟨i, hi⟩, j, hj⟩ := hkk'.mem
  have hhas : ∀ {k n e}, k ∈ t.beatsAt staff voice n → e = k ∨ e ∈ Merging.joining c.steps k →
      (t.groups.get e).beam ≠ .none → (t.groups.get e).kind = .notes := by
    rintro k n e hk (rfl | he) hbeam
    · obtain ⟨heads, hheads⟩ := hnotes staff voice n e hk hbeam
      exact (Group.content_eq_notes.mp hheads).1
    · obtain ⟨-, l, hl⟩ := hc.place_joining ht he hk
      obtain ⟨heads, hheads⟩ := hnotes staff _ l e hl hbeam
      exact (Group.content_eq_notes.mp hheads).1
  refine Bool.eq_iff_iff.mpr ⟨fun hon => ?_, fun hon => ?_⟩
  · obtain ⟨e', hcarried, -, he'⟩ :=
      hc.next_of_continues ht hb hkk' (Merging.bearer_cases t c.steps k) hon
    have he' := he'.imp_left And.right
    rwa [hc.beam_bearer ht he' (hhas hj he' fun hnone => by rw [hnone] at hcarried; cases hcarried)]
  · obtain ⟨k₀, e, hk₀, hcontinues, -, he⟩ :=
      hc.prev_of_carriedOn ht hb hj (Merging.bearer_cases t c.steps k') hon
    cases hc.laidOut.followed_unique ht.sound hk₀ hkk'
    have he := he.imp_left And.left
    rwa [hc.beam_bearer ht he (hhas hi he fun hnone => by rw [hnone] at hcontinues; cases hcontinues)]

/-- Two notes and the rest between them under a beam, below two spaces and a rest. -/
def restUnderBeam : String :=
  "time: 3/8\nvcombine:\n voices: [1,2]\nmusic:\n- measure:\n  - voices:\n     1:\n" ++
  "     - time: 8\n       space: true\n     - time: 8\n       rest: true\n     - time: 8\n" ++
  "       space: true\n     2:\n     - time: 8\n       notes: [c4]\n       beam: start\n" ++
  "     - time: 8\n       rest: true\n       beam: inner\n     - time: 8\n" ++
  "       notes: [c4]\n       beam: end\n"

/-- The notes move up and take the ends of the beam with them, but the rest above has no mark. -/
theorem torn_restUnderBeam : ∃ t : Score, t.Chorded ∧ t.BeamsComplete ∧
    ∃ c, t.combineVoices = .ok c ∧ ¬c.score.BeamsComplete := by
  obtain ⟨s, hs, hfault, hmade⟩ := Score.exists_of_text restUnderBeam
    (P := fun s => s.buildChords.fault = none ∧
      (s.buildChords.now.combineVoices.toOption.any fun c =>
        let t := s.buildChords.now
        c.layout.marksMeet Group.beam t && c.layout.next? ⟨0⟩ == some ⟨1⟩ &&
          t.beatsAt 1 1 0 == [⟨0⟩, ⟨1⟩, ⟨2⟩] &&
          c.steps.all (fun x => x.1.voice? x.2.src != some ⟨0⟩ && x.1.voice? x.2.src != some ⟨1⟩) &&
          Merging.bearer t c.steps ⟨0⟩ == ⟨3⟩ && Merging.bearer t c.steps ⟨1⟩ == ⟨1⟩ &&
          (t.groups.get ⟨3⟩).voice == 2 && (t.groups.get ⟨1⟩).voice == 1 &&
          (t.groups.get ⟨3⟩).beam == .start && (t.groups.get ⟨1⟩).beam == .none) = true)
    (by decide +kernel)
  have ht : s.buildChords.now.Chorded := ⟨s, .of_text hs, hfault, rfl⟩
  obtain ⟨c, hc, hof⟩ := ht.combined
  simp only [hc, Except.toOption, Option.any_some, Bool.and_eq_true, beq_iff_eq, List.all_eq_true,
    bne_iff_ne] at hmade
  obtain ⟨⟨⟨⟨⟨⟨⟨⟨⟨hmeet, hnext⟩, hbeats⟩, hsteps⟩, hb₀⟩, hb₁⟩, hv₃⟩, hv₁⟩, hbeam₃⟩, hbeam₁⟩ := hmade
  have hcomplete : s.buildChords.now.BeamsComplete := hof.laidOut.runsOn ht.sound hmeet
  have hfollows : s.buildChords.now.Follows 1 1 ⟨0⟩ ⟨1⟩ :=
    (hof.laidOut.next?_eq_some ht.sound (n := 0) (by simp [hbeats])).mp hnext
  refine ⟨_, ht, hcomplete, c, hc, fun hafter => ?_⟩
  obtain ⟨c', hc', hiff, -⟩ := Score.Chorded.beams_complete_iff ht hcomplete
  cases hc.symm.trans hc'
  have hkept₀ : ¬Merging.Folded c.steps ⟨0⟩ := by
    rintro ⟨x, hx, hk⟩
    exact (hsteps x hx).1 hk
  have hkept₁ : ¬Merging.Folded c.steps ⟨1⟩ := by
    rintro ⟨x, hx, hk⟩
    exact (hsteps x hx).2 hk
  have hmatch := hiff.mp hafter 1 1 ⟨0⟩ ⟨1⟩ hfollows hkept₀ hkept₁ (by rw [hb₀, hb₁, hv₃, hv₁]; decide)
  rw [hb₀, hb₁, hbeam₃, hbeam₁] at hmatch
  cases hmatch

end Divisi
