/-
What is left where building stops.

Building goes well, or it stops at a measure that has no chords to make. In either case every
measure that it comes to has its hidden voices erased, with the tags of their groups, and each
before the last has its chords: those that it has whatever follows it. The measure where it stops
keeps the chords that it had, and those after it are not looked at
(`Score.Parsed.building_outcome`).
-/
import Divisi.Proofs.Clearing
import Divisi.Proofs.Frame

namespace Divisi

namespace Chording

variable {syllables : Arena Syllable} {packing : Float} {f : InForce} {stock : Stock} {m : Measure}
  {its pre : List Item} {fault : Fault}

/-! ## One measure -/

/-- Building a measure erases its hidden voices. It has no other chords than it had unless it
goes well. -/
theorem measure_cases (syllables : Arena Syllable) (packing : Float) (f : InForce) (stock : Stock)
    (m : Measure) :
    let b := measure syllables packing f stock m
    let erased := Erasing.staves m.number f stock m.staves
    b.stock = erased.stock ∧ b.now.number = m.number ∧ b.now.staves = erased.now ∧
      ∀ fault, b.fault = some fault →
        (∃ breach, fault = .inconsistent m.number breach) ∧ b.now.chords = m.chords := by
  cases hchords : Stream.chords packing f.time.duration (streams
      (Erasing.staves m.number f stock m.staves).stock.groups syllables f
        (Erasing.staves m.number f stock m.staves).now) with
  | error breach =>
    simp only [measure, hchords, true_and, and_true]
    intro fault h
    cases h
    exact ⟨breach, rfl⟩
  | ok chords =>
    simp only [measure, hchords, true_and]
    intro fault h
    cases h

/-! ## Items one after the other -/

theorem length_items (f : InForce) (stock : Stock) (its : List Item) :
    (items syllables packing f stock its).now.length = its.length := by
  induction its generalizing f stock with
  | nil => rfl
  | cons i rest ih =>
    cases i with
    | change c => exact congrArg (· + 1) (ih _ _)
    | measure m =>
      rw [items]
      cases (measure syllables packing f stock m).fault with
      | some fault => rfl
      | none => exact congrArg (· + 1) (ih _ _)

/-- Items that go well are built the same whatever follows them. -/
theorem items_append (h : (items syllables packing f stock pre).fault = none) (rest : List Item) :
    let b := items syllables packing f stock pre
    let o := items syllables packing ((changesOf pre).foldl InForce.apply f) b.stock rest
    items syllables packing f stock (pre ++ rest) =
      { o with now := b.now ++ o.now, events := b.events ++ o.events } := by
  induction pre generalizing f stock with
  | nil => rfl
  | cons i pre ih =>
    cases i with
    | change c =>
      rw [items] at h
      simp only [List.cons_append, items, ih h]
      rfl
    | measure m =>
      rw [items] at h
      cases hm : (measure syllables packing f stock m).fault with
      | some fault => simp only [hm, reduceCtorEq] at h
      | none =>
        simp only [hm] at h
        simp only [List.cons_append, items, hm, ih h, List.append_assoc]
        rfl

/-- Building stops at a measure, with all before it gone well and all after it left alone. -/
theorem items_fault (h : (items syllables packing f stock its).fault = some fault) :
    ∃ pre m rest, its = pre ++ .measure m :: rest ∧
      (items syllables packing f stock pre).fault = none ∧
      let b := items syllables packing f stock pre
      let last := measure syllables packing ((changesOf pre).foldl InForce.apply f) b.stock m
      last.fault = some fault ∧ (items syllables packing f stock its).stock = last.stock ∧
        (items syllables packing f stock its).now = b.now ++ .measure last.now :: rest := by
  induction its generalizing f stock with
  | nil => cases h
  | cons i rest ih =>
    cases i with
    | change c =>
      obtain ⟨pre, m, rest', rfl, hpre, hlast, hstock, hnow⟩ := ih (f := f.apply c) h
      exact ⟨.change c :: pre, m, rest', rfl, hpre, hlast, hstock,
        congrArg (Item.change c :: ·) hnow⟩
    | measure m =>
      cases hm : (measure syllables packing f stock m).fault with
      | some fault' =>
        simp only [items, hm] at h ⊢
        exact ⟨[], m, rest, rfl, rfl, hm.trans h, rfl, rfl⟩
      | none =>
        simp only [items, hm] at h ⊢
        obtain ⟨pre, m', rest', rfl, hpre, hlast, hstock, hnow⟩ := ih h
        refine ⟨.measure m :: pre, m', rest', rfl, ?_⟩
        simp only [items, hm]
        exact ⟨hpre, hlast, hstock, congrArg (Item.measure _ :: ·) hnow⟩

theorem items_clears {s : Score} {ps : List Posting} {vs : List SyllableKey}
    (h : (stock.on s).Stocked Group.Written ((measuresOf its).flatMap Measure.postings ++ ps) vs)
    (hs : ∀ m ∈ measuresOf its, m.Sound) (hf : f.Sound)
    (hc : ∀ c, Item.change c ∈ its → c.settings.Sound)
    (hfault : (items syllables packing f stock its).fault = none) (i : Nat) :
    stock.Clears ((Placed.along i f its).flatMap Placed.hidden)
      (items syllables packing f stock its).stock := by
  induction its generalizing f stock ps i with
  | nil => exact .refl _
  | cons item rest ih =>
    have hrest : ∀ c, Item.change c ∈ rest → c.settings.Sound := fun c h => hc c (by simp [h])
    cases item with
    | change c => exact ih h hs (hf.apply (hc c (by simp))) hrest hfault (i + 1)
    | measure m =>
      simp only [measuresOf_measure, List.mem_cons, forall_eq_or_imp, List.flatMap_cons] at h hs
      rw [List.append_assoc] at h
      have hfirst := Erasing.staves_clears h hs.1.staves hf.duration_pos
      obtain ⟨hstocked, -, -⟩ := Erasing.staves_shows h hs.1.staves hf.duration_pos
      obtain ⟨hstock, -⟩ := measure_cases syllables packing f stock m
      rw [← hstock] at hfirst hstocked
      have hperm : ((Erasing.staves m.number f stock m.staves).now.flatMap
          (Stave.postings m.number) ++ ((measuresOf rest).flatMap Measure.postings ++ ps)).Perm
            ((measuresOf rest).flatMap Measure.postings ++
              ((Erasing.staves m.number f stock m.staves).now.flatMap
                (Stave.postings m.number) ++ ps)) := List.perm_append_comm_assoc _ _ _
      rw [items] at hfault ⊢
      cases hm : (measure syllables packing f stock m).fault with
      | some fault => simp only [hm, reduceCtorEq] at hfault
      | none =>
        simp only [hm] at hfault ⊢
        exact hfirst.trans (ih (hstocked.perm hperm (.refl _)) hs.2 hf hrest hfault (i + 1))

end Chording

/-! ## What is kept -/

section Kept

variable {f : InForce} {measure staff v : Nat} {groups groups' : Arena Group} {ss ss' : List Stave}

theorem Erasing.Shows.unvoiced (h : Erasing.Shows f measure groups groups' ss ss') :
    ss'.map (fun st => { st with voices := .all none }) =
      ss.map fun st => { st with voices := .all none } := by
  induction h with
  | nil => rfl
  | cons hs _ ih => rw [List.map_cons, List.map_cons, ih, hs.staff, hs.verses]

theorem Erasing.Shows.list?_kept (h : Erasing.Shows f measure groups groups' ss ss')
    (hv : Erasing.hides f staff v = false) :
    (ss'.find? (·.staff == staff)).bind (·.list? v) =
      (ss.find? (·.staff == staff)).bind (·.list? v) := by
  induction h with
  | nil => rfl
  | @cons st st' _ _ hs _ ih =>
    rw [List.find?_cons, List.find?_cons, hs.staff]
    by_cases hstaff : st.staff = staff
    · subst hstaff
      simp [(hs.kept v hv).1]
    · simp only [beq_eq_false_iff_ne.mpr hstaff]
      exact ih

theorem Chording.Raises.outline {syllables : Arena Syllable} {packing : Float}
    {its its' : List Item} {fault : Option Fault}
    (h : Raises syllables packing groups groups' f its its' fault) :
    its'.map Item.outline = its.map Item.outline := by
  have hmeasure : ∀ {f : InForce} {m m' : Measure}, m'.number = m.number →
      Erasing.Shows f m.number groups groups' m.staves m'.staves →
      (Item.measure m').outline = (Item.measure m).outline := fun hnumber hshows => by
    rw [Item.outline, Item.outline, hshows.unvoiced, hnumber]
  induction h with
  | nil => rfl
  | change _ ih => rw [List.map_cons, List.map_cons, ih]
  | built hnumber hshows _ _ ih => rw [List.map_cons, List.map_cons, ih, hmeasure hnumber hshows]
  | failed hnumber hshows => rw [List.map_cons, List.map_cons, hmeasure hnumber hshows]

end Kept

namespace Score

/-- What building makes of items in front of what the score has in its arenas. -/
def buildItems (s : Score) (its : List Item) : Chording.Built (List Item) :=
  Chording.items s.syllables s.header.options.packing .start
    { groups := s.groups, tags := s.tags } its

/-- The measures `reached` have had their hidden voices erased: the groups of these are gone, and
the tags that named one of them, and nothing else is. -/
structure Loses (s t : Score) (reached : List Placed) : Prop where
  gone : ∀ k ∈ reached.flatMap Placed.hidden, t.groups.get? k = none
  kept : ∀ k g, s.groups.get? k = some g → k ∉ reached.flatMap Placed.hidden →
    t.groups.get? k = some g
  tags : t.tags = s.tags.filter fun tag => tag.2.group ∉ reached.flatMap Placed.hidden

/-- Building has stopped at the measure `p`. -/
structure Halts (s t : Score) (before : List Placed) (p : Placed) (after : List Placed) :
    Prop where
  earlier : ∀ q ∈ before, ∃ m, t.measureAt? q.item = some m ∧ q.Built s t.groups m
  /-- What comes first is built like that whatever follows it. -/
  anyway : ∀ rest : List Item,
    { s with items := s.items.take p.item ++ rest }.buildChords.now.items.take p.item =
      t.items.take p.item
  /-- With nothing after it, it is built without a fault. -/
  alone : { s with items := s.items.take p.item }.buildChords.fault = none
  stopped : ∃ m, t.measureAt? p.item = some m ∧ m.number = p.measure.number ∧
    m.chords = p.measure.chords ∧
    Erasing.Shows p.inForce p.measure.number s.groups t.groups p.measure.staves m.staves
  later : t.items.drop (p.item + 1) = s.items.drop (p.item + 1)
  laterGroups : ∀ q ∈ after, SameAt s.groups t.groups (q.measure.postings.map (·.key))
  loses : s.Loses t (before ++ [p])

theorem buildChords_fault {s : Score} {fault : Fault} (h : s.buildChords.fault = some fault) :
    ∃ pre m rest, s.items = pre ++ .measure m :: rest ∧ (s.buildItems pre).fault = none ∧
      let last := Chording.measure s.syllables s.header.options.packing
        ((changesOf pre).foldl InForce.apply .start) (s.buildItems pre).stock m
      last.fault = some fault ∧ s.buildChords.stock = last.stock ∧
        s.buildChords.now.items = (s.buildItems pre).now ++ .measure last.now :: rest :=
  Chording.items_fault h

theorem take_buildItems {s : Score} {pre : List Item} (h : (s.buildItems pre).fault = none)
    (rest : List Item) :
    (s.buildItems (pre ++ rest)).now.take pre.length = (s.buildItems pre).now := by
  have hnow := congrArg Chording.Built.now (Chording.items_append h rest)
  exact (congrArg (List.take pre.length) hnow).trans
    (List.take_left' (Chording.length_items _ _ _))

namespace Sound

variable {s : Score} {fits : Group → Prop} {p q : Placed} {k : GroupKey} {staff v : Nat}
  {list : List GroupKey} {reached : List Placed}

theorem layer_of_hidden (h : s.Sound fits) (hp : p ∈ s.placed) (hk : k ∈ p.hidden) :
    ∃ staff v list, Erasing.hides p.inForce staff v = true ∧
      s.list? ⟨p.item, staff, v⟩ = some list ∧ k ∈ list := by
  obtain ⟨st, hst, v, list, hv, hl, hk⟩ := Placed.mem_hidden.mp hk
  have hstave := Measure.stave?_of_mem (h.measures _ (Placed.measure_mem hp)).ascending hst
  exact ⟨st.staff, v, list, hv,
    list?_eq_some.mpr ⟨_, st, Placed.measureAt?_item hp, hstave, hl⟩, hk⟩

theorem layer_of_posting (h : s.Sound fits) (hp : p ∈ s.placed)
    (hk : k ∈ p.measure.postings.map (·.key)) :
    ∃ staff v list, s.list? ⟨p.item, staff, v⟩ = some list ∧ k ∈ list := by
  obtain ⟨posting, hposting, rfl⟩ := List.mem_map.mp hk
  obtain ⟨st, hst, hposting⟩ := List.mem_flatMap.mp hposting
  obtain ⟨-, -, list, hlist, hkl⟩ := Stave.mem_postings.mp hposting
  have hstave := Measure.stave?_of_mem (h.measures _ (Placed.measure_mem hp)).ascending hst
  exact ⟨st.staff, posting.voice, list,
    list?_eq_some.mpr ⟨_, st, Placed.measureAt?_item hp, hstave, hlist⟩, hkl⟩

/-- A group in the list of a voice that is not to hide, or is not of this measure, is not to
hide. -/
theorem not_hidden (h : s.Sound fits) (hp : p ∈ s.placed) (hq : q ∈ s.placed)
    (hlist : s.list? ⟨q.item, staff, v⟩ = some list) (hk : k ∈ list)
    (hv : q = p → Erasing.hides q.inForce staff v = false) : k ∉ p.hidden := fun hmem => by
  obtain ⟨staff', v', list', hhides, hlist', hk'⟩ := h.layer_of_hidden hp hmem
  obtain ⟨hitem, rfl, rfl⟩ := Layer.mk.inj (h.layer_unique hlist hk hlist' hk')
  obtain rfl := Placed.eq_of_item hq hp hitem
  rw [hv rfl] at hhides
  cases hhides

theorem loses_of_clears (h : s.Sound fits) (hreached : ∀ p ∈ reached, p ∈ s.placed) {t : Score}
    (hclears : Stock.Clears (reached.flatMap Placed.hidden)
      { groups := s.groups, tags := s.tags } { groups := t.groups, tags := t.tags }) :
    s.Loses t reached := by
  refine ⟨fun k hk => ?_, fun k g hg hk => ?_, hclears.tags⟩
  · obtain ⟨p, hp, hkp⟩ := List.mem_flatMap.mp hk
    obtain ⟨staff, v, list, -, hlist, hkl⟩ := h.layer_of_hidden (hreached p hp) hkp
    obtain ⟨g, m, hg, -⟩ := h.get?_of_mem hlist hkl
    exact (hclears.get k (Arena.lt_size_of_get? hg)).trans (if_pos hk)
  · exact (hclears.get k (Arena.lt_size_of_get? hg)).trans ((if_neg hk).trans hg)

/-- The state in which building comes to a measure. -/
theorem comes_to (h : s.Sound Group.Written) {pre rest : List Item} {m : Measure}
    (hits : s.items = pre ++ .measure m :: rest) (hpre : (s.buildItems pre).fault = none) :
    (∀ q ∈ Placed.along 0 .start pre, q.Buildable s) ∧
      (∃ ps, ((s.buildItems pre).stock.on s).Stocked Group.Written (m.postings ++ ps) s.sung) ∧
      SameAt s.groups (s.buildItems pre).stock.groups (m.postings.map (·.key)) ∧
      Stock.Clears ((Placed.along 0 .start pre).flatMap Placed.hidden)
        { groups := s.groups, tags := s.tags } (s.buildItems pre).stock := by
  have hmeasures : s.measures = measuresOf pre ++ m :: measuresOf rest := by
    change measuresOf s.items = _
    rw [hits, measuresOf, List.filterMap_append]
    rfl
  have hsound : ∀ m' ∈ measuresOf pre, m'.Sound := fun m' hm' =>
    h.measures m' (hmeasures ▸ List.mem_append_left _ hm')
  have hchanges : ∀ c, Item.change c ∈ pre → c.settings.Sound := fun c hc =>
    h.changes c (hits ▸ List.mem_append_left _ hc)
  have hstocked : (Stock.on { groups := s.groups, tags := s.tags } s).Stocked Group.Written
      ((measuresOf pre).flatMap Measure.postings ++
        (m.postings ++ (measuresOf rest).flatMap Measure.postings)) s.sung := by
    have hpostings := h.stocked
    rw [postings, hmeasures, List.flatMap_append, List.flatMap_cons] at hpostings
    exact hpostings
  obtain ⟨hraises, hleft, hothers⟩ := Chording.items_raises s.syllables s.header.options.packing
    hstocked hsound InForce.Sound.start hchanges .refl
  rw [← buildItems, hpre] at hraises
  refine ⟨?_, ⟨_, hleft.perm (List.perm_append_comm_assoc _ _ _) (.refl _)⟩, ?_,
    Chording.items_clears hstocked hsound InForce.Sound.start hchanges hpre 0⟩
  · rcases hraises.fault_cases hsound 0 with ⟨-, hall⟩ | ⟨_, _, _, _, -, -, -, hfault⟩
    · exact hall
    · cases hfault
  · rw [List.map_append] at hothers
    exact hothers.mono fun _ => List.mem_append_left _

/-- Where building stops, the measure it comes to has its hidden voices erased. -/
theorem halts (h : s.Sound Group.Written) {fault : Fault}
    (hfault : s.buildChords.fault = some fault) : ∃ before p after breach,
      s.placed = before ++ p :: after ∧ fault = .inconsistent p.measure.number breach ∧
      s.Halts s.buildChords.now before p after := by
  obtain ⟨pre, m, rest, hits, hpre, hlast, hstock, hnow⟩ := buildChords_fault hfault
  obtain ⟨hbuildable, ⟨ps, hstocked⟩, hsame, hclears⟩ := h.comes_to hits hpre
  generalize hf : (changesOf pre).foldl InForce.apply .start = f at *
  obtain ⟨hstaves, hnumber, hmstaves, hcases⟩ := Chording.measure_cases s.syllables
    s.header.options.packing f (s.buildItems pre).stock m
  generalize Chording.measure s.syllables s.header.options.packing f (s.buildItems pre).stock m =
    last at *
  obtain ⟨⟨breach, rfl⟩, hchords⟩ := hcases fault hlast
  have hlength : (s.buildItems pre).now.length = pre.length := Chording.length_items _ _ _
  have hplaced : s.placed = Placed.along 0 .start pre ++ ⟨pre.length, f, m⟩ ::
      Placed.along (pre.length + 1) f rest := by
    rw [placed, hits, Placed.along_append, hf, Nat.zero_add]
    rfl
  have hp : (⟨pre.length, f, m⟩ : Placed) ∈ s.placed := by simp [hplaced]
  have hmsound := h.measures m (Placed.measure_mem hp)
  have hduration := (h.inForce _ hp).duration_pos
  have htake : s.items.take pre.length = pre := by rw [hits, List.take_left]
  have hreached : ∀ q ∈ Placed.along 0 .start pre ++ [⟨pre.length, f, m⟩], q ∈ s.placed := by
    intro q hq
    rw [hplaced, List.append_cons]
    exact List.mem_append_left _ hq
  -- the last measure that is looked at
  obtain ⟨-, hshows, -⟩ := Erasing.staves_shows hstocked hmsound.staves hduration
  have hlost := hclears.trans (Erasing.staves_clears hstocked hmsound.staves hduration)
  rw [← hstaves, ← hstock] at hshows hlost
  rw [← hmstaves] at hshows
  have hloses : s.Loses s.buildChords.now (Placed.along 0 .start pre ++ [⟨pre.length, f, m⟩]) := by
    refine h.loses_of_clears hreached ?_
    rw [List.flatMap_append, List.flatMap_singleton]
    exact hlost
  have hat : s.buildChords.now.items[pre.length]? = some (.measure last.now) := by
    rw [hnow, List.getElem?_append_right hlength.le, hlength, Nat.sub_self]
    rfl
  refine ⟨_, _, _, breach, hplaced, rfl, ?_⟩
  constructor
  case earlier =>
    intro q hq
    obtain ⟨first, others, hsplit⟩ := List.append_of_mem hq
    rw [hsplit, List.append_assoc, List.cons_append] at hplaced
    exact h.built_of_buildable hplaced
      (fun r hr => hbuildable r (hsplit ▸ List.mem_append_left _ hr)) (hbuildable q hq)
  case anyway =>
    intro rest'
    change (s.buildItems (s.items.take pre.length ++ rest')).now.take pre.length = _
    rw [htake, take_buildItems hpre, hnow]
    exact (List.take_left' hlength).symm
  case alone =>
    change (s.buildItems (s.items.take pre.length)).fault = none
    rw [htake, hpre]
  case stopped =>
    exact ⟨last.now, by rw [measureAt?, hat], hnumber, hchords, hshows.earlier hsame⟩
  case later =>
    have hdrop : ∀ (its : List Item) (i : Item), its.length = pre.length →
        (its ++ i :: rest).drop (pre.length + 1) = rest := fun its i hi => by
      rw [← hi]
      simp
    exact (hnow ▸ hdrop _ _ hlength).trans (hits ▸ hdrop _ _ rfl).symm
  case laterGroups =>
    intro q hq k hk
    have hqs : q ∈ s.placed := hplaced ▸ List.mem_append_right _ (List.mem_cons_of_mem _ hq)
    obtain ⟨staff, v, list, hlist, hkl⟩ := h.layer_of_posting hqs hk
    obtain ⟨g, -, hg, -⟩ := h.get?_of_mem hlist hkl
    refine (hloses.kept k g hg fun hmem => ?_).trans hg.symm
    obtain ⟨r, hr, hkr⟩ := List.mem_flatMap.mp hmem
    refine h.not_hidden (hreached r hr) hqs hlist hkl (fun heq => ?_) hkr
    -- the measures that were reached stand before
    have hascending := Placed.ascending_along 0 .start s.items
    rw [← placed, hplaced, List.append_cons] at hascending
    exact absurd ((List.pairwise_append.mp hascending).2.2 r hr q hq) (heq ▸ Nat.lt_irrefl _)
  case loses => exact hloses

end Sound

section Spared

variable {s t : Score} {fits : Group → Prop} {p q : Placed} {before after reached : List Placed}
  {staff v : Nat} {list : List GroupKey}

theorem list?_of_shows (hp : p ∈ s.placed) {m : Measure} (hm : t.measureAt? p.item = some m)
    {groups groups' : Arena Group} {number : Nat}
    (hshows : Erasing.Shows p.inForce number groups groups' p.measure.staves m.staves)
    (hv : Erasing.hides p.inForce staff v = false) :
    t.list? ⟨p.item, staff, v⟩ = s.list? ⟨p.item, staff, v⟩ := by
  simp only [list?, hm, Placed.measureAt?_item hp, Option.bind_some]
  exact hshows.list?_kept hv

theorem Loses.spares (hloses : s.Loses t reached) (h : s.Sound fits)
    (hreached : ∀ p ∈ reached, p ∈ s.placed) (hq : q ∈ s.placed)
    (hv : Erasing.hides q.inForce staff v = false)
    (hlist : s.list? ⟨q.item, staff, v⟩ = some list) :
    SameAt s.groups t.groups list := fun k hk => by
  obtain ⟨g, -, hg, -⟩ := h.get?_of_mem hlist hk
  refine (hloses.kept k g hg fun hmem => ?_).trans hg.symm
  obtain ⟨p, hp, hkp⟩ := List.mem_flatMap.mp hmem
  exact h.not_hidden (hreached p hp) hq hlist hk (fun _ => hv) hkp

theorem Halts.list?_kept (h : s.Halts t before p after) (hplaced : s.placed = before ++ p :: after)
    (hq : q ∈ s.placed) (hv : Erasing.hides q.inForce staff v = false) :
    t.list? ⟨q.item, staff, v⟩ = s.list? ⟨q.item, staff, v⟩ := by
  have hwhere := hq
  rw [hplaced, List.mem_append, List.mem_cons] at hwhere
  obtain hbefore | rfl | hafter := hwhere
  · obtain ⟨m, hm, hbuilt⟩ := h.earlier q hbefore
    exact list?_of_shows hq hm hbuilt.shows hv
  · obtain ⟨m, hm, -, -, hshows⟩ := h.stopped
    exact list?_of_shows hq hm hshows hv
  · -- it stands behind the measure where building stopped
    have hascending := Placed.ascending_along 0 .start s.items
    rw [← placed, hplaced, List.append_cons] at hascending
    obtain ⟨n, hn⟩ := Nat.exists_eq_add_of_le
      ((List.pairwise_append.mp hascending).2.2 p (by simp) q hafter)
    have hitem := congrArg (·[n]?) h.later
    simp only [List.getElem?_drop] at hitem
    simp only [list?, measureAt?, hn, hitem]

end Spared

/-- **What building has done, whether or not it stops.** Of the settings, the staffs, the verses
and the syllables nothing is changed, nor any voice that is shown or any voice of a staff that is
not: neither its list nor a group in it. If building goes well, each measure has its chords. If it
stops, it does so at a measure that has the chords it had, with its hidden voices erased; the
measures before have the chords that they have whatever follows them, and those after are as they
were. Either way the tags lost are those of the groups of the voices erased. -/
theorem Parsed.building_outcome {s : Score} (h : s.Parsed) :
    let b := s.buildChords
    b.now.header = s.header ∧ b.now.syllables = s.syllables ∧
      b.now.items.map Item.outline = s.items.map Item.outline ∧
      (∀ p ∈ s.placed, ∀ staff v,
        p.inForce.staffVisible staff = false ∨ p.inForce.voiceVisible staff v = true →
          b.now.list? ⟨p.item, staff, v⟩ = s.list? ⟨p.item, staff, v⟩ ∧
            ∀ list, s.list? ⟨p.item, staff, v⟩ = some list →
              SameAt s.groups b.now.groups list) ∧
      (b.fault = none → (∀ p ∈ s.placed, ∃ m, b.now.measureAt? p.item = some m ∧
        p.Built s b.now.groups m) ∧ s.Loses b.now s.placed) ∧
      ∀ fault, b.fault = some fault → ∃ before p after breach, s.placed = before ++ p :: after ∧
        fault = .inconsistent p.measure.number breach ∧ s.Halts b.now before p after := by
  have hs := h.sound
  have hwell : s.buildChords.fault = none → (∀ p ∈ s.placed, ∃ m,
      s.buildChords.now.measureAt? p.item = some m ∧ p.Built s s.buildChords.now.groups m) ∧
        s.Loses s.buildChords.now s.placed := fun hnone => by
    have hstocked : (Stock.on { groups := s.groups, tags := s.tags } s).Stocked Group.Written
        (s.postings ++ []) s.sung := (List.append_nil s.postings).symm ▸ hs.stocked
    exact ⟨fun p hp => hs.built_at hnone hp, hs.loses_of_clears (fun _ hp => hp)
      (Chording.items_clears hstocked hs.measures InForce.Sound.start hs.changes hnone 0)⟩
  refine ⟨rfl, rfl, hs.buildChords.1.outline, fun p hp staff v hv => ?_, hwell,
    fun fault => hs.halts⟩
  replace hv : Erasing.hides p.inForce staff v = false := by
    rcases hv with hv | hv <;> simp [Erasing.hides, hv]
  cases hfault : s.buildChords.fault with
  | none =>
    obtain ⟨hbuilt, hloses⟩ := hwell hfault
    obtain ⟨m, hm, hp'⟩ := hbuilt p hp
    exact ⟨list?_of_shows hp hm hp'.shows hv,
      fun list hlist => hloses.spares hs (fun _ hq => hq) hp hv hlist⟩
  | some fault =>
    obtain ⟨before, q, after, breach, hplaced, -, hhalts⟩ := hs.halts hfault
    refine ⟨hhalts.list?_kept hplaced hp hv,
      fun list hlist => hhalts.loses.spares hs (fun r hr => ?_) hp hv hlist⟩
    rw [hplaced, List.append_cons]
    exact List.mem_append_left _ hr

end Score

/-- Three measures with a voice hidden, the other one too short in the second. -/
def shortSecond : String :=
  "music:\n- params: {staff: 1, voice: 1, visible: false}\n- measure:\n  - voices:\n     1:\n" ++
  "     - time: 1\n       notes: [g5]\n       tag: a\n     2:\n     - time: 1\n" ++
  "       notes: [c4]\n       tag: b\n- measure:\n  - voices:\n     1:\n     - time: 1\n" ++
  "       notes: [g5]\n       tag: c\n     2:\n     - time: 2\n       notes: [c4]\n" ++
  "- measure:\n  - voices:\n     1:\n     - time: 1\n       notes: [g5]\n       tag: d\n" ++
  "     2:\n     - time: 1\n       notes: [c4]\n"

/-- Building stops at the second, and the tag in the third is still there. -/
theorem building_outcome_of_shortSecond : ∃ s : Score, s.Parsed ∧ ∃ first second third,
    s.placed = [first, second, third] ∧
      s.buildChords.fault = some (.inconsistent 2 (.endsAt (1 / 2) 1)) ∧
      s.Halts s.buildChords.now [first] second [third] ∧
      s.tags.map Prod.fst = ["a", "b", "c", "d"] ∧
      s.buildChords.now.tags.map Prod.fst = ["b", "d"] := by
  obtain ⟨s, hs, hfault, hnumbers, htags⟩ := Score.exists_of_spelled shortSecond
    (.append (.append (.append (.append (.append (.ofList _) (.ofList _)) (.ofList _)) (.ofList _))
      (.ofList _)) (.ofList _))
    (P := fun s => s.buildChords.fault = some (.inconsistent 2 (.endsAt (1 / 2) 1)) ∧
      s.placed.map (·.measure.number) = [1, 2, 3] ∧ s.tags.map Prod.fst = ["a", "b", "c", "d"] ∧
      s.buildChords.now.tags.map Prod.fst = ["b", "d"])
    (by decide +kernel)
  obtain ⟨-, -, -, -, -, hhalts⟩ := Score.Parsed.building_outcome (.of_text hs)
  obtain ⟨before, p, after, breach, hplaced, hsame, hp⟩ := hhalts _ hfault
  -- the second of three is the only one of its number
  rw [hplaced, List.map_append, List.map_cons, ← (Fault.inconsistent.inj hsame).1] at hnumbers
  match before, after with
  | [first], [third] => exact ⟨s, .of_text hs, first, p, third, hplaced, hfault, hp, htags⟩
  | [_], [] | [_], _ :: _ :: _ | [], _ | _ :: _ :: _, _ =>
    simp [List.append_eq_singleton_iff] at hnumbers

end Divisi
