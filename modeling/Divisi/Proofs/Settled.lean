/-
Settled plans.

Settling withdraws merges until none fails, so a merge that is left holds: the way from
its two groups leads, as far as something links it on, through hands that all make the
merge (`Planned.step_of_makes`). Merges are only ever withdrawn, so a merge that is left
was chosen when its hand was planned.
-/
import Divisi.Plan
import Divisi.Proofs.Lines

namespace Divisi

namespace Planning

variable {s : Score} {l : Layout} {byMeasure : List Bool} {plans : List Plan}

/-! ## The end of settling -/

theorem failing_settle (s : Score) (l : Layout) (byMeasure : List Bool) (plans : List Plan) :
    failing s l byMeasure (settle s l byMeasure plans).plans = [] := by
  induction plans using settle.induct s l byMeasure with
  | case1 plans h =>
    rw [settle, if_pos h]
    exact h
  | case2 plans h ih =>
    rw [settle, if_neg h]
    exact ih

theorem holds_of_mem {n : Nat} {plan : Plan} {m : Merge}
    (hplan : (settle s l byMeasure plans).plans[n]? = some plan) (hm : m ∈ plan) :
    holds s l byMeasure (settle s l byMeasure plans).plans.toArray n m = true := by
  by_contra hfails
  have hmem : (n, m) ∈ failing s l byMeasure (settle s l byMeasure plans).plans := by
    refine List.mem_flatMap.mpr ⟨(plan, n), List.mk_mem_zipIdx_iff_getElem?.mpr hplan, ?_⟩
    exact List.mem_map_of_mem (List.mem_filter.mpr ⟨hm, by simpa using hfails⟩)
  rw [failing_settle] at hmem
  cases hmem

theorem prune_sublist (s : Score) (l : Layout) (byMeasure : List Bool) (plans : List Plan) :
    List.Forall₂ List.Sublist (prune s l byMeasure plans) plans := by
  suffices h : ∀ (p : Nat → Merge → Bool) (n : Nat), List.Forall₂ List.Sublist
      ((plans.zipIdx n).map fun x => x.1.filter (p x.2)) plans from h _ 0
  intro p
  induction plans with
  | nil => exact fun _ => .nil
  | cons plan rest ih => exact fun n => .cons List.filter_sublist (ih (n + 1))

theorem sublists_trans {α : Type} {xs ys zs : List (List α)}
    (h : List.Forall₂ List.Sublist xs ys) (h' : List.Forall₂ List.Sublist ys zs) :
    List.Forall₂ List.Sublist xs zs := by
  induction h generalizing zs with
  | nil => exact h'
  | cons hxy _ ih =>
    cases h' with
    | cons hyz hrest => exact .cons (hxy.trans hyz) (ih hrest)

theorem settle_sublist (s : Score) (l : Layout) (byMeasure : List Bool) (plans : List Plan) :
    List.Forall₂ List.Sublist (settle s l byMeasure plans).plans plans := by
  induction plans using settle.induct s l byMeasure with
  | case1 plans h =>
    rw [settle, if_pos h]
    exact List.forall₂_same.mpr fun _ _ => .refl _
  | case2 plans h ih =>
    rw [settle, if_neg h]
    exact sublists_trans ih (prune_sublist s l byMeasure plans)

/-- Where each merge of the plans holds or fails as elsewhere, and does so again once pruned,
settling goes as it does elsewhere. -/
theorem settle_congr {s' : Score} {l' : Layout} {byMeasure' : List Bool} {P : List Plan → Prop}
    (hprune : ∀ plans, P plans → P (prune s l byMeasure plans))
    (hholds : ∀ plans, P plans → ∀ (n : Nat) plan, plans[n]? = some plan → ∀ m ∈ plan,
      holds s l byMeasure plans.toArray n m = holds s' l' byMeasure' plans.toArray n m)
    (h : P plans) : settle s l byMeasure plans = settle s' l' byMeasure' plans := by
  have hfilter : ∀ plans, P plans → ∀ x ∈ plans.zipIdx, ∀ m ∈ x.1,
      holds s l byMeasure plans.toArray x.2 m = holds s' l' byMeasure' plans.toArray x.2 m :=
    fun plans h x hx => hholds plans h x.2 x.1 (List.mem_zipIdx_iff_getElem?.mp hx)
  have hfailing : ∀ plans, P plans →
      failing s l byMeasure plans = failing s' l' byMeasure' plans := fun plans h =>
    List.flatMap_congr fun x hx => congrArg (List.map _)
      (List.filter_congr fun m hm => by rw [hfilter plans h x hx m hm])
  have hpruned : ∀ plans, P plans → prune s l byMeasure plans = prune s' l' byMeasure' plans :=
    fun plans h => List.map_congr_left fun x hx => List.filter_congr (hfilter plans h x hx)
  induction plans using settle.induct s l byMeasure with
  | case1 plans hnone =>
    conv_lhs => rw [settle, if_pos hnone]
    conv_rhs => rw [settle, if_pos ((hfailing plans h).symm.trans hnone)]
  | case2 plans hsome ih =>
    conv_lhs => rw [settle, if_neg hsome, ih (hprune plans h), hpruned plans h, hfailing plans h]
    conv_rhs => rw [settle, if_neg ((hfailing plans h).symm.trans_ne hsome)]

end Planning

namespace Layout

variable {fits : Group → Prop} {s : Score} {l : Layout} {staff voice n : Nat} {k : GroupKey}
  {x y : Stop}

/-! ## One step along a way -/

theorem untilGap_cons (x : Stop) (rest : List Stop) :
    ∃ rest', untilGap (x :: rest) = x :: rest' ∧ ∀ y ∈ rest', y ∈ rest := by
  induction rest generalizing x with
  | nil => exact ⟨[], rfl, by simp⟩
  | cons y rest ih =>
    rw [untilGap]
    split
    · obtain ⟨rest', heq, hmem⟩ := ih y
      refine ⟨y :: rest', by rw [heq], fun z hz => ?_⟩
      rcases List.mem_cons.mp hz with rfl | hz
      · exact List.mem_cons_self
      · exact List.mem_cons_of_mem _ (hmem z hz)
    · exact ⟨[], rfl, by simp⟩

theorem mem_untilGap {stops : List Stop} (h : x ∈ untilGap stops) : x ∈ stops := by
  cases stops with
  | nil => exact h
  | cons y rest =>
    obtain ⟨rest', heq, hmem⟩ := untilGap_cons y rest
    rw [heq] at h
    exact List.mem_cons.mpr ((List.mem_cons.mp h).imp id (hmem x))

/-- The way from a group begins with its own stop, and all its stops are on the line. -/
theorem LaidOut.way_cons (hl : l.LaidOut s) (hs : s.Sound fits) (hk : k ∈ s.beatsAt staff voice n)
    (heading : Heading) : ∃ x rest, l.way heading k = x :: rest ∧
      x ∈ line s l.hands staff voice ∧ x.key = k ∧ ∀ y ∈ rest, y ∈ line s l.hands staff voice := by
  obtain ⟨x, hx, rfl, -⟩ := exists_stop hs l.hands hk
  obtain ⟨stops, hstops, hon⟩ := exists_wayOn (line_nodup l.hands staff voice hs) hx heading
  obtain ⟨rest, hrest, hmem⟩ := untilGap_cons x stops
  rw [hl.way_eq hs hk, hstops]
  exact ⟨x, rest, hrest, hx, rfl, fun y hy => hon y (hmem y hy)⟩

/-- Where one of two ways is linked on, both go on into one hand that is accepted, or,
where neither does, both end. -/
theorem follow_step {heading : Heading} {byMeasure : Bool} {accept : Nat → Bool} {d e : Stop}
    {ds es : List Stop} (h : follow s heading byMeasure accept (d :: ds) (e :: es) = true)
    (hlinked : linked s heading byMeasure d ds.head? = true ∨
      linked s heading byMeasure e es.head? = true) :
    (ds = [] ∧ es = []) ∨ ∃ d' e' n, ds.head? = some d' ∧ es.head? = some e' ∧
      d'.hand = some n ∧ e'.hand = some n ∧ accept n = true := by
  rw [follow, if_pos (by simpa using hlinked)] at h
  cases ds with
  | nil =>
    cases es with
    | nil => exact .inl ⟨rfl, rfl⟩
    | cons e' es => cases h
  | cons d' ds =>
    cases es with
    | nil => cases h
    | cons e' es =>
      simp only [List.head?_cons] at h
      cases hd : d'.hand with
      | none => simp [hd] at h
      | some n =>
        cases he : e'.hand with
        | none => simp [hd, he] at h
        | some n' =>
          simp only [hd, he, Bool.and_eq_true, beq_iff_eq] at h
          exact .inr ⟨d', e', n, rfl, rfl, hd, h.1.1 ▸ he, h.1.2⟩

theorem exists_of_holds {h : Hand} (hk : h.holds k = true) : ∃ v, h.voice? v = some k := by
  simp only [Hand.holds, Bool.or_eq_true, beq_iff_eq] at hk
  rcases hk with (hv | hv) | hv
  · exact ⟨1, by simp [Hand.voice?, PerVoice.get?, hv]⟩
  · exact ⟨2, by simp [Hand.voice?, PerVoice.get?, hv]⟩
  · exact ⟨3, by simp [Hand.voice?, PerVoice.get?, hv]⟩

theorem LaidOut.voice?_of_hand (hl : l.LaidOut s) (hs : s.Sound fits) (hc : s.Charted)
    (hy : y ∈ line s l.hands staff voice) (hhand : y.hand = some n) :
    ∃ h, l.hands[n]? = some h ∧ h.staff = staff ∧ h.voice? voice = some y.key := by
  have hfind : handOf? l.hands y.key = some n := by
    rw [← (mem_lineFrom (i := 0) hy).2]
    exact hhand
  obtain ⟨hn, hholds, -⟩ := List.findIdx?_eq_some_iff_getElem.mp hfind
  obtain ⟨v, hv⟩ := exists_of_holds hholds
  obtain ⟨p, hp, c, g, list, -, hbegins, hstaff, hvoice⟩ :=
    hl.begins hs hc (List.getElem_mem hn) hv
  obtain ⟨g', hg', hstaff', hvoice'⟩ := hs.get?_of_beatsAt (mem_beatsAt_of_line hs hy)
  cases hbegins.get.symm.trans hg'
  exact ⟨_, List.getElem?_eq_getElem hn, hstaff.symm.trans hstaff', hvoice'.symm.trans hvoice ▸ hv⟩

theorem LaidOut.beatsAt_of_voice? (hl : l.LaidOut s) (hs : s.Sound fits) (hc : s.Charted)
    {h : Hand} (hh : h ∈ l.hands) (hk : h.voice? voice = some k) :
    ∃ n p, s.placed[n]? = some p ∧ h.item = p.item ∧ k ∈ s.beatsAt h.staff voice n := by
  obtain ⟨p, hp, c, g, list, hseated, hbegins, hstaff, hvoice⟩ := hl.begins hs hc hh hk
  obtain ⟨m, st, hm, hst, hlist⟩ := Score.list?_eq_some.mp hbegins.layer
  cases (Placed.measureAt?_item hp).symm.trans hm
  obtain ⟨n, hn⟩ := List.getElem?_of_mem hp
  refine ⟨n, p, hn, hseated.item, Score.mem_beatsAt.mpr ⟨p.measure, st, list,
    Score.getElem?_measures hn, hstaff ▸ hst, hvoice ▸ hlist, hbegins.mem, ?_⟩⟩
  rw [Arena.get_of_get? hbegins.get]
  exact hbegins.grace

theorem LaidOut.item_eq_iff (hl : l.LaidOut s) (hs : s.Sound fits) (hc : s.Charted) {h : Hand}
    {p : Placed} (hh : h ∈ l.hands) (hp : s.placed[n]? = some p) (hk : h.voice? voice = some k) :
    h.item = p.item ↔ k ∈ s.beatsAt h.staff voice n := by
  obtain ⟨i, q, hq, hitem, hon⟩ := hl.beatsAt_of_voice? hs hc hh hk
  constructor
  · intro heq
    have hi : i = n := by
      refine (List.getElem?_inj ?_ (Placed.nodup_items s)).mp ?_
      · rw [List.length_map]
        exact (List.getElem?_eq_some_iff.mp hq).1
      · rw [List.getElem?_map, List.getElem?_map, hq, hp, Option.map_some, Option.map_some,
          ← hitem, heq]
    exact hi ▸ hon
  · intro hon'
    cases ordinal_unique hs hon hon'
    cases hq.symm.trans hp
    exact hitem

end Layout

/-! ## Merges along linked hands -/

namespace Planned

variable {fits : Group → Prop} {s : Score} {l : Layout} {tables : List Affinity} {n : Nat}
  {m : Merge} {h : Hand} {dest src : GroupKey}

/-- Merge `m` is made in hand `n`. -/
def Makes (p : Planned) (n : Nat) (m : Merge) : Prop := ∃ plan, p.plans[n]? = some plan ∧ m ∈ plan

/-- Hand `n` accepts the merge, as settling looks it up. -/
def accepts (p : Planned) (m : Merge) (n : Nat) : Bool := (p.plans.toArray[n]?.getD []).contains m

theorem makes_of_accepts {p : Planned} (h : p.accepts m n = true) : p.Makes n m := by
  unfold accepts at h
  rw [List.getElem?_toArray] at h
  cases hplan : p.plans[n]? with
  | none => simp [hplan] at h
  | some plan => exact ⟨plan, hplan, by simpa [hplan] using h⟩

/-- A planned merge has both its groups, and the ways from them are followed. -/
theorem follow_of_makes (hm : (l.plan s tables).Makes n m) :
    ∃ h dest src, l.hands[n]? = some h ∧ h.voice? m.dest = some dest ∧ h.voice? m.src = some src ∧
      ∀ heading, Layout.follow s heading (l.byMeasure[n]?.getD false) ((l.plan s tables).accepts m)
        (l.way heading dest) (l.way heading src) = true := by
  obtain ⟨plan, hplan, hm⟩ := hm
  have hholds := Planning.holds_of_mem hplan hm
  unfold Planning.holds at hholds
  split at hholds
  next dest src hdest hsrc =>
    obtain ⟨h, hh, hdest⟩ := Option.bind_eq_some_iff.mp hdest
    obtain ⟨h', hh', hsrc⟩ := Option.bind_eq_some_iff.mp hsrc
    cases hh.symm.trans hh'
    refine ⟨h, dest, src, hh, hdest, hsrc, fun heading => ?_⟩
    exact List.all_eq_true.mp hholds heading (by cases heading <;> simp)
  next => cases hholds

end Planned

namespace Layout

variable {fits : Group → Prop} {s : Score} {l : Layout} {staff voice n : Nat} {k : GroupKey}

/-- Something in the music leads on from a group, or leads to it from the group before. -/
def Leads (s : Score) (l : Layout) (heading : Heading) (k : GroupKey) : Prop :=
  match heading with
  | .forth => (s.groups.get k).continuesOnward = true
  | .back => ∃ k', l.prev? k = some k' ∧ (s.groups.get k').continuesOnward = true

theorem neighbour?_of_way {l : Layout} {heading : Heading} {k : GroupKey} {x : Stop}
    {rest : List Stop} (h : l.way heading k = x :: rest) :
    l.neighbour? heading k = rest.head?.map (·.key) := by
  rw [neighbour?, h, List.getElem?_cons_succ, List.head?_eq_getElem?]

/-- Something links the way from a group to the next stop. -/
def LinkedFrom (s : Score) (l : Layout) (heading : Heading) (byMeasure : Bool) (k : GroupKey) :
    Prop :=
  ∃ x rest, l.way heading k = x :: rest ∧ linked s heading byMeasure x rest.head? = true

theorem LaidOut.linkedFrom_of_leads {heading : Heading} (hl : l.LaidOut s) (hs : s.Sound fits)
    (hk : k ∈ s.beatsAt staff voice n) (h : Leads s l heading k) (byMeasure : Bool) :
    l.LinkedFrom s heading byMeasure k := by
  obtain ⟨x, rest, hway, -, hx, -⟩ := hl.way_cons hs hk heading
  refine ⟨x, rest, hway, ?_⟩
  cases heading with
  | forth => simp [linked, leadsOn, hx, show (s.groups.get k).continuesOnward = true from h]
  | back =>
    obtain ⟨k', hk', hleads⟩ := h
    rw [prev?, neighbour?_of_way hway] at hk'
    obtain ⟨y, hy, rfl⟩ := Option.map_eq_some_iff.mp hk'
    simp [linked, hy, leadsOn, hleads]

end Layout

namespace Planned

variable {fits : Group → Prop} {s : Score} {l : Layout} {tables : List Affinity} {n n' : Nat}
  {m : Merge} {h h' : Hand} {dest src : GroupKey}

/-- Where a planned merge is linked on, its two groups go on into one hand that makes the merge
too, or else neither of them goes on. -/
theorem step_of_linked (hl : l.LaidOut s) (hs : s.Sound fits) (hc : s.Charted)
    (hm : (l.plan s tables).Makes n m) (hn : l.hands[n]? = some h)
    (hdest : h.voice? m.dest = some dest) (hsrc : h.voice? m.src = some src) {heading : Heading}
    (hlinked : l.LinkedFrom s heading (l.byMeasure[n]?.getD false) dest ∨
      l.LinkedFrom s heading (l.byMeasure[n]?.getD false) src) :
    (l.neighbour? heading dest = none ∧ l.neighbour? heading src = none) ∨
      ∃ n' h' dest' src', l.neighbour? heading dest = some dest' ∧
        l.neighbour? heading src = some src' ∧ l.hands[n']? = some h' ∧ h'.staff = h.staff ∧
        h'.voice? m.dest = some dest' ∧ h'.voice? m.src = some src' ∧
        (l.plan s tables).Makes n' m := by
  obtain ⟨h₁, dest₁, src₁, hn₁, hdest₁, hsrc₁, hfollow⟩ := follow_of_makes hm
  cases hn.symm.trans hn₁
  cases hdest.symm.trans hdest₁
  cases hsrc.symm.trans hsrc₁
  have hh := List.mem_of_getElem? hn
  obtain ⟨i, -, -, -, hdestOn⟩ := hl.beatsAt_of_voice? hs hc hh hdest
  obtain ⟨j, -, -, -, hsrcOn⟩ := hl.beatsAt_of_voice? hs hc hh hsrc
  obtain ⟨d, ds, hway, -, -, hds⟩ := hl.way_cons hs hdestOn heading
  obtain ⟨e, es, hway', -, -, hes⟩ := hl.way_cons hs hsrcOn heading
  have hlinked : Layout.linked s heading (l.byMeasure[n]?.getD false) d ds.head? = true ∨
      Layout.linked s heading (l.byMeasure[n]?.getD false) e es.head? = true := by
    rcases hlinked with ⟨x, rest, hx, hlinked⟩ | ⟨x, rest, hx, hlinked⟩
    · cases hway.symm.trans hx
      exact .inl hlinked
    · cases hway'.symm.trans hx
      exact .inr hlinked
  have hfollow := hfollow heading
  rw [hway, hway'] at hfollow
  rw [Layout.neighbour?_of_way hway, Layout.neighbour?_of_way hway']
  rcases Layout.follow_step hfollow hlinked with
    ⟨rfl, rfl⟩ | ⟨d', e', n', hds', hes', hd', he', haccepts⟩
  · exact .inl ⟨rfl, rfl⟩
  · obtain ⟨h', hn', hstaff, hv⟩ := hl.voice?_of_hand hs hc (hds d' (List.mem_of_mem_head? hds')) hd'
    obtain ⟨h'', hn'', -, hv'⟩ := hl.voice?_of_hand hs hc (hes e' (List.mem_of_mem_head? hes')) he'
    cases hn'.symm.trans hn''
    refine .inr ⟨n', h', d'.key, e'.key, by rw [hds']; rfl, by rw [hes']; rfl, hn', hstaff, hv, hv',
      makes_of_accepts haccepts⟩

/-- Where something links a planned merge on, its two groups go on into one hand that makes
the merge too, or else neither of them goes on. -/
theorem step_of_makes (hl : l.LaidOut s) (hs : s.Sound fits) (hc : s.Charted)
    (hm : (l.plan s tables).Makes n m) (hn : l.hands[n]? = some h)
    (hdest : h.voice? m.dest = some dest) (hsrc : h.voice? m.src = some src) {heading : Heading}
    (hleads : l.Leads s heading dest ∨ l.Leads s heading src) :
    (l.neighbour? heading dest = none ∧ l.neighbour? heading src = none) ∨
      ∃ n' h' dest' src', l.neighbour? heading dest = some dest' ∧
        l.neighbour? heading src = some src' ∧ l.hands[n']? = some h' ∧ h'.staff = h.staff ∧
        h'.voice? m.dest = some dest' ∧ h'.voice? m.src = some src' ∧
        (l.plan s tables).Makes n' m := by
  have hh := List.mem_of_getElem? hn
  obtain ⟨i, -, -, -, hdestOn⟩ := hl.beatsAt_of_voice? hs hc hh hdest
  obtain ⟨j, -, -, -, hsrcOn⟩ := hl.beatsAt_of_voice? hs hc hh hsrc
  exact step_of_linked hl hs hc hm hn hdest hsrc (hleads.imp
    (hl.linkedFrom_of_leads hs hdestOn · _) (hl.linkedFrom_of_leads hs hsrcOn · _))

theorem exists_of_linked (hl : l.LaidOut s) (hs : s.Sound fits) (hc : s.Charted)
    (hm : (l.plan s tables).Makes n m) (hn : l.hands[n]? = some h) {v : Nat}
    (hv : v = m.dest ∨ v = m.src) {k k' : GroupKey} (hk : h.voice? v = some k) {heading : Heading}
    (hnext : l.neighbour? heading k = some k')
    (hlinked : l.LinkedFrom s heading (l.byMeasure[n]?.getD false) k) :
    ∃ n' h', l.hands[n']? = some h' ∧ h'.staff = h.staff ∧ h'.voice? v = some k' ∧
      (l.plan s tables).Makes n' m := by
  obtain ⟨h₁, dest, src, hn₁, hdest, hsrc, -⟩ := follow_of_makes hm
  cases hn.symm.trans hn₁
  rcases hv with rfl | rfl
  · cases hk.symm.trans hdest
    rcases step_of_linked hl hs hc hm hn hdest hsrc (.inl hlinked) with
      ⟨hd, -⟩ | ⟨n', h', dest', src', hd, -, hn', hstaff, hdest', -, hmakes⟩
    · cases hd.symm.trans hnext
    · cases hd.symm.trans hnext
      exact ⟨n', h', hn', hstaff, hdest', hmakes⟩
  · cases hk.symm.trans hsrc
    rcases step_of_linked hl hs hc hm hn hdest hsrc (.inr hlinked) with
      ⟨-, he⟩ | ⟨n', h', dest', src', -, he, hn', hstaff, -, hsrc', hmakes⟩
    · cases he.symm.trans hnext
    · cases he.symm.trans hnext
      exact ⟨n', h', hn', hstaff, hsrc', hmakes⟩

theorem makes_of_linked (hl : l.LaidOut s) (hs : s.Sound fits) (hc : s.Charted)
    (hm : (l.plan s tables).Makes n m) (hn : l.hands[n]? = some h) (hn' : l.hands[n']? = some h')
    {v : Nat} (hv : v = m.dest ∨ v = m.src) {k k' : GroupKey} (hk : h.voice? v = some k)
    (hk' : h'.voice? v = some k') {heading : Heading} (hnext : l.neighbour? heading k = some k')
    (hlinked : l.LinkedFrom s heading (l.byMeasure[n]?.getD false) k) :
    (l.plan s tables).Makes n' m := by
  obtain ⟨n₂, h₂, hn₂, -, hk₂, hmakes⟩ := exists_of_linked hl hs hc hm hn hv hk hnext hlinked
  rwa [(hl.hand_unique hs hc hn' hn₂ hk' hk₂).1]

end Planned

end Divisi
