/-
The plans of an excerpt.

The hands of an excerpt are judged in it as they are in the whole score (`Excerpt.judge_eq`) and,
where nothing leads on over the barline that it ends with, they are planned alike
(`Excerpt.plans_eq`). The whole score may take more rounds to settle; a round that withdraws
nothing from the excerpt is none for the excerpt.
-/
import Divisi.Proofs.ExcerptWays

namespace Divisi

namespace Excerpt

open Layout

/-! ## What is told of each hand -/

section Pick

variable (x : Excerpt) {α β : Type}

/-- Of what is told of some hands, one by one, what is told of those of the excerpt. -/
def pick (hands : List Hand) (ys : List α) : List α :=
  ((hands.zip ys).filter fun e => x.holds e.1).map Prod.snd

variable {x} {h : Hand} {hands : List Hand} {n : Nat} {y : α} {ys zs : List α}

theorem pick_cons_of_pos (hh : x.holds h = true) :
    x.pick (h :: hands) (y :: ys) = y :: x.pick hands ys := by
  simp [pick, hh]

theorem pick_cons_of_neg (hh : x.holds h ≠ true) :
    x.pick (h :: hands) (y :: ys) = x.pick hands ys := by
  simp [pick, hh]

theorem pick_map (f : α → β) : x.pick hands (ys.map f) = (x.pick hands ys).map f := by
  simp only [pick, List.zip_map_right, List.filter_map, List.map_map]
  rfl

theorem hands_cons_of_pos (hh : x.holds h = true) :
    x.hands (h :: hands) = x.hand h :: x.hands hands := by
  simp [Excerpt.hands, hh]

theorem hands_cons_of_neg (hh : x.holds h ≠ true) : x.hands (h :: hands) = x.hands hands := by
  simp [Excerpt.hands, hh]

theorem rank_succ_of_pos (hh : x.holds h = true) :
    x.rank (h :: hands) (n + 1) = x.rank hands n + 1 := by
  simp [rank, hh]

theorem rank_succ_of_neg (hh : x.holds h ≠ true) :
    x.rank (h :: hands) (n + 1) = x.rank hands n := by
  simp [rank, hh]

theorem rank_le (hands : List Hand) (n : Nat) : x.rank hands n ≤ (x.hands hands).length := by
  rw [rank, Excerpt.hands, List.length_map, ← List.countP_eq_length_filter]
  exact (List.take_sublist n hands).countP_le

theorem rank_eq_iff {h' : Hand} {n' : Nat} (hn : hands[n]? = some h) (hh : x.holds h = true)
    (hn' : hands[n']? = some h') (hh' : x.holds h' = true) :
    x.rank hands n = x.rank hands n' ↔ n = n' :=
  ⟨rank_inj hn hh hn' hh', fun heq => heq ▸ rfl⟩

theorem exists_rank {i : Nat} (hi : i < (x.hands hands).length) :
    ∃ n h, hands[n]? = some h ∧ x.holds h = true ∧ x.rank hands n = i := by
  rw [Excerpt.hands, List.length_map] at hi
  obtain ⟨n, hn, hh, hrank⟩ := exists_of_filter (List.getElem?_eq_getElem hi)
  exact ⟨n, _, hn, hh, hrank⟩

theorem length_pick (hands : List Hand) (ys : List α) :
    (x.pick hands ys).length = x.rank hands ys.length := by
  induction hands generalizing ys with
  | nil => simp [pick, rank]
  | cons h hands ih =>
    cases ys with
    | nil => simp [pick, rank]
    | cons y ys =>
      by_cases hh : x.holds h = true
      · rw [pick_cons_of_pos hh, List.length_cons, List.length_cons, rank_succ_of_pos hh, ih]
      · rw [pick_cons_of_neg hh, List.length_cons, rank_succ_of_neg hh, ih]

/-- What is told of a hand is told by its rank. -/
theorem getElem?_pick (hn : hands[n]? = some h) (hh : x.holds h = true) (ys : List α) :
    (x.pick hands ys)[x.rank hands n]? = ys[n]? := by
  induction hands generalizing n ys with
  | nil => simp at hn
  | cons h' rest ih =>
    cases ys with
    | nil => simp [pick]
    | cons y ys =>
      cases n with
      | zero =>
        obtain rfl : h' = h := by simpa using hn
        rw [pick_cons_of_pos hh]
        rfl
      | succ n =>
        rw [List.getElem?_cons_succ] at hn ⊢
        by_cases hh' : x.holds h' = true
        · rw [pick_cons_of_pos hh', rank_succ_of_pos hh', List.getElem?_cons_succ, ih hn]
        · rw [pick_cons_of_neg hh', rank_succ_of_neg hh', ih hn]

theorem ext_rank (hlength : ys.length = zs.length) (hle : ys.length ≤ (x.hands hands).length)
    (h : ∀ n h, hands[n]? = some h → x.holds h = true →
      ys[x.rank hands n]? = zs[x.rank hands n]?) : ys = zs := by
  refine List.ext_getElem? fun i => ?_
  by_cases hi : i < (x.hands hands).length
  · obtain ⟨n, h', hn, hh, rfl⟩ := exists_rank hi
    exact h n h' hn hh
  · rw [List.getElem?_eq_none (by omega), List.getElem?_eq_none (by omega)]

theorem zip_pick (hands : List Hand) (ys : List α) : (x.hands hands).zip (x.pick hands ys) =
    ((hands.zip ys).filter fun e => x.holds e.1).map (Prod.map x.hand id) := by
  induction hands generalizing ys with
  | nil => rfl
  | cons h hands ih =>
    cases ys with
    | nil => simp [pick]
    | cons y ys =>
      rw [List.zip_cons_cons]
      by_cases hh : x.holds h = true
      · rw [hands_cons_of_pos hh, pick_cons_of_pos hh, List.zip_cons_cons, ih,
          List.filter_cons_of_pos (by exact hh), List.map_cons]
        rfl
      · rw [hands_cons_of_neg hh, pick_cons_of_neg hh, ih, List.filter_cons_of_neg (by exact hh)]

theorem mapM_pick {f f' : Hand → Except Fault α} (hys : hands.mapM f = .ok ys)
    (hf : ∀ h ∈ hands, x.holds h = true → f' (x.hand h) = f h) :
    (x.hands hands).mapM f' = .ok (x.pick hands ys) := by
  induction hands generalizing ys with
  | nil =>
    cases hys
    rfl
  | cons h hands ih =>
    simp only [List.mapM_cons, bind_eq_ok, pure_eq_ok] at hys
    obtain ⟨y, hy, rest, hrest, rfl⟩ := hys
    simp only [List.mem_cons, forall_eq_or_imp] at hf
    have hpicked := ih hrest hf.2
    by_cases hh : x.holds h = true
    · rw [hands_cons_of_pos hh, pick_cons_of_pos hh, List.mapM_cons, hf.1 hh, hy, hpicked]
      rfl
    · rw [hands_cons_of_neg hh, pick_cons_of_neg hh, hpicked]

end Pick

variable {x : Excerpt} {fits : Group → Prop} {l : Layout} {h : Hand} {n : Nat} {k k' : GroupKey}

/-! ## Verdicts -/

theorem compatible_eq (hl : l.LaidOut x.whole) (hs : x.whole.Sound fits) (hc : x.whole.Charted)
    (hk : k ∈ x.keys) (hk' : k' ∈ x.keys) (q : Qualifier) :
    (x.layout l).compatible x.score q k k' = l.compatible x.whole q k k' := by
  simp only [Layout.compatible, of_whole.get hk, of_whole.get hk', tiesIn_eq hl hs hc hk,
    tiesIn_eq hl hs hc hk']

theorem gracesCompatible_eq (hl : l.LaidOut x.whole) (hs : x.whole.Sound fits)
    (hc : x.whole.Charted) {xs ys : List GroupKey} (hxs : ∀ k ∈ xs, k ∈ x.keys)
    (hys : ∀ k ∈ ys, k ∈ x.keys) (q : Qualifier) :
    (x.layout l).gracesCompatible x.score q xs ys = l.gracesCompatible x.whole q xs ys := by
  rw [Bool.eq_iff_iff, Layout.gracesCompatible, Layout.gracesCompatible, List.all_eq_true,
    List.all_eq_true]
  refine forall_congr' fun e => forall_congr' fun hp => ?_
  obtain ⟨k, k'⟩ := e
  obtain ⟨hk, hk'⟩ := List.of_mem_zip hp
  simp only [compatible_eq hl hs hc (hxs _ (List.mem_reverse.mp hk)) (hys _ (List.mem_reverse.mp hk'))]

theorem graceRun_eq (hl : l.LaidOut x.whole) (hs : x.whole.Sound fits) (hc : x.whole.Charted)
    (hh : h ∈ l.hands) (hholds : x.holds h = true) {v : Nat} (hk : h.voice? v = some k) :
    ∃ run, x.score.graceRun (x.hand h).item (x.hand h).staff v k = .ok run ∧
      x.whole.graceRun h.item h.staff v k = .ok run ∧ ∀ g ∈ run, g ∈ x.keys := by
  obtain ⟨-, list, hlist, hmem⟩ := (hl.stands hs hc).main h hh v k hk
  have hkeys : ∀ g ∈ list, g ∈ x.keys := fun g hg =>
    (fits_whole hs _ list g hlist hg).mpr (holds_iff.mp hholds)
  obtain ⟨hscore, hwhole⟩ := of_whole.graceRun (holds_iff.mp hholds) hlist hkeys hmem
  refine ⟨_, hscore, hwhole, fun g hg => hkeys g ?_⟩
  exact Merging.mem_of_column hmem (List.mem_cons_of_mem k (List.mem_reverse.mpr hg))

theorem judge?_eq (hl : l.LaidOut x.whole) (hs : x.whole.Sound fits) (hc : x.whole.Charted)
    (hh : h ∈ l.hands) (hholds : x.holds h = true) (q : Qualifier) (m : Merge) :
    (x.hand h).judge? x.score (x.layout l) q m = h.judge? x.whole l q m := by
  have hvoice : ∀ v, (x.hand h).voice? v = h.voice? v := fun _ => rfl
  have hmem : ∀ {v k}, h.voice? v = some k → k ∈ x.keys := fun hk =>
    (mem_keys_iff hl hs hc hh hk).mpr hholds
  unfold Hand.judge?
  rw [hvoice, hvoice]
  cases hdest : h.voice? m.dest with
  | none => rfl
  | some y =>
    cases hsrc : h.voice? m.src with
    | none => rfl
    | some z =>
      obtain ⟨xs, hxs, hxs', hx⟩ := graceRun_eq hl hs hc hh hholds hdest
      obtain ⟨ys, hys, hys', hy⟩ := graceRun_eq hl hs hc hh hholds hsrc
      simp only [hxs, hxs', hys, hys', compatible_eq hl hs hc (hmem hdest) (hmem hsrc), bind,
        Except.bind, gracesCompatible_eq hl hs hc hx hy]

/-- **The hands of an excerpt are judged in it** as they are in the whole score. -/
theorem judge_eq (hl : l.LaidOut x.whole) (hs : x.whole.Sound fits) (hc : x.whole.Charted)
    {verdicts : List (List Verdict)} (hjudge : l.judge x.whole = .ok verdicts) :
    (x.layout l).judge x.score = .ok (x.pick l.hands verdicts) := by
  refine mapM_pick hjudge fun h hh hholds => ?_
  have hrequest : (x.hand h).request = h.request := rfl
  have hjudge? : ∀ q, Hand.judge? x.score (x.layout l) (x.hand h) q =
      Hand.judge? x.whole l h q := fun q => funext (judge?_eq hl hs hc hh hholds q)
  simp only [Hand.judge, hrequest, hjudge?]

/-! ## Planning -/

open Planning

/-- The excerpt has the tables of its hands. -/
def Tables (x : Excerpt) (hands : List Hand) (tables tables' : Array Affinity) : Prop :=
  ∀ n h, hands[n]? = some h → x.holds h = true → tables'[x.rank hands n]? = tables[n]?

/-- A hand on its way to its plan, in the whole score and in the excerpt. -/
structure Drafts (x : Excerpt) (hands : List Hand) (d d' : Draft) : Prop where
  tables : x.Tables hands d.tables d'.tables
  choice : d'.choice = d.choice

variable {byMeasure : Bool} {tables tables' : Array Affinity} {d d' : Draft}

theorem Tables.allows {hands : List Hand} (ht : x.Tables hands tables tables')
    (hn : hands[n]? = some h) (hh : x.holds h = true) (m : Merge) :
    Planning.allows tables' m (x.rank hands n) = Planning.allows tables m n := by
  rw [Planning.allows, Planning.allows, ht n h hn hh]

theorem Tables.modify {hands : List Hand} (ht : x.Tables hands tables tables')
    (hn : hands[n]? = some h) (hh : x.holds h = true) (f : Affinity → Affinity) :
    x.Tables hands (tables.modify n f) (tables'.modify (x.rank hands n) f) := by
  intro n' h' hn' hh'
  rw [Array.getElem?_modify, Array.getElem?_modify, ht n' h' hn' hh']
  simp only [rank_eq_iff hn hh hn' hh']

theorem Drafts.consider (hd : x.Drafts l.hands d d') (hl : l.LaidOut x.whole)
    (hs : x.whole.Sound fits) (hc : x.whole.Charted) (hclose : x.Closes)
    (hn : l.hands[n]? = some h) (hh : x.holds h = true) (m : Merge) :
    x.Drafts l.hands (Planning.consider x.whole l n h byMeasure d m)
      (Planning.consider x.score (x.layout l) (x.rank l.hands n) (x.hand h) byMeasure d' m) := by
  have hvoice : ∀ v, (x.hand h).voice? v = h.voice? v := fun _ => rfl
  unfold Planning.consider
  rw [hd.choice, hvoice, hvoice, hd.tables.allows hn hh]
  split
  · exact hd
  cases hdest : h.voice? m.dest with
  | none => exact hd
  | some y =>
    cases hsrc : h.voice? m.src with
    | none => exact hd
    | some z =>
      have hagrees : (x.layout l).agrees x.score byMeasure _ y z =
          l.agrees x.whole byMeasure _ y z :=
        agrees_eq hl hs hc hclose (List.mem_of_getElem? hn) hh hdest hsrc fun n h hn hh =>
          hd.tables.allows hn hh m
      simp only [hagrees]
      split
      · exact hd
      · split
        · exact ⟨hd.tables.modify hn hh _, rfl⟩
        · exact ⟨hd.tables, rfl⟩

theorem Tables.hand (ht : x.Tables l.hands tables tables') (hl : l.LaidOut x.whole)
    (hs : x.whole.Sound fits) (hc : x.whole.Charted) (hclose : x.Closes)
    (hn : l.hands[n]? = some h) (hh : x.holds h = true) :
    x.Drafts l.hands (Planning.hand x.whole l tables h n)
      (Planning.hand x.score (x.layout l) tables' (x.hand h) (x.rank l.hands n)) := by
  have hrequest : (x.hand h).request = h.request := rfl
  unfold Planning.hand
  rw [hrequest]
  cases h.request with
  | none => exact ⟨ht, rfl⟩
  | some r =>
    have hfold : ∀ (pairs : List Merge) {d d'}, x.Drafts l.hands d d' → x.Drafts l.hands
        (pairs.foldl (Planning.consider x.whole l n h r.byMeasure) d)
        (pairs.foldl (Planning.consider x.score (x.layout l) (x.rank l.hands n) (x.hand h)
          r.byMeasure) d') := by
      intro pairs
      induction pairs with
      | nil => exact id
      | cons m rest ih => exact fun hd => ih (hd.consider hl hs hc hclose hn hh m)
    exact hfold r.pairs ⟨ht, rfl⟩

theorem Tables.elsewhere (ht : x.Tables l.hands tables tables') (hn : l.hands[n]? = some h)
    (hh : x.holds h ≠ true) : x.Tables l.hands (Planning.hand x.whole l tables h n).tables tables' := by
  intro n' h' hn' hh'
  rw [ht n' h' hn' hh', (hand_spec x.whole l tables h n).2]
  rintro rfl
  exact hh (Option.some.inj (hn'.symm.trans hn) ▸ hh')

theorem Tables.hands (ht : x.Tables l.hands tables tables') (hl : l.LaidOut x.whole)
    (hs : x.whole.Sound fits) (hc : x.whole.Charted) (hclose : x.Closes) {before rest : List Hand}
    (hsplit : l.hands = before ++ rest) :
    Planning.hands x.score (x.layout l) tables' ((x.hands rest).zipIdx (x.hands before).length) =
      x.pick rest (Planning.hands x.whole l tables (rest.zipIdx before.length)) := by
  induction rest generalizing before tables tables' with
  | nil => rfl
  | cons h rest ih =>
    have hn : l.hands[before.length]? = some h := by simp [hsplit]
    have hrank : x.rank l.hands before.length = (x.hands before).length := by
      rw [rank, hsplit, List.take_left, Excerpt.hands, List.length_map,
        List.countP_eq_length_filter]
    have hlength : (before ++ [h]).length = before.length + 1 := List.length_append
    have hnext : l.hands = (before ++ [h]) ++ rest := by simp [hsplit]
    rw [List.zipIdx_cons, Planning.hands]
    by_cases hh : x.holds h = true
    · have hdraft := ht.hand hl hs hc hclose hn hh
      have hgrown : (x.hands (before ++ [h])).length = (x.hands before).length + 1 := by
        simp [Excerpt.hands, hh]
      have hrest := ih hdraft.tables hnext
      rw [hgrown, hlength] at hrest
      rw [hrank] at hdraft hrest
      rw [hands_cons_of_pos hh, pick_cons_of_pos hh, List.zipIdx_cons, Planning.hands, hrest,
        hdraft.choice]
    · have hgrown : x.hands (before ++ [h]) = x.hands before := by simp [Excerpt.hands, hh]
      have hrest := ih (ht.elsewhere hn hh) hnext
      rw [hgrown, hlength] at hrest
      rw [hands_cons_of_neg hh, pick_cons_of_neg hh, hrest]

/-! ## Settling -/

theorem byMeasure_rank (hn : l.hands[n]? = some h) (hh : x.holds h = true) :
    (x.layout l).byMeasure[x.rank l.hands n]? = l.byMeasure[n]? := by
  rw [Layout.byMeasure, Layout.byMeasure, layout, List.getElem?_map, List.getElem?_map,
    getElem?_hands hn hh, hn]
  rfl

theorem holds_rank (hl : l.LaidOut x.whole) (hs : x.whole.Sound fits) (hc : x.whole.Charted)
    (hclose : x.Closes) (hn : l.hands[n]? = some h) (hh : x.holds h = true) (plans : List Plan) :
    Planning.holds x.score (x.layout l) (x.layout l).byMeasure (x.pick l.hands plans).toArray
        (x.rank l.hands n) = Planning.holds x.whole l l.byMeasure plans.toArray n := by
  funext m
  have hhand : (x.layout l).hands[x.rank l.hands n]? = some (x.hand h) := getElem?_hands hn hh
  have hvoice : ∀ v, (x.hand h).voice? v = h.voice? v := fun _ => rfl
  unfold Planning.holds
  rw [hhand, hn, byMeasure_rank hn hh, Option.bind_some, Option.bind_some, Option.bind_some,
    Option.bind_some, hvoice, hvoice]
  cases hdest : h.voice? m.dest with
  | none => rfl
  | some y =>
    cases hsrc : h.voice? m.src with
    | none => rfl
    | some z =>
      refine agrees_eq hl hs hc hclose (List.mem_of_getElem? hn) hh hdest hsrc fun n h hn hh => ?_
      rw [List.getElem?_toArray, List.getElem?_toArray, getElem?_pick hn hh]

theorem pick_prune (hl : l.LaidOut x.whole) (hs : x.whole.Sound fits) (hc : x.whole.Charted)
    (hclose : x.Closes) (plans : List Plan) :
    x.pick l.hands (prune x.whole l l.byMeasure plans) =
      prune x.score (x.layout l) (x.layout l).byMeasure (x.pick l.hands plans) := by
  have hle : (x.pick l.hands (prune x.whole l l.byMeasure plans)).length ≤
      (x.hands l.hands).length := by
    rw [length_pick]
    exact rank_le l.hands _
  refine ext_rank ?_ hle fun n h hn hh => ?_
  · simp [length_pick, prune]
  · rw [getElem?_pick hn hh, prune, prune, List.getElem?_map, List.getElem?_map,
      List.getElem?_zipIdx, List.getElem?_zipIdx, getElem?_pick hn hh, Option.map_map,
      Option.map_map]
    cases plans[n]? with
    | none => rfl
    | some plan =>
      simp only [Option.map_some, Function.comp_apply, Nat.zero_add,
        holds_rank hl hs hc hclose hn hh]

end Excerpt

namespace Planning

variable {s : Score} {l : Layout} {byMeasure : List Bool} {plans : List Plan}

theorem failing_eq_nil_iff :
    failing s l byMeasure plans = [] ↔ prune s l byMeasure plans = plans := by
  constructor
  · intro hnone
    conv_rhs => rw [← List.zipIdx_map_fst 0 plans]
    refine List.map_congr_left fun ⟨plan, n⟩ hplan => List.filter_eq_self.mpr fun m hm => ?_
    have hkept := List.map_eq_nil_iff.mp (List.flatMap_eq_nil_iff.mp hnone _ hplan)
    simpa using List.filter_eq_nil_iff.mp hkept m hm
  · intro heq
    have hsize := size_prune s l byMeasure plans
    rw [heq] at hsize
    exact List.length_eq_zero_iff.mp (by omega)

/-- Settling may begin one round later. -/
theorem settle_prune : (settle s l byMeasure (prune s l byMeasure plans)).plans =
    (settle s l byMeasure plans).plans := by
  by_cases hnone : failing s l byMeasure plans = []
  · rw [failing_eq_nil_iff.mp hnone]
  · conv_rhs => rw [settle, if_neg hnone]

end Planning

namespace Excerpt

variable {x : Excerpt} {fits : Group → Prop} {l : Layout}

/-- What is left when all is settled does not depend on the rest of the score. -/
theorem pick_settle (hl : l.LaidOut x.whole) (hs : x.whole.Sound fits) (hc : x.whole.Charted)
    (hclose : x.Closes) (plans : List Plan) :
    (Planning.settle x.score (x.layout l) (x.layout l).byMeasure (x.pick l.hands plans)).plans =
      x.pick l.hands (Planning.settle x.whole l l.byMeasure plans).plans := by
  -- The induction is on the rounds of the whole score. In some of them nothing of the excerpt
  -- fails, so that the excerpt settles in fewer rounds: a round that changes nothing may be added.
  have hprune := pick_prune hl hs hc hclose
  induction plans using Planning.settle.induct x.whole l l.byMeasure with
  | case1 plans hnone =>
    have hstays := hprune plans
    rw [Planning.failing_eq_nil_iff.mp hnone] at hstays
    conv_lhs => rw [Planning.settle, if_pos (Planning.failing_eq_nil_iff.mpr hstays.symm)]
    conv_rhs => rw [Planning.settle, if_pos hnone]
  | case2 plans hsome ih => rw [← Planning.settle_prune, ← hprune, ih, Planning.settle_prune]

/-- **The hands of an excerpt get their plans** from the excerpt alone. -/
theorem plans_eq (hl : l.LaidOut x.whole) (hs : x.whole.Sound fits) (hc : x.whole.Charted)
    (hclose : x.Closes) (tables : List Affinity) :
    ((x.layout l).plan x.score (x.pick l.hands tables)).plans =
      x.pick l.hands (l.plan x.whole tables).plans := by
  have htables : x.Tables l.hands tables.toArray (x.pick l.hands tables).toArray :=
    fun n h hn hh => by rw [List.getElem?_toArray, List.getElem?_toArray, getElem?_pick hn hh]
  have hchoices : Planning.hands x.score (x.layout l) (x.pick l.hands tables).toArray
      (x.layout l).hands.zipIdx =
        x.pick l.hands (Planning.hands x.whole l tables.toArray l.hands.zipIdx) :=
    htables.hands hl hs hc hclose (List.nil_append l.hands).symm
  simp only [Layout.plan, Planned.plans, hchoices, ← pick_map, pick_settle hl hs hc hclose]

theorem steps_flatMap (xs : List (Hand × Plan)) :
    x.steps (xs.flatMap fun e => e.2.map fun m => (e.1, m)) =
      ((xs.filter fun e => x.holds e.1).map (Prod.map x.hand id)).flatMap
        fun e => e.2.map fun m => (e.1, m) := by
  induction xs with
  | nil => rfl
  | cons e rest ih =>
    obtain ⟨h, plan⟩ := e
    rw [List.flatMap_cons, steps_append, ih]
    by_cases hh : x.holds h = true
    · have hplan : x.steps (plan.map fun m => (h, m)) = plan.map fun m => (x.hand h, m) := by
        rw [Excerpt.steps, List.filter_eq_self.mpr (by simp [hh]), List.map_map]
        rfl
      rw [hplan, List.filter_cons_of_pos (by exact hh), List.map_cons, List.flatMap_cons]
      rfl
    · have hplan : x.steps (plan.map fun m => (h, m)) = [] := by
        simp [Excerpt.steps, hh]
      rw [hplan, List.filter_cons_of_neg (by exact hh), List.nil_append]

end Excerpt

/-- **What combining makes of an excerpt**, told by the excerpt alone: it is judged, planned and
carried out there as a score of its own. -/
theorem Combination.Of.of_excerpt {x : Excerpt} {c : Combination} {fits : Group → Prop}
    (hof : c.Of x.whole) (hs : x.whole.Sound fits) (hc : x.whole.Charted) (hclose : x.Closes)
    (hcombine : x.whole.combineVoices = .ok c) : x.Fits c.score ∧ ∃ verdicts p,
      (x.layout c.layout).judge x.score = .ok verdicts ∧
      Merging.perform x.score (x.layout c.layout)
        ((x.layout c.layout).plan x.score (verdicts.map Affinity.ofVerdicts)).plans = .ok p ∧
      x.Of c.score p.score := by
  obtain ⟨-, hjudged, hplanned, -⟩ := Score.combineVoices_eq_ok hcombine
  obtain ⟨hfits, u, hu, ho⟩ := hof.excerpt hs
  obtain ⟨n, hn⟩ : ∃ n, Merging.perform x.score (x.layout c.layout) ((x.layout c.layout).plan x.score
      ((x.pick c.layout.hands c.verdicts).map Affinity.ofVerdicts)).plans = .ok ⟨u, n⟩ := by
    rw [← Excerpt.pick_map, Excerpt.plans_eq hof.laidOut hs hc hclose, ← hplanned,
      Merging.perform_eq, Excerpt.layout, Excerpt.zip_pick, Merging.foldlM_plans,
      ← Excerpt.steps_flatMap]
    have hsteps : x.steps ((c.layout.hands.zip c.planned.plans).flatMap fun e =>
      e.2.map fun m => (e.1, m)) = x.steps c.steps := rfl
    rw [hsteps, hu]
    exact ⟨_, rfl⟩
  exact ⟨hfits, _, _, Excerpt.judge_eq hof.laidOut hs hc hjudged, hn, ho⟩

end Divisi
