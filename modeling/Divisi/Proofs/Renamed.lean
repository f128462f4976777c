/-
Combining under other keys.

A score under other keys is judged alike and planned alike, and each merge leaves it the same
score under other keys; so combining it does the same and tells the same (`Score.Renamed.combine`),
and what comes of it prints the same (`Score.Renamed.report`).
-/
import Divisi.Proofs.Renaming
import Divisi.Proofs.Verdicts

namespace Divisi

variable {r : Renaming} {s s' : Score} {l : Layout}

/-! ## Ways and links -/

namespace Renaming

theorem way_layout (heading : Heading) (key : GroupKey) :
    (r.layout l).way heading (r.group key) = (l.way heading key).map r.stop := by
  have hkey : ∀ x : Stop, ((r.stop x).key == r.group key) = (x.key == key) := fun x => by
    simp [stop]
  have hkeys : ∀ x : Stop, decide ((r.stop x).key ≠ r.group key) = decide (x.key ≠ key) :=
    fun x => by simp [stop]
  unfold Layout.way
  simp only [layout, List.find?_map, Function.comp_def, List.any_map, hkey]
  cases l.lines.find? fun line => line.any (·.key == key) with
  | none => rfl
  | some line =>
    rw [Option.map_some]
    refine Eq.trans ?_ (Layout.untilGap_map (f := r.stop) (fun _ => rfl) _)
    cases heading with
    | forth => simp only [Layout.wayOn, List.dropWhile_map, Function.comp_def, hkeys]
    | back =>
      simp only [Layout.wayOn, ← List.map_reverse, List.dropWhile_map, Function.comp_def, hkeys]

theorem prev?_layout (key : GroupKey) :
    (r.layout l).prev? (r.group key) = (l.prev? key).map r.group := by
  simp only [Layout.prev?, Layout.neighbour?, way_layout, List.getElem?_map, Option.map_map]
  rfl

theorem idxOf?_map (list : List GroupKey) (key : GroupKey) :
    (list.map r.group).idxOf? (r.group key) = list.idxOf? key := by
  have hsame : ∀ k, (r.group k == r.group key) = (k == key) := fun k => by simp
  simp only [List.idxOf?, List.findIdx?_map, Function.comp_def, hsame]

end Renaming

namespace Score.Renamed

theorem linked (h : s.Renamed r s') (heading : Heading) (byMeasure : Bool) (x : Stop)
    (next : Option Stop) : Layout.linked s' heading byMeasure (r.stop x) (next.map r.stop) =
      Layout.linked s heading byMeasure x next := by
  have hleads : ∀ y : Stop, Layout.leadsOn s' (r.stop y) = Layout.leadsOn s y := fun y =>
    congrArg Group.continuesOnward (h.get y.key)
  have hmeasure : ∀ y : Stop, (r.stop y).measure = y.measure := fun _ => rfl
  cases next with
  | none => cases heading <;> simp [Layout.linked, hleads]
  | some y => cases heading <;> simp [Layout.linked, hleads, hmeasure]

theorem follow (h : s.Renamed r s') (heading : Heading) (byMeasure : Bool) (accept : Nat → Bool)
    (ds es : List Stop) :
    Layout.follow s' heading byMeasure accept (ds.map r.stop) (es.map r.stop) =
      Layout.follow s heading byMeasure accept ds es := by
  induction ds generalizing es with
  | nil => simp only [List.map_nil, Layout.follow]
  | cons d ds ih =>
    cases es with
    | nil => simp only [List.map_cons, List.map_nil, Layout.follow]
    | cons e es =>
      simp only [List.map_cons, Layout.follow, List.head?_map, h.linked, ih]
      cases ds.head? <;> cases es.head? <;> rfl

/-- Whether hands accept that two voices go together does not depend on the keys. -/
theorem agrees (h : s.Renamed r s') (l : Layout) (byMeasure : Bool) (accept : Nat → Bool)
    (dest src : GroupKey) :
    (r.layout l).agrees s' byMeasure accept (r.group dest) (r.group src) =
      l.agrees s byMeasure accept dest src := by
  simp only [Layout.agrees, Renaming.way_layout, h.follow]

/-! ## Verdicts -/

theorem tiesIn (h : s.Renamed r s') (l : Layout) (key : GroupKey) :
    (r.layout l).tiesIn s' (r.group key) = l.tiesIn s key := by
  rw [Layout.tiesIn, Layout.tiesIn, Renaming.prev?_layout]
  cases l.prev? key with
  | none => rfl
  | some prev => exact congrArg Group.tiesOut (h.get prev)

theorem compatible (h : s.Renamed r s') (l : Layout) (q : Qualifier) (x y : GroupKey) :
    (r.layout l).compatible s' q (r.group x) (r.group y) = l.compatible s q x y := by
  simp only [Layout.compatible, h.get, h.tiesIn]

theorem gracesCompatible (h : s.Renamed r s') (l : Layout) (q : Qualifier) (xs ys : List GroupKey) :
    (r.layout l).gracesCompatible s' q (xs.map r.group) (ys.map r.group) =
      l.gracesCompatible s q xs ys := by
  simp only [Layout.gracesCompatible, ← List.map_reverse, List.zip_map, List.all_map,
    Function.comp_def, Prod.map, h.compatible]

theorem graceRun (h : s.Renamed r s') (i staff v : Nat) (key : GroupKey) :
    s'.graceRun i staff v (r.group key) = (s.graceRun i staff v key).map (List.map r.group) := by
  unfold Score.graceRun
  rw [h.voiceList]
  cases s.voiceList i staff v with
  | error e => rfl
  | ok list =>
    simp only [Except.map, bind, Except.bind, Renaming.idxOf?_map]
    cases list.idxOf? key with
    | none => simp only [h.get]; rfl
    | some place =>
      simp only [← List.map_take, ← List.map_reverse, List.takeWhile_map, Function.comp_def, h.get]
      rfl

theorem judge? (h : s.Renamed r s') (l : Layout) (hand : Hand) (q : Qualifier) (m : Merge) :
    (r.hand hand).judge? s' (r.layout l) q m = hand.judge? s l q m := by
  have hplace : (r.hand hand).item = hand.item ∧ (r.hand hand).staff = hand.staff := ⟨rfl, rfl⟩
  unfold Hand.judge?
  rw [Renaming.voice?_hand, Renaming.voice?_hand]
  cases hand.voice? m.dest with
  | none => rfl
  | some x =>
    cases hand.voice? m.src with
    | none => rfl
    | some y =>
      simp only [Option.map_some, h.compatible, h.graceRun, hplace]
      split
      · cases s.graceRun hand.item hand.staff m.dest x with
        | error e => rfl
        | ok xs =>
          cases s.graceRun hand.item hand.staff m.src y with
          | error e => rfl
          | ok ys =>
            simp only [Except.map, bind, Except.bind, h.gracesCompatible]
      · rfl

theorem judge (h : s.Renamed r s') (l : Layout) : (r.layout l).judge s' = l.judge s := by
  have hhand : (fun hand => (r.hand hand).judge s' (r.layout l)) = fun hand => hand.judge s l := by
    funext hand
    have hrequest : (r.hand hand).request = hand.request := rfl
    have hjudge : ∀ q, (r.hand hand).judge? s' (r.layout l) q = hand.judge? s l q := fun q =>
      funext (h.judge? l hand q)
    simp only [Hand.judge, hrequest, hjudge]
  rw [Layout.judge, Renaming.layout, List.mapM_map]
  exact congrArg l.hands.mapM hhand

/-! ## Plans -/

theorem consider (h : s.Renamed r s') (l : Layout) (n : Nat) (hand : Hand) (byMeasure : Bool) :
    Planning.consider s' (r.layout l) n (r.hand hand) byMeasure =
      Planning.consider s l n hand byMeasure := by
  funext d m
  unfold Planning.consider
  rw [Renaming.voice?_hand, Renaming.voice?_hand]
  cases hand.voice? m.dest with
  | none => rfl
  | some x =>
    cases hand.voice? m.src with
    | none => rfl
    | some y => simp only [Option.map_some, h.agrees]

theorem planHand (h : s.Renamed r s') (l : Layout) (tables : Array Affinity) (hand : Hand) (n : Nat) :
    Planning.hand s' (r.layout l) tables (r.hand hand) n = Planning.hand s l tables hand n := by
  have hrequest : (r.hand hand).request = hand.request := rfl
  simp only [Planning.hand, hrequest, h.consider]

theorem planHands (h : s.Renamed r s') (l : Layout) (tables : Array Affinity)
    (hands : List (Hand × Nat)) :
    Planning.hands s' (r.layout l) tables (hands.map fun x => (r.hand x.1, x.2)) =
      Planning.hands s l tables hands := by
  induction hands generalizing tables with
  | nil => rfl
  | cons x rest ih => simp only [List.map_cons, Planning.hands, h.planHand, ih]

theorem holds (h : s.Renamed r s') (l : Layout) (byMeasure : List Bool) (plans : Array Plan) (n : Nat) :
    Planning.holds s' (r.layout l) byMeasure plans n = Planning.holds s l byMeasure plans n := by
  funext m
  have hvoice : ∀ v, (r.layout l).hands[n]?.bind (·.voice? v) =
      (l.hands[n]?.bind (·.voice? v)).map r.group := by
    intro v
    simp only [Renaming.layout, List.getElem?_map]
    cases l.hands[n]? with
    | none => rfl
    | some hand => exact Renaming.voice?_hand hand v
  unfold Planning.holds
  rw [hvoice, hvoice]
  cases l.hands[n]?.bind (·.voice? m.dest) with
  | none => rfl
  | some x =>
    cases l.hands[n]?.bind (·.voice? m.src) with
    | none => rfl
    | some y => simp only [Option.map_some, h.agrees]

theorem settle (h : s.Renamed r s') (l : Layout) (byMeasure : List Bool) (plans : List Plan) :
    Planning.settle s' (r.layout l) byMeasure plans = Planning.settle s l byMeasure plans :=
  Planning.settle_congr (P := fun _ => True) (fun _ _ => trivial)
    (fun plans _ n _ _ m _ => congrFun (h.holds l byMeasure plans.toArray n) m) trivial

theorem plan (h : s.Renamed r s') (l : Layout) (tables : List Affinity) :
    (r.layout l).plan s' tables = l.plan s tables := by
  have hhands : (r.layout l).hands.zipIdx = l.hands.zipIdx.map fun x => (r.hand x.1, x.2) := by
    rw [Renaming.layout, List.zipIdx_map]
    rfl
  have hbyMeasure : (r.layout l).byMeasure = l.byMeasure := by
    simp only [Layout.byMeasure, Renaming.layout, List.map_map]
    rfl
  simp only [Layout.plan, hhands, h.planHands, hbyMeasure, h.settle]

end Score.Renamed

/-! ## Merges -/

namespace Renaming

variable {groups groups' : Arena Group}

theorem Carries.modify (h : r.Carries groups groups') (key : GroupKey) (f : Group → Group) :
    r.Carries (groups.modify key f) (groups'.modify (r.group key) f) := by
  intro k
  rw [Arena.get?_modify, Arena.get?_modify, h k]
  simp only [group_inj]

theorem Carries.foldl {ι : Type} (h : r.Carries groups groups') (key : ι → GroupKey)
    (f : ι → Group → Group) (xs : List ι) :
    r.Carries (xs.foldl (fun groups x => groups.modify (key x) (f x)) groups)
      (xs.foldl (fun groups x => groups.modify (r.group (key x)) (f x)) groups') := by
  induction xs generalizing groups groups' with
  | nil => exact h
  | cons x rest ih => exact ih (h.modify (key x) (f x))

theorem Carries.rebeam (h : r.Carries groups groups') (run : List GroupKey) :
    r.Carries (Merging.rebeam groups run) (Merging.rebeam groups' (run.map r.group)) := by
  simp only [Merging.rebeam, List.length_map, List.zipIdx_map, List.foldl_map]
  split
  · exact h
  · exact h.foldl Prod.fst (fun x g => { g with beam := Merging.beamAt run.length x.2 }) run.zipIdx

theorem contains_map (keys : List GroupKey) (key : GroupKey) :
    (keys.map r.group).contains (r.group key) = keys.contains key := by
  rw [Bool.eq_iff_iff, List.contains_iff_mem, List.contains_iff_mem,
    List.mem_map_of_injective r.injective]

theorem insertBefore_map (anchor : GroupKey) (keys list : List GroupKey) :
    Merging.insertBefore (r.group anchor) (keys.map r.group) (list.map r.group) =
      (Merging.insertBefore anchor keys list).map (List.map r.group) := by
  unfold Merging.insertBefore
  rw [idxOf?_map]
  cases list.idxOf? anchor <;> simp

theorem filter_moved_map (moved list : List GroupKey) :
    (list.map r.group).filter (fun key => !(moved.map r.group).contains key) =
      (list.filter fun key => !moved.contains key).map r.group := by
  simp only [List.filter_map, Function.comp_def, contains_map]

theorem Carries.any_beam {groups groups' : Arena Group} (h : r.Carries groups groups')
    (run : List GroupKey) : ((run.map r.group).any fun key => (groups'.get key).beam != .none) =
      run.any fun key => (groups.get key).beam != .none := by
  simp only [List.any_map, Function.comp_def, h.get]

theorem map_modify {α β : Type} {f : α → α} {f' : β → β} {g : α → β} (h : ∀ x, g (f x) = f' (g x))
    (xs : List α) (i : Nat) : (xs.modify i f).map g = (xs.map g).modify i f' := by
  refine List.ext_getElem? fun j => ?_
  simp only [List.getElem?_map, List.getElem?_modify]
  cases xs[j]? with
  | none => rfl
  | some x => by_cases hij : i = j <;> simp [hij, h]

theorem modifyStave_measure (m : Measure) (staff v : Nat) (list : Option (List GroupKey)) :
    r.measure (m.modifyStave staff (·.setList v list)) =
      (r.measure m).modifyStave staff (·.setList v (list.map (List.map r.group))) := by
  have hstaves : ∀ i, (m.staves.modify i (·.setList v list)).map r.stave =
      (m.staves.map r.stave).modify i (·.setList v (list.map (List.map r.group))) :=
    map_modify (fun st => setList_stave st v list) m.staves
  simp only [Measure.modifyStave, measure, hstaves, List.findIdx_map]
  rfl

end Renaming

namespace Score.Renamed

theorem foldInto (h : s.Renamed r s') (dest src : GroupKey) :
    (s.foldInto dest src).Renamed r (s'.foldInto (r.group dest) (r.group src)) := by
  refine ⟨h.header, h.items, ?_, h.syllables⟩
  simp only [Score.foldInto, h.get]
  exact (h.groups.modify dest _).modify src _

theorem foldPairs (h : s.Renamed r s') (pairs : List (GroupKey × GroupKey)) :
    (s.foldPairs pairs).Renamed r (s'.foldPairs (pairs.map (Prod.map r.group r.group))) := by
  induction pairs generalizing s s' with
  | nil => exact h
  | cons p rest ih => exact ih (h.foldInto p.1 p.2)

theorem setVoiceList (h : s.Renamed r s') (i staff v : Nat) (list : Option (List GroupKey)) :
    (s.setVoiceList i staff v list).Renamed r
      (s'.setVoiceList i staff v (list.map (List.map r.group))) := by
  refine ⟨h.header, ?_, h.groups, h.syllables⟩
  simp only [Score.setVoiceList, Score.modifyMeasure, h.items]
  refine (Renaming.map_modify (fun x => ?_) s.items i).symm
  cases x with
  | change c => rfl
  | measure m => exact congrArg Item.measure (Renaming.modifyStave_measure m staff v list)

theorem revoiced (h : s.Renamed r s') (moved : List GroupKey) (voice : Nat) :
    (Merging.revoiced s moved voice).Renamed r
      (Merging.revoiced s' (moved.map r.group) voice) := by
  have hgroups := h.groups.foldl id (fun _ g => { g with voice }) moved
  refine ⟨h.header, h.items, ?_, h.syllables⟩
  rw [Merging.revoiced, Merging.revoiced, List.foldl_map]
  exact hgroups

theorem resettled (h : s.Renamed r s') (hand : Hand) (m : Merge) (moved dest src : List GroupKey) :
    (Merging.resettled s hand m moved dest src).Renamed r
      (Merging.resettled s' (r.hand hand) m (moved.map r.group) (dest.map r.group)
        (src.map r.group)) :=
  ((h.revoiced moved m.dest).setVoiceList hand.item hand.staff m.src (some src)).setVoiceList
    hand.item hand.staff m.dest (some dest)

theorem moveGraces (h : s.Renamed r s') {hand : Hand} {m : Merge} {dest : GroupKey}
    {moved run : List GroupKey} {t : Score}
    (ht : Merging.moveGraces s hand m dest moved run = .ok t) :
    ∃ t', Merging.moveGraces s' (r.hand hand) m (r.group dest) (moved.map r.group)
      (run.map r.group) = .ok t' ∧ t.Renamed r t' := by
  obtain ⟨theirs, ours, list, htheirs, hours, hlist, rfl⟩ := Merging.moveGraces_eq_ok.mp ht
  have hleft := Renaming.filter_moved_map (r := r) moved theirs
  have hanchor : (run.map r.group).head?.getD (r.group dest) = r.group (run.head?.getD dest) := by
    cases run <;> rfl
  have h₁ := h.revoiced moved m.dest
  have h₂ := h₁.setVoiceList hand.item hand.staff m.src
    (some (theirs.filter fun key => !moved.contains key))
  have hgiven := h.resettled hand m moved list (theirs.filter fun key => !moved.contains key)
  refine ⟨_, Merging.moveGraces_eq_ok.mpr ⟨theirs.map r.group, ours.map r.group, list.map r.group,
    ?_, ?_, ?_, rfl⟩, ?_⟩
  · have htheirs' := h₁.voiceList hand.item hand.staff m.src
    rw [htheirs] at htheirs'
    exact htheirs'
  · have hours' := h₂.voiceList hand.item hand.staff m.dest
    rw [hours] at hours'
    rw [hleft]
    exact hours'
  · rw [hanchor, Renaming.insertBefore_map, hlist]
    rfl
  · rw [hleft, hgiven.groups.any_beam]
    split
    · rw [← List.map_append]
      exact ⟨hgiven.header, hgiven.items, hgiven.groups.rebeam (moved ++ run), hgiven.syllables⟩
    · exact hgiven

theorem graces (h : s.Renamed r s') {hand : Hand} {m : Merge} {dest src : GroupKey} {t : Score}
    (ht : Merging.graces s hand m dest src = .ok t) :
    ∃ t', Merging.graces s' (r.hand hand) m (r.group dest) (r.group src) = .ok t' ∧
      t.Renamed r t' := by
  have hplace : (r.hand hand).item = hand.item ∧ (r.hand hand).staff = hand.staff := ⟨rfl, rfl⟩
  simp only [Merging.graces, bind_eq_ok] at ht
  obtain ⟨theirs, htheirs, ht⟩ := ht
  simp only [Merging.graces, hplace, h.graceRun, htheirs, Except.map, bind, Except.bind,
    List.isEmpty_map]
  by_cases hempty : theirs.isEmpty = true
  · rw [if_pos hempty] at ht ⊢
    cases ht
    exact ⟨s', rfl, h⟩
  rw [if_neg hempty] at ht ⊢
  simp only [bind_eq_ok] at ht
  obtain ⟨ours, hours, ht⟩ := ht
  simp only [hours, ← List.map_reverse, List.zip_map, ← List.map_take, List.length_map,
    List.isEmpty_map]
  have hfolded := h.foldPairs (ours.reverse.zip theirs.reverse)
  by_cases hnone : (theirs.take (theirs.length - ours.length)).isEmpty = true
  · rw [if_pos hnone] at ht ⊢
    cases ht
    exact ⟨_, rfl, hfolded⟩
  · rw [if_neg hnone] at ht ⊢
    exact hfolded.moveGraces ht

theorem merge (h : s.Renamed r s') {hand : Hand} {m : Merge} {t : Score}
    (ht : Merging.merge hand s m = .ok t) :
    ∃ t', Merging.merge (r.hand hand) s' m = .ok t' ∧ t.Renamed r t' := by
  unfold Merging.merge at ht ⊢
  rw [Renaming.voice?_hand, Renaming.voice?_hand]
  cases hdest : hand.voice? m.dest with
  | none => simp [hdest] at ht
  | some dest =>
    cases hsrc : hand.voice? m.src with
    | none => simp [hdest, hsrc] at ht
    | some src =>
      simp only [hdest, hsrc, bind_eq_ok, pure_eq_ok] at ht
      obtain ⟨u, hu, rfl⟩ := ht
      obtain ⟨u', hu', hrenamed⟩ := h.graces hu
      refine ⟨_, ?_, hrenamed.foldInto dest src⟩
      simp only [Option.map_some, hu']
      rfl

theorem perform (h : s.Renamed r s') {plans : List Plan} {p : Merging.Progress}
    (hp : Merging.perform s l plans = .ok p) :
    ∃ t', Merging.perform s' (r.layout l) plans = .ok ⟨t', p.merges⟩ ∧ p.score.Renamed r t' := by
  have hzip : (r.layout l).hands.zip plans = (l.hands.zip plans).map (Prod.map r.hand id) := by
    rw [Renaming.layout, List.zip_map_left]
  rw [Merging.perform_eq, map_eq_ok] at hp
  obtain ⟨t, ht, rfl⟩ := hp
  obtain ⟨t', ht', hrenamed⟩ : ∃ t', ((r.layout l).hands.zip plans).foldlM
      (fun s (x : Hand × Plan) => x.2.foldlM (Merging.merge x.1) s) s' = .ok t' ∧
        t.Renamed r t' := by
    rw [hzip]
    refine foldlM_related (fun x u u' v hrenamed hv => ?_) h ht
    have hplan := foldlM_related (h := id) (fun m w w' v hw hv => hw.merge hv) hrenamed hv
    rwa [List.map_id] at hplan
  refine ⟨t', ?_, hrenamed⟩
  rw [Merging.perform_eq, ht', hzip, List.map_map]
  rfl

/-- The same pairs are tested, the same merges are made, and what comes of them is the same score
under other keys. -/
theorem combine (h : s.Renamed r s') {c : Combination} (hc : s.combineVoices = .ok c) :
    ∃ c', s'.combineVoices = .ok c' ∧ c'.events = c.events ∧ c.score.Renamed r c'.score := by
  obtain ⟨hlayout, hverdicts, hplanned, hscore⟩ := combineVoices_eq_ok hc
  obtain ⟨t', ht', hrenamed⟩ := h.perform hscore
  have hcombine : s'.combineVoices =
      .ok ⟨r.layout c.layout, c.verdicts, c.planned, t', c.merges⟩ := by
    simp only [Score.combineVoices, h.layout, hlayout, Except.map, bind, Except.bind, h.judge,
      hverdicts, h.plan, ← hplanned, ht']
    rfl
  have hevents : Combination.events ⟨r.layout c.layout, c.verdicts, c.planned, t', c.merges⟩ =
      c.events := by
    simp only [Combination.events, Combination.verdictEvents, Combination.planEvents,
      Combination.mergeEvents, Renaming.layout, List.zip_map_left, List.flatMap_map,
      List.getElem?_map, Option.map_map, List.length_map]
    rfl
  exact ⟨_, hcombine, hevents, hrenamed⟩

/-! ## Reports -/

theorem memberName (h : s.Renamed r s') (m : Member) :
    Report.memberName s' (r.member m) = Report.memberName s m := by
  cases m with
  | group key => simp only [Renaming.member, Report.memberName, h.get]
  | syllable key => simp only [Renaming.member, Report.memberName, Arena.get, h.syllables]

/-- What is printed does not depend on the keys. -/
theorem report (h : s.Renamed r s') : Report.ofScore s' = Report.ofScore s := by
  have hchord : ∀ c, Report.chord s' (r.chord c) = Report.chord s c := fun c => by
    simp only [Report.chord, Renaming.chord, Chord.mapMembers, List.map_map, Function.comp_def,
      h.memberName]
  have hstave : ∀ st, Report.stave s' (r.stave st) = Report.stave s st := fun st => by
    simp only [Report.stave, Renaming.present_stave, List.map_map, Function.comp_def, h.get]
    simp only [Renaming.stave, List.map_map, Function.comp_def, Arena.get, h.syllables]
  have hmeasure : ∀ m, Report.measure s' (r.measure m) = Report.measure s m := fun m => by
    simp only [Report.measure, Renaming.measure, List.map_map, Function.comp_def, hchord, hstave]
  simp only [Report.ofScore, h.header, h.measures, List.map_map, Function.comp_def, hmeasure]

end Score.Renamed

end Divisi
