/-
Wish-lists in any order.

A request asks for pairs of the voices that it names, so neither their order nor naming one twice
makes a difference. It can make a request active that asks for nothing: then no pair is judged,
and whether it is for whole measures matters to no merge. So a score can be brought into a form in
which each request names its voices once, in ascending order (`Score.normal`); building and
combining go the same way in that form, and two scores that differ in their wish-lists alone have
the same one (`Score.wishes_in_any_order`).
-/
import Divisi.Proofs.Combined
import Divisi.Proofs.Renamed

namespace Divisi

/-! ## Requests in normal form -/

namespace Request

/-- The request with each of its voices once, in ascending order. -/
def normal (r : Request) : Request := { r with voices := distinct r.voices }

theorem distinct_eq_of_mem_iff {voices voices' : List Nat} (h : ∀ v, v ∈ voices ↔ v ∈ voices') :
    distinct voices = distinct voices' :=
  (distinct_ascending voices).eq_of_mem_iff (distinct_ascending voices') fun v => by
    rw [mem_distinct, mem_distinct, h]

theorem pairs_nodup (r : Request) : r.pairs.Nodup := by
  refine r.pairs_ascending.1.imp fun hbefore heq => ?_
  rw [heq] at hbefore
  rcases hbefore with hlt | ⟨-, hlt⟩ <;> exact lt_irrefl _ hlt

theorem pairs_normal (r : Request) : r.normal.pairs = r.pairs :=
  congrArg mergesAmong (distinct_eq_of_mem_iff fun _ => mem_distinct)

theorem length_distinct_le (voices : List Nat) : (distinct voices).length ≤ voices.length :=
  have hnodup : (distinct voices).Nodup := (distinct_ascending voices).imp Nat.ne_of_lt
  (List.subperm_of_subset hnodup fun _ => mem_distinct.mp).length_le

theorem isActive_of_normal {r : Request} (h : r.normal.isActive = true) : r.isActive = true := by
  have hdistinct : 2 ≤ (distinct r.voices).length := of_decide_eq_true h
  exact decide_eq_true (hdistinct.trans (length_distinct_le r.voices))

theorem pairs_of_not_active {r : Request} (h : r.normal.isActive = false) : r.pairs = [] := by
  have hfew : ¬2 ≤ (distinct r.voices).length := of_decide_eq_false h
  rw [pairs]
  match distinct r.voices, hfew with
  | [], _ => rfl
  | [_], _ => rfl
  | _ :: _ :: _, h => exact absurd (by simp) h

/-- A request that may be in force, in normal form; one that asks for nothing is none. -/
def inForce? (r : Option Request) : Option Request := (r.map normal).filter isActive

theorem inForce?_of_active {r : Request} (h : r.normal.isActive = true) :
    inForce? (some r) = some r.normal := Option.filter_some_pos h

theorem inForce?_of_not_active {r : Request} (h : r.normal.isActive = false) :
    inForce? (some r) = none := Option.filter_some_neg h

theorem inForce?_filter (r : Option Request) : inForce? (r.filter isActive) = inForce? r := by
  cases r with
  | none => rfl
  | some r =>
    cases h : r.isActive with
    | true => rw [Option.filter_some_pos h]
    | false =>
      have hnot : r.normal.isActive = false :=
        Bool.eq_false_iff.mpr fun hn => Bool.eq_false_iff.mp h (isActive_of_normal hn)
      rw [Option.filter_some_neg h, inForce?_of_not_active hnot]
      rfl

/-- Whatever comes of a request through its pairs, and is `x` if it has none, comes of its normal
form too. -/
theorem elim_inForce? {α : Type} {x : α} {f : Qualifier → Bool → List Merge → α}
    (hnone : ∀ q byMeasure, f q byMeasure [] = x) (r : Option Request) :
    (inForce? r).elim x (fun r => f r.qualifier r.byMeasure r.pairs) =
      r.elim x fun r => f r.qualifier r.byMeasure r.pairs := by
  cases r with
  | none => rfl
  | some r =>
    cases hactive : r.normal.isActive with
    | true =>
      rw [inForce?_of_active hactive, Option.elim_some, Option.elim_some, r.pairs_normal]
      rfl
    | false =>
      rw [inForce?_of_not_active hactive, Option.elim_none, Option.elim_some,
        pairs_of_not_active hactive, hnone]

end Request

/-! ## Scores in normal form -/

def Settings.normal (x : Settings) : Settings := { x with request := x.request.map Request.normal }

def Change.normal (c : Change) : Change := { c with settings := c.settings.normal }

def Item.normal : Item → Item
  | .change c => .change c.normal
  | .measure m => .measure m

/-- The score with all its requests in normal form. -/
def Score.normal (s : Score) : Score := { s with items := s.items.map Item.normal }

namespace InForce

/-- The settings with all their requests in normal form. -/
def normal (f : InForce) : InForce := { settings := fun scope => (f.settings scope).normal }

variable (f : InForce)

theorem apply_normal (c : Change) : f.normal.apply c.normal = (f.apply c).normal := by
  have horElse : ∀ new old : Settings, new.normal.orElse old.normal = (new.orElse old).normal := by
    intro new old
    obtain ⟨_, _, request⟩ := new
    cases request <;> rfl
  refine congrArg mk (funext fun scope => ?_)
  change (if scope = c.scope then c.settings.normal.orElse (f.settings scope).normal
    else (f.settings scope).normal) =
      (if scope = c.scope then c.settings.orElse (f.settings scope) else f.settings scope).normal
  split
  · exact horElse _ _
  · rfl

theorem request_normal (staff : Nat) :
    f.normal.request staff = Request.inForce? (f.request staff) := by
  rw [request, request, Request.inForce?_filter, Request.inForce?]
  simp only [normal, Settings.normal]
  cases (f.settings (.staff staff)).request <;> rfl

end InForce

/-! ## Building -/

theorem Erasing.staves_normal (measure : Nat) (f : InForce) (stock : Stock) (ss : List Stave) :
    staves measure f.normal stock ss = staves measure f stock ss := by
  induction ss generalizing stock with
  | nil => rfl
  | cons st rest ih =>
    simp only [staves, ih]
    rfl

namespace Chording

variable (syllables : Arena Syllable) (packing : Float)

theorem measure_normal (f : InForce) (stock : Stock) (m : Measure) :
    measure syllables packing f.normal stock m = measure syllables packing f stock m := by
  simp only [measure, Erasing.staves_normal]
  rfl

theorem items_normal (f : InForce) (stock : Stock) (its : List Item) :
    items syllables packing f.normal stock (its.map Item.normal) =
      { items syllables packing f stock its with
        now := (items syllables packing f stock its).now.map Item.normal } := by
  induction its generalizing f stock with
  | nil => rfl
  | cons i rest ih =>
    cases i with
    | change c =>
      simp only [List.map_cons, Item.normal, items, f.apply_normal, ih]
    | measure m =>
      simp only [List.map_cons, Item.normal, items, measure_normal, ih]
      cases (measure syllables packing f stock m).fault with
      | none => rfl
      | some fault => rfl

end Chording

theorem Score.buildChords_normal (s : Score) :
    s.normal.buildChords = { s.buildChords with now := s.buildChords.now.normal } := by
  have hitems := Chording.items_normal s.syllables s.header.options.packing .start
    { groups := s.groups, tags := s.tags } s.items
  simp only [buildChords, normal]
  rw [show InForce.start = InForce.start.normal from rfl, hitems]
  rfl

/-! ## Scores and hands -/

namespace Score

variable (s : Score)

theorem measures_normal : s.normal.measures = s.measures := by
  simp only [measures, normal, List.filterMap_map]
  refine List.filterMap_congr fun i _ => ?_
  cases i <;> rfl

theorem measureAt?_normal (i : Nat) : s.normal.measureAt? i = s.measureAt? i := by
  simp only [measureAt?, normal, List.getElem?_map]
  cases s.items[i]? with
  | none => rfl
  | some i => cases i <;> rfl

theorem list?_normal (layer : Layer) : s.normal.list? layer = s.list? layer := by
  simp only [list?, measureAt?_normal]

theorem voiceList_normal (i staff v : Nat) : s.normal.voiceList i staff v = s.voiceList i staff v := by
  simp only [voiceList, measureAt?_normal]

theorem setVoiceList_normal (i staff v : Nat) (list : Option (List GroupKey)) :
    s.normal.setVoiceList i staff v list = (s.setVoiceList i staff v list).normal := by
  refine congrArg (fun items => { s with items }) (Renaming.map_modify (fun x => ?_) s.items i).symm
  cases x <;> rfl

end Score

/-- The measure with the settings in force at it in normal form. -/
def Placed.normal (p : Placed) : Placed := { p with inForce := p.inForce.normal }

theorem Score.placed_normal (s : Score) : s.normal.placed = s.placed.map Placed.normal := by
  have halong : ∀ (items : List Item) (i : Nat) (f : InForce),
      Placed.along i f.normal (items.map Item.normal) = (Placed.along i f items).map .normal := by
    intro items
    induction items with
    | nil => intro i f; rfl
    | cons x rest ih =>
      intro i f
      cases x with
      | change c =>
        rw [List.map_cons, Item.normal, Placed.along, f.apply_normal]
        exact ih (i + 1) (f.apply c)
      | measure m => exact congrArg _ (ih (i + 1) f)
  exact halong s.items 0 .start

/-- The hand with its request in normal form, if it asks for anything. -/
def Hand.normal (h : Hand) : Hand := { h with request := Request.inForce? h.request }

theorem Hand.ofChord_normal (groups : Arena Group) (p : Placed) (c : Chord) (index : Nat) :
    Hand.ofChord groups p.normal c index =
      (Hand.ofChord groups p c index).map (List.map Hand.normal) := by
  unfold Hand.ofChord
  dsimp only [Placed.normal]
  cases c.groups.foldlM (Hand.seat groups p.measure.number c.start) [] with
  | error e => rfl
  | ok seats =>
    simp only [bind, Except.bind, InForce.request_normal]
    refine congrArg Except.ok ?_
    rw [List.map_map]
    rfl

theorem Hand.ofMeasure_normal (groups : Arena Group) (p : Placed) :
    Hand.ofMeasure groups p.normal = (Hand.ofMeasure groups p).map (List.map Hand.normal) := by
  have hchords : p.measure.chords.zipIdx.mapM (fun x => ofChord groups p.normal x.1 x.2) =
      (p.measure.chords.zipIdx.mapM fun x => ofChord groups p x.1 x.2).map
        (List.map (List.map normal)) := by
    simpa using mapM_map_eq (h := id) (fun x : Chord × Nat => ofChord_normal groups p x.1 x.2)
      p.measure.chords.zipIdx
  unfold ofMeasure
  refine (congrArg (· >>= _) hchords).trans ?_
  cases p.measure.chords.zipIdx.mapM fun x => Hand.ofChord groups p x.1 x.2 with
  | error e => rfl
  | ok hands => exact congrArg Except.ok List.map_flatten.symm

namespace Layout

/-- The layout with the requests of its hands in normal form. -/
def normal (l : Layout) : Layout := { l with hands := l.hands.map Hand.normal }

theorem line_normal (s : Score) (hands : List Hand) (staff voice : Nat) :
    line s.normal (hands.map Hand.normal) staff voice = line s hands staff voice := by
  have hhand : handOf? (hands.map Hand.normal) = handOf? hands := by
    funext key
    rw [handOf?, List.findIdx?_map]
    rfl
  simp only [line, s.measures_normal, stops, hhand]
  rfl

theorem of_normal (s : Score) : Layout.of s.normal = (Layout.of s).map normal := by
  have hhands := mapM_map_eq (Hand.ofMeasure_normal s.groups) s.placed
  unfold Layout.of
  rw [s.placed_normal]
  refine (congrArg (· >>= _) hhands).trans ?_
  cases s.placed.mapM (Hand.ofMeasure s.groups) with
  | error e => rfl
  | ok hands =>
    refine congrArg Except.ok ?_
    simp only [staffs, s.measures_normal, normal, ← List.map_flatten,
      funext (line_normal s hands.flatten _)]

end Layout

/-! ## Verdicts and plans -/

namespace Layout

variable (s : Score) (l : Layout)

theorem follow_normal (heading : Heading) (byMeasure : Bool) (accept : Nat → Bool)
    (ds es : List Stop) :
    follow s.normal heading byMeasure accept ds es = follow s heading byMeasure accept ds es := by
  have hlinked : linked s.normal heading byMeasure = linked s heading byMeasure := rfl
  induction ds generalizing es with
  | nil => simp only [follow]
  | cons d ds ih =>
    cases es with
    | nil => simp only [follow]
    | cons e es => simp only [follow, hlinked, ih]

theorem agrees_normal (byMeasure : Bool) (accept : Nat → Bool) (dest src : GroupKey) :
    l.normal.agrees s.normal byMeasure accept dest src = l.agrees s byMeasure accept dest src := by
  simp only [agrees, follow_normal]
  rfl

end Layout

theorem Score.graceRun_normal (s : Score) (i staff v : Nat) (key : GroupKey) :
    s.normal.graceRun i staff v key = s.graceRun i staff v key := by
  unfold graceRun
  rw [s.voiceList_normal]
  rfl

theorem Hand.judge_eq_elim (s : Score) (l : Layout) (h : Hand) : h.judge s l =
    h.request.elim (.ok []) fun r => do
      let verdicts ← r.pairs.mapM (judge? s l h r.qualifier)
      return verdicts.filterMap id := by
  unfold judge
  cases h.request <;> rfl

/-- A request that asks for nothing gets no verdict. -/
theorem Hand.judge_normal (s : Score) (l : Layout) (h : Hand) :
    h.normal.judge s.normal l.normal = h.judge s l := by
  have hjudge : h.normal.judge? s.normal l.normal = h.judge? s l := by
    funext q m
    simp only [judge?, s.graceRun_normal]
    rfl
  rw [judge_eq_elim, judge_eq_elim, hjudge]
  exact Request.elim_inForce? (f := fun q _ pairs => do
    let verdicts ← pairs.mapM (judge? s l h q)
    return verdicts.filterMap id) (fun _ _ => rfl) h.request

theorem Layout.judge_normal (s : Score) (l : Layout) : l.normal.judge s.normal = l.judge s := by
  rw [judge, normal, List.mapM_map]
  exact congrArg l.hands.mapM (funext (Hand.judge_normal s l))

namespace Planning

variable (s : Score) (l : Layout)

theorem consider_normal (n : Nat) (h : Hand) (byMeasure : Bool) :
    consider s.normal l.normal n h.normal byMeasure = consider s l n h byMeasure := by
  funext d m
  simp only [consider, Layout.agrees_normal]
  rfl

theorem hand_eq_elim (tables : Array Affinity) (h : Hand) (n : Nat) : hand s l tables h n =
    h.request.elim { tables } fun r => r.pairs.foldl (consider s l n h r.byMeasure) { tables } := by
  unfold hand
  cases h.request <;> rfl

theorem hand_normal (tables : Array Affinity) (h : Hand) (n : Nat) :
    hand s.normal l.normal tables h.normal n = hand s l tables h n := by
  simp only [hand_eq_elim, consider_normal]
  exact Request.elim_inForce? (f := fun _ byMeasure pairs =>
    pairs.foldl (consider s l n h byMeasure) { tables }) (fun _ _ => rfl) h.request

theorem hands_normal (tables : Array Affinity) (hands : List (Hand × Nat)) :
    Planning.hands s.normal l.normal tables (hands.map fun x => (x.1.normal, x.2)) =
      Planning.hands s l tables hands := by
  induction hands generalizing tables with
  | nil => rfl
  | cons x rest ih => simp only [List.map_cons, Planning.hands, hand_normal, ih]

/-- Where something is planned for a hand, its request is in force in normal form too. -/
theorem byMeasure_normal_of_plan (tables : Array Affinity) {h : Hand} {n : Nat}
    (hplan : (hand s l tables h n).choice.plan ≠ []) :
    h.normal.request.any (·.byMeasure) = h.request.any (·.byMeasure) := by
  rw [hand_eq_elim] at hplan
  cases hrequest : h.request with
  | none =>
    rw [hrequest] at hplan
    exact absurd rfl hplan
  | some r =>
    cases hactive : r.normal.isActive with
    | true =>
      rw [Hand.normal, hrequest, Request.inForce?_of_active hactive]
      rfl
    | false =>
      rw [hrequest, Option.elim_some, Request.pairs_of_not_active hactive] at hplan
      exact absurd rfl hplan

/-- Requests are for whole measures alike wherever something is planned. -/
def SameWhere (planned : List Plan) (byMeasure byMeasure' : List Bool) : Prop :=
  ∀ (n : Nat) plan, planned[n]? = some plan → plan ≠ [] →
    byMeasure[n]?.getD false = byMeasure'[n]?.getD false

theorem sameWhere_hands (tables : Array Affinity) (hands : List Hand) (i : Nat) :
    SameWhere ((Planning.hands s l tables (hands.zipIdx i)).map (·.plan))
      (hands.map fun h => h.normal.request.any (·.byMeasure))
      (hands.map fun h => h.request.any (·.byMeasure)) := by
  induction hands generalizing tables i with
  | nil =>
    intro n plan hplan
    simp [Planning.hands] at hplan
  | cons h rest ih =>
    intro n plan hplan hne
    rw [List.zipIdx_cons, Planning.hands] at hplan
    cases n with
    | zero =>
      cases hplan
      exact byMeasure_normal_of_plan s l tables hne
    | succ n => exact ih _ (i + 1) n plan hplan hne

variable {s l}

/-- Plans only become less. -/
theorem SameWhere.prune {plans : List Plan} {byMeasure byMeasure' : List Bool}
    (h : SameWhere plans byMeasure byMeasure') (byMeasure₀ : List Bool) (s : Score) (l : Layout) :
    SameWhere (Planning.prune s l byMeasure₀ plans) byMeasure byMeasure' := by
  intro n plan hplan hne
  obtain ⟨whole, hwhole, hsub⟩ := exists_of_forall₂ (prune_sublist s l byMeasure₀ plans) hplan
  exact h n whole hwhole fun hnil => hne (List.sublist_nil.mp (hnil ▸ hsub))

theorem SameWhere.settle {plans : List Plan} {byMeasure byMeasure' : List Bool}
    (h : SameWhere plans byMeasure byMeasure') :
    Planning.settle s.normal l.normal byMeasure plans = Planning.settle s l byMeasure' plans := by
  refine settle_congr (P := (SameWhere · byMeasure byMeasure')) (fun _ h => h.prune _ _ _)
    (fun plans h n plan hplan m hm => ?_) h
  have hvoice : ∀ v, l.normal.hands[n]?.bind (·.voice? v) = l.hands[n]?.bind (·.voice? v) := by
    intro v
    simp only [Layout.normal, List.getElem?_map]
    cases l.hands[n]? <;> rfl
  simp only [holds, hvoice, Layout.agrees_normal, h n plan hplan (List.ne_nil_of_mem hm)]

end Planning

/-- The same merges are chosen, declined and withdrawn. -/
theorem Layout.plan_normal (s : Score) (l : Layout) (tables : List Affinity) :
    l.normal.plan s.normal tables = l.plan s tables := by
  have hchoices : Planning.hands s.normal l.normal tables.toArray l.normal.hands.zipIdx =
      Planning.hands s l tables.toArray l.hands.zipIdx := by
    rw [normal, List.zipIdx_map]
    exact Planning.hands_normal s l tables.toArray l.hands.zipIdx
  have hsame := Planning.sameWhere_hands s l tables.toArray l.hands 0
  have hbyMeasure : l.normal.byMeasure = l.hands.map fun h => h.normal.request.any (·.byMeasure) := by
    simp only [byMeasure, normal, List.map_map]
    rfl
  simp only [plan, hchoices, hbyMeasure, hsame.settle]
  rfl

/-! ## Merges -/

namespace Merging

variable (s : Score) (h : Hand) (m : Merge)

theorem foldPairs_normal (pairs : List (GroupKey × GroupKey)) :
    s.normal.foldPairs pairs = (s.foldPairs pairs).normal :=
  List.foldl_hom Score.normal (fun _ _ => rfl)

theorem moveGraces_normal (dest : GroupKey) (moved run : List GroupKey) :
    moveGraces s.normal h.normal m dest moved run =
      (moveGraces s h m dest moved run).map Score.normal := by
  have hgroups : ∀ (s : Score) groups, { s.normal with groups } = ({ s with groups } : Score).normal :=
    fun _ _ => rfl
  have hsame : ∀ s : Score, s.normal.groups = s.groups := fun _ => rfl
  unfold moveGraces
  dsimp only [Hand.normal]
  simp only [hgroups, hsame, Score.voiceList_normal, Score.setVoiceList_normal, map_bind_eq]
  refine bind_congr fun theirs => bind_congr fun ours => ?_
  split
  · rfl
  · split <;> rfl

theorem graces_normal (dest src : GroupKey) :
    graces s.normal h.normal m dest src = (graces s h m dest src).map Score.normal := by
  unfold graces
  dsimp only [Hand.normal]
  simp only [Score.graceRun_normal, foldPairs_normal, map_bind_eq]
  refine bind_congr fun theirs => ?_
  by_cases hnone : theirs.isEmpty = true
  · rw [if_pos hnone, if_pos hnone]
    rfl
  rw [if_neg hnone, if_neg hnone, map_bind_eq]
  refine bind_congr fun ours => ?_
  split
  · rfl
  · exact moveGraces_normal _ h m dest _ ours

theorem merge_normal : merge h.normal s.normal m = (merge h s m).map Score.normal := by
  unfold merge
  have hvoice : h.normal.voice? = h.voice? := rfl
  simp only [hvoice, graces_normal]
  split
  · rfl
  · rfl
  · cases graces s h m _ _ <;> rfl

def Progress.normal (p : Progress) : Progress := { p with score := p.score.normal }

theorem perform_normal (l : Layout) (plans : List Plan) :
    perform s.normal l.normal plans = (perform s l plans).map Progress.normal := by
  have hplan : ∀ (s : Score) (x : Hand × Plan), x.2.foldlM (merge x.1.normal) s.normal =
      (x.2.foldlM (merge x.1) s).map Score.normal := fun s x => by
    simpa using foldlM_map_eq (h := id) (fun s m => merge_normal s x.1 m) x.2 s
  rw [perform_eq, perform_eq, Layout.normal, List.zip_map_left,
    foldlM_map_eq (h := Prod.map Hand.normal id) hplan (l.hands.zip plans) s, List.map_map]
  cases (l.hands.zip plans).foldlM (fun s x => x.2.foldlM (merge x.1) s) s <;> rfl

end Merging

/-- The combination with all its requests in normal form. -/
def Combination.normal (c : Combination) : Combination :=
  { c with layout := c.layout.normal, score := c.score.normal }

theorem Score.combineVoices_normal (s : Score) :
    s.normal.combineVoices = s.combineVoices.map Combination.normal := by
  unfold combineVoices
  rw [Layout.of_normal, map_bind_eq]
  cases Layout.of s with
  | error e => rfl
  | ok l =>
    simp only [Except.map, bind, Except.bind, l.judge_normal, l.plan_normal]
    cases l.judge s with
    | error e => rfl
    | ok verdicts =>
      simp only [Merging.perform_normal]
      cases Merging.perform s l (l.plan s (verdicts.map Affinity.ofVerdicts)).plans <;> rfl

/-! ## Scores that differ in their wish-lists alone -/

/-- The requests name the same voices, in whatever order and however often, and ask for them to
be combined in the same way. -/
structure Request.Alike (r r' : Request) : Prop where
  voices : ∀ v, v ∈ r.voices ↔ v ∈ r'.voices
  qualifier : r.qualifier = r'.qualifier
  byMeasure : r.byMeasure = r'.byMeasure

/-- The same measure, or changes that differ at most in the order and repetition of the voices
that they ask for. -/
inductive Item.Alike : Item → Item → Prop
  | measure (m : Measure) : Alike (.measure m) (.measure m)
  | change (scope : Scope) (time : Option Signature) (visible : Option Bool)
      {request request' : Option Request} (h : Option.Rel Request.Alike request request') :
      Alike (.change ⟨scope, ⟨time, visible, request⟩⟩) (.change ⟨scope, ⟨time, visible, request'⟩⟩)

/-- The scores differ at most in the order and repetition of the voices in their wish-lists. -/
structure Score.Alike (s s' : Score) : Prop where
  header : s.header = s'.header
  items : List.Forall₂ Item.Alike s.items s'.items
  groups : s.groups = s'.groups
  syllables : s.syllables = s'.syllables
  tags : s.tags = s'.tags

theorem Request.alike_iff {r r' : Request} : r.Alike r' ↔ r.normal = r'.normal := by
  rw [normal, normal, mk.injEq]
  constructor
  · exact fun h => ⟨distinct_eq_of_mem_iff h.voices, h.qualifier, h.byMeasure⟩
  · rintro ⟨hvoices, hqualifier, hbyMeasure⟩
    exact ⟨fun v => by rw [← mem_distinct, hvoices, mem_distinct], hqualifier, hbyMeasure⟩

theorem Item.alike_iff {i i' : Item} : i.Alike i' ↔ i.normal = i'.normal := by
  constructor
  · rintro (m | ⟨scope, time, visible, h⟩)
    · rfl
    · cases h with
      | none => rfl
      | some h => simp only [normal, Change.normal, Settings.normal, Option.map_some,
          Request.alike_iff.mp h]
  · intro h
    cases i with
    | measure m =>
      cases i' with
      | measure m' =>
        cases h
        exact .measure m
      | change c' => cases h
    | change c =>
      cases i' with
      | measure m' => cases h
      | change c' =>
        obtain ⟨scope, time, visible, request⟩ := c
        obtain ⟨scope', time', visible', request'⟩ := c'
        simp only [normal, Change.normal, Settings.normal, Item.change.injEq, Change.mk.injEq,
          Settings.mk.injEq] at h
        obtain ⟨rfl, rfl, rfl, hrequest⟩ := h
        refine .change _ _ _ ?_
        cases request <;> cases request' <;> simp only [Option.map_none, Option.map_some,
          reduceCtorEq, Option.some.injEq] at hrequest
        · exact .none
        · exact .some (Request.alike_iff.mpr hrequest)

/-- Scores that differ in their wish-lists alone are those with one normal form. -/
theorem Score.alike_iff {s s' : Score} : s.Alike s' ↔ s.normal = s'.normal := by
  have hitems : List.Forall₂ Item.Alike s.items s'.items ↔
      s.items.map Item.normal = s'.items.map Item.normal := by
    simp only [← List.forall₂_eq_eq_eq, List.forall₂_map_left_iff, List.forall₂_map_right_iff,
      ← Item.alike_iff]
  rw [normal, normal, mk.injEq, ← hitems]
  exact ⟨fun h => ⟨h.header, h.items, h.groups, h.syllables, h.tags⟩,
    fun ⟨header, items, groups, syllables, tags⟩ => ⟨header, items, groups, syllables, tags⟩⟩

namespace Score.Alike

variable {s s' : Score}

theorem list? (h : s.Alike s') (layer : Layer) : s'.list? layer = s.list? layer := by
  rw [← s'.list?_normal, ← alike_iff.mp h, s.list?_normal]

theorem buildChords (h : s.Alike s') : s.buildChords.fault = s'.buildChords.fault ∧
    s.buildChords.now.Alike s'.buildChords.now := by
  have hbuilt := congrArg Score.buildChords (alike_iff.mp h)
  rw [buildChords_normal, buildChords_normal] at hbuilt
  exact ⟨congrArg (·.fault) hbuilt, alike_iff.mpr (congrArg (·.now) hbuilt)⟩

theorem combine (h : s.Alike s') {c c' : Combination} (hc : s.combineVoices = .ok c)
    (hc' : s'.combineVoices = .ok c') : c.merges = c'.merges ∧ c.score.Alike c'.score := by
  have hcombined := congrArg Score.combineVoices (alike_iff.mp h)
  rw [combineVoices_normal, combineVoices_normal, hc, hc'] at hcombined
  have hnormal : c.normal = c'.normal := Except.ok.inj hcombined
  exact ⟨congrArg (·.merges) hnormal, alike_iff.mpr (congrArg (·.score) hnormal)⟩

end Score.Alike

/-- **Neither the order of a wish-list nor repetitions in it make a difference.** The candidates
of a request are the pairs of its voices, the lower first, each once and in lexicographic order.
Two scores that were read may differ in the order and repetition of the voices in their wish-lists:
then chords are built alike, and where they are built, as many merges are made, and each voice has
the same list and each group is the same in the end. -/
theorem Score.wishes_in_any_order :
    (∀ r : Request, r.pairs.Nodup ∧ r.pairs.Pairwise Request.Before ∧
      ∀ m, m ∈ r.pairs ↔ m.dest < m.src ∧ m.dest ∈ r.voices ∧ m.src ∈ r.voices) ∧
    ∀ s s' : Score, s.Parsed → s'.Parsed → s.Alike s' →
      s'.buildChords.fault = s.buildChords.fault ∧
      (s.buildChords.fault = none → ∃ c c', s.buildChords.now.combineVoices = .ok c ∧
        s'.buildChords.now.combineVoices = .ok c' ∧ c'.merges = c.merges ∧
          c'.score.groups = c.score.groups ∧ (∀ layer, c'.score.list? layer = c.score.list? layer) ∧
            c.score.Alike c'.score) := by
  refine ⟨fun r => ⟨r.pairs_nodup, r.pairs_ascending.1, fun m => ?_⟩, fun s s' hs hs' h => ?_⟩
  · rw [Request.mem_pairs]
    tauto
  · obtain ⟨hfault, hbuilt⟩ := h.buildChords
    refine ⟨hfault.symm, fun hnone => ?_⟩
    have ht : s.buildChords.now.Chorded := ⟨s, hs, hnone, rfl⟩
    have ht' : s'.buildChords.now.Chorded := ⟨s', hs', hfault.symm.trans hnone, rfl⟩
    obtain ⟨c, hc, -⟩ := ht.combined
    obtain ⟨c', hc', -⟩ := ht'.combined
    obtain ⟨hmerges, hscore⟩ := hbuilt.combine hc hc'
    exact ⟨c, c', hc, hc', hmerges.symm, hscore.groups.symm, hscore.list?, hscore⟩

instance (s s' : Score) : Decidable (s.Alike s') := decidable_of_iff _ Score.alike_iff.symm

/-- Two voices that go together, in a score with a wish-list, and again where the staff has one
too. -/
def askedBy (wishes ofStaff : String) : String :=
  "vcombine:\n voices: " ++ wishes ++ "\nmusic:\n" ++ together ++
  "- params: \x7bstaff: 1, vcombine: \x7bvoices: " ++ ofStaff ++ "\x7d\x7d\n" ++ together
where
  together := "- measure:\n  - voices:\n     1:\n     - time: 1\n       notes: [e5]\n" ++
    "     2:\n     - time: 1\n       notes: [c5]\n"

/-- The score may ask for the second voice twice and before the first. The staff then asks for one
voice, which makes its list active where the voice is repeated, and hides the score's either way. -/
theorem Score.wishes_in_any_order_repeated : ∃ s s' : Score, s.Parsed ∧ s'.Parsed ∧ s.Alike s' ∧
    s ≠ s' ∧ ∃ c c', s.buildChords.now.combineVoices = .ok c ∧
      s'.buildChords.now.combineVoices = .ok c' ∧ c.merges = 1 ∧ c'.merges = 1 ∧
        c'.score.groups = c.score.groups ∧ (∀ layer, c'.score.list? layer = c.score.list? layer) ∧
          c.score.Alike c'.score := by
  obtain ⟨s, s', hs, hs', halike, hne, hnone, hmade⟩ := Score.exists_two_of_spelled
    (askedBy "[1, 2]" "[1]") (askedBy "[2, 1, 2]" "[1, 1]")
    (.append (.append (.append (.append (.append (.append (.append (.ofList _) (.ofList _)) (.ofList _))
      (.append (.ofList _) (.ofList _))) (.ofList _)) (.ofList _)) (.ofList _))
      (.append (.ofList _) (.ofList _)))
    (.append (.append (.append (.append (.append (.append (.append (.ofList _) (.ofList _)) (.ofList _))
      (.append (.ofList _) (.ofList _))) (.ofList _)) (.ofList _)) (.ofList _))
      (.append (.ofList _) (.ofList _)))
    (P := fun s s' => s.Alike s' ∧ s ≠ s' ∧ s.buildChords.fault = none ∧
      (s.buildChords.now.combineVoices.toOption.any fun c => c.merges == 1) = true)
    (by decide +kernel)
  obtain ⟨c, c', hc, hc', hmerges, hgroups, hlists, hscore⟩ :=
    (Score.wishes_in_any_order.2 s s' (.of_text hs) (.of_text hs') halike).2 hnone
  simp only [hc, Except.toOption, Option.any_some, beq_iff_eq] at hmade
  exact ⟨s, s', .of_text hs, .of_text hs', halike, hne, c, c', hc, hc', hmade, hmerges.trans hmade, hgroups,
    hlists, hscore⟩

end Divisi
