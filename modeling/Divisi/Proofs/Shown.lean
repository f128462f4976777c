/-
What building leaves of the voices of a score.

A hidden voice on a staff that is shown holds one space as long as its measure;
every other voice keeps its list and its groups (`Stave.Shown`). Erasing a voice
touches nothing that another list names, so what holds of one stave when it is
erased still holds when the whole score has been built (`SameAt`).
-/
import Divisi.Chording
import Divisi.Proofs.Sound

namespace Divisi

/-- A score with other groups and tags. -/
def Stock.on (stock : Stock) (s : Score) : Score :=
  { s with groups := stock.groups, tags := stock.tags }

/-- Both arenas hold the same at these keys. -/
def SameAt (a b : Arena Group) (keys : List GroupKey) : Prop := ∀ k ∈ keys, b.get? k = a.get? k

namespace SameAt

variable {a b c : Arena Group} {keys others : List GroupKey}

theorem refl : SameAt a a keys := fun _ _ => rfl

theorem trans (h : SameAt a b keys) (h' : SameAt b c keys) : SameAt a c keys :=
  fun k hk => (h' k hk).trans (h k hk)

theorem mono (h : SameAt a b keys) (hsub : ∀ k ∈ others, k ∈ keys) : SameAt a b others :=
  fun k hk => h k (hsub k hk)

end SameAt

/-- What becomes of the voices of a stave of which some are to hide. -/
structure Stave.Shown (hide : Nat → Bool) (measure : Nat) (length : Time) (groups groups' : Arena Group)
    (s s' : Stave) : Prop where
  staff : s'.staff = s.staff
  verses : s'.verses = s.verses
  kept : ∀ v, hide v = false → s'.list? v = s.list? v ∧
    ∀ list, s.list? v = some list → SameAt groups groups' list
  /-- A hidden voice holds a space that fills the measure. -/
  hidden : ∀ v, hide v = true → ∀ list, s.list? v = some list → ∃ k, s'.list? v = some [k] ∧
    groups'.get? k = some (.measureSpace s.staff v measure length)
  absent : ∀ v, s.list? v = none → s'.list? v = none

namespace Stave.Shown

variable {hide hide' : Nat → Bool} {measure : Nat} {length : Time}
  {groups groups' groups'' : Arena Group} {s s' s'' : Stave}

/-- What is shown stays as it is while nothing that the stave lists changes. -/
theorem later (h : s.Shown hide measure length groups groups' s')
    (hsame : SameAt groups' groups'' ((s'.postings measure).map (·.key))) :
    s.Shown hide measure length groups groups'' s' := by
  have hlist : ∀ v list, s'.list? v = some list → SameAt groups' groups'' list := by
    intro v list hlist
    refine hsame.mono fun k hk => List.mem_map.mpr ⟨⟨measure, s'.staff, v, k⟩, ?_, rfl⟩
    exact mem_postings.mpr ⟨rfl, rfl, list, hlist, hk⟩
  refine ⟨h.staff, h.verses, fun v hv => ?_, fun v hv list hl => ?_, h.absent⟩
  · obtain ⟨heq, hkept⟩ := h.kept v hv
    exact ⟨heq, fun list hl => (hkept list hl).trans (hlist v list (heq.trans hl))⟩
  · obtain ⟨k, hk, hspace⟩ := h.hidden v hv list hl
    exact ⟨k, hk, (hlist v [k] hk k (by simp)).trans hspace⟩

/-- What is shown of a stave goes by what its groups were at the start. -/
theorem earlier (h : s.Shown hide measure length groups' groups'' s')
    (hsame : SameAt groups groups' ((s.postings measure).map (·.key))) :
    s.Shown hide measure length groups groups'' s' := by
  refine ⟨h.staff, h.verses, fun v hv => ?_, h.hidden, h.absent⟩
  obtain ⟨heq, hkept⟩ := h.kept v hv
  refine ⟨heq, fun list hl => SameAt.trans (hsame.mono fun k hk => ?_) (hkept list hl)⟩
  exact List.mem_map.mpr ⟨⟨measure, s.staff, v, k⟩, mem_postings.mpr ⟨rfl, rfl, list, hl, hk⟩, rfl⟩

theorem unhidden (h : ∀ v list, s.list? v = some list → hide v = false) :
    s.Shown hide measure length groups groups s := by
  refine ⟨rfl, rfl, fun _ _ => ⟨rfl, fun _ _ => .refl⟩, fun v hv list hl => ?_, fun _ hl => hl⟩
  rw [h v list hl] at hv
  cases hv

theorem congr (h : s.Shown hide measure length groups groups' s')
    (heq : ∀ v, 1 ≤ v ∧ v ≤ 3 → hide' v = hide v) :
    s.Shown hide' measure length groups groups' s' := by
  have hpresent : ∀ {v list}, s.list? v = some list → hide' v = hide v :=
    fun hl => heq _ (Stave.le_of_list? hl)
  refine ⟨h.staff, h.verses, fun v hv => ?_, fun v hv list hl => ?_, h.absent⟩
  · cases hl : s.list? v with
    | none => exact ⟨h.absent v hl, nofun⟩
    | some list => exact hl ▸ h.kept v (hpresent hl ▸ hv)
  · exact h.hidden v (hpresent hl ▸ hv) list hl

theorem trans (h : s.Shown hide measure length groups groups' s')
    (h' : s'.Shown hide' measure length groups' groups'' s'') :
    s.Shown (fun v => hide v || hide' v) measure length groups groups'' s'' := by
  refine ⟨h'.staff.trans h.staff, h'.verses.trans h.verses, fun v hv => ?_, fun v hv list hl => ?_,
    fun v hl => h'.absent v (h.absent v hl)⟩
  · obtain ⟨hv, hv'⟩ := Bool.or_eq_false_iff.mp hv
    obtain ⟨heq, hkept⟩ := h.kept v hv
    obtain ⟨heq', hkept'⟩ := h'.kept v hv'
    exact ⟨heq'.trans heq, fun list hl => (hkept list hl).trans (hkept' list (heq.trans hl))⟩
  · cases hv' : hide' v with
    | false =>
      obtain ⟨k, hk, hspace⟩ := h.hidden v (by simpa [hv'] using hv) list hl
      obtain ⟨heq, hkept⟩ := h'.kept v hv'
      exact ⟨k, heq.trans hk, (hkept [k] hk k (by simp)).trans hspace⟩
    | true =>
      obtain ⟨list', hl'⟩ : ∃ list', s'.list? v = some list' := by
        cases hide1 : hide v with
        | false => exact ⟨list, (h.kept v hide1).1.trans hl⟩
        | true =>
          obtain ⟨k, hk, -⟩ := h.hidden v hide1 list hl
          exact ⟨[k], hk⟩
      exact h.staff ▸ h'.hidden v hv' list' hl'

theorem sound (h : s.Shown hide measure length groups groups' s') (hs : s.Sound) : s'.Sound := by
  refine ⟨fun v list hlist => ?_, fun verse hverse => hs.verses verse (h.verses ▸ hverse)⟩
  cases hl : s.list? v with
  | none => simp [h.absent v hl] at hlist
  | some old =>
    cases hv : hide v with
    | false =>
      rw [(h.kept v hv).1] at hlist
      exact hs.lists v list hlist
    | true =>
      obtain ⟨k, hk, -⟩ := h.hidden v hv old hl
      cases hk.symm.trans hlist
      simp

end Stave.Shown

theorem Group.measureSpace_written (staff voice measure : Nat) {length : Time} (h : 0 < length) :
    (Group.measureSpace staff voice measure length).Written :=
  ⟨⟨by simp [measureSpace], h.le, by simp [measureSpace], List.Pairwise.nil⟩,
    fun _ => ⟨fun he => absurd he h.ne', fun ht => absurd ht.1 (by simp [measureSpace])⟩,
    by simp [measureSpace]⟩

namespace Erasing

/-- The space that an erased list leaves is put in under a new key. -/
def spaceKey (stock : Stock) (list : List GroupKey) : GroupKey := (stock.groups.removeAll list).fresh

/-- What erasing a list leaves whose first group is `first`. -/
def erasure (stock : Stock) (list : List GroupKey) (first : Group) (length : Time) : Erased :=
  let cleared := stock.groups.removeAll list
  { stock :=
      { groups := cleared.insert (.measureSpace first.staff first.voice first.measure length)
        tags := stock.tags.filter fun tag => cleared.contains tag.2.group }
    list := [cleared.fresh]
    dropped := (stock.tags.filter fun tag => !cleared.contains tag.2.group).map Prod.fst }

theorem erase?_eq {stock : Stock} {list : List GroupKey} {first : Group} {length : Time}
    (h : list.head?.bind stock.groups.get? = some first) :
    stock.erase? list false length = some (erasure stock list first length) := by
  unfold Stock.erase?
  rw [if_neg (by simp), h]
  rfl

theorem get?_erasure (stock : Stock) (list : List GroupKey) (first : Group) (length : Time)
    (k : GroupKey) : (erasure stock list first length).stock.groups.get? k =
      if k = spaceKey stock list then
        some (.measureSpace first.staff first.voice first.measure length)
      else if k ∈ list then none else stock.groups.get? k := by
  rw [← Arena.get?_removeAll]
  exact Arena.get?_insert _ _ _

section Voice

variable {s : Score} {stock : Stock} {ps : List Posting} {vs : List SyllableKey} {st : Stave}
  {measure v : Nat} {length : Time} {list : List GroupKey} {first : Group}

/-- Erasing a list takes its groups out of the arena and puts one space in. -/
theorem erasure_stocked {staff : Nat}
    (h : (stock.on s).Stocked Group.Written (postingsOf measure staff v list ++ ps) vs)
    (hmeasure : first.measure = measure) (hstaff : first.staff = staff) (hvoice : first.voice = v)
    (hlength : 0 < length) :
    ((erasure stock list first length).stock.on s).Stocked Group.Written
      (postingsOf measure staff v [spaceKey stock list] ++ ps) vs ∧
    SameAt stock.groups (erasure stock list first length).stock.groups (ps.map (·.key)) := by
  have hlists : stock.groups.Lists (list ++ ps.map (·.key)) := by
    have := h.groups
    rwa [List.map_append, map_key_postingsOf] at this
  have hcleared := hlists.removeAll
  have hsame : SameAt stock.groups (erasure stock list first length).stock.groups
      (ps.map (·.key)) := by
    intro k hk
    have hout : k ∉ list := fun hin => (List.nodup_append.mp hlists.nodup).2.2 k hin k hk rfl
    have hne : k ≠ spaceKey stock list := hcleared.ne_fresh hk
    rw [get?_erasure, if_neg hne, if_neg hout]
  refine ⟨⟨hcleared.insert _, ?_, ?_, h.syllables, h.timed, ?_⟩, hsame⟩
  · intro p hp
    rcases List.mem_cons.mp hp with rfl | hp
    · exact ⟨_, Arena.get?_insert_fresh _ _, hmeasure, hstaff, hvoice⟩
    · obtain ⟨x, hx, hnamed⟩ := h.named p (List.mem_append_right _ hp)
      exact ⟨x, (hsame p.key (List.mem_map_of_mem hp)).trans hx, hnamed⟩
  · intro k x hx
    change (erasure stock list first length).stock.groups.get? k = some x at hx
    rw [get?_erasure] at hx
    split at hx
    · cases hx
      exact Group.measureSpace_written _ _ _ hlength
    · split at hx
      · cases hx
      · exact h.fits k x hx
  · intro tag htag
    obtain ⟨htag, hstays⟩ := List.mem_filter.mp htag
    obtain ⟨x, hx⟩ := Arena.contains_iff.mp hstays
    obtain ⟨y, hy, hnote⟩ := h.tags tag htag
    refine ⟨y, ?_, hnote⟩
    have hne : tag.2.group ≠ spaceKey stock list := by
      intro he
      rw [he, spaceKey, Arena.get?_fresh] at hx
      cases hx
    have hout : tag.2.group ∉ list := by
      intro hin
      rw [Arena.get?_removeAll, if_pos hin] at hx
      cases hx
    change (erasure stock list first length).stock.groups.get? tag.2.group = some y
    rw [get?_erasure, if_neg hne, if_neg hout]
    exact hy

end Voice

/-- What the erasure of voices of one stave comes to, the postings `ps` being
elsewhere. -/
structure Erases (s : Score) (measure : Nat) (length : Time) (ps : List Posting)
    (vs : List SyllableKey) (hide : Nat → Bool) (stock : Stock) (st : Stave) (e : Erasing Stave) :
    Prop where
  stocked : (e.stock.on s).Stocked Group.Written (e.now.postings measure ++ ps) vs
  shown : st.Shown hide measure length stock.groups e.stock.groups e.now
  others : SameAt stock.groups e.stock.groups (ps.map (·.key))

section Stave

variable {s : Score} {measure : Nat} {length : Time} {ps : List Posting} {vs : List SyllableKey}
  {hide hide' : Nat → Bool} {visible : Nat → Bool} {stock : Stock} {st : Stave}
  {e e' : Erasing Stave} {v : Nat} {list : List GroupKey}

theorem Erases.trans (h : Erases s measure length ps vs hide stock st e)
    (h' : Erases s measure length ps vs hide' e.stock e.now e') :
    Erases s measure length ps vs (fun v => hide v || hide' v) stock st e' :=
  ⟨h'.stocked, h.shown.trans h'.shown, h.others.trans h'.others⟩

theorem voice_erases_nothing
    (h : (e.stock.on s).Stocked Group.Written (e.now.postings measure ++ ps) vs)
    (heq : voice measure length visible e v = e)
    (hvisible : ∀ list, e.now.list? v = some list → visible v = true) :
    Erases s measure length ps vs (fun w => w == v && !visible w) e.stock e.now
      (voice measure length visible e v) := by
  rw [heq]
  refine ⟨h, Stave.Shown.unhidden fun w list hl => ?_, .refl⟩
  by_cases hw : w = v
  · subst hw
    simp [hvisible list hl]
  · simp [hw]

theorem voice_erases_hidden
    (h : (e.stock.on s).Stocked Group.Written (e.now.postings measure ++ ps) vs)
    (hs : e.now.Sound) (hlength : 0 < length) (hl : e.now.list? v = some list)
    (hv : visible v = false) :
    Erases s measure length ps vs (fun w => w == v && !visible w) e.stock e.now
      (voice measure length visible e v) := by
  obtain ⟨others, hbefore, hafter⟩ :=
    Stave.postings_setList (s := e.now) measure (Stave.le_of_list? hl)
  simp only [hl, Option.getD_some] at hbefore
  have hperm := h.perm (hbefore.append_right ps) (.refl _)
  rw [List.append_assoc] at hperm
  obtain ⟨k, rest, rfl⟩ := List.exists_cons_of_ne_nil (hs.lists v list hl)
  obtain ⟨g, hg, hmeasure, hstaff, hvoice⟩ :=
    hperm.named ⟨measure, e.now.staff, v, k⟩ (by simp [postingsOf])
  obtain ⟨hstocked, hsame⟩ := erasure_stocked hperm hmeasure hstaff hvoice hlength
  have herase : e.stock.erase? (k :: rest) false length =
      some (erasure e.stock (k :: rest) g length) := erase?_eq hg
  have heq : voice measure length visible e v =
      { stock := (erasure e.stock (k :: rest) g length).stock
        now := e.now.setList v (some [spaceKey e.stock (k :: rest)])
        events := e.events ++
          (erasure e.stock (k :: rest) g length).dropped.map .tagDropped ++
          [.voiceErased measure e.now.staff v] } := by
    simp only [voice, hl, Option.bind_some, hv, herase]
    rfl
  rw [heq]
  rw [List.map_append] at hsame
  refine ⟨?_, ⟨rfl, rfl, ?_, ?_, ?_⟩, hsame.mono fun _ => List.mem_append_right _⟩
  · refine hstocked.perm ?_ (.refl _)
    rw [← List.append_assoc]
    exact ((hafter (some [spaceKey e.stock (k :: rest)])).append_right ps).symm
  · intro w hw
    have hne : v ≠ w := by
      rintro rfl
      simp [hv] at hw
    refine ⟨by rw [Stave.list?_setList (Stave.le_of_list? hl), if_neg hne], fun list hw => ?_⟩
    refine hsame.mono fun k' hk' => List.mem_append_left _ ?_
    have hmem : (⟨measure, e.now.staff, w, k'⟩ : Posting) ∈ e.now.postings measure :=
      Stave.mem_postings.mpr ⟨rfl, rfl, list, hw, hk'⟩
    refine List.mem_map.mpr ⟨⟨measure, e.now.staff, w, k'⟩, ?_, rfl⟩
    refine (List.mem_append.mp (hbefore.mem_iff.mp hmem)).resolve_left ?_
    simp [postingsOf, hne, Ne.symm hne]
  · intro w hw list _
    obtain ⟨rfl, -⟩ : w = v ∧ visible w = false := by simpa using hw
    refine ⟨spaceKey e.stock (k :: rest), ?_, ?_⟩
    · rw [Stave.list?_setList (Stave.le_of_list? hl), if_pos rfl]
    · rw [get?_erasure, if_pos rfl, hmeasure, hstaff, hvoice]
  · intro w hw
    have hne : v ≠ w := by
      rintro rfl
      simp [hl] at hw
    rw [Stave.list?_setList (Stave.le_of_list? hl), if_neg hne, hw]

theorem voice_erases (visible : Nat → Bool) (v : Nat)
    (h : (e.stock.on s).Stocked Group.Written (e.now.postings measure ++ ps) vs)
    (hs : e.now.Sound) (hlength : 0 < length) :
    Erases s measure length ps vs (fun w => w == v && !visible w) e.stock e.now
      (voice measure length visible e v) := by
  cases hl : e.now.list? v with
  | none => exact voice_erases_nothing h (by simp [voice, hl]) (by simp [hl])
  | some list =>
    cases hv : visible v with
    | true => exact voice_erases_nothing h (by simp [voice, hl, hv, Stock.erase?]) fun _ _ => hv
    | false => exact voice_erases_hidden h hs hlength hl hv

/-- Erasing the hidden voices of a stave hides just those. -/
theorem stave_erases (h : (stock.on s).Stocked Group.Written (st.postings measure ++ ps) vs)
    (hs : st.Sound) (hlength : 0 < length) :
    Erases s measure length ps vs (fun v => !visible v) stock st
      (stave measure length visible stock st) := by
  have h₁ := voice_erases visible (e := { stock, now := st }) 1 h hs hlength
  have h₂ := voice_erases visible 2 h₁.stocked (h₁.shown.sound hs) hlength
  have h₁₂ := h₁.trans h₂
  have h₃ := voice_erases visible 3 h₂.stocked (h₁₂.shown.sound hs) hlength
  obtain ⟨hstocked, hshown, hothers⟩ := h₁₂.trans h₃
  refine ⟨hstocked, hshown.congr fun v hv => ?_, hothers⟩
  obtain rfl | rfl | rfl : v = 1 ∨ v = 2 ∨ v = 3 := by omega
  all_goals simp

end Stave

/-- The voices of a staff that are to hide: those not visible, where the staff
is. -/
def hides (f : InForce) (staff voice : Nat) : Bool :=
  f.staffVisible staff && !f.voiceVisible staff voice

/-- The staves of a measure, each with its hidden voices replaced. -/
def Shows (f : InForce) (measure : Nat) (groups groups' : Arena Group) :
    List Stave → List Stave → Prop :=
  List.Forall₂ fun s s' => s.Shown (hides f s.staff) measure f.time.duration groups groups' s'

section Staves

variable {s : Score} {f : InForce} {measure : Nat} {stock : Stock} {ps : List Posting}
  {vs : List SyllableKey} {groups groups' groups'' : Arena Group} {ss ss' : List Stave}

theorem Shows.later (h : Shows f measure groups groups' ss ss')
    (hsame : SameAt groups' groups'' ((ss'.flatMap (Stave.postings measure)).map (·.key))) :
    Shows f measure groups groups'' ss ss' := by
  induction h with
  | nil => exact .nil
  | cons hs _ ih =>
    rw [List.flatMap_cons, List.map_append] at hsame
    exact .cons (hs.later (hsame.mono fun _ => List.mem_append_left _))
      (ih (hsame.mono fun _ => List.mem_append_right _))

theorem Shows.earlier (h : Shows f measure groups' groups'' ss ss')
    (hsame : SameAt groups groups' ((ss.flatMap (Stave.postings measure)).map (·.key))) :
    Shows f measure groups groups'' ss ss' := by
  induction h with
  | nil => exact .nil
  | cons hs _ ih =>
    rw [List.flatMap_cons, List.map_append] at hsame
    exact .cons (hs.earlier (hsame.mono fun _ => List.mem_append_left _))
      (ih (hsame.mono fun _ => List.mem_append_right _))

theorem Shows.of_mem (h : Shows f measure groups groups' ss ss') {st : Stave} (hst : st ∈ ss) :
    ∃ st' ∈ ss', st.Shown (hides f st.staff) measure f.time.duration groups groups' st' := by
  induction h with
  | nil => simp at hst
  | @cons st₁ st₂ _ _ hshown _ ih =>
    rcases List.mem_cons.mp hst with rfl | hst
    · exact ⟨st₂, by simp, hshown⟩
    · obtain ⟨st', hst', hshown'⟩ := ih hst
      exact ⟨st', by simp [hst'], hshown'⟩

theorem Shows.map_staff (h : Shows f measure groups groups' ss ss') :
    ss'.map (·.staff) = ss.map (·.staff) := by
  induction h with
  | nil => rfl
  | cons hs _ ih => rw [List.map_cons, List.map_cons, hs.staff, ih]

theorem Shows.flatMap_sung (h : Shows f measure groups groups' ss ss') :
    ss'.flatMap Stave.sung = ss.flatMap Stave.sung := by
  induction h with
  | nil => rfl
  | cons hs _ ih => rw [List.flatMap_cons, List.flatMap_cons, ih, Stave.sung, hs.verses, Stave.sung]

theorem Shows.sound (h : Shows f measure groups groups' ss ss') (hs : ∀ s ∈ ss, s.Sound) :
    ∀ s ∈ ss', s.Sound := by
  induction h with
  | nil => simp
  | cons hshown _ ih =>
    simp only [List.mem_cons, forall_eq_or_imp] at hs ⊢
    exact ⟨hshown.sound hs.1, ih hs.2⟩

/-- The staves of a measure are erased one after the other, and none touches
what another one lists. -/
theorem staves_shows
    (h : (stock.on s).Stocked Group.Written (ss.flatMap (Stave.postings measure) ++ ps) vs)
    (hs : ∀ st ∈ ss, st.Sound) (hlength : 0 < f.time.duration) :
    ((staves measure f stock ss).stock.on s).Stocked Group.Written
        ((staves measure f stock ss).now.flatMap (Stave.postings measure) ++ ps) vs ∧
      Shows f measure stock.groups (staves measure f stock ss).stock.groups ss
        (staves measure f stock ss).now ∧
      SameAt stock.groups (staves measure f stock ss).stock.groups (ps.map (·.key)) := by
  induction ss generalizing stock ps with
  | nil => exact ⟨h, .nil, .refl⟩
  | cons st rest ih =>
    rw [List.flatMap_cons, List.append_assoc] at h
    obtain ⟨hst, hrest⟩ := List.forall_mem_cons.mp hs
    -- the first stave, erased if its staff is shown
    obtain ⟨first, hfirst, hstocked, hshown, hothers⟩ : ∃ first : Erasing Stave,
        (if f.staffVisible st.staff then
          stave measure f.time.duration (f.voiceVisible st.staff) stock st
        else { stock, now := st }) = first ∧
        Erases s measure f.time.duration (rest.flatMap (Stave.postings measure) ++ ps) vs
          (hides f st.staff) stock st first := by
      refine ⟨_, rfl, ?_⟩
      split
      next hv =>
        have hhides : hides f st.staff = fun v => !f.voiceVisible st.staff v := by
          funext v
          simp [hides, hv]
        rw [hhides]
        exact stave_erases h hst hlength
      next hv =>
        exact ⟨h, Stave.Shown.unhidden fun _ _ _ => by simp [hides, hv], .refl⟩
    have hstaves : staves measure f stock (st :: rest) =
        { stock := (staves measure f first.stock rest).stock
          now := first.now :: (staves measure f first.stock rest).now
          events := first.events ++ (staves measure f first.stock rest).events } := by
      rw [← hfirst, staves]
    rw [hstaves]
    have hperm : (first.now.postings measure ++ (rest.flatMap (Stave.postings measure) ++ ps)).Perm
        (rest.flatMap (Stave.postings measure) ++ (first.now.postings measure ++ ps)) := by
      rw [← List.append_assoc, ← List.append_assoc]
      exact List.perm_append_comm.append_right ps
    obtain ⟨hstocked', hshows, hothers'⟩ := ih (hstocked.perm hperm (.refl _)) hrest
    rw [List.map_append] at hothers hothers'
    refine ⟨hstocked'.perm ?_ (.refl _), .cons (hshown.later ?_) (hshows.earlier ?_), ?_⟩
    · rw [List.flatMap_cons, ← List.append_assoc]
      exact List.perm_append_comm.append_right ps
    · exact hothers'.mono fun _ => List.mem_append_left _
    · exact hothers.mono fun _ => List.mem_append_left _
    · exact (hothers.mono fun _ => List.mem_append_right _).trans
        (hothers'.mono fun _ => List.mem_append_right _)

end Staves

end Erasing

end Divisi
