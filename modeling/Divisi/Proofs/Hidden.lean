/-
Hidden voices in a processed score.

Where a voice is hidden building leaves one space as long as the measure, and to combining that
is a space like any other. It stays as it is (`Silent.Quiet`) until a merge brings something
into the voice: a group that is no space, or grace notes. From then on the voice prints
something (`Silent.Loud`). So a hidden voice is silent in the end exactly if no merge into it
has a source with anything to print (`Score.Parsed.hidden_silent_iff`).
-/
import Divisi.Proofs.Faults
import Divisi.Proofs.Folding

namespace Divisi

open Merging

/-- A layer holds one space of the length given, and nothing else. -/
def Score.SilentAt (t : Score) (layer : Layer) (length : Time) : Prop :=
  ∃ k g, t.list? layer = some [k] ∧ t.groups.get? k = some g ∧ g.isSpace = true ∧
    g.duration = length

/-- What the hand has of a voice is no space, or has grace notes before it. -/
def Hand.Sounds (t : Score) (h : Hand) (voice : Nat) : Prop :=
  ∃ k run, h.voice? voice = some k ∧ t.graceRun h.item h.staff voice k = .ok run ∧
    ((t.groups.get k).isSpace = false ∨ run ≠ [])

/-! ## What building leaves -/

section Built

variable {s : Score} {p : Placed}

theorem Score.Sound.stave_built_at (hs : s.Sound Group.Written) (hfault : s.buildChords.fault = none)
    (hp : p ∈ s.placed) {st : Stave} (hst : st ∈ p.measure.staves) : ∃ st', (∀ v,
      s.buildChords.now.list? ⟨p.item, st.staff, v⟩ = st'.list? v) ∧
        st.Shown (Erasing.hides p.inForce st.staff) p.measure.number p.length s.groups
          s.buildChords.now.groups st' := by
  obtain ⟨m, hm, hbuilt⟩ := hs.built_at hfault hp
  obtain ⟨st', hst', hshown⟩ := hbuilt.shows.of_mem hst
  obtain ⟨q, hq, -, rfl⟩ := Placed.exists_of_measureAt? hm
  have hstave := Measure.stave?_of_mem
    (hs.buildChords.2.measures _ (Placed.measure_mem hq)).ascending hst'
  rw [hshown.staff] at hstave
  exact ⟨st', fun v => by simp [Score.list?, hm, hstave], hshown⟩

end Built

/-! ## A voice that holds one space -/

namespace Silent

/-- The layer holds nothing but `k`, which is the space `g`. -/
structure Quiet (layer : Layer) (k : GroupKey) (g : Group) (s : Score) : Prop where
  list : s.list? layer = some [k]
  space : s.groups.get? k = some g

/-- The layer holds more than `k`, or that is no space any more. -/
def Loud (layer : Layer) (k : GroupKey) (s : Score) : Prop :=
  ∃ list, s.list? layer = some list ∧ k ∈ list ∧ (2 ≤ list.length ∨ (s.groups.get k).isSpace = false)

/-- A merge into the layer whose source has something to print. -/
def Fills (t : Score) (layer : Layer) (x : Hand × Merge) : Prop :=
  x.1.layer x.2.dest = layer ∧ x.1.Sounds t x.2.src

section Merge

variable {layer : Layer} {k x y : GroupKey} {g : Group} {s s' : Score} {h : Hand} {m : Merge}
  {ld le : List GroupKey}

theorem isSpace_blend {a b : Group} (ha : a.isSpace = true) :
    (a.blend b).group.isSpace = b.isSpace := by
  rw [Group.isSpace, Group.kind_blend, if_pos (by simpa [Group.isSpace] using ha), Group.isSpace]

theorem isSpace_blend_of_not {a b : Group} (ha : a.isSpace = false) :
    (a.blend b).group.isSpace = false := by
  unfold Group.isSpace at ha ⊢
  rwa [Group.kind_blend, if_neg (by simpa using ha)]

theorem column_singleton (grace : GroupKey → Bool) (k : GroupKey) : column grace [k] k = [k] := by
  simp [column, runOf]

theorem Quiet.elsewhere (hq : Quiet layer k g s) (hm : Merged h m x y ld le s s')
    (hp : Paired s h m x y ld le) (hs : s.Tidy) (hdest : layer ≠ h.layer m.dest)
    (hsrc : layer ≠ h.layer m.src) : Quiet layer k g s' := by
  refine ⟨(hm.elsewhere layer hdest hsrc).trans hq.list, (hm.others k ?_ ?_).trans hq.space⟩
  · exact fun hk => hdest (hs.apart _ _ _ _ k hq.list hp.destList (by simp)
      (mem_of_column hp.destMem hk))
  · exact fun hk => hsrc (hs.apart _ _ _ _ k hq.list hp.srcList (by simp)
      (mem_of_column hp.srcMem hk))

theorem Loud.elsewhere (hl : Loud layer k s) (hm : Merged h m x y ld le s s')
    (hp : Paired s h m x y ld le) (hs : s.Tidy) (hdest : layer ≠ h.layer m.dest)
    (hsrc : layer ≠ h.layer m.src) : Loud layer k s' := by
  obtain ⟨list, hlist, hk, hloud⟩ := hl
  have hsame : s'.groups.get? k = s.groups.get? k := by
    refine hm.others k ?_ ?_
    · exact fun hk' => hdest (hs.apart _ _ _ _ k hlist hp.destList hk (mem_of_column hp.destMem hk'))
    · exact fun hk' => hsrc (hs.apart _ _ _ _ k hlist hp.srcList hk (mem_of_column hp.srcMem hk'))
  refine ⟨list, (hm.elsewhere layer hdest hsrc).trans hlist, hk, ?_⟩
  rwa [Arena.get, hsame]

/-- A space that is folded stays the space that it was. -/
theorem Quiet.folded (hq : Quiet (h.layer m.src) y g s) (hm : Merged h m x y ld le s s')
    (hp : Paired s h m x y ld le) (hspace : g.toSpace = g) : Quiet (h.layer m.src) y g s' := by
  cases hp.srcList.symm.trans hq.list
  obtain ⟨before, after, before', after', hld, hle, -, -, -, hlist⟩ := hm.lists
  rw [column_singleton] at hle hlist
  have hone : before' = [] ∧ after' = [] := by
    have hlength := congrArg List.length hle
    simp only [List.length_append, List.length_reverse, List.length_singleton] at hlength
    exact ⟨List.eq_nil_of_length_eq_zero (by omega), List.eq_nil_of_length_eq_zero (by omega)⟩
  refine ⟨?_, ?_⟩
  · rw [hlist, hone.1, hone.2]
    simp [column]
  · rw [hm.emptied (x, y) (by simp [column]), Arena.get_of_get? hq.space, hspace]

theorem Quiet.kept (hq : Quiet (h.layer m.dest) x g s) (hm : Merged h m x y ld le s s')
    (hp : Paired s h m x y ld le) (hcolumn : column s.graceAt le y = [y])
    (hspace : (s.groups.get y).isSpace = true) : Quiet (h.layer m.dest) x g s' := by
  cases hp.destList.symm.trans hq.list
  obtain ⟨before, after, -, -, hld, -, -, -, hlist, -⟩ := hm.lists
  rw [column_singleton] at hld hlist
  refine ⟨?_, ?_⟩
  · rw [hlist, hcolumn, List.length_singleton, List.drop_one, List.tail_cons, List.append_nil, ← hld]
  · rw [hm.main, Group.blend, if_pos hspace, Arena.get_of_get? hq.space]

/-- Anything else that is folded into a space is heard. -/
theorem Quiet.filled (hq : Quiet (h.layer m.dest) x g s) (hm : Merged h m x y ld le s s')
    (hp : Paired s h m x y ld le) (hspace : g.isSpace = true)
    (hsounds : (s.groups.get y).isSpace = false ∨ column s.graceAt le y ≠ [y]) :
    Loud (h.layer m.dest) x s' := by
  cases hp.destList.symm.trans hq.list
  obtain ⟨before, after, -, -, hld, -, -, -, hlist, -⟩ := hm.lists
  rw [column_singleton] at hld hlist
  refine ⟨_, hlist, by simp, hsounds.symm.imp (fun hcolumn => ?_) fun hnot => ?_⟩
  · have hmore : runOf s.graceAt le y ≠ [] := fun hnil => hcolumn (by rw [column, hnil]; rfl)
    have hlength := List.length_pos_iff.mpr hmore
    simp only [column, List.length_append, List.length_reverse, List.length_drop, List.length_cons,
      List.length_nil]
    omega
  · rw [Arena.get_of_get? hm.main, isSpace_blend, hnot]
    rw [Arena.get_of_get? hq.space]
    exact hspace

theorem Loud.kept (hl : Loud (h.layer m.dest) x s) (hm : Merged h m x y ld le s s')
    (hp : Paired s h m x y ld le) : Loud (h.layer m.dest) x s' := by
  obtain ⟨list, hlist, hk, hloud⟩ := hl
  cases hp.destList.symm.trans hlist
  obtain ⟨before, after, -, -, hld, -, -, -, hlist', -⟩ := hm.lists
  refine ⟨_, hlist', by simp [column], hloud.imp (fun hlength => ?_) fun hnot => ?_⟩
  · rw [hld] at hlength
    simp only [List.length_append, List.length_reverse] at hlength ⊢
    omega
  · rw [Arena.get_of_get? hm.main, isSpace_blend_of_not hnot]

end Merge

theorem Quiet.silentAt {layer : Layer} {k : GroupKey} {g : Group} {t : Score} (hq : Quiet layer k g t)
    (hspace : g.isSpace = true) : t.SilentAt layer g.duration :=
  ⟨k, g, hq.list, hq.space, hspace, rfl⟩

theorem Loud.not_silentAt {layer : Layer} {k : GroupKey} {t : Score} {length : Time}
    (hl : Loud layer k t) : ¬t.SilentAt layer length := by
  rintro ⟨k', g, hlist', hg, hspace, -⟩
  obtain ⟨list, hlist, hk, hloud⟩ := hl
  cases hlist.symm.trans hlist'
  obtain rfl := List.mem_singleton.mp hk
  rw [Arena.get_of_get? hg, hspace] at hloud
  simp at hloud

end Silent

/-! ## All merges -/

namespace Combination

variable {c : Combination} {t : Score} {layer : Layer} {k x : GroupKey} {g : Group} {h : Hand}

theorem Of.eq_of_singleton (hc : c.Of t) (hh : h ∈ c.layout.hands) {v : Nat}
    (hx : h.voice? v = some x) (hlist : t.list? (h.layer v) = some [k]) : x = k := by
  obtain ⟨-, list, hlist', hmem⟩ := hc.stands.main h hh v x hx
  cases hlist.symm.trans hlist'
  exact List.mem_singleton.mp hmem

/-- What the source of a merge has to print can be told when the merge is made. -/
theorem Of.sounds_iff (hc : c.Of t) {m : Merge} {s s' : Score} (hp : c.Performs t h m s s')
    {y : GroupKey} {ld le : List GroupKey} (hpaired : Paired s h m x y ld le) :
    h.Sounds t m.src ↔ (s.groups.get y).isSpace = false ∨ column s.graceAt le y ≠ [y] := by
  have hh := (hc.judged hp).1
  obtain ⟨hcolumn, hgroups, -⟩ := hc.untouched hp
  obtain ⟨run, hrun, hcolumn'⟩ := hc.stands.graceRun hh hpaired.srcVoice
  rw [Score.columnAt_eq hpaired.srcVoice hpaired.srcList, hcolumn'] at hcolumn
  have hget : s.groups.get y = t.groups.get y := by
    rw [Arena.get, Arena.get, hgroups y (by simp [hcolumn'])]
  have hrest : column s.graceAt le y ≠ [y] ↔ run ≠ [] := by simp [hcolumn]
  rw [hget, hrest]
  constructor
  · rintro ⟨z, run', hz, hrun', hsounds⟩
    cases hz.symm.trans hpaired.srcVoice
    cases hrun.symm.trans hrun'
    exact hsounds
  · intro hsounds
    exact ⟨y, run, hpaired.srcVoice, hrun, hsounds⟩

/-- A layer that holds one space is silent in the end unless a merge fills it. -/
theorem Of.quiet_or_loud (hc : c.Of t) (hq : Silent.Quiet layer k g t) (hspace : g.isSpace = true)
    (hto : g.toSpace = g) :
    (Silent.Quiet layer k g c.score ∧ ∀ x ∈ c.steps, ¬Silent.Fills t layer x) ∨
      (Silent.Loud layer k c.score ∧ ∃ x ∈ c.steps, Silent.Fills t layer x) := by
  refine hc.induction_steps (P := fun before s =>
    (Silent.Quiet layer k g s ∧ ∀ x ∈ before, ¬Silent.Fills t layer x) ∨
      (Silent.Loud layer k s ∧ ∃ x ∈ before, Silent.Fills t layer x))
    (fun before h m after s s' hsteps hs hmerge hP => ?_) (.inl ⟨hq, by simp⟩)
  have hp : c.Performs t h m s s' := ⟨⟨before, after, hsteps, hs⟩, hmerge⟩
  obtain ⟨x, y, ld, le, hpaired, hmerged, hh, hstands, -⟩ := hc.merged hp
  have hstill : ¬Silent.Fills t layer (h, m) → (∀ x ∈ before, ¬Silent.Fills t layer x) →
      ∀ x ∈ before ++ [(h, m)], ¬Silent.Fills t layer x := by
    intro hnot hnone x hx
    rcases List.mem_append.mp hx with hx | hx
    · exact hnone x hx
    · exact List.mem_singleton.mp hx ▸ hnot
  have hloud : (∃ x ∈ before, Silent.Fills t layer x) →
      ∃ x ∈ before ++ [(h, m)], Silent.Fills t layer x :=
    fun hsome => hsome.imp fun x hx => ⟨List.mem_append_left _ hx.1, hx.2⟩
  by_cases hd : layer = h.layer m.dest
  · subst hd
    obtain rfl := hc.eq_of_singleton hh hpaired.destVoice hq.list
    rcases hP with ⟨hquiet, hnone⟩ | ⟨hl, hsome⟩
    · by_cases hsounds : h.Sounds t m.src
      · have hfilled := hquiet.filled hmerged hpaired hspace ((hc.sounds_iff hp hpaired).mp hsounds)
        exact .inr ⟨hfilled, (h, m), by simp, rfl, hsounds⟩
      · have hkept : (s.groups.get y).isSpace = true ∧ column s.graceAt le y = [y] := by
          rw [hc.sounds_iff hp hpaired] at hsounds
          simpa using hsounds
        exact .inl ⟨hquiet.kept hmerged hpaired hkept.2 hkept.1, hstill (fun hno => hsounds hno.2) hnone⟩
    · exact .inr ⟨hl.kept hmerged hpaired, hloud hsome⟩
  have hnot : ¬Silent.Fills t layer (h, m) := fun hno => hd hno.1.symm
  by_cases he : layer = h.layer m.src
  · subst he
    obtain rfl := hc.eq_of_singleton hh hpaired.srcVoice hq.list
    rcases hP with ⟨hquiet, hnone⟩ | ⟨-, ⟨h', m'⟩, hmem, hlayer, -⟩
    · exact .inl ⟨hquiet.folded hmerged hpaired hto, hstill hnot hnone⟩
    · -- what has taken in another group is not folded itself
      obtain ⟨hh', -, ⟨z, hz⟩, -⟩ := hc.offers (hsteps ▸ List.mem_append_left _ hmem)
      obtain rfl := hc.eq_of_singleton hh' hz (hlayer ▸ hq.list)
      exact absurd hpaired.srcVoice (hc.dest_ne_src hsteps hs hmem hz)
  · rcases hP with ⟨hquiet, hnone⟩ | ⟨hl, hsome⟩
    · exact .inl ⟨hquiet.elsewhere hmerged hpaired hstands.tidy hd he, hstill hnot hnone⟩
    · exact .inr ⟨hl.elsewhere hmerged hpaired hstands.tidy hd he, hloud hsome⟩

end Combination

/-! ## Processing -/

theorem Score.Sound.quiet_of_hidden {s : Score} (hs : s.Sound Group.Written)
    (hfault : s.buildChords.fault = none) {p : Placed} (hp : p ∈ s.placed) {st : Stave}
    (hst : st ∈ p.measure.staves) (hshown : p.inForce.staffVisible st.staff = true) {v : Nat}
    (hhidden : p.inForce.voiceVisible st.staff v = false) {list : List GroupKey}
    (hlist : s.buildChords.now.list? ⟨p.item, st.staff, v⟩ = some list) :
    ∃ k, Silent.Quiet ⟨p.item, st.staff, v⟩ k
      (.measureSpace st.staff v p.measure.number p.length) s.buildChords.now := by
  obtain ⟨st', hlists, hstave⟩ := hs.stave_built_at hfault hp hst
  cases hwritten : st.list? v with
  | none =>
    rw [hlists, hstave.absent v hwritten] at hlist
    cases hlist
  | some old =>
    obtain ⟨k, hk, hspace⟩ := hstave.hidden v (by simp [Erasing.hides, hshown, hhidden]) old hwritten
    exact ⟨k, (hlists v).trans hk, hspace⟩

/-- A hidden voice has nothing to print. -/
theorem Combination.Of.not_sounds_of_quiet {c : Combination} {t : Score} (hc : c.Of t) {h : Hand}
    (hh : h ∈ c.layout.hands) {v : Nat} {k : GroupKey} {g : Group}
    (hq : Silent.Quiet (h.layer v) k g t) (hspace : g.isSpace = true) : ¬h.Sounds t v := by
  rintro ⟨x, run, hx, hrun, hsounds⟩
  obtain rfl := hc.eq_of_singleton hh hx hq.list
  obtain ⟨run', hrun', hcolumn⟩ := hc.stands.graceRun hh hx
  cases hrun.symm.trans hrun'
  rw [Score.columnAt_eq hx hq.list, Silent.column_singleton] at hcolumn
  rw [Arena.get_of_get? hq.space, hspace] at hsounds
  simp_all

/-- **Hidden voices that stay silent.** In a processed score a voice that is hidden on a staff that
is shown holds one space as long as the measure, and nothing else, exactly if voices are not
combined or no merge into it is made whose source has a group to print, or grace notes. Where
such a merge is made its source is a voice that is shown. -/
theorem Score.Parsed.hidden_silent_iff {s t : Score} (hs : s.Parsed) (ht : s.process.result = .ok t)
    {p : Placed} (hp : p ∈ s.placed) {st : Stave} (hst : st ∈ p.measure.staves) {v : Nat}
    {list : List GroupKey} (hlist : st.list? v = some list)
    (hshown : p.inForce.staffVisible st.staff = true)
    (hhidden : p.inForce.voiceVisible st.staff v = false) :
    (t.SilentAt ⟨p.item, st.staff, v⟩ p.length ↔ ¬(s.header.options.combine = true ∧
      ∃ c, s.buildChords.now.combineVoices = .ok c ∧ ∃ x ∈ c.steps,
        x.1.layer x.2.dest = ⟨p.item, st.staff, v⟩ ∧ x.1.Sounds s.buildChords.now x.2.src)) ∧
    ∀ c, s.buildChords.now.combineVoices = .ok c → ∀ x ∈ c.steps,
      x.1.layer x.2.dest = ⟨p.item, st.staff, v⟩ → x.1.Sounds s.buildChords.now x.2.src →
        p.inForce.voiceVisible st.staff x.2.src = true := by
  have hfault : s.buildChords.fault = none := by
    cases hfault : s.buildChords.fault with
    | none => rfl
    | some fault => cases (process_of_fault hfault).symm.trans ht
  have hsound := hs.sound
  have hchorded : s.buildChords.now.Chorded := ⟨s, hs, hfault, rfl⟩
  obtain ⟨c, hcombine, hc⟩ := hchorded.combined
  obtain ⟨st', hlists, hstave⟩ := hsound.stave_built_at hfault hp hst
  obtain ⟨k, hk, -⟩ := hstave.hidden v (by simp [Erasing.hides, hshown, hhidden]) list hlist
  obtain ⟨k, hq⟩ := hsound.quiet_of_hidden hfault hp hst hshown hhidden ((hlists v).trans hk)
  refine ⟨?_, fun c' hc' x hx hlayer hsounds => ?_⟩
  · rw [process_result hfault, hcombine] at ht
    by_cases hoption : s.header.options.combine = true
    · rw [if_pos hoption] at ht
      cases ht
      simp only [hoption, hcombine, Except.ok.injEq, true_and, exists_eq_left']
      rcases hc.quiet_or_loud hq rfl rfl with ⟨hquiet, hnone⟩ | ⟨hloud, hsome⟩
      · refine ⟨fun _ hsome => ?_, fun _ => hquiet.silentAt rfl⟩
        obtain ⟨x, hx, hfills⟩ := hsome
        exact hnone x hx hfills
      · exact ⟨fun hsilent => absurd hsilent hloud.not_silentAt, fun hno => absurd hsome hno⟩
    · rw [if_neg hoption] at ht
      cases ht
      exact ⟨fun _ hno => hoption hno.1, fun _ => hq.silentAt rfl⟩
  · cases hcombine.symm.trans hc'
    obtain ⟨hh, -, -, y, hy⟩ := hc.offers hx
    by_contra hsrc
    rw [Bool.not_eq_true] at hsrc
    obtain ⟨-, list', hlist', -⟩ := hc.stands.main x.1 hh _ y hy
    have hsame : x.1.layer x.2.src = ⟨p.item, st.staff, x.2.src⟩ := by
      obtain ⟨hitem, hstaff, -⟩ := Layer.mk.inj hlayer
      simp [Hand.layer, hitem, hstaff]
    obtain ⟨k', hq'⟩ := hsound.quiet_of_hidden hfault hp hst hshown hsrc (hsame ▸ hlist')
    exact hc.not_sounds_of_quiet hh (hsame ▸ hq') rfl hsounds

/-- Two voices that move together, the upper one hidden. -/
def hiddenAbove : String :=
  "vcombine:\n voices: [1,2]\nmusic:\n- params: {staff: 1, voice: 1, visible: false}\n" ++
  "- measure:\n  - voices:\n     1:\n     - time: 1\n       notes: [g5]\n" ++
  "     2:\n     - time: 1\n       notes: [c4]\n"

/-- The hidden voice comes to print the note of the voice that is shown. -/
theorem heard_of_hiddenAbove : ∃ s t : Score, s.Parsed ∧ s.process.result = .ok t ∧
    ∃ p ∈ s.placed, ∃ st ∈ p.measure.staves, p.inForce.staffVisible st.staff = true ∧
      p.inForce.voiceVisible st.staff 1 = false ∧ ¬t.SilentAt ⟨p.item, st.staff, 1⟩ p.length ∧
      ∃ c, s.buildChords.now.combineVoices = .ok c ∧ ∃ x ∈ c.steps,
        x.1.Sounds s.buildChords.now x.2.src ∧ p.inForce.voiceVisible st.staff x.2.src = true := by
  obtain ⟨s, hs, hplaced, hresult⟩ := Score.exists_of_spelled hiddenAbove
    (.append (.append (.ofList _) (.ofList _)) (.ofList _))
    (P := fun s => (∃ p ∈ s.placed, ∃ st ∈ p.measure.staves, p.item = 2 ∧ st.staff = 1 ∧
        st.list? 1 = some [⟨0⟩] ∧ p.inForce.staffVisible st.staff = true ∧
        p.inForce.voiceVisible st.staff 1 = false) ∧
      (s.process.result.toOption.any fun t => t.list? ⟨2, 1, 1⟩ == some [⟨2⟩] &&
        (t.groups.get ⟨2⟩).isSpace == false) = true)
    (by decide +kernel)
  obtain ⟨p, hp, st, hst, hitem, hstaff, hlist, hshown, hhidden⟩ := hplaced
  cases ht : s.process.result with
  | error fault => simp [ht, Except.toOption] at hresult
  | ok t =>
    simp only [ht, Except.toOption, Option.any_some, Bool.and_eq_true, beq_iff_eq] at hresult
    have hloud : ¬t.SilentAt ⟨p.item, st.staff, 1⟩ p.length := by
      rintro ⟨k, g, hk, hg, hspace, -⟩
      rw [hitem, hstaff, hresult.1] at hk
      cases hk
      rw [Arena.get_of_get? hg, hspace] at hresult
      cases hresult.2
    obtain ⟨hiff, hsources⟩ :=
      Score.Parsed.hidden_silent_iff (.of_text hs) ht hp hst hlist hshown hhidden
    obtain ⟨-, c, hc, x, hx, hlayer, hsounds⟩ := not_not.mp (mt hiff.mpr hloud)
    exact ⟨s, t, .of_text hs, ht, p, hp, st, hst, hshown, hhidden, hloud, c, hc, x, hx, hsounds,
      hsources c hc x hx hlayer hsounds⟩

end Divisi
