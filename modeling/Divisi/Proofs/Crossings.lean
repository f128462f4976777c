/-
Ties and slurs from one voice into another.

A tie or slur that leaves its voice meets the group of the other voice that begins as its own group
ends (`Score.Meets`). Its own group is never merged, and the one that it meets is not merged into
the voice that it comes from: planning follows that voice through the tie or slur, back to a group
that would have to be merged too (`Combination.Of.not_into`). A third voice, however, may take in
the group that is met. Whether something leads into a group from another voice is read off the
marks of its own notes, never off the notes that lead there (`Score.Chorded.crossing_meets`).
-/
import Divisi.Proofs.Beams
import Divisi.Proofs.ExcerptHands
import Divisi.Proofs.GraceRuns

namespace Divisi

/-! ## Notes that lead into another voice -/

/-- A tie or slur of the note leads into the voice. -/
def Note.leadsInto (n : Note) (voice : Nat) : Bool :=
  n.tiedToVoice == some voice || n.slurTo.any fun target => target.toVoice == some voice

/-- A tie or slur of some note leads into the voice. -/
def Group.leadsInto (g : Group) (voice : Nat) : Bool := g.notes.any (·.leadsInto voice)

namespace Group

variable {g : Group} {voice : Nat}

theorem leadsInto_cases (h : g.leadsInto voice = true) : ∃ n ∈ g.notes,
    n.tiedToVoice = some voice ∨ ∃ target ∈ n.slurTo, target.toVoice = some voice := by
  obtain ⟨n, hn, hinto⟩ := List.any_eq_true.mp h
  refine ⟨n, hn, ?_⟩
  simpa [Note.leadsInto] using hinto

theorem crossesVoices_of_leadsInto (h : g.leadsInto voice = true) : g.crossesVoices = true := by
  obtain ⟨n, hn, hinto⟩ := leadsInto_cases h
  refine List.any_eq_true.mpr ⟨n, hn, ?_⟩
  rcases hinto with htied | ⟨target, htarget, hto⟩
  · simp [Note.crossesVoices, htied]
  · have hslur : (n.slurTo.any fun target => target.toVoice.isSome) = true :=
      List.any_eq_true.mpr ⟨target, htarget, by simp [hto]⟩
    simp [Note.crossesVoices, hslur]

theorem continuesOnward_of_leadsInto (hg : g.Written) (h : g.leadsInto voice = true) :
    g.continuesOnward = true := by
  obtain ⟨n, hn, hinto⟩ := leadsInto_cases h
  refine Bool.or_eq_true_iff.mpr (.inr (List.any_eq_true.mpr ⟨n, hn, ?_⟩))
  rcases hinto with htied | ⟨target, htarget, -⟩
  · simp [Note.continues, hg.tied n hn (by simp [htied])]
  · simp [Note.continues, List.ne_nil_of_mem htarget]

end Group

/-! ## What begins as a group ends -/

namespace Score

/-- A group and how long it lasts. -/
def beat (s : Score) (k : GroupKey) : Beat :=
  { member := .group k, duration := (s.groups.get k).duration }

variable {fits : Group → Prop} {s t : Score} {layer : Layer} {keys list : List GroupKey}
  {g k k' : GroupKey} {start u : Time} {p : Placed} {staff voice other n : Nat}

theorem mem_of_timeline_beat (h : (u, Member.group k) ∈ timeline start (keys.map s.beat)) :
    k ∈ keys := by
  obtain ⟨b, hb, heq⟩ := List.mem_map.mp (mem_of_timeline h)
  obtain ⟨z, hz, rfl⟩ := List.mem_map.mp hb
  cases heq
  exact hz

theorem head_of_timeline (hpos : ∀ k ∈ keys, 0 < (s.groups.get k).duration)
    (h : (start, Member.group k) ∈ timeline start (keys.map s.beat)) :
    ∃ after, keys = k :: after := by
  cases keys with
  | nil => simp [timeline] at h
  | cons x rest =>
    rcases List.mem_cons.mp h with heq | hrest
    · cases heq
      exact ⟨rest, rfl⟩
    · have hx : 0 < (s.beat x).duration := hpos x List.mem_cons_self
      have hlater := (ascending_timeline (List.forall_mem_map.mpr fun z hz =>
        hpos z (List.mem_cons_of_mem x hz))).1 _ hrest
      linarith

/-- What begins as a group of the same voice ends is the next group. -/
theorem next_of_timeline (hpos : ∀ k ∈ keys, 0 < (s.groups.get k).duration)
    (h : (u, Member.group k) ∈ timeline start (keys.map s.beat))
    (h' : (u + (s.groups.get k).duration, Member.group k') ∈ timeline start (keys.map s.beat)) :
    ∃ before after, keys = before ++ k :: k' :: after := by
  induction keys generalizing start with
  | nil => simp [timeline] at h
  | cons x rest ih =>
    have hrest : ∀ k ∈ rest, 0 < (s.groups.get k).duration := fun z hz =>
      hpos z (List.mem_cons_of_mem x hz)
    have hx : 0 < (s.beat x).duration := hpos x List.mem_cons_self
    rcases List.mem_cons.mp h with heq | h
    · cases heq
      rcases List.mem_cons.mp h' with heq' | h'
      · have hsame := (Prod.mk.inj heq').1
        exact absurd hsame (by simpa [beat] using hx.ne')
      · obtain ⟨after, rfl⟩ := head_of_timeline hrest h'
        exact ⟨[], after, rfl⟩
    · have hlater := (ascending_timeline (List.forall_mem_map.mpr hrest)).1 _ h
      rcases List.mem_cons.mp h' with heq' | h'
      · have hsame := (Prod.mk.inj heq').1
        have hk := hrest k (mem_of_timeline_beat h)
        simp only at hlater
        linarith
      · obtain ⟨before, after, rfl⟩ := ih hrest h h'
        exact ⟨x :: before, after, rfl⟩

theorem soundsAt_iff : s.SoundsAt layer u k ↔ ∃ keys, (s.list? layer).map s.mains = some keys ∧
    (u, Member.group k) ∈ timeline 0 (keys.map s.beat) := by
  simp only [SoundsAt, Option.map_eq_some_iff]
  constructor
  · rintro ⟨list, hlist, hk⟩
    exact ⟨_, ⟨list, hlist, rfl⟩, hk⟩
  · rintro ⟨_, ⟨list, hlist, rfl⟩, hk⟩
    exact ⟨list, hlist, hk⟩

instance (s : Score) (layer : Layer) (u : Time) (k : GroupKey) : Decidable (s.SoundsAt layer u k) :=
  decidable_of_iff ((s.list? layer).any (fun list =>
      decide ((u, Member.group k) ∈ timeline 0 (Chording.voiceBeats s.groups list))) = true)
    (by simp [SoundsAt, Option.any_eq_true])

theorem beatsAt_of_list? (hn : s.placed[n]? = some p)
    (hlist : s.list? ⟨p.item, staff, voice⟩ = some list) :
    s.beatsAt staff voice n = s.mains list := by
  rw [beatsAt_eq, hn, Option.bind_some, hlist]
  rfl

theorem exists_beatsAt {item : Nat} (hlist : s.list? ⟨item, staff, voice⟩ = some list)
    (hk : k ∈ s.mains list) : ∃ n, k ∈ s.beatsAt staff voice n := by
  obtain ⟨m, st, hm, hst, hvoice⟩ := list?_eq_some.mp hlist
  obtain ⟨p, hp, rfl, rfl⟩ := Placed.exists_of_measureAt? hm
  obtain ⟨n, hn⟩ := List.getElem?_of_mem hp
  exact ⟨n, (beatsAt_of_list? hn hlist).symm ▸ hk⟩

theorem Charted.mains_pos (hc : s.Charted) (hp : p ∈ s.placed)
    (hvisible : p.inForce.staffVisible staff = true)
    (hlist : s.list? ⟨p.item, staff, voice⟩ = some list) :
    ∀ k ∈ s.mains list, 0 < (s.groups.get k).duration := by
  obtain ⟨-, hpos, -⟩ := Stream.fills_of_chords (hc p hp) _
    (Placed.voiceBeats_mem hp hvisible hlist)
  exact fun k hk => hpos _ (List.mem_map_of_mem (List.mem_map_of_mem hk))

theorem Charted.follows_of_soundsAt (hc : s.Charted) (hn : s.placed[n]? = some p)
    (hvisible : p.inForce.staffVisible staff = true) (hk : s.SoundsAt ⟨p.item, staff, voice⟩ u k)
    (hk' : s.SoundsAt ⟨p.item, staff, voice⟩ (u + (s.groups.get k).duration) k') :
    s.Follows staff voice k k' := by
  obtain ⟨list, hlist, hk⟩ := hk
  obtain ⟨list', hlist', hk'⟩ := hk'
  cases hlist.symm.trans hlist'
  obtain ⟨before, after, hmains⟩ :=
    next_of_timeline (hc.mains_pos (List.mem_of_getElem? hn) hvisible hlist) hk hk'
  exact .within n before after ((beatsAt_of_list? hn hlist).trans hmains)

theorem Charted.first_of_soundsAt (hc : s.Charted) (hn : s.placed[n]? = some p)
    (hvisible : p.inForce.staffVisible staff = true)
    (hk : s.SoundsAt ⟨p.item, staff, voice⟩ 0 k) :
    ∃ after, s.beatsAt staff voice n = k :: after := by
  obtain ⟨list, hlist, hk⟩ := hk
  obtain ⟨after, hmains⟩ :=
    head_of_timeline (hc.mains_pos (List.mem_of_getElem? hn) hvisible hlist) hk
  exact ⟨after, (beatsAt_of_list? hn hlist).trans hmains⟩

theorem soundsAt_of_first {after : List GroupKey} (h : s.beatsAt staff voice n = k :: after) :
    ∃ p, s.placed[n]? = some p ∧ s.SoundsAt ⟨p.item, staff, voice⟩ 0 k := by
  rw [beatsAt_eq] at h
  obtain ⟨p, hp, hlist⟩ : ∃ p, s.placed[n]? = some p ∧
      (s.list? ⟨p.item, staff, voice⟩).map s.mains = some (k :: after) := by
    cases hp : s.placed[n]? with
    | none => simp [hp] at h
    | some p =>
      rw [hp, Option.bind_some] at h
      refine ⟨p, rfl, ?_⟩
      cases hmains : (s.list? ⟨p.item, staff, voice⟩).map s.mains with
      | none => simp [hmains] at h
      | some keys => rw [← h, hmains, Option.getD_some]
  exact ⟨p, hp, soundsAt_iff.mpr ⟨_, hlist, List.mem_cons_self⟩⟩

theorem SoundsAt.mem_mains (h : s.SoundsAt layer u k) :
    ∃ list, s.list? layer = some list ∧ k ∈ s.mains list := by
  obtain ⟨list, hlist, hk⟩ := h
  exact ⟨list, hlist, mem_of_timeline_beat hk⟩

theorem SoundsAt.mem_beatsAt {item : Nat} (h : s.SoundsAt ⟨item, staff, voice⟩ u k) :
    ∃ n, k ∈ s.beatsAt staff voice n := by
  obtain ⟨list, hlist, hk⟩ := h.mem_mains
  exact exists_beatsAt hlist hk

/-- Group `k` of voice `other` begins as group `g` of the voice ends, in the same measure or first
in the following one. -/
inductive Meets (s : Score) (staff voice other : Nat) (g k : GroupKey) : Prop
  | within (item : Nat) (start : Time) : s.SoundsAt ⟨item, staff, voice⟩ start g →
    s.SoundsAt ⟨item, staff, other⟩ (start + (s.groups.get g).duration) k →
    Meets s staff voice other g k
  | across (n : Nat) (before after : List GroupKey) : s.beatsAt staff voice n = before ++ [g] →
    s.beatsAt staff other (n + 1) = k :: after → Meets s staff voice other g k

theorem Meets.mem (h : s.Meets staff voice other g k) :
    (∃ n, g ∈ s.beatsAt staff voice n) ∧ ∃ n, k ∈ s.beatsAt staff other n := by
  cases h with
  | within item start hg hk => exact ⟨hg.mem_beatsAt, hk.mem_beatsAt⟩
  | across n before after hg hk => exact ⟨⟨n, by simp [hg]⟩, n + 1, by simp [hk]⟩

/-- Grace note `g` stands in the run before group `x` of the layer. -/
def LeadsUp (s : Score) (layer : Layer) (g x : GroupKey) : Prop :=
  ∃ before run after, s.RunIn layer before run x after ∧ g ∈ run

theorem leadsUp_iff (hs : s.Tidy) {x : GroupKey} : s.LeadsUp layer g x ↔
    ∃ list, s.list? layer = some list ∧ x ∈ list ∧ s.graceAt x = false ∧
      g ∈ Merging.column s.graceAt list x ∧ s.graceAt g = true := by
  constructor
  · rintro ⟨before, run, after, hrun, hg⟩
    refine ⟨_, hrun.list, by simp, hrun.main, ?_, hrun.grace g hg⟩
    rw [hrun.column_eq hs hrun.list]
    simp [hg]
  · rintro ⟨list, hlist, hx, hmain, hg, hgrace⟩
    obtain ⟨before, run, after, hrun⟩ := exists_runIn hlist hx hmain
    refine ⟨before, run, after, hrun, ?_⟩
    rw [hrun.column_eq hs hlist, List.mem_cons, List.mem_reverse] at hg
    refine hg.resolve_left fun heq => ?_
    rw [heq, hmain] at hgrace
    cases hgrace

/-- Group `k` of voice `other` begins with the group `x` of the layer that grace note `g` leads
up to. -/
structure GraceMeets (s : Score) (layer : Layer) (other : Nat) (g x k : GroupKey) : Prop where
  leadsUp : s.LeadsUp layer g x
  together : ∃ start, s.SoundsAt layer start x ∧ s.SoundsAt { layer with voice := other } start k

/-- What begins with the group that is met, in the voice of the first, follows that. -/
theorem Meets.follows {l : Layout} {h : Hand} {d : GroupKey} (hm : s.Meets staff voice other g k)
    (hl : l.LaidOut s) (hs : s.Sound fits) (hc : s.Charted) (hh : h ∈ l.hands)
    (hk : h.voice? other = some k) (hd : h.voice? voice = some d) :
    s.Follows h.staff voice g d := by
  obtain ⟨p, hp, c, hseated⟩ := hl.seated h hh
  obtain ⟨hvisible, hksounds⟩ := hc.soundsAt_of_seated hs hp hseated hk
  obtain ⟨-, hdsounds⟩ := hc.soundsAt_of_seated hs hp hseated hd
  cases hm with
  | within item start hg hk' =>
    obtain ⟨hlayer, hstart⟩ := hksounds.unique hk' hs
    obtain ⟨rfl, rfl, -⟩ := Layer.mk.inj hlayer
    obtain ⟨n, hn⟩ := List.getElem?_of_mem hp
    exact hc.follows_of_soundsAt hn hvisible hg (hstart ▸ hdsounds)
  | across n before after hbefore hafter =>
    obtain ⟨q, hq, hk'⟩ := soundsAt_of_first hafter
    obtain ⟨hlayer, hstart⟩ := hksounds.unique hk' hs
    obtain ⟨hitem, rfl, -⟩ := Layer.mk.inj hlayer
    cases Placed.eq_of_item hp (List.mem_of_getElem? hq) hitem
    obtain ⟨after', hfirst⟩ := hc.first_of_soundsAt hq hvisible (hstart ▸ hdsounds)
    exact .across n before after' hbefore hfirst

theorem KeepsTime.beat (h : t.KeepsTime s) (ht : t.Sound fits) (hlist : t.list? layer = some list)
    (hk : k ∈ t.mains list) : s.beat k = t.beat k := by
  obtain ⟨g, g', hg, hg', hsame⟩ := h.group_of_mains ht.tidy hlist hk
  rw [Score.beat, Score.beat, Arena.get_of_get? hg, Arena.get_of_get? hg', hsame.duration]

theorem KeepsTime.soundsAt (h : t.KeepsTime s) (ht : t.Sound fits) :
    s.SoundsAt layer u k ↔ t.SoundsAt layer u k := by
  rw [soundsAt_iff, soundsAt_iff, h.lists]
  refine exists_congr fun keys => and_congr_right fun hkeys => ?_
  obtain ⟨list, hlist, rfl⟩ := Option.map_eq_some_iff.mp hkeys
  rw [List.map_congr_left fun k hk => h.beat ht hlist hk]

theorem KeepsTime.meets (h : t.KeepsTime s) (ht : t.Sound fits)
    (hm : t.Meets staff voice other g k) : s.Meets staff voice other g k := by
  cases hm with
  | within item start hg hk =>
    obtain ⟨list, hlist, hmem⟩ := hg.mem_mains
    have hduration : (s.groups.get g).duration = (t.groups.get g).duration :=
      congrArg Beat.duration (h.beat ht hlist hmem)
    exact .within item start ((h.soundsAt ht).mpr hg) (hduration ▸ (h.soundsAt ht).mpr hk)
  | across n before after hg hk =>
    exact .across n before after ((h.beatsAt ht).trans hg) ((h.beatsAt ht).trans hk)

end Score

/-! ## Grace notes that are not folded -/

/-- A grace note that has no partner stays where it is, or moves, from before the source of the
merge to before its destination. -/
theorem Merging.Merged.leadsUp {s s' : Score} {h : Hand} {m : Merge} {x y z g : GroupKey}
    {ld le : List GroupKey} {layer : Layer} {a : Group} (hm : Merged h m x y ld le s s')
    (hp : Paired s h m x y ld le) (hs : s.Tidy) (hg : s.LeadsUp layer g z)
    (ha : s.groups.get? g = some a)
    (hfree : ∀ p ∈ (column s.graceAt ld x).zip (column s.graceAt le y), g ≠ p.1 ∧ g ≠ p.2) :
    (layer = h.layer m.src ∧ z = y ∧ s'.LeadsUp (h.layer m.dest) g x ∧
        ∃ b, s'.groups.get? g = some { a with voice := m.dest, beam := b }) ∨
      s'.LeadsUp layer g z ∧ ∃ b, s'.groups.get? g = some { a with beam := b } := by
  obtain ⟨list, hlist, hz, hmain, hmem, hgrace⟩ := (Score.leadsUp_iff hs).mp hg
  have hgl := mem_of_column hz hmem
  rw [Score.leadsUp_iff (hm.tidy hp hs), Score.leadsUp_iff (hm.tidy hp hs), hm.graceAt_eq hp hs]
  obtain ⟨e, -, hge, -⟩ | ⟨d, hdg, -⟩ | ⟨hmoved, hb⟩ | ⟨hstays, hb⟩ := hm.becomes ha
  · exact absurd rfl (hfree _ hge).1
  · exact absurd rfl (hfree _ hdg).2
  · have hgy := List.mem_of_mem_drop hmoved
    obtain rfl := hs.apart _ _ _ _ g hlist hp.srcList hgl (mem_of_column hp.srcMem hgy)
    cases hlist.symm.trans hp.srcList
    have hzy : z = y := Classical.byContradiction fun hne =>
      column_disjoint (hs.nodup _ _ hlist) hp.srcMem hz hne hp.srcMain hmain hgy hmem
    obtain ⟨list', hlist', hx, hcolumn⟩ := hm.dest hp hs
    rw [hm.graceAt_eq hp hs] at hcolumn
    exact .inl ⟨rfl, hzy, ⟨list', hlist', hx, hp.destMain,
      hcolumn ▸ List.mem_append_right _ hmoved, hgrace⟩, hb⟩
  · refine .inr ⟨?_, hb⟩
    by_cases hzx : z = x
    · subst hzx
      obtain rfl := hs.apart _ _ _ _ z hlist hp.destList hz hp.destMem
      cases hlist.symm.trans hp.destList
      obtain ⟨list', hlist', hx, hcolumn⟩ := hm.dest hp hs
      rw [hm.graceAt_eq hp hs] at hcolumn
      exact ⟨list', hlist', hx, hmain, hcolumn ▸ List.mem_append_left _ hmem, hgrace⟩
    by_cases hzy : z = y
    · subst hzy
      obtain rfl := hs.apart _ _ _ _ z hlist hp.srcList hz hp.srcMem
      cases hlist.symm.trans hp.srcList
      obtain ⟨list', hlist', hy, hcolumn⟩ := hm.src hp hs
      rw [hm.graceAt_eq hp hs] at hcolumn
      refine ⟨list', hlist', hy, hmain, hcolumn ▸ ?_, hgrace⟩
      rw [← List.take_append_drop (column s.graceAt ld x).length (column s.graceAt le z)] at hmem
      exact (List.mem_append.mp hmem).resolve_right hstays
    · obtain ⟨list', hlist', hz', hcolumn⟩ := hm.other hp hs hlist hz hmain hzx hzy
      rw [hm.graceAt_eq hp hs] at hcolumn
      exact ⟨list', hlist', hz', hmain, hcolumn ▸ hmem, hgrace⟩

/-! ## Merges beside a crossing -/

namespace Combination

open Merging

variable {c : Combination} {t : Score} {h : Hand} {m : Merge} {g k x y : GroupKey}
  {staff voice other : Nat}

theorem uncrossed_of_judged {l : Layout} {v w : Nat} {pair : GroupKey × GroupKey}
    (hj : h.Judged t l v w) (hpair : pair ∈ (t.columnAt h v).zip (t.columnAt h w)) :
    (t.groups.get pair.1).crossesVoices = false ∧
      (t.groups.get pair.2).crossesVoices = false := by
  obtain ⟨q, hq⟩ := hj
  have hcompatible := hq pair hpair
  simp only [Layout.compatible, Bool.and_eq_true, Bool.not_eq_true'] at hcompatible
  exact ⟨hcompatible.1.1.2, hcompatible.1.2⟩

/-- No two groups that are merged, grace notes among them, have a tie or slur to or from
another voice. -/
theorem Of.uncrossed (hc : c.Of t) (hmem : (h, m) ∈ c.steps) {pair : GroupKey × GroupKey}
    (hpair : pair ∈ (t.columnAt h m.dest).zip (t.columnAt h m.src)) :
    (t.groups.get pair.1).crossesVoices = false ∧
      (t.groups.get pair.2).crossesVoices = false :=
  uncrossed_of_judged (hc.judged_of_step hmem).2 hpair

/-- Nor have any two that a merge finds to be paired, though voice 2 may have joined voice 1. -/
theorem Of.uncrossed_of_performs (hc : c.Of t) {s s' : Score} (hp : c.Performs t h m s s')
    {pair : GroupKey × GroupKey} (hpair : pair ∈ (s.columnAt h m.dest).zip (s.columnAt h m.src)) :
    (t.groups.get pair.1).crossesVoices = false ∧
      (t.groups.get pair.2).crossesVoices = false := by
  obtain ⟨v, hjudged, hpair⟩ := hc.exists_judged_of_pair hp hpair
  exact uncrossed_of_judged hjudged hpair

theorem Of.uncrossed_mains (hc : c.Of t) (hmem : (h, m) ∈ c.steps)
    (hx : h.voice? m.dest = some x) (hy : h.voice? m.src = some y) :
    (t.groups.get x).crossesVoices = false ∧ (t.groups.get y).crossesVoices = false :=
  hc.uncrossed hmem (hc.mem_zip_of_voice? (hc.offers hmem).1 hx hy)

/-- What is tied or slurred to or from another voice stays as it is. -/
theorem Of.get_of_crossesVoices (hc : c.Of t) (hk : t.graceAt k = false)
    (hcross : (t.groups.get k).crossesVoices = true) :
    c.score.groups.get k = t.groups.get k := by
  refine (hc.induction_steps (P := fun _ s => s.graceAt k = false ∧
    s.groups.get k = t.groups.get k) (fun before h m after s s' hsteps hs hmerge hkept => ?_)
    ⟨hk, rfl⟩).2
  have hmem : (h, m) ∈ c.steps := by simp [hsteps]
  obtain ⟨-, ⟨x, hx⟩, ⟨y, hy⟩⟩ := (hc.offers hmem).2
  have hfree := hc.uncrossed_mains hmem hx hy
  obtain ⟨hmain', ⟨hsrc, -⟩ | ⟨-, hdest, -⟩ | ⟨-, -, hsame⟩⟩ :=
    hc.main_becomes hsteps ⟨⟨before, after, hsteps, hs⟩, hmerge⟩ hkept.1
  · cases hy.symm.trans hsrc
    rw [hfree.2] at hcross
    cases hcross
  · cases hx.symm.trans hdest
    rw [hfree.1] at hcross
    cases hcross
  · exact ⟨hmain', hsame.trans hkept.2⟩

theorem Of.isSpace_of_folded (hc : c.Of t) (hk : t.graceAt k = false) (hf : Folded c.steps k) :
    (c.score.groups.get k).isSpace = true := by
  rw [Arena.get_of_get? (hc.emptied hk hf), Group.isSpace_toSpace]

/-- **No merge back.** The group that a tie or slur meets is not merged into the voice that it
comes from. -/
theorem Of.not_into (hc : c.Of t) (ht : t.Chorded) (hmeets : t.Meets staff voice other g k)
    (hinto : (t.groups.get g).leadsInto other = true) (hmem : (h, ⟨voice, other⟩) ∈ c.steps) :
    h.voice? other ≠ some k := by
  intro hk
  obtain ⟨hh, -, ⟨d, hd⟩, -⟩ := hc.offers hmem
  have hfollows := hmeets.follows hc.laidOut ht.sound ht.charted hh hk hd
  -- what leads into another voice links the group with the next one of its own voice as well
  have hon : (t.groups.get g).continuesOnward = true := by
    obtain ⟨n, hn⟩ := hmeets.mem.1
    obtain ⟨x, hx, -⟩ := ht.sound.get?_of_beatsAt hn
    rw [Arena.get_of_get? hx] at hinto ⊢
    exact Group.continuesOnward_of_leadsInto (ht.sound.stocked.fits g x hx) hinto
  obtain ⟨h', d', e', hmem', hd', he', hfollows', -⟩ :=
    hc.prev ht hmem hd hk ⟨g, .inl hfollows, hon⟩
  cases hc.laidOut.followed_unique ht.sound hfollows' hfollows
  have hcross := Group.crossesVoices_of_leadsInto hinto
  rw [(hc.uncrossed_mains hmem' hd' he').1] at hcross
  cases hcross

theorem Of.exists_step_of_folded (hc : c.Of t) (ht : t.Chorded) {n : Nat}
    (hon : k ∈ t.beatsAt staff other n) (hf : Folded c.steps k) :
    ∃ h third, (h, ⟨third, other⟩) ∈ c.steps ∧ h.voice? other = some k ∧ third < other ∧
      (t.groups.get k).crossesVoices = false := by
  obtain ⟨⟨h, ⟨third, src⟩⟩, hmem, hk⟩ := hf
  obtain ⟨hh, -, ⟨d, hd⟩, -⟩ := hc.offers hmem
  obtain rfl : src = other := (hc.place_unique ht hh hk hon).2
  exact ⟨h, third, hmem, hk, (hc.judged_of_step hmem).1, (hc.uncrossed_mains hmem hd hk).2⟩

/-- The group that a tie or slur meets is merged, if it is, into a third voice further up, and has
no mark that it is tied or slurred to or from another. -/
theorem Of.folded_iff_of_meets (hc : c.Of t) (ht : t.Chorded)
    (hmeets : t.Meets staff voice other g k)
    (hinto : (t.groups.get g).leadsInto other = true) :
    Folded c.steps k ↔ ∃ h third, (h, ⟨third, other⟩) ∈ c.steps ∧ h.voice? other = some k ∧
      third ≠ voice ∧ third < other ∧ (t.groups.get k).crossesVoices = false := by
  constructor
  · intro hf
    obtain ⟨n, hn⟩ := hmeets.mem.2
    obtain ⟨h, third, hmem, hk, hrest⟩ := hc.exists_step_of_folded ht hn hf
    refine ⟨h, third, hmem, hk, ?_, hrest⟩
    rintro rfl
    exact hc.not_into ht hmeets hinto hmem hk
  · rintro ⟨h, third, hmem, hk, -⟩
    exact ⟨_, hmem, hk⟩

/-- What begins together in two voices of a hand does so by their place in the measure. -/
theorem Of.together_of_voice? (hc : c.Of t) (ht : t.Chorded) (hh : h ∈ c.layout.hands)
    {layer : Layer} {start : Time} (hk : h.voice? other = some k)
    (hsounds : t.SoundsAt { layer with voice := other } start k) (v : Nat) :
    h.layer v = { layer with voice := v } ∧
      (h.voice? v = some x ↔ t.SoundsAt { layer with voice := v } start x) := by
  obtain ⟨p, hp, chord, hseated⟩ := hc.laidOut.seated h hh
  obtain ⟨hvisible, hbegins⟩ := ht.charted.soundsAt_of_seated ht.sound hp hseated hk
  obtain ⟨hlayer, rfl⟩ := hsounds.unique hbegins ht.sound
  obtain ⟨hitem, hstaff, -⟩ := Layer.mk.inj hlayer
  rw [ht.charted.voice?_iff_of_seated ht.sound hp hseated hvisible, hitem, hstaff, Hand.layer,
    hseated.item]
  exact ⟨rfl, .rfl⟩

/-- A group that is merged into the voice of a grace note which leads to it is merged into the
group that the grace note leads up to, and has too few grace notes of its own to reach this one. -/
theorem Of.short_of_graceMeets (hc : c.Of t) (ht : t.Chorded) {layer : Layer}
    (hmeets : t.GraceMeets layer other g x k) (hcross : (t.groups.get g).crossesVoices = true)
    (hmem : (h, ⟨layer.voice, other⟩) ∈ c.steps) (hk : h.voice? other = some k) :
    h.voice? layer.voice = some x ∧
      (t.columnAt h other).length ≤ (t.columnAt h layer.voice).idxOf g := by
  obtain ⟨hleads, start, hx, hsounds⟩ := hmeets
  obtain ⟨hh, -⟩ := hc.offers hmem
  obtain ⟨hlayer, hplace⟩ := hc.together_of_voice? ht hh hk hsounds layer.voice
  have hown : h.voice? layer.voice = some x := hplace.mpr hx
  refine ⟨hown, Nat.le_of_not_lt fun hlt => ?_⟩
  obtain ⟨list, hlist, -, -, hg, -⟩ := (Score.leadsUp_iff ht.sound.tidy).mp hleads
  rw [← Score.columnAt_eq hown (hlayer ▸ hlist)] at hg
  -- the grace note would have a partner
  have hpair := List.mem_of_getElem? (List.getElem?_zip_eq_some
    (z := (g, (t.columnAt h other)[(t.columnAt h layer.voice).idxOf g])).mpr
      ⟨List.getElem?_idxOf hg, List.getElem?_eq_getElem hlt⟩)
  rw [(hc.uncrossed hmem hpair).1] at hcross
  cases hcross

/-- A grace note that leads into another voice keeps all but its voice and its beam, and leads up
to what begins with the group that it meets. -/
theorem Of.graceMeets (hc : c.Of t) (ht : t.Chorded) {layer : Layer}
    (hmeets : t.GraceMeets layer other g x k) (hcross : (t.groups.get g).crossesVoices = true) :
    ∃ v z b, c.score.GraceMeets { layer with voice := v } other g z k ∧
      c.score.groups.get g = { t.groups.get g with voice := v, beam := b } := by
  obtain ⟨hleads, start, hx, hk⟩ := hmeets
  obtain ⟨list, hlist, hxl, -, hmem, -⟩ := (Score.leadsUp_iff ht.sound.tidy).mp hleads
  obtain ⟨a, -, ha, -, -, -, hvoice⟩ := ht.sound.get?_of_mem hlist (mem_of_column hxl hmem)
  suffices hall : ∃ v z b, c.score.LeadsUp { layer with voice := v } g z ∧
      t.SoundsAt { layer with voice := v } start z ∧
      c.score.groups.get? g = some { a with voice := v, beam := b } by
    obtain ⟨v, z, b, hleads, hz, hb⟩ := hall
    have hkept {l u e} : c.score.SoundsAt l u e ↔ t.SoundsAt l u e :=
      hc.keepsTime.soundsAt ht.sound
    exact ⟨v, z, b, ⟨hleads, start, hkept.mpr hz, hkept.mpr hk⟩, by
      rw [Arena.get_of_get? hb, Arena.get_of_get? ha]⟩
  refine hc.induction (P := fun s => ∃ v z b, s.LeadsUp { layer with voice := v } g z ∧
    t.SoundsAt { layer with voice := v } start z ∧
      s.groups.get? g = some { a with voice := v, beam := b })
    (fun h m s s' hp hkept => ?_) ⟨layer.voice, x, a.beam, hleads, hx, hvoice ▸ ha⟩
  obtain ⟨v, z, b, hleads, hz, hb⟩ := hkept
  obtain ⟨dest, src, ld, le, hpaired, hmerged, hh, hstands, -⟩ := hc.merged hp
  have hfree : ∀ p ∈ (column s.graceAt ld dest).zip (column s.graceAt le src),
      g ≠ p.1 ∧ g ≠ p.2 := by
    intro p hpair
    rw [← Score.columnAt_eq hpaired.destVoice hpaired.destList,
      ← Score.columnAt_eq hpaired.srcVoice hpaired.srcList] at hpair
    obtain ⟨hfst, hsnd⟩ := hc.uncrossed_of_performs hp hpair
    refine ⟨?_, ?_⟩ <;> rintro rfl
    · rw [hfst] at hcross
      cases hcross
    · rw [hsnd] at hcross
      cases hcross
  rcases hmerged.leadsUp hpaired hstands.tidy hleads hb hfree with
    ⟨hlayer, rfl, hleads', b', hb'⟩ | ⟨hleads', b', hb'⟩
  · obtain rfl : v = m.src := (Layer.mk.inj hlayer).2.2
    obtain ⟨hdest, hplace⟩ := hc.together_of_voice? ht hh hpaired.srcVoice hz m.dest
    exact ⟨m.dest, dest, b', hdest ▸ hleads', hplace.mp hpaired.destVoice, hb'⟩
  · exact ⟨v, z, b', hleads', hz, hb'⟩

/-- The group that a grace note leads to is merged, if it is, into a voice further up: into that of
the grace note only if this one has no partner. -/
theorem Of.folded_iff_of_graceMeets (hc : c.Of t) (ht : t.Chorded) {layer : Layer}
    (hmeets : t.GraceMeets layer other g x k) (hcross : (t.groups.get g).crossesVoices = true) :
    Folded c.steps k ↔ ∃ h third, (h, ⟨third, other⟩) ∈ c.steps ∧ h.voice? other = some k ∧
      third < other ∧ (t.groups.get k).crossesVoices = false ∧
      (third = layer.voice → h.voice? third = some x ∧
        (t.columnAt h other).length ≤ (t.columnAt h third).idxOf g) := by
  constructor
  · intro hf
    obtain ⟨start, -, hsounds⟩ := hmeets.together
    obtain ⟨n, hn⟩ := hsounds.mem_beatsAt
    obtain ⟨h, third, hmem, hk, hlt, hfree⟩ := hc.exists_step_of_folded ht hn hf
    refine ⟨h, third, hmem, hk, hlt, hfree, ?_⟩
    rintro rfl
    exact hc.short_of_graceMeets ht hmeets hcross hmem hk
  · rintro ⟨h, third, hmem, hk, -⟩
    exact ⟨_, hmem, hk⟩

end Combination

/-- **Ties and slurs between voices.** Where a tie or slur leads from group `g` into group `k` of
another voice, `g` is merged with none, and `k` still begins where `g` ends. It is never merged
into the voice of `g`, so between the first two voices it stays where it is. If it is merged, that
is into a third voice further up, has no mark of its own that it is tied or slurred to or from
another, and leaves a space behind for the tie or slur to meet.

A grace note that leads to `k` is merged with none either: at most it moves to another voice, with
the group that it leads up to. Here `k` may be merged into the voice of the grace note as well, if
that has no partner among the grace notes before `k`. No two groups that are merged, grace notes
among them, have a tie or slur to or from another voice. -/
theorem Score.Chorded.crossing_meets {t : Score} (ht : t.Chorded) : ∃ c, t.combineVoices = .ok c ∧
    (∀ staff voice other g k, voice ≠ other → t.Meets staff voice other g k →
      (t.groups.get g).leadsInto other = true →
        c.score.Meets staff voice other g k ∧ c.score.groups.get g = t.groups.get g ∧
        (Merging.Folded c.steps k ↔ ∃ h third, (h, ⟨third, other⟩) ∈ c.steps ∧
          h.voice? other = some k ∧ third ≠ voice ∧ third < other ∧
          (t.groups.get k).crossesVoices = false) ∧
        (Merging.Folded c.steps k → (c.score.groups.get k).isSpace = true) ∧
        (voice ≤ 2 → other ≤ 2 → ¬Merging.Folded c.steps k)) ∧
    (∀ layer other g x k, t.GraceMeets layer other g x k →
      (t.groups.get g).leadsInto other = true →
        (∃ v z b, c.score.GraceMeets { layer with voice := v } other g z k ∧
          c.score.groups.get g = { t.groups.get g with voice := v, beam := b }) ∧
        (Merging.Folded c.steps k ↔ ∃ h third, (h, ⟨third, other⟩) ∈ c.steps ∧
          h.voice? other = some k ∧ third < other ∧ (t.groups.get k).crossesVoices = false ∧
          (third = layer.voice → h.voice? third = some x ∧
            (t.columnAt h other).length ≤ (t.columnAt h third).idxOf g)) ∧
        (Merging.Folded c.steps k → (c.score.groups.get k).isSpace = true)) ∧
    ∀ h m, (h, m) ∈ c.steps → ∀ pair ∈ (t.columnAt h m.dest).zip (t.columnAt h m.src),
      (t.groups.get pair.1).crossesVoices = false ∧
        (t.groups.get pair.2).crossesVoices = false := by
  obtain ⟨c, hcombine, hc⟩ := ht.combined
  refine ⟨c, hcombine, fun staff voice other g k hne hmeets hinto => ?_,
    fun layer other g x k hmeets hinto => ?_, fun h m hmem pair hpair => hc.uncrossed hmem hpair⟩
  · obtain ⟨⟨i, hi⟩, j, hj⟩ := hmeets.mem
    have hiff := hc.folded_iff_of_meets ht hmeets hinto
    refine ⟨hc.keepsTime.meets ht.sound hmeets, hc.get_of_crossesVoices (graceAt_of_beatsAt hi)
      (Group.crossesVoices_of_leadsInto hinto), hiff, hc.isSpace_of_folded (graceAt_of_beatsAt hj),
      fun hvoice hother hfolded => ?_⟩
    obtain ⟨h, third, hmem, -, hthird, hupward, -⟩ := hiff.mp hfolded
    obtain ⟨-, -, ⟨d, hd⟩, -⟩ := hc.offers hmem
    have hthird' : 1 ≤ third := (Hand.le_of_voice? hd).1
    obtain ⟨-, st, list, -, -, hlist, -⟩ := mem_beatsAt.mp hi
    have hvoice' := Stave.le_of_list? hlist
    omega
  · have hcross := Group.crossesVoices_of_leadsInto hinto
    obtain ⟨start, -, hk⟩ := hmeets.together
    obtain ⟨n, hn⟩ := hk.mem_beatsAt
    exact ⟨hc.graceMeets ht hmeets hcross, hc.folded_iff_of_graceMeets ht hmeets hcross,
      hc.isSpace_of_folded (graceAt_of_beatsAt hn)⟩

/-- A half note of voice 3 that is tied to the second one of voice 2, below voice 1. -/
def tiedIntoSecond : String :=
  "vcombine:\n voices: [1,2]\nmusic:\n- measure:\n  - voices:\n     1:\n     - time: 2\n" ++
  "       notes: [g5]\n     - time: 2\n       notes: [g5]\n     2:\n     - time: 2\n" ++
  "       notes: [c4]\n     - time: 2\n       notes: [e4]\n     3:\n     - time: 2\n" ++
  "       notes:\n       - pitch: e4\n         tie-to-voice: 2\n     - time: 2\n" ++
  "       rest: true\n"

/-- The note that it is tied to moves up into voice 1. -/
theorem emptied_tiedIntoSecond : ∃ t : Score, t.Chorded ∧ ∃ c, t.combineVoices = .ok c ∧
    c.score.Meets 1 3 2 ⟨4⟩ ⟨3⟩ ∧ (c.score.groups.get ⟨4⟩).leadsInto 2 = true ∧
    Merging.Folded c.steps ⟨3⟩ ∧ (c.score.groups.get ⟨3⟩).isSpace = true := by
  obtain ⟨s, hs, hfault, hsounds, hmet, hinto, hmade⟩ := Score.exists_of_spelled tiedIntoSecond
    (.append (.append (.append (.append (.ofList _) (.ofList _)) (.ofList _)) (.ofList _))
      (.ofList _))
    (P := fun s => s.buildChords.fault = none ∧ s.buildChords.now.SoundsAt ⟨1, 1, 3⟩ 0 ⟨4⟩ ∧
      s.buildChords.now.SoundsAt ⟨1, 1, 2⟩ (0 + (s.buildChords.now.groups.get ⟨4⟩).duration) ⟨3⟩ ∧
      (s.buildChords.now.groups.get ⟨4⟩).leadsInto 2 = true ∧
      (s.buildChords.now.combineVoices.toOption.any fun c =>
        c.steps.any fun x => x.1.voice? x.2.src == some ⟨3⟩) = true)
    (by decide +kernel)
  have ht : s.buildChords.now.Chorded := ⟨s, .of_text hs, hfault, rfl⟩
  obtain ⟨c, hc, hcrossing, -⟩ := Score.Chorded.crossing_meets ht
  have hmeets : s.buildChords.now.Meets 1 3 2 ⟨4⟩ ⟨3⟩ := .within 1 0 hsounds hmet
  obtain ⟨hstill, hkept, -, hspace, -⟩ := hcrossing 1 3 2 ⟨4⟩ ⟨3⟩ (by decide) hmeets hinto
  have hfolded : Merging.Folded c.steps ⟨3⟩ := by
    simpa [hc, Except.toOption, Merging.Folded] using hmade
  exact ⟨_, ht, c, hc, hstill, hkept ▸ hinto, hfolded, hspace hfolded⟩

end Divisi
