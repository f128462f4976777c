/-
The notes of merged voices.

When a merge is made the two groups, and the grace notes paired before them, agree
wherever they meet; so does a third voice with a destination that has taken in another
(`Combination.Of.tallies`). What a merge keeps and what it loses follows.
-/
import Divisi.Proofs.Combined

namespace Divisi

open Merging

/-! ## Judged pairs -/

namespace Layout

variable {s : Score} {l : Layout} {q : Qualifier} {x y : GroupKey}

/-- Of two groups that can be combined, the higher goes with the lower. -/
theorem unites_of_compatible (h : l.compatible s q x y = true) :
    if Group.height (s.groups.get x).voice ≤ Group.height (s.groups.get y).voice then
      (s.groups.get x).Unites (s.groups.get y) else (s.groups.get y).Unites (s.groups.get x) := by
  unfold compatible at h
  unfold Group.Unites
  simp only [Bool.and_eq_true, Bool.or_eq_true] at h
  obtain ⟨-, h⟩ := h
  generalize s.groups.get x = a at h ⊢
  generalize s.groups.get y = b at h ⊢
  cases ha : a.kind <;> cases hb : b.kind <;>
    simp [ha, hb, Group.isSpace] at h ⊢
  have hpitches := h.2.2
  by_cases hle : Group.height a.voice ≤ Group.height b.voice
  · simp only [Group.pitchesAgree, if_pos hle, Bool.and_eq_true] at hpitches
    rw [if_pos hle]
    exact hpitches.1
  · simp only [Group.pitchesAgree, if_neg hle, Bool.and_eq_true] at hpitches
    rw [if_neg hle]
    exact hpitches.1

theorem tallies_of_compatible (h : l.compatible s q x y = true) :
    (s.groups.get x).Tallies (s.groups.get y) := by
  have hunites := unites_of_compatible h
  split at hunites
  · exact hunites.tallies
  · exact hunites.tallies_below

end Layout

/-! ## Columns of a hand -/

section Hand

variable {fits : Group → Prop} {s t : Score} {hands : List Hand} {h : Hand} {v w i : Nat}
  {k d e : GroupKey}

theorem Score.Stands.voice_of_column (ht : t.Stands hands) (hs : t.Sound fits) (hh : h ∈ hands)
    (hk : k ∈ t.columnAt h v) : (t.groups.get k).voice = v := by
  cases hv : h.voice? v with
  | none => simp [columnAt, hv] at hk
  | some x =>
    obtain ⟨-, list, hlist, hx⟩ := ht.main h hh v x hv
    rw [columnAt_eq hv hlist] at hk
    obtain ⟨g, m, hg, -, -, -, hvoice⟩ := hs.get?_of_mem hlist (mem_of_column hx hk)
    rw [Arena.get_of_get? hg]
    exact hvoice

theorem Score.Stands.voice_inj (ht : t.Stands hands) (hh : h ∈ hands) (hv : h.voice? v = some k)
    (hw : h.voice? w = some k) : v = w := by
  obtain ⟨-, list, hlist, hk⟩ := ht.main h hh v k hv
  obtain ⟨-, list', hlist', hk'⟩ := ht.main h hh w k hw
  exact (Layer.mk.inj (ht.tidy.apart _ _ _ _ k hlist hlist' hk hk')).2.2

theorem Score.Stands.column_nodup (ht : t.Stands hands) (hh : h ∈ hands) :
    (t.columnAt h v).Nodup := by
  cases hv : h.voice? v with
  | none => simp [columnAt, hv]
  | some x =>
    obtain ⟨-, list, hlist, hx⟩ := ht.main h hh v x hv
    rw [columnAt_eq hv hlist]
    exact Merging.column_nodup (ht.tidy.nodup _ _ hlist) hx

theorem Score.Stands.column_apart (ht : t.Stands hands) (hh : h ∈ hands) (hne : v ≠ w)
    (hk : k ∈ t.columnAt h v) : k ∉ t.columnAt h w := by
  cases hv : h.voice? v with
  | none => simp [columnAt, hv] at hk
  | some x =>
    cases hw : h.voice? w with
    | none => simp [columnAt, hw]
    | some z =>
      exact ht.disjoint hh hh hv hw (fun he => hne (ht.voice_inj hh hv (he ▸ hw))) hk

theorem Score.Stands.live_of_column (ht : t.Stands hands) (hh : h ∈ hands)
    (hk : k ∈ t.columnAt h v) : ∃ g, t.groups.get? k = some g := by
  cases hv : h.voice? v with
  | none => simp [columnAt, hv] at hk
  | some x =>
    obtain ⟨-, list, hlist, hx⟩ := ht.main h hh v x hv
    rw [columnAt_eq hv hlist] at hk
    exact ht.tidy.live _ _ _ hlist (mem_of_column hx hk)

theorem mem_drop_of_getElem? {α : Type} {xs : List α} {x : α} {n : Nat} (h : xs[i]? = some x)
    (hn : n ≤ i) : x ∈ xs.drop n := by
  refine List.mem_of_getElem? (i := i - n) ?_
  rw [List.getElem?_drop, Nat.add_sub_of_le hn, h]

/-- A hand that has not been merged: judged pairs may be blended. -/
theorem tallies_of_leaves {l : Layout} (hl : t.Leaves s h) (hj : h.Judged t l v w) :
    ∀ p ∈ (s.columnAt h v).zip (s.columnAt h w),
      (s.groups.get p.1).Tallies (s.groups.get p.2) := by
  obtain ⟨q, hj⟩ := hj
  rintro ⟨d, e⟩ hp
  rw [(hl v).1, (hl w).1] at hp
  obtain ⟨hd, he⟩ := List.of_mem_zip hp
  rw [Arena.get, Arena.get, (hl v).2 d hd, (hl w).2 e he]
  exact Layout.tallies_of_compatible (hj (d, e) hp)

/-- Of the groups at one place of two judged columns the higher goes with the lower. -/
theorem unites_of_judged {l : Layout} (ht : t.Stands hands) (hsound : t.Sound fits) (hh : h ∈ hands)
    (hj : h.Judged t l v w) (hd : (t.columnAt h v)[i]? = some d)
    (he : (t.columnAt h w)[i]? = some e) :
    if Group.height v ≤ Group.height w then (t.groups.get d).Unites (t.groups.get e)
    else (t.groups.get e).Unites (t.groups.get d) := by
  obtain ⟨q, hj⟩ := hj
  have hpair := List.mem_of_getElem? (List.getElem?_zip_eq_some (z := (d, e)).mpr ⟨hd, he⟩)
  have hunites := Layout.unites_of_compatible (hj _ hpair)
  rwa [ht.voice_of_column hsound hh (List.mem_of_getElem? hd),
    ht.voice_of_column hsound hh (List.mem_of_getElem? he)] at hunites

theorem samePrint_of_joined {m : Merge} {s₀ : Score} (ht : t.Stands hands) (hh : h ∈ hands)
    (hl : t.Leaves s₀ h) (hjoined : Joined hands h m s₀ s) (hk : k ∈ t.columnAt h v)
    (hfst : k ∉ (t.columnAt h m.dest).take (t.columnAt h m.src).length)
    (hsnd : k ∉ (t.columnAt h m.src).take (t.columnAt h m.dest).length) :
    (s.groups.get k).SamePrint (t.groups.get k) := by
  obtain ⟨g, hg⟩ := ht.live_of_column hh hk
  have hunfolded := hjoined.unfolded
  rw [(hl m.dest).1, (hl m.src).1] at hunfolded
  obtain ⟨voice, b, hs⟩ := hunfolded k g (((hl v).2 k hk).trans hg)
    (by rwa [map_fst_zip]) (by rwa [map_snd_zip])
  rw [Arena.get_of_get? hs, Arena.get_of_get? hg]
  exact ⟨rfl, rfl⟩

/-- Voice 2 has joined voice 1: what is there now may take in voice 3. -/
theorem tallies_of_joined {l : Layout} (ht : t.Stands hands) (hsound : t.Sound fits) (hh : h ∈ hands)
    {s₀ : Score} (hs₀ : s₀.Stands hands) (hl : t.Leaves s₀ h)
    (hm : h.Offers ⟨1, 2⟩) (hjoined : Joined hands h ⟨1, 2⟩ s₀ s)
    (h₁₃ : h.Judged t l 1 3) (h₂₃ : h.Judged t l 2 3) :
    ∀ p ∈ (s.columnAt h 1).zip (s.columnAt h 3),
      (s.groups.get p.1).Tallies (s.groups.get p.2) := by
  obtain ⟨-, ⟨x, hx⟩, y, hy⟩ := hm
  obtain ⟨hcolumn, hthird⟩ := hjoined.others h hh 3
    (fun he => absurd (hs₀.voice_inj hh (he.trans hx) hx) (by decide))
    (fun he => absurd (hs₀.voice_inj hh (he.trans hy) hy) (by decide))
  have hdest := hjoined.dest
  have hfolded := hjoined.folded
  simp only [(hl 1).1, (hl 2).1] at hdest hfolded
  rw [(hl 3).1] at hcolumn hthird
  rintro ⟨d, f⟩ hp
  rw [hdest, hcolumn] at hp
  obtain ⟨i, hi⟩ := List.getElem?_of_mem hp
  obtain ⟨hd, hf⟩ := List.getElem?_zip_eq_some.mp hi
  simp only at hd hf ⊢
  have hfget : s.groups.get f = t.groups.get f := by
    have hfm := List.mem_of_getElem? hf
    rw [Arena.get, Arena.get, hthird f hfm, (hl 3).2 f hfm]
  -- voice 3 lies between the others
  have hone : ∀ d, (t.columnAt h 1)[i]? = some d → (t.groups.get d).Unites (t.groups.get f) :=
    fun d hd => unites_of_judged ht hsound hh h₁₃ hd hf
  have htwo : ∀ e, (t.columnAt h 2)[i]? = some e → (t.groups.get f).Unites (t.groups.get e) :=
    fun e he => unites_of_judged ht hsound hh h₂₃ he hf
  by_cases hlt : i < (t.columnAt h 1).length
  · rw [List.getElem?_append_left hlt] at hd
    have hdm := List.mem_of_getElem? hd
    cases he : (t.columnAt h 2)[i]? with
    | some e =>
      have hpair := List.mem_of_getElem? (List.getElem?_zip_eq_some (z := (d, e)).mpr ⟨hd, he⟩)
      obtain ⟨b, hb⟩ := hfolded _ hpair
      have hem := List.mem_of_getElem? he
      have hdget : s₀.groups.get d = t.groups.get d := by rw [Arena.get, Arena.get, (hl 1).2 d hdm]
      have heget : s₀.groups.get e = t.groups.get e := by rw [Arena.get, Arena.get, (hl 2).2 e hem]
      rw [Arena.get_of_get? hb, hfget, hdget, heget]
      exact (Group.tallies_congr ⟨rfl, rfl⟩ ⟨rfl, rfl⟩).mp (Group.tallies_blend (hone d hd) (htwo e he))
    | none =>
      have hle : (t.columnAt h 2).length ≤ i := List.getElem?_eq_none_iff.mp he
      have hprint := samePrint_of_joined ht hh hl hjoined hdm
        (fun hmem => not_mem_drop (ht.column_nodup hh) hmem (mem_drop_of_getElem? hd hle))
        fun hmem => ht.column_apart hh (by decide) hdm (List.mem_of_mem_take hmem)
      exact (Group.tallies_congr hprint (hfget ▸ ⟨rfl, rfl⟩)).mpr (hone d hd).tallies
  · have hle := Nat.le_of_not_lt hlt
    rw [List.getElem?_append_right hle, List.getElem?_drop, Nat.add_sub_of_le hle] at hd
    have hdm := List.mem_of_getElem? hd
    have hprint := samePrint_of_joined ht hh hl hjoined hdm
      (fun hmem => ht.column_apart hh (by decide) hdm (List.mem_of_mem_take hmem))
      fun hmem => not_mem_drop (ht.column_nodup hh) hmem (mem_drop_of_getElem? hd hle)
    exact (Group.tallies_congr hprint (hfget ▸ ⟨rfl, rfl⟩)).mpr (htwo d hd).tallies_below

end Hand

/-! ## What a combination keeps -/

section Combination

variable {c : Combination} {t s s' : Score} {h : Hand} {m : Merge}

theorem Combination.Of.tallies (hc : c.Of t) (ht : t.Chorded) (hp : c.Performs t h m s s') :
    h ∈ c.layout.hands ∧ s.Stands c.layout.hands ∧ h.Offers m ∧
      ∀ p ∈ (s.columnAt h m.dest).zip (s.columnAt h m.src),
        (s.groups.get p.1).Tallies (s.groups.get p.2) := by
  obtain ⟨plan, rest, s₀, hshape, hh, hstands, hleaves, hplan⟩ := hc.performs hp
  obtain ⟨hoffers, ⟨rfl, hgoes⟩ | ⟨rfl, rfl, hfirst, h₁₃, h₂₃⟩⟩ := hshape.split
  · simp only [List.foldlM_nil, pure_eq_ok] at hplan
    subst hplan
    exact ⟨hh, hstands, hoffers, tallies_of_leaves hleaves hgoes⟩
  · obtain ⟨hne, ⟨x, hx⟩, y, hy⟩ := hfirst
    obtain ⟨s₁, hmerge, hstands', hjoined⟩ := hstands.merge hh hne hx hy
    simp only [List.foldlM_cons, hmerge, List.foldlM_nil, bind, Except.bind, pure_eq_ok] at hplan
    subst hplan
    exact ⟨hh, hstands', hoffers, tallies_of_joined hc.stands ht.sound hh hstands hleaves
      ⟨hne, ⟨x, hx⟩, y, hy⟩ hjoined h₁₃ h₂₃⟩

/-- **Pitches that a combination loses.** Each merge keeps every pitch of the destination, and a
note of the source unless the destination has notes of its own and an earlier note of the
source stands at the same position with another accidental. This holds of the two groups and
of the grace notes that are paired before them; other groups keep what they print. -/
theorem Score.Chorded.pitches_of_merges {t : Score} (ht : t.Chorded) :
    ∃ c, t.combineVoices = .ok c ∧
      c.steps.foldlM (fun s x => Merging.merge x.1 s x.2) t = .ok c.score ∧
      ∀ h m s s', c.Performs t h m s s' → ∃ dest src xs ys,
        h.voice? m.dest = some dest ∧ h.voice? m.src = some src ∧
        s.graceRun h.item h.staff m.dest dest = .ok xs ∧
        s.graceRun h.item h.staff m.src src = .ok ys ∧
        (∀ p ∈ (dest, src) :: xs.reverse.zip ys.reverse,
          Group.Retains (s.groups.get p.1) (s.groups.get p.2) (s'.groups.get p.1)) ∧
        ∀ k g, s.groups.get? k = some g →
          (∀ p ∈ (dest, src) :: xs.reverse.zip ys.reverse, k ≠ p.1 ∧ k ≠ p.2) →
            ∃ g', s'.groups.get? k = some g' ∧ g'.content = g.content ∧ g'.notes = g.notes := by
  obtain ⟨c, hcombine, hc⟩ := ht.combined
  refine ⟨c, hcombine, hc.performed, fun h m s s' hp => ?_⟩
  obtain ⟨hh, hstands, ⟨hne, ⟨dest, hdest⟩, src, hsrc⟩, htallies⟩ := hc.tallies ht hp
  obtain ⟨xs, hxs, hcolumn⟩ := hstands.graceRun hh hdest
  obtain ⟨ys, hys, hcolumn'⟩ := hstands.graceRun hh hsrc
  obtain ⟨s₁, hmerge, -, hjoined⟩ := hstands.merge hh hne hdest hsrc
  cases hmerge.symm.trans hp.made
  have hfolded := hjoined.folded
  have hunfolded := hjoined.unfolded
  have hprints := hc.printsAll ht.sound hp
  rw [hcolumn, hcolumn', List.zip_cons_cons] at htallies hfolded hunfolded
  refine ⟨dest, src, xs, ys, hdest, hsrc, hxs, hys, fun p hp => ?_, fun k g hk hout => ?_⟩
  · obtain ⟨b, hb⟩ := hfolded p hp
    obtain ⟨hd, hs, honly⟩ := Group.retains_blend (hprints p.1) (hprints p.2) (htallies p hp)
    rw [Arena.get_of_get? hb]
    exact ⟨hd, hs, honly⟩
  · have hfst : ∀ pairs : List (GroupKey × GroupKey), (∀ p ∈ pairs, k ≠ p.1 ∧ k ≠ p.2) →
        k ∉ pairs.map Prod.fst ∧ k ∉ pairs.map Prod.snd := fun pairs hpairs => by
      simp only [List.mem_map, not_exists, not_and]
      exact ⟨fun p hp he => (hpairs p hp).1 he.symm, fun p hp he => (hpairs p hp).2 he.symm⟩
    obtain ⟨v, b, hg⟩ := hunfolded k g hk (hfst _ hout).1 (hfst _ hout).2
    exact ⟨_, hg, rfl, rfl⟩

/-- Two voices that move together. -/
def together : String :=
  "vcombine:\n voices: [1,2]\nmusic:\n- measure:\n  - voices:\n     1:\n     - time: 1\n" ++
  "       notes: [g5]\n     2:\n     - time: 1\n       notes: [c4]\n"

theorem merged_together : ∃ t : Score, t.Chorded ∧ ∃ c, t.combineVoices = .ok c ∧
    c.steps.length = 1 ∧ ∀ h m s s', c.Performs t h m s s' → ∃ dest src,
      Group.Retains (s.groups.get dest) (s.groups.get src) (s'.groups.get dest) := by
  obtain ⟨s, hs, hfault, hsteps⟩ := Score.exists_of_text together
    (P := fun s => s.buildChords.fault = none ∧
      (s.buildChords.now.combineVoices.toOption.any fun c => c.steps.length == 1) = true)
    (by decide +kernel)
  have ht : s.buildChords.now.Chorded := ⟨s, .of_text hs, hfault, rfl⟩
  obtain ⟨c, hc, -, hperforms⟩ := Score.Chorded.pitches_of_merges ht
  refine ⟨_, ht, c, hc, by simpa [hc, Except.toOption] using hsteps, fun h m s s' hp => ?_⟩
  obtain ⟨dest, src, xs, ys, -, -, -, -, hpairs, -⟩ := hperforms h m s s' hp
  exact ⟨dest, src, hpairs (dest, src) (by simp)⟩

end Combination

end Divisi
