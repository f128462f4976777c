/-
Columns under merging.

A merge lengthens the column of its destination by what the source's has more of, and
shortens the source's to match; every other column, with all that is in it, is left as it
was. So the groups of a hand stand where they stood until the hand itself is merged, and
each planned merge can be made.
-/
import Divisi.Proofs.Blended
import Divisi.Proofs.Merged
import Divisi.Proofs.Seated

namespace Divisi

namespace Merging

/-! ## Columns -/

section Column

variable {grace : GroupKey → Bool} {list : List GroupKey} {x z k : GroupKey}

theorem column_split (grace : GroupKey → Bool) (hx : x ∈ list) :
    ∃ before after, list = before ++ (column grace list x).reverse ++ after := by
  obtain ⟨before, after, hlist, -⟩ := exists_runOf grace hx
  refine ⟨before, after, ?_⟩
  rw [column, List.reverse_cons, List.reverse_reverse]
  simpa using hlist

theorem mem_of_column (hx : x ∈ list) (hk : k ∈ column grace list x) : k ∈ list := by
  obtain ⟨before, after, hlist⟩ := column_split grace hx
  rw [hlist]
  simp [hk]

theorem column_nodup (hnodup : list.Nodup) (hx : x ∈ list) : (column grace list x).Nodup := by
  obtain ⟨before, after, hlist⟩ := column_split grace hx
  rw [hlist] at hnodup
  exact List.nodup_reverse.mp (List.nodup_append.mp (List.nodup_append.mp hnodup).1).2.1

theorem grace_of_column (hk : k ∈ (column grace list x).tail) : grace k = true :=
  grace_of_runOf (List.mem_reverse.mp hk)

/-- What one column has more of than another is made of grace notes. -/
theorem grace_of_drop {list' : List GroupKey}
    (hk : k ∈ (column grace list x).drop (column grace list' z).length) : grace k = true := by
  have hk : k ∈ (column grace list x).tail.drop (column grace list' z).tail.length := hk
  exact grace_of_column (List.mem_of_mem_drop hk)

theorem column_disjoint (hnodup : list.Nodup) (hxl : x ∈ list) (hzl : z ∈ list) (hne : z ≠ x)
    (hx : grace x = false) (hz : grace z = false) (hk : k ∈ column grace list x) :
    k ∉ column grace list z := by
  have hmain : ∀ {v w : GroupKey}, grace v = false → v ∉ runOf grace list w := fun hv hmem =>
    Bool.false_ne_true (hv.symm.trans (grace_of_runOf hmem))
  simp only [column, List.mem_cons, List.mem_reverse, not_or] at hk ⊢
  rcases hk with rfl | hk
  · exact ⟨hne.symm, hmain hx⟩
  · refine ⟨fun he => hmain hz (he ▸ hk), runOf_disjoint hnodup hxl hzl hne hx hz hk⟩

/-- Another column in the place of one is found there. -/
theorem column_eq {before after : List GroupKey} (rest : List GroupKey)
    (hnodup : (before ++ (x :: rest).reverse ++ after).Nodup)
    (hrest : ∀ k ∈ rest, grace k = true) (hbefore : ∀ k ∈ before.getLast?, grace k = false) :
    column grace (before ++ (x :: rest).reverse ++ after) x = x :: rest := by
  have hlist : before ++ (x :: rest).reverse ++ after = before ++ rest.reverse ++ x :: after := by
    simp
  rw [hlist] at hnodup ⊢
  have hx : x ∉ before ++ rest.reverse := fun hmem =>
    (List.nodup_append.mp hnodup).2.2 x hmem x List.mem_cons_self rfl
  rw [column, runOf_eq hx (fun k hk => hrest k (List.mem_reverse.mp hk)) hbefore,
    List.reverse_reverse]

theorem column_congr {before after : List GroupKey} (rest rest' : List GroupKey) (hx : grace x = false)
    (hz : grace z = false) (hne : z ≠ x) (hrest : ∀ k ∈ rest, grace k = true)
    (hrest' : ∀ k ∈ rest', grace k = true) :
    column grace (before ++ (x :: rest).reverse ++ after) z =
      column grace (before ++ (x :: rest').reverse ++ after) z := by
  have hlist : ∀ rest : List GroupKey,
      before ++ (x :: rest).reverse ++ after = before ++ rest.reverse ++ x :: after := by
    simp
  rw [column, column, hlist, hlist, runOf_congr hx hz hne
    (fun k hk => hrest k (List.mem_reverse.mp hk)) fun k hk => hrest' k (List.mem_reverse.mp hk)]

end Column

/-! ## What a merge does to its groups -/

section Merged

variable {s s' : Score} {h : Hand} {m : Merge} {x y z k d e : GroupKey} {ld le : List GroupKey}

theorem Paired.grace_eq (hp : Paired s h m x y ld le)
    (hde : (d, e) ∈ (column s.graceAt ld x).zip (column s.graceAt le y)) :
    s.graceAt d = s.graceAt e := by
  rw [column, column, List.zip_cons_cons] at hde
  rcases List.mem_cons.mp hde with heq | hde
  · cases heq
    rw [hp.destMain, hp.srcMain]
  · obtain ⟨hd, he⟩ := List.of_mem_zip hde
    rw [grace_of_runOf (List.mem_reverse.mp hd), grace_of_runOf (List.mem_reverse.mp he)]

theorem Paired.apart (hp : Paired s h m x y ld le) (hs : s.Tidy)
    (hk : k ∈ column s.graceAt ld x) : k ∉ column s.graceAt le y := fun hk' =>
  hp.differ (Layer.mk.inj (hs.apart _ _ _ _ k hp.destList hp.srcList (mem_of_column hp.destMem hk)
    (mem_of_column hp.srcMem hk'))).2.2

theorem Merged.folded (hm : Merged h m x y ld le s s')
    (hde : (d, e) ∈ (column s.graceAt ld x).zip (column s.graceAt le y)) :
    ∃ b, s'.groups.get? d = some { ((s.groups.get d).blend (s.groups.get e)).group with beam := b } := by
  rw [column, column, List.zip_cons_cons] at hde
  rcases List.mem_cons.mp hde with heq | hde
  · cases heq
    exact ⟨_, hm.main⟩
  · exact hm.paired _ hde

/-- **What becomes of a group.** It takes in the group that it is paired with, or is left as a
space by the one that it is folded into, or moves to the voice of the destination, or has its
beam drawn anew at most. -/
theorem Merged.becomes (hm : Merged h m x y ld le s s') {g : Group}
    (hk : s.groups.get? k = some g) :
    (∃ e b, (k, e) ∈ (column s.graceAt ld x).zip (column s.graceAt le y) ∧
      s'.groups.get? k = some { (g.blend (s.groups.get e)).group with beam := b }) ∨
    (∃ d, (d, k) ∈ (column s.graceAt ld x).zip (column s.graceAt le y) ∧
      s'.groups.get? k = some g.toSpace) ∨
    (k ∈ (column s.graceAt le y).drop (column s.graceAt ld x).length ∧
      ∃ b, s'.groups.get? k = some { g with voice := m.dest, beam := b }) ∨
    k ∉ (column s.graceAt le y).drop (column s.graceAt ld x).length ∧
      ∃ b, s'.groups.get? k = some { g with beam := b } := by
  have hget := Arena.get_of_get? hk
  by_cases hd : k ∈ ((column s.graceAt ld x).zip (column s.graceAt le y)).map Prod.fst
  · obtain ⟨⟨d, e⟩, hde, rfl⟩ := List.mem_map.mp hd
    obtain ⟨b, hb⟩ := hm.folded hde
    exact .inl ⟨e, b, hde, hget ▸ hb⟩
  by_cases he : k ∈ ((column s.graceAt ld x).zip (column s.graceAt le y)).map Prod.snd
  · obtain ⟨⟨d, e⟩, hde, rfl⟩ := List.mem_map.mp he
    exact .inr (.inl ⟨d, hde, hget ▸ hm.emptied _ hde⟩)
  rw [map_fst_zip] at hd
  rw [map_snd_zip] at he
  by_cases hmoved : k ∈ (column s.graceAt le y).drop (column s.graceAt ld x).length
  · obtain ⟨b, hb⟩ := hm.moved k hmoved
    exact .inr (.inr (.inl ⟨hmoved, b, hget ▸ hb⟩))
  refine .inr (.inr (.inr ⟨hmoved, ?_⟩))
  by_cases hkd : k ∈ column s.graceAt ld x
  · rw [← List.take_append_drop (column s.graceAt le y).length (column s.graceAt ld x)] at hkd
    obtain ⟨b, hb⟩ := hm.spare k ((List.mem_append.mp hkd).resolve_left hd)
    exact ⟨b, hget ▸ hb⟩
  · have hke : k ∉ column s.graceAt le y := fun hke => by
      rw [← List.take_append_drop (column s.graceAt ld x).length (column s.graceAt le y)] at hke
      exact (List.mem_append.mp hke).elim he hmoved
    exact ⟨g.beam, (hm.others k hkd hke).trans hk⟩

/-- A group that is not folded changes its voice and its beam at most. -/
theorem Merged.unfolded (hm : Merged h m x y ld le s s') {g : Group} (hk : s.groups.get? k = some g)
    (hd : k ∉ ((column s.graceAt ld x).zip (column s.graceAt le y)).map Prod.fst)
    (he : k ∉ ((column s.graceAt ld x).zip (column s.graceAt le y)).map Prod.snd) :
    ∃ v b, s'.groups.get? k = some { g with voice := v, beam := b } := by
  obtain ⟨e, b, hke, -⟩ | ⟨d, hdk, -⟩ | ⟨-, b, hb⟩ | ⟨-, b, hb⟩ := hm.becomes hk
  · exact absurd (List.mem_map_of_mem hke) hd
  · exact absurd (List.mem_map_of_mem hdk) he
  · exact ⟨m.dest, b, hb⟩
  · exact ⟨g.voice, b, hb⟩

/-- No group dies in a merge, and none becomes a grace note or ceases to be one. -/
theorem Merged.live (hm : Merged h m x y ld le s s') (hp : Paired s h m x y ld le) {g : Group}
    (hk : s.groups.get? k = some g) : ∃ g', s'.groups.get? k = some g' ∧ g'.grace = g.grace := by
  obtain ⟨e, b, hke, hb⟩ | ⟨d, -, hb⟩ | ⟨-, b, hb⟩ | ⟨-, b, hb⟩ := hm.becomes hk
  · have hgrace : (s.groups.get k).grace = (s.groups.get e).grace := hp.grace_eq hke
    rw [Arena.get_of_get? hk] at hgrace
    exact ⟨_, hb, Group.grace_blend hgrace⟩
  · exact ⟨_, hb, rfl⟩
  · exact ⟨_, hb, rfl⟩
  · exact ⟨_, hb, rfl⟩

theorem Merged.dead (hm : Merged h m x y ld le s s') (hp : Paired s h m x y ld le) (hs : s.Tidy)
    (hk : s.groups.get? k = none) : s'.groups.get? k = none := by
  have hout : ∀ layer list, s.list? layer = some list → k ∉ list := fun layer list hlist hmem => by
    obtain ⟨g, hg⟩ := hs.live _ _ k hlist hmem
    rw [hk] at hg
    cases hg
  exact (hm.others k (fun hmem => hout _ _ hp.destList (mem_of_column hp.destMem hmem))
    fun hmem => hout _ _ hp.srcList (mem_of_column hp.srcMem hmem)).trans hk

theorem Merged.graceAt_eq (hm : Merged h m x y ld le s s') (hp : Paired s h m x y ld le)
    (hs : s.Tidy) : s'.graceAt = s.graceAt := by
  funext k
  cases hk : s.groups.get? k with
  | some g =>
    obtain ⟨g', hk', hgrace⟩ := hm.live hp hk
    rw [Score.graceAt_of_get? hk, Score.graceAt_of_get? hk', hgrace]
  | none => rw [Score.graceAt, Score.graceAt, Arena.get, Arena.get, hk, hm.dead hp hs hk]

/-! ## What a merge does to the lists -/

/-- What stands in a list after a merge stood there before, unless it moved. -/
theorem Merged.mem_list (hm : Merged h m x y ld le s s') (hp : Paired s h m x y ld le) (hs : s.Tidy)
    {layer : Layer} {list : List GroupKey} (hlist : s'.list? layer = some list) (hk : k ∈ list) :
    (k ∈ (column s.graceAt le y).drop (column s.graceAt ld x).length ∧ layer = h.layer m.dest) ∨
      k ∉ (column s.graceAt le y).drop (column s.graceAt ld x).length ∧
        ∃ old, s.list? layer = some old ∧ k ∈ old := by
  obtain ⟨before, after, before', after', hld, hle, -, -, hdest, hsrc⟩ := hm.lists
  have hcolumn : ∀ {k}, k ∈ (column s.graceAt le y).drop (column s.graceAt ld x).length → k ∈ le :=
    fun hk => mem_of_column hp.srcMem (List.mem_of_mem_drop hk)
  by_cases hd : layer = h.layer m.dest
  · rw [hd] at hlist ⊢
    cases hdest.symm.trans hlist
    by_cases hmoved : k ∈ (column s.graceAt le y).drop (column s.graceAt ld x).length
    · exact .inl ⟨hmoved, rfl⟩
    · refine .inr ⟨hmoved, ld, hp.destList, ?_⟩
      rw [hld]
      simpa [hmoved] using hk
  have hstays : ∀ {old}, s.list? layer = some old → k ∈ old → layer ≠ h.layer m.src →
      k ∉ (column s.graceAt le y).drop (column s.graceAt ld x).length := fun hold hk hne hmoved =>
    hne (hs.apart _ _ _ _ k hold hp.srcList hk (hcolumn hmoved))
  by_cases he : layer = h.layer m.src
  · rw [he] at hlist ⊢
    cases hsrc.symm.trans hlist
    have hperm : le.Perm (((column s.graceAt le y).drop (column s.graceAt ld x).length).reverse ++
        (before' ++ ((column s.graceAt le y).take (column s.graceAt ld x).length).reverse ++ after')) := by
      conv_lhs => rw [hle, ← List.take_append_drop (column s.graceAt ld x).length
        (column s.graceAt le y), List.reverse_append]
      simp only [List.append_assoc]
      exact List.perm_append_comm_assoc _ _ _
    have hnodup := hperm.nodup_iff.mp (hs.nodup _ _ hp.srcList)
    refine .inr ⟨fun hmoved => ?_, le, hp.srcList, hperm.mem_iff.mpr (List.mem_append_right _ hk)⟩
    exact (List.nodup_append.mp hnodup).2.2 k (List.mem_reverse.mpr hmoved) k hk rfl
  · rw [hm.elsewhere layer hd he] at hlist
    exact .inr ⟨hstays hlist hk he, list, hlist, hk⟩

theorem Merged.tidy (hm : Merged h m x y ld le s s') (hp : Paired s h m x y ld le) (hs : s.Tidy) :
    s'.Tidy := by
  obtain ⟨before, after, before', after', hld, hle, -, -, hdest, hsrc⟩ := hm.lists
  refine ⟨fun layer list hlist => ?_, fun layer layer' list list' k hlist hlist' hk hk' => ?_,
    fun layer list k hlist hk => ?_⟩
  · by_cases hd : layer = h.layer m.dest
    · rw [hd] at hlist
      cases hdest.symm.trans hlist
      have hperm : (before ++ (column s.graceAt ld x ++
          (column s.graceAt le y).drop (column s.graceAt ld x).length).reverse ++ after).Perm
            (((column s.graceAt le y).drop (column s.graceAt ld x).length).reverse ++
              (before ++ (column s.graceAt ld x).reverse ++ after)) := by
        simp only [List.append_assoc, List.reverse_append]
        exact List.perm_append_comm_assoc _ _ _
      rw [← hld] at hperm
      refine hperm.nodup_iff.mpr (List.nodup_append.mpr ⟨?_, hs.nodup _ _ hp.destList, ?_⟩)
      · exact List.nodup_reverse.mpr ((column_nodup (hs.nodup _ _ hp.srcList) hp.srcMem).sublist
          (List.drop_sublist _ _))
      · rintro k hk _ hk' rfl
        have hk := mem_of_column hp.srcMem (List.mem_of_mem_drop (List.mem_reverse.mp hk))
        exact hp.differ (Layer.mk.inj (hs.apart _ _ _ _ k hp.destList hp.srcList hk' hk)).2.2
    by_cases he : layer = h.layer m.src
    · rw [he] at hlist
      cases hsrc.symm.trans hlist
      refine (hs.nodup _ _ hp.srcList).sublist ?_
      conv_rhs => rw [hle]
      exact ((List.Sublist.refl _).append (List.reverse_sublist.mpr (List.take_sublist _ _))).append
        (.refl _)
    · rw [hm.elsewhere layer hd he] at hlist
      exact hs.nodup _ _ hlist
  · rcases hm.mem_list hp hs hlist hk with ⟨hmoved, hlayer⟩ | ⟨hstays, old, hold, hk⟩ <;>
      rcases hm.mem_list hp hs hlist' hk' with ⟨hmoved', hlayer'⟩ | ⟨hstays', old', hold', hk'⟩
    · exact hlayer.trans hlayer'.symm
    · exact absurd hmoved hstays'
    · exact absurd hmoved' hstays
    · exact hs.apart _ _ _ _ k hold hold' hk hk'
  · have hlive : ∃ g, s.groups.get? k = some g := by
      rcases hm.mem_list hp hs hlist hk with ⟨hmoved, -⟩ | ⟨-, old, hold, hk⟩
      · exact hs.live _ _ _ hp.srcList (mem_of_column hp.srcMem (List.mem_of_mem_drop hmoved))
      · exact hs.live _ _ _ hold hk
    obtain ⟨g, hg⟩ := hlive
    exact (hm.live hp hg).imp fun _ h => h.1

/-! ## What a merge does to the columns -/

theorem Merged.dest (hm : Merged h m x y ld le s s') (hp : Paired s h m x y ld le) (hs : s.Tidy) :
    ∃ list, s'.list? (h.layer m.dest) = some list ∧ x ∈ list ∧ column s'.graceAt list x =
      column s.graceAt ld x ++ (column s.graceAt le y).drop (column s.graceAt ld x).length := by
  obtain ⟨before, after, before', after', hld, hle, hlast, -, hdest, -⟩ := hm.lists
  have hnodup := (hm.tidy hp hs).nodup _ _ hdest
  refine ⟨_, hdest, by simp [column], ?_⟩
  rw [hm.graceAt_eq hp hs]
  refine column_eq ((column s.graceAt ld x).tail ++
    (column s.graceAt le y).drop (column s.graceAt ld x).length) hnodup (fun k hk => ?_) hlast
  rcases List.mem_append.mp hk with hk | hk
  · exact grace_of_column hk
  · exact grace_of_drop hk

theorem Merged.src (hm : Merged h m x y ld le s s') (hp : Paired s h m x y ld le) (hs : s.Tidy) :
    ∃ list, s'.list? (h.layer m.src) = some list ∧ y ∈ list ∧ column s'.graceAt list y =
      (column s.graceAt le y).take (column s.graceAt ld x).length := by
  obtain ⟨before, after, before', after', hld, hle, -, hlast, -, hsrc⟩ := hm.lists
  have hnodup := (hm.tidy hp hs).nodup _ _ hsrc
  refine ⟨_, hsrc, by simp [column], ?_⟩
  rw [hm.graceAt_eq hp hs]
  exact column_eq ((column s.graceAt le y).tail.take (column s.graceAt ld x).tail.length) hnodup
    (fun k hk => grace_of_column (List.mem_of_mem_take hk)) hlast

theorem Merged.other (hm : Merged h m x y ld le s s') (hp : Paired s h m x y ld le) (hs : s.Tidy)
    {layer : Layer} {list : List GroupKey} (hlist : s.list? layer = some list) (hz : z ∈ list)
    (hmain : s.graceAt z = false) (hzx : z ≠ x) (hzy : z ≠ y) :
    ∃ list', s'.list? layer = some list' ∧ z ∈ list' ∧
      column s'.graceAt list' z = column s.graceAt list z := by
  obtain ⟨before, after, before', after', hld, hle, hlast, hlast', hdest, hsrc⟩ := hm.lists
  rw [hm.graceAt_eq hp hs]
  have hours : ∀ k ∈ (column s.graceAt ld x).tail, s.graceAt k = true := fun k => grace_of_column
  have htheirs : ∀ k ∈ (column s.graceAt le y).tail, s.graceAt k = true := fun k => grace_of_column
  by_cases hd : layer = h.layer m.dest
  · rw [hd] at hlist ⊢
    cases hp.destList.symm.trans hlist
    refine ⟨_, hdest, ?_, ?_⟩
    · rw [hld] at hz
      simp only [List.mem_append, List.mem_reverse] at hz ⊢
      tauto
    · conv_rhs => rw [hld]
      refine column_congr ((column s.graceAt ld x).tail ++ (column s.graceAt le y).tail.drop
        (column s.graceAt ld x).tail.length) _ hp.destMain hmain hzx (fun k hk => ?_) hours
      exact (List.mem_append.mp hk).elim (hours k) fun hk => htheirs k (List.mem_of_mem_drop hk)
  by_cases he : layer = h.layer m.src
  · rw [he] at hlist ⊢
    cases hp.srcList.symm.trans hlist
    refine ⟨_, hsrc, ?_, ?_⟩
    · have hzrun : z ∉ column s.graceAt le y := fun hmem => by
        rcases List.mem_cons.mp hmem with hzy' | hmem
        · exact hzy hzy'
        · rw [htheirs z hmem] at hmain
          cases hmain
      rw [hle] at hz
      simp only [List.mem_append, List.mem_reverse] at hz ⊢
      tauto
    · conv_rhs => rw [hle]
      exact column_congr ((column s.graceAt le y).tail.take (column s.graceAt ld x).tail.length) _
        hp.srcMain hmain hzy (fun k hk => htheirs k (List.mem_of_mem_take hk)) htheirs
  · exact ⟨list, by rw [hm.elsewhere layer hd he, hlist], hz, rfl⟩

end Merged

end Merging

/-! ## Hands -/

open Merging

/-- The group of a voice in a hand and the grace notes before it, from the group backwards. -/
def Score.columnAt (s : Score) (h : Hand) (voice : Nat) : List GroupKey :=
  match h.voice? voice with
  | none => []
  | some k => column s.graceAt ((s.list? (h.layer voice)).getD []) k

/-- The groups of the hands stand in the lists of their voices. -/
structure Score.Stands (s : Score) (hands : List Hand) : Prop where
  tidy : s.Tidy
  main : ∀ h ∈ hands, ∀ v k, h.voice? v = some k → s.graceAt k = false ∧
    ∃ list, s.list? (h.layer v) = some list ∧ k ∈ list

/-- What a merge of a hand does, told by the columns of the hands. -/
structure Merging.Joined (hands : List Hand) (h : Hand) (m : Merge) (s s' : Score) : Prop where
  dest : s'.columnAt h m.dest = s.columnAt h m.dest ++
    (s.columnAt h m.src).drop (s.columnAt h m.dest).length
  src : s'.columnAt h m.src = (s.columnAt h m.src).take (s.columnAt h m.dest).length
  folded : ∀ p ∈ (s.columnAt h m.dest).zip (s.columnAt h m.src), ∃ b, s'.groups.get? p.1 =
    some { ((s.groups.get p.1).blend (s.groups.get p.2)).group with beam := b }
  emptied : ∀ p ∈ (s.columnAt h m.dest).zip (s.columnAt h m.src),
    s'.groups.get? p.2 = some (s.groups.get p.2).toSpace
  unfolded : ∀ k g, s.groups.get? k = some g →
    k ∉ ((s.columnAt h m.dest).zip (s.columnAt h m.src)).map Prod.fst →
    k ∉ ((s.columnAt h m.dest).zip (s.columnAt h m.src)).map Prod.snd →
    ∃ v b, s'.groups.get? k = some { g with voice := v, beam := b }
  others : ∀ h' ∈ hands, ∀ v, h'.voice? v ≠ h.voice? m.dest → h'.voice? v ≠ h.voice? m.src →
    s'.columnAt h' v = s.columnAt h' v ∧
      ∀ k ∈ s.columnAt h' v, s'.groups.get? k = s.groups.get? k

namespace Score

variable {s s' : Score} {hands : List Hand} {h h' : Hand} {m : Merge} {v : Nat} {x y z k : GroupKey}
  {list : List GroupKey}

theorem columnAt_eq (hv : h.voice? v = some x) (hlist : s.list? (h.layer v) = some list) :
    s.columnAt h v = column s.graceAt list x := by
  simp [columnAt, hv, hlist]

namespace Stands

theorem paired (hs : s.Stands hands) (hh : h ∈ hands) (hne : m.dest ≠ m.src)
    (hx : h.voice? m.dest = some x) (hy : h.voice? m.src = some y) :
    ∃ ld le, Paired s h m x y ld le := by
  obtain ⟨hxm, ld, hld, hxl⟩ := hs.main h hh _ _ hx
  obtain ⟨hym, le, hle, hyl⟩ := hs.main h hh _ _ hy
  exact ⟨ld, le, hne, hx, hy, hld, hle, hxl, hyl, hxm, hym⟩

theorem disjoint (hs : s.Stands hands) (hh : h ∈ hands) (hh' : h' ∈ hands) {v' : Nat}
    (hx : h.voice? v = some x) (hz : h'.voice? v' = some z) (hne : z ≠ x)
    (hk : k ∈ s.columnAt h v) : k ∉ s.columnAt h' v' := by
  obtain ⟨hxm, list, hlist, hxl⟩ := hs.main h hh _ _ hx
  obtain ⟨hzm, list', hlist', hzl⟩ := hs.main h' hh' _ _ hz
  rw [columnAt_eq hx hlist] at hk
  rw [columnAt_eq hz hlist']
  by_cases hlayer : h.layer v = h'.layer v'
  · rw [hlayer] at hlist
    cases hlist.symm.trans hlist'
    exact column_disjoint (hs.tidy.nodup _ _ hlist') hxl hzl hne hxm hzm hk
  · exact fun hk' => hlayer (hs.tidy.apart _ _ _ _ k hlist hlist' (mem_of_column hxl hk)
      (mem_of_column hzl hk'))

/-- **A merge of a hand.** It can be made where both groups are in the hand, and all hands
stand afterwards. -/
theorem merge (hs : s.Stands hands) (hh : h ∈ hands) (hne : m.dest ≠ m.src)
    (hx : h.voice? m.dest = some x) (hy : h.voice? m.src = some y) :
    ∃ s', Merging.merge h s m = .ok s' ∧ s'.Stands hands ∧ Joined hands h m s s' := by
  obtain ⟨ld, le, hp⟩ := hs.paired hh hne hx hy
  obtain ⟨s', hmerge, hm⟩ := merge_merged hs.tidy hp
  have hd := columnAt_eq hx hp.destList
  have he := columnAt_eq hy hp.srcList
  have hgrace := hm.graceAt_eq hp hs.tidy
  refine ⟨s', hmerge, ⟨hm.tidy hp hs.tidy, fun h' hh' v z hz => ?_⟩, ?_⟩
  · obtain ⟨hmain, list, hlist, hzl⟩ := hs.main h' hh' v z hz
    refine ⟨hgrace ▸ hmain, ?_⟩
    by_cases hzx : z = x
    · rw [hs.tidy.apart _ _ _ _ z hlist hp.destList hzl (hzx ▸ hp.destMem), hzx]
      obtain ⟨list', hlist', hx', -⟩ := hm.dest hp hs.tidy
      exact ⟨list', hlist', hx'⟩
    by_cases hzy : z = y
    · rw [hs.tidy.apart _ _ _ _ z hlist hp.srcList hzl (hzy ▸ hp.srcMem), hzy]
      obtain ⟨list', hlist', hy', -⟩ := hm.src hp hs.tidy
      exact ⟨list', hlist', hy'⟩
    obtain ⟨list', hlist', hz', -⟩ := hm.other hp hs.tidy hlist hzl hmain hzx hzy
    exact ⟨list', hlist', hz'⟩
  constructor
  · obtain ⟨list', hlist', -, hcolumn⟩ := hm.dest hp hs.tidy
    rw [columnAt_eq hx hlist', hcolumn, hd, he]
  · obtain ⟨list', hlist', -, hcolumn⟩ := hm.src hp hs.tidy
    rw [columnAt_eq hy hlist', hcolumn, hd, he]
  · rw [hd, he]
    exact fun p hp => hm.folded hp
  · rw [hd, he]
    exact hm.emptied
  · rw [hd, he]
    exact fun k g hk => hm.unfolded hk
  · intro h' hh' v hvx hvy
    rw [hx] at hvx
    rw [hy] at hvy
    cases hz : h'.voice? v with
    | none => simp [columnAt, hz]
    | some z =>
      have hzx : z ≠ x := fun he => hvx (hz.trans (congrArg some he))
      have hzy : z ≠ y := fun he => hvy (hz.trans (congrArg some he))
      obtain ⟨hmain, list, hlist, hzl⟩ := hs.main h' hh' v z hz
      obtain ⟨list', hlist', -, hcolumn⟩ := hm.other hp hs.tidy hlist hzl hmain hzx hzy
      refine ⟨by rw [columnAt_eq hz hlist', hcolumn, columnAt_eq hz hlist], fun k hk => ?_⟩
      refine hm.others k ?_ ?_
      · rw [← hd]
        exact hs.disjoint hh' hh hz hx hzx.symm hk
      · rw [← he]
        exact hs.disjoint hh' hh hz hy hzy.symm hk

end Stands

end Score

/-! ## All merges -/

/-- Two hands share no group. -/
def Hand.Apart (h h' : Hand) : Prop :=
  ∀ v v' k, h.voice? v = some k → h'.voice? v' ≠ some k

/-- A merge of the hand names two groups that it has. -/
def Hand.Offers (h : Hand) (m : Merge) : Prop :=
  m.dest ≠ m.src ∧ (∃ k, h.voice? m.dest = some k) ∧ ∃ k, h.voice? m.src = some k

/-- The columns of a hand are in `s` what they are in `t`. -/
def Score.Leaves (t s : Score) (h : Hand) : Prop :=
  ∀ v, s.columnAt h v = t.columnAt h v ∧ ∀ k ∈ t.columnAt h v, s.groups.get? k = t.groups.get? k

namespace Merging

variable {hands : List Hand} {h h' : Hand} {m : Merge} {s s' t : Score} {plan : Plan}

theorem Joined.leaves (hj : Joined hands h m s s') (hm : h.Offers m) (happart : h.Apart h')
    (hh' : h' ∈ hands) (hs : t.Leaves s h') : t.Leaves s' h' := by
  obtain ⟨-, ⟨x, hx⟩, y, hy⟩ := hm
  intro v
  obtain ⟨hcolumn, hgroups⟩ := hs v
  obtain ⟨hcolumn', hgroups'⟩ := hj.others h' hh' v
    (by rw [hx]; exact happart _ _ _ hx) (by rw [hy]; exact happart _ _ _ hy)
  rw [hcolumn] at hcolumn' hgroups'
  exact ⟨hcolumn', fun k hk => (hgroups' k hk).trans (hgroups k hk)⟩

/-- The plan of a hand can be carried out, and leaves the other hands as they are. -/
theorem plan_total (hs : s.Stands hands) (hh : h ∈ hands) (hplan : ∀ m ∈ plan, h.Offers m) :
    ∃ s', plan.foldlM (merge h) s = .ok s' ∧ s'.Stands hands ∧
      ∀ h' ∈ hands, h.Apart h' → t.Leaves s h' → t.Leaves s' h' := by
  have hstep := foldlM_total (f := merge h) (P := fun rest s' => s'.Stands hands ∧
    (∀ m ∈ rest, h.Offers m) ∧ ∀ h' ∈ hands, h.Apart h' → t.Leaves s h' → t.Leaves s' h') plan ?_
    ⟨hs, hplan, fun _ _ _ hl => hl⟩
  · obtain ⟨s', hs', hstands, -, hleaves⟩ := hstep
    exact ⟨s', hs', hstands, hleaves⟩
  · rintro m rest s' ⟨hs', hplan, hleaves⟩
    have hm := hplan m (by simp)
    obtain ⟨hne, ⟨x, hx⟩, y, hy⟩ := hm
    obtain ⟨s'', hmerge, hstands, hjoined⟩ := hs'.merge hh hne hx hy
    exact ⟨s'', hmerge, hstands, fun m hm => hplan m (by simp [hm]), fun h' hh' happart hl =>
      hjoined.leaves ⟨hne, ⟨x, hx⟩, y, hy⟩ happart hh' (hleaves h' hh' happart hl)⟩

/-- All plans can be carried out. What is still to come is as it was. -/
theorem plans_total {xs rest : List (Hand × Plan)} (ht : t.Stands hands)
    (hhands : ∀ x ∈ xs ++ rest, x.1 ∈ hands) (hplans : ∀ x ∈ xs ++ rest, ∀ m ∈ x.2, x.1.Offers m)
    (happart : (xs ++ rest).Pairwise fun x y => x.1.Apart y.1) :
    ∃ s, xs.foldlM (fun s x => x.2.foldlM (merge x.1) s) t = .ok s ∧ s.Stands hands ∧
      ∀ x ∈ rest, t.Leaves s x.1 := by
  have hstep := foldlM_total (f := fun s (x : Hand × Plan) => x.2.foldlM (merge x.1) s)
    (P := fun ys s => s.Stands hands ∧ (∀ x ∈ ys ++ rest, x.1 ∈ hands) ∧
      (∀ x ∈ ys ++ rest, ∀ m ∈ x.2, x.1.Offers m) ∧
      (ys ++ rest).Pairwise (fun x y => x.1.Apart y.1) ∧ ∀ x ∈ ys ++ rest, t.Leaves s x.1) xs ?_
    ⟨ht, hhands, hplans, happart, fun x _ v => ⟨rfl, fun _ _ => rfl⟩⟩
  · obtain ⟨s, hs, hstands, -, -, -, hleaves⟩ := hstep
    exact ⟨s, hs, hstands, hleaves⟩
  · rintro x ys s ⟨hs, hhands, hplans, happart, hleaves⟩
    rw [List.cons_append] at hhands hplans happart hleaves
    obtain ⟨hfirst, hrest⟩ := List.pairwise_cons.mp happart
    obtain ⟨s', hplan, hstands, hkeep⟩ := plan_total (t := t) hs (hhands x (by simp)) (hplans x (by simp))
    refine ⟨s', hplan, hstands, fun y hy => hhands y (by simp [hy]), fun y hy => hplans y (by simp [hy]),
      hrest, fun y hy => ?_⟩
    exact hkeep y.1 (hhands y (by simp [hy])) (hfirst y hy) (hleaves y (by simp [hy]))

theorem foldlM_plans (xs : List (Hand × Plan)) (s : Score) :
    xs.foldlM (fun s x => x.2.foldlM (merge x.1) s) s =
      (xs.flatMap fun x => x.2.map fun m => (x.1, m)).foldlM (fun s x => merge x.1 s x.2) s := by
  induction xs generalizing s with
  | nil => rfl
  | cons x rest ih =>
    rw [List.foldlM_cons, List.flatMap_cons, List.foldlM_append, List.foldlM_map]
    simp only [ih]

/-! ### Counting -/

theorem foldlM_make (h : Hand) (plan : Plan) (p : Progress) : plan.foldlM (make h) p =
    (plan.foldlM (merge h) p.score).map fun t => ⟨t, p.merges + plan.length⟩ := by
  induction plan generalizing p with
  | nil => rfl
  | cons m rest ih =>
    rw [List.foldlM_cons, List.foldlM_cons, make]
    cases merge h p.score m with
    | error fault => rfl
    | ok t =>
      refine (ih ⟨t, p.merges + 1⟩).trans ?_
      rw [List.length_cons, Nat.add_assoc, Nat.add_comm 1]
      rfl

/-- The merges are counted as they are made: there are as many as the plans of the hands have. -/
theorem perform_eq (s : Score) (l : Layout) (plans : List Plan) : perform s l plans =
    ((l.hands.zip plans).foldlM (fun s (x : Hand × Plan) => x.2.foldlM (merge x.1) s) s).map fun t =>
      ⟨t, ((l.hands.zip plans).map fun x => x.2.length).sum⟩ := by
  suffices h : ∀ (xs : List (Hand × Plan)) (p : Progress),
      xs.foldlM (fun p (x : Hand × Plan) => x.2.foldlM (make x.1) p) p =
        (xs.foldlM (fun s (x : Hand × Plan) => x.2.foldlM (merge x.1) s) p.score).map fun t =>
          ⟨t, p.merges + (xs.map fun x => x.2.length).sum⟩ by
    simpa [perform] using h (l.hands.zip plans) { score := s }
  intro xs
  induction xs with
  | nil => exact fun p => rfl
  | cons x rest ih =>
    intro p
    rw [List.foldlM_cons, List.foldlM_cons, foldlM_make]
    cases x.2.foldlM (merge x.1) p.score with
    | error fault => rfl
    | ok t =>
      refine (ih ⟨t, p.merges + x.2.length⟩).trans ?_
      rw [List.map_cons, List.sum_cons, Nat.add_assoc]
      rfl

end Merging

namespace Combination

variable {c : Combination} {t s s' : Score} {h : Hand} {m : Merge}

/-- The merges made, in order. -/
def steps (c : Combination) : List (Hand × Merge) :=
  (c.layout.hands.zip c.planned.plans).flatMap fun x => x.2.map fun m => (x.1, m)

/-- One of the merges made: the score that it finds, and the score that it leaves. -/
structure Performs (c : Combination) (t : Score) (h : Hand) (m : Merge) (s s' : Score) : Prop where
  step : ∃ before after, c.steps = before ++ (h, m) :: after ∧
    before.foldlM (fun s x => Merging.merge x.1 s x.2) t = .ok s
  made : Merging.merge h s m = .ok s'

theorem split_steps {xs : List (Hand × Plan)} {before after : List (Hand × Merge)}
    (hsteps : (xs.flatMap fun x => x.2.map fun m => (x.1, m)) = before ++ (h, m) :: after) :
    ∃ early late plan rest, xs = early ++ (h, plan ++ m :: rest) :: late ∧
      before = (early.flatMap fun x => x.2.map fun m => (x.1, m)) ++ plan.map fun m => (h, m) := by
  induction xs generalizing before with
  | nil => simp at hsteps
  | cons x xs ih =>
    obtain ⟨hand, plan⟩ := x
    rw [List.flatMap_cons, List.append_eq_append_iff] at hsteps
    rcases hsteps with ⟨before', hbefore, hrest⟩ | ⟨after', hplan, hrest⟩
    · obtain ⟨early, late, plan', rest, hxs, heq⟩ := ih hrest
      exact ⟨(hand, plan) :: early, late, plan', rest, by rw [hxs]; rfl, by simp [hbefore, heq]⟩
    · cases after' with
      | nil =>
        have hnone : (xs.flatMap fun x => x.2.map fun m => (x.1, m)) = [] ++ (h, m) :: after := by
          simpa using hrest.symm
        obtain ⟨early, late, plan', rest, hxs, heq⟩ := ih hnone
        refine ⟨(hand, plan) :: early, late, plan', rest, by rw [hxs]; rfl, ?_⟩
        simpa [List.append_assoc, ← heq] using hplan.symm
      | cons y after' =>
        rw [List.cons_append, List.cons.injEq] at hrest
        obtain ⟨p₁, p₂, rfl, rfl, hp₂⟩ := List.map_eq_append_iff.mp hplan
        obtain ⟨m', p₃, rfl, hm', -⟩ := List.map_eq_cons_iff.mp hp₂
        cases hm'.trans hrest.1.symm
        exact ⟨[], xs, p₁, p₃, rfl, rfl⟩

theorem Performs.of_plan (hp : c.Performs t h m s s') : ∃ early late plan rest s₀,
    c.layout.hands.zip c.planned.plans = early ++ (h, plan ++ m :: rest) :: late ∧
      early.foldlM (fun s x => x.2.foldlM (Merging.merge x.1) s) t = .ok s₀ ∧
      plan.foldlM (Merging.merge h) s₀ = .ok s := by
  obtain ⟨before, after, hsteps, hbefore⟩ := hp.step
  obtain ⟨early, late, plan, rest, hzip, rfl⟩ := split_steps hsteps
  rw [List.foldlM_append, ← Merging.foldlM_plans, bind_eq_ok] at hbefore
  obtain ⟨s₀, hs₀, hplan⟩ := hbefore
  rw [List.foldlM_map] at hplan
  exact ⟨early, late, plan, rest, s₀, hzip, hs₀, hplan⟩

end Combination

end Divisi
