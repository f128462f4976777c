/-
Whose beam mark a group bears once voices are combined.

A group that is folded is left as a space without a mark. Any other group bears its own mark,
unless it is a space: then it bears that of the first group folded into it that is none
(`Combination.Of.bears`). Two groups that are both no spaces never exchange their marks.
-/
import Divisi.Proofs.Hidden

namespace Divisi

/-- The mark of a blend is that of the destination, or of a source that fills a space. -/
theorem Group.beam_blend (a b : Group) :
    (a.blend b).group.beam = if a.isSpace && !b.isSpace then b.beam else a.beam := by
  unfold blend
  cases hb : b.isSpace with
  | true => simp
  | false =>
    cases ha : a.isSpace with
    | true => simp
    | false =>
      simp only [Bool.false_eq_true, if_false, Bool.false_and]
      split <;> rfl

namespace Merging

/-- Some merge folds the group into another. -/
def Folded (steps : List (Hand × Merge)) (k : GroupKey) : Prop :=
  ∃ x ∈ steps, x.1.voice? x.2.src = some k

/-- The groups that are folded into one, in the order of the merges. -/
def joining (steps : List (Hand × Merge)) (k : GroupKey) : List GroupKey :=
  (steps.filter fun x => x.1.voice? x.2.dest == some k).filterMap fun x => x.1.voice? x.2.src

/-- The first group that is no space, of a group and those folded into it, or itself. -/
def bearer (t : Score) (steps : List (Hand × Merge)) (k : GroupKey) : GroupKey :=
  ((k :: joining steps k).find? fun e => !(t.groups.get e).isSpace).getD k

variable {t : Score} {steps : List (Hand × Merge)} {h : Hand} {m : Merge} {k e : GroupKey}

theorem folded_snoc : Folded (steps ++ [(h, m)]) k ↔ Folded steps k ∨ h.voice? m.src = some k := by
  simp [Folded, or_and_right, exists_or]

theorem mem_joining : e ∈ joining steps k ↔
    ∃ h m, (h, m) ∈ steps ∧ h.voice? m.dest = some k ∧ h.voice? m.src = some e := by
  simp only [joining, List.mem_filterMap, List.mem_filter, beq_iff_eq, Prod.exists, and_assoc]

theorem bearer_cases (t : Score) (steps : List (Hand × Merge)) (k : GroupKey) :
    bearer t steps k = k ∨ bearer t steps k ∈ joining steps k := by
  unfold bearer
  cases hfind : (k :: joining steps k).find? fun e => !(t.groups.get e).isSpace with
  | none => exact .inl rfl
  | some e => exact List.mem_cons.mp (List.mem_of_find?_eq_some hfind)

theorem isSpace_of_bearer (h : (t.groups.get (bearer t steps k)).isSpace = true) :
    bearer t steps k = k ∧ ∀ e ∈ joining steps k, (t.groups.get e).isSpace = true := by
  unfold bearer at h ⊢
  cases hfind : (k :: joining steps k).find? fun e => !(t.groups.get e).isSpace with
  | none =>
    refine ⟨rfl, fun e he => ?_⟩
    simpa using List.find?_eq_none.mp hfind e (List.mem_cons_of_mem _ he)
  | some e =>
    have hnot := List.find?_some hfind
    simp_all

@[simp] theorem bearer_nil (t : Score) (k : GroupKey) : bearer t [] k = k := by
  rcases bearer_cases t [] k with h | h
  · exact h
  · cases h

theorem bearer_snoc_of_ne (hdest : h.voice? m.dest ≠ some k) :
    bearer t (steps ++ [(h, m)]) k = bearer t steps k := by
  simp [bearer, joining, hdest]

theorem bearer_snoc (hdest : h.voice? m.dest = some k) (hsrc : h.voice? m.src = some e) :
    bearer t (steps ++ [(h, m)]) k =
      if (t.groups.get (bearer t steps k)).isSpace && !(t.groups.get e).isSpace then e
      else bearer t steps k := by
  have hjoining : joining (steps ++ [(h, m)]) k = joining steps k ++ [e] := by
    simp [joining, hdest, hsrc]
  unfold bearer
  rw [hjoining, ← List.cons_append, List.find?_append]
  cases hfind : (k :: joining steps k).find? fun e => !(t.groups.get e).isSpace with
  | none =>
    have hk : (t.groups.get k).isSpace = true := by
      simpa using List.find?_eq_none.mp hfind k List.mem_cons_self
    cases he : (t.groups.get e).isSpace <;> simp [hk, he]
  | some e' =>
    have he' : (t.groups.get e').isSpace = false := by
      simpa using List.find?_some hfind
    simp [he']

end Merging

namespace Combination

open Merging

variable {c : Combination} {t : Score} {h : Hand} {m : Merge} {k : GroupKey}
  {before after : List (Hand × Merge)}

theorem Of.not_folded (hc : c.Of t) (hsteps : c.steps = before ++ (h, m) :: after)
    (hk : h.voice? m.dest = some k ∨ h.voice? m.src = some k) : ¬Folded before k := by
  rintro ⟨⟨h', m'⟩, hmem, hk'⟩
  have hh : h ∈ c.layout.hands := (hc.offers (m := m) (by rw [hsteps]; simp)).1
  rcases hc.earlier hsteps hmem with happart | ⟨rfl, rfl, rfl⟩
  · rcases hk with hk | hk
    · exact happart _ _ k hk' hk
    · exact happart _ _ k hk' hk
  · rcases hk with hk | hk
    · exact absurd (hc.stands.voice_inj hh hk hk') (by simp)
    · exact absurd (hc.stands.voice_inj hh hk hk') (by simp)

/-- **What a merge makes of a group that is no grace note.** As its source the group is folded and
left as a space. As its destination it is not folded, and takes in the source as it was to begin
with. Any other group stays as it is. -/
theorem Of.main_becomes (hc : c.Of t) (hsteps : c.steps = before ++ (h, m) :: after)
    {s s' : Score} (hp : c.Performs t h m s s') (hk : s.graceAt k = false) :
    s'.graceAt k = false ∧
      ((h.voice? m.src = some k ∧ Folded (before ++ [(h, m)]) k ∧
          s'.groups.get k = (s.groups.get k).toSpace) ∨
        (∃ y, h.voice? m.dest = some k ∧ h.voice? m.src = some y ∧ ¬Folded before k ∧
          ¬Folded (before ++ [(h, m)]) k ∧
          s'.groups.get k = ((s.groups.get k).blend (t.groups.get y)).group) ∨
        (h.voice? m.dest ≠ some k ∧ (Folded (before ++ [(h, m)]) k ↔ Folded before k) ∧
          s'.groups.get k = s.groups.get k)) := by
  obtain ⟨x, y, ld, le, hpaired, hmerged, hh, hstands, -⟩ := hc.merged hp
  refine ⟨by rw [hmerged.graceAt_eq hpaired hstands.tidy]; exact hk, ?_⟩
  by_cases hy : k = y
  · subst hy
    exact .inl ⟨hpaired.srcVoice, folded_snoc.mpr (.inr hpaired.srcVoice),
      Arena.get_of_get? (hmerged.emptied (x, k) (by simp [column]))⟩
  have hsrc : h.voice? m.src ≠ some k := fun he =>
    hy (Option.some.inj (he.symm.trans hpaired.srcVoice))
  have hstill : Folded (before ++ [(h, m)]) k ↔ Folded before k :=
    folded_snoc.trans (or_iff_left hsrc)
  by_cases hx : k = x
  · subst hx
    have hget : s.groups.get y = t.groups.get y := by
      have hcolumn := Score.columnAt_eq hpaired.srcVoice hpaired.srcList
      obtain ⟨hsame, hgroups, -⟩ := hc.untouched hp
      rw [Arena.get, Arena.get, hgroups y (by rw [← hsame, hcolumn]; exact List.mem_cons_self)]
    have hfree := hc.not_folded hsteps (.inl hpaired.destVoice)
    exact .inr (.inl ⟨y, hpaired.destVoice, hpaired.srcVoice, hfree, mt hstill.mp hfree,
      hget ▸ Arena.get_of_get? hmerged.main⟩)
  · have hout : ∀ {list z}, k ≠ z → k ∉ column s.graceAt list z := by
      intro list z hne hmem
      rcases List.mem_cons.mp hmem with heq | hmem
      · exact hne heq
      · rw [grace_of_runOf (List.mem_reverse.mp hmem)] at hk
        cases hk
    refine .inr (.inr ⟨fun he => hx ?_, hstill, ?_⟩)
    · exact Option.some.inj (he.symm.trans hpaired.destVoice)
    · rw [Arena.get, Arena.get, hmerged.others k (hout hx) (hout hy)]

/-- What a merge takes its notes from is left as a space, and nothing is done to it later. -/
theorem Of.emptied (hc : c.Of t) (hk : t.graceAt k = false) (hf : Folded c.steps k) :
    c.score.groups.get? k = some (t.groups.get k).toSpace := by
  refine (hc.induction_steps (P := fun before s => s.graceAt k = false ∧
    (Folded before k → s.groups.get? k = some (t.groups.get k).toSpace))
    (fun before h m after s s' hsteps hs hmerge ⟨hmain, hspace⟩ => ?_)
    ⟨hk, fun ⟨x, hx, _⟩ => absurd hx List.not_mem_nil⟩).2 hf
  have hp : c.Performs t h m s s' := ⟨⟨before, after, hsteps, hs⟩, hmerge⟩
  obtain ⟨x, y, ld, le, hpaired, hmerged, -⟩ := hc.merged hp
  obtain ⟨hmain', ⟨hsrc, -, -⟩ | ⟨-, -, -, -, hstill, -⟩ | ⟨-, hstill, hsame⟩⟩ :=
    hc.main_becomes hsteps hp hmain
  · -- the source is what it was before anything was merged
    cases hsrc.symm.trans hpaired.srcVoice
    have hcolumn := Score.columnAt_eq hpaired.srcVoice hpaired.srcList
    obtain ⟨hbefore, hgroups, -⟩ := hc.untouched hp
    have hget := hgroups k (by rw [← hbefore, hcolumn]; exact List.mem_cons_self)
    have hempty := hmerged.emptied (x, k) (by simp [column])
    rw [Arena.get, hget] at hempty
    exact ⟨hmain', fun _ => hempty⟩
  · exact ⟨hmain', fun hf => absurd hf hstill⟩
  · refine ⟨hmain', fun hf => ?_⟩
    obtain ⟨g, hg, -⟩ := hmerged.live hpaired (hspace (hstill.mp hf))
    rw [hg, ← Arena.get_of_get? hg, hsame, Arena.get_of_get? (hspace (hstill.mp hf))]

/-- What is known of a group that is no grace note after some of the merges. -/
structure Bears (t : Score) (steps : List (Hand × Merge)) (k : GroupKey) (s : Score) : Prop where
  folded : Folded steps k → (s.groups.get k).beam = .none
  beam : ¬Folded steps k → (s.groups.get k).beam = (t.groups.get (bearer t steps k)).beam
  space : ¬Folded steps k → (s.groups.get k).isSpace = (t.groups.get (bearer t steps k)).isSpace

namespace Bears

variable {s s' : Score} {steps : List (Hand × Merge)} {y : GroupKey}

theorem start (t : Score) (k : GroupKey) : Bears t [] k t := by
  have hnone : ¬Folded [] k := by
    rintro ⟨x, hx, -⟩
    cases hx
  exact ⟨fun hf => absurd hf hnone, fun _ => by rw [bearer_nil], fun _ => by rw [bearer_nil]⟩

theorem src (hfolded : Folded (steps ++ [(h, m)]) k)
    (hempty : s'.groups.get k = (s.groups.get k).toSpace) : Bears t (steps ++ [(h, m)]) k s' :=
  ⟨fun _ => by rw [hempty]; rfl, fun hno => absurd hfolded hno, fun hno => absurd hfolded hno⟩

theorem dest (hb : Bears t steps k s) (hfree : ¬Folded steps k)
    (hstill : ¬Folded (steps ++ [(h, m)]) k) (hdest : h.voice? m.dest = some k)
    (hsrc : h.voice? m.src = some y)
    (hmain : s'.groups.get k = ((s.groups.get k).blend (t.groups.get y)).group) :
    Bears t (steps ++ [(h, m)]) k s' := by
  have hbearer : bearer t (steps ++ [(h, m)]) k = _ := bearer_snoc hdest hsrc
  have hspace := hb.space hfree
  refine ⟨fun hf => absurd hf hstill, fun _ => ?_, fun _ => ?_⟩
  · rw [hmain, Group.beam_blend, hbearer, hspace, hb.beam hfree]
    split <;> rfl
  · rw [hmain, hbearer]
    cases hk : (s.groups.get k).isSpace with
    | true =>
      rw [Silent.isSpace_blend hk, ← hspace, hk]
      cases hy : (t.groups.get y).isSpace
      · simp [hy]
      · simp [← hspace, hk]
    | false => simp [Silent.isSpace_blend_of_not hk, ← hspace, hk]

theorem other (hb : Bears t steps k s) (hdest : h.voice? m.dest ≠ some k)
    (hkeeps : Folded (steps ++ [(h, m)]) k ↔ Folded steps k)
    (hsame : s'.groups.get k = s.groups.get k) : Bears t (steps ++ [(h, m)]) k s' := by
  refine ⟨fun hf => ?_, fun hno => ?_, fun hno => ?_⟩
  · rw [hsame]
    exact hb.folded (hkeeps.mp hf)
  · rw [hsame, bearer_snoc_of_ne hdest]
    exact hb.beam (hkeeps.not.mp hno)
  · rw [hsame, bearer_snoc_of_ne hdest]
    exact hb.space (hkeeps.not.mp hno)

end Bears

/-- **Whose mark a group bears.** A group that is folded bears none; another bears that of the
first group that is no space, of itself and those folded into it. -/
theorem Of.bears (hc : c.Of t) (hk : t.graceAt k = false) : Bears t c.steps k c.score := by
  refine (hc.induction_steps (P := fun before s => s.graceAt k = false ∧ Bears t before k s)
    (fun before h m after s s' hsteps hs hmerge ⟨hmain, hb⟩ => ?_) ⟨hk, .start t k⟩).2
  obtain ⟨hmain', ⟨-, hfolded, hempty⟩ | ⟨y, hdest, hsrc, hfree, hstill, hblend⟩ |
      ⟨hdest, hkeeps, hsame⟩⟩ := hc.main_becomes hsteps ⟨⟨before, after, hsteps, hs⟩, hmerge⟩ hmain
  · exact ⟨hmain', .src hfolded hempty⟩
  · exact ⟨hmain', hb.dest hfree hstill hdest hsrc hblend⟩
  · exact ⟨hmain', hb.other hdest hkeeps hsame⟩

end Combination

end Divisi
