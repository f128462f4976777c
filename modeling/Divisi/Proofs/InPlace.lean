/-
Combining a score where it stands.

Merges are made in place, and a fault in the midst of them would leave a score with some merges
made and one half made. Apart from that, combining in place is combining
(`InPlace.result_combine`); and it does not come to pass, whatever edits were made to a score that
was read and given its chords. Combining such a score fails before it changes anything, or not at
all (`Score.Reworked.combines_or_spares`).
-/
import Divisi.Proofs.InTurn

namespace Divisi

/-! ## Working on one score -/

/-- Work on a score where it stands. A fault leaves the score as far as the work had come. -/
abbrev InPlace := EStateM Fault Score

namespace InPlace

/-- What is read off the score as it stands. -/
def ask {α : Type} (f : Score → Except Fault α) : InPlace α := fun s =>
  match f s with
  | .error fault => .error fault s
  | .ok a => .ok a s

/-- What the work yields if it goes well, and the score that it leaves then. -/
def result {α : Type} (x : InPlace α) (s : Score) : Except Fault (α × Score) :=
  match x.run s with
  | .error fault _ => .error fault
  | .ok a t => .ok (a, t)

section Result

variable {α β γ : Type} {s : Score} {x : InPlace α} {f : Score → Except Fault α}

theorem result_bind (x : InPlace α) (y : α → InPlace β) :
    (x >>= y).result s = x.result s >>= fun z => (y z.1).result z.2 := by
  simp only [result, EStateM.run, bind, EStateM.bind]
  cases x s <;> rfl

theorem result_modify_bind (g : Score → Score) (y : Unit → InPlace β) :
    (modify g >>= y).result s = (y ()).result (g s) := rfl

theorem result_get_bind (y : Score → InPlace β) : (get >>= y).result s = (y s).result s := rfl

theorem result_ask (f : Score → Except Fault α) : (ask f).result s = (f s).map fun a => (a, s) := by
  simp only [result, ask, EStateM.run]
  cases f s <;> rfl

/-- Work stops, with the score as it is, where something cannot be read off it. -/
theorem run_ask_of_error {y : α → InPlace β} {fault : Fault} (h : f s = .error fault) :
    (ask f >>= y).run s = .error fault s := by
  simp only [EStateM.run, bind, EStateM.bind, ask, h]

theorem run_ask_of_ok {y : α → InPlace β} {a : α} (h : f s = .ok a) :
    (ask f >>= y).run s = (y a).run s := by
  simp only [EStateM.run, bind, EStateM.bind, ask, h]

theorem result_of_error {fault : Fault} {t : Score} (h : x.run s = .error fault t) :
    x.result s = .error fault := by
  rw [result, h]

theorem result_of_ok {a : α} {t : Score} (h : x.run s = .ok a t) : x.result s = .ok (a, t) := by
  rw [result, h]

theorem result_ask_bind {y : α → InPlace β} {r : α → Except Fault γ} {g : γ → β × Score}
    (h : ∀ a, (y a).result s = (r a).map g) : (ask f >>= y).result s = (f s >>= r).map g := by
  rw [result_bind, result_ask]
  cases f s with
  | error fault => rfl
  | ok a => exact h a

end Result

/-! ## Merging -/

/-- Moves grace notes. The groups change their voice first, then they leave the list of the source,
and then they are put into that of the destination. -/
def moveGraces (h : Hand) (m : Merge) (dest : GroupKey) (moved run : List GroupKey) :
    InPlace Unit := do
  modify fun s => Merging.revoiced s moved m.dest
  let theirs ← ask (·.voiceList h.item h.staff m.src)
  modify (·.setVoiceList h.item h.staff m.src (theirs.filter fun key => !moved.contains key))
  let ours ← ask (·.voiceList h.item h.staff m.dest)
  let s ← get
  match Merging.insertBefore (run.head?.getD dest) moved ours with
  | none => throw (.inconsistent (s.groups.get dest).measure .lostAnchor)
  | some list =>
    modify (·.setVoiceList h.item h.staff m.dest list)
    modify fun s =>
      if run.any fun key => (s.groups.get key).beam != .none then
        { s with groups := Merging.rebeam s.groups (moved ++ run) }
      else s

/-- Merges the grace notes before two groups: those in pairs, and then those left over. -/
def graces (h : Hand) (m : Merge) (dest src : GroupKey) : InPlace Unit := do
  let theirs ← ask (·.graceRun h.item h.staff m.src src)
  if theirs.isEmpty then return
  let ours ← ask (·.graceRun h.item h.staff m.dest dest)
  modify (·.foldPairs (ours.reverse.zip theirs.reverse))
  let moved := theirs.take (theirs.length - ours.length)
  if moved.isEmpty then return
  moveGraces h m dest moved ours

def merge (h : Hand) (m : Merge) : InPlace Unit :=
  match h.voice? m.dest, h.voice? m.src with
  | none, _ => throw (.inconsistent h.measure (.emptyVoice h.staff m.dest))
  | _, none => throw (.inconsistent h.measure (.emptyVoice h.staff m.src))
  | some dest, some src => do
    graces h m dest src
    modify (·.foldInto dest src)

def make (h : Hand) (made : Nat) (m : Merge) : InPlace Nat := do
  merge h m
  return made + 1

/-- Carries out the plans of all hands and counts the merges. -/
def perform (l : Layout) (plans : List Plan) : InPlace Nat :=
  (l.hands.zip plans).foldlM (fun made x => x.2.foldlM (make x.1) made) 0

def combine : InPlace Nat := do
  let layout ← ask Layout.of
  let verdicts ← ask layout.judge
  perform layout (layout.plan (← get) (verdicts.map Affinity.ofVerdicts)).plans

section Agree

variable {h : Hand} {m : Merge} {s : Score}

theorem result_moveGraces (dest : GroupKey) (moved run : List GroupKey) :
    (moveGraces h m dest moved run).result s =
      (Merging.moveGraces s h m dest moved run).map fun t => ((), t) := by
  unfold moveGraces
  refine (result_modify_bind _ _).trans (result_ask_bind fun theirs => ?_)
  refine (result_modify_bind _ _).trans (result_ask_bind fun ours => ?_)
  cases Merging.insertBefore (run.head?.getD dest) moved ours with
  | none => rfl
  | some list =>
    refine Eq.trans ?_ (apply_ite (Except.map fun t => ((), t)) _ _ _).symm
    exact apply_ite (fun t => Except.ok ((), t)) _ _ _

theorem result_graces (dest src : GroupKey) : (graces h m dest src).result s =
    (Merging.graces s h m dest src).map fun t => ((), t) := by
  unfold graces
  refine result_ask_bind fun theirs => ?_
  by_cases htheirs : theirs.isEmpty = true
  · rw [if_pos htheirs, if_pos htheirs]
    rfl
  rw [if_neg htheirs, if_neg htheirs]
  refine result_ask_bind fun ours => ?_
  refine (result_modify_bind _ _).trans ?_
  by_cases hmoved : (theirs.take (theirs.length - ours.length)).isEmpty = true
  · dsimp only
    rw [if_pos hmoved, if_pos hmoved]
    rfl
  · dsimp only
    rw [if_neg hmoved, if_neg hmoved]
    exact result_moveGraces _ _ _

theorem result_merge (h : Hand) (m : Merge) (s : Score) :
    (merge h m).result s = (Merging.merge h s m).map fun t => ((), t) := by
  cases hx : h.voice? m.dest with
  | none =>
    simp only [merge, Merging.merge, hx]
    rfl
  | some dest =>
    cases hy : h.voice? m.src with
    | none =>
      simp only [merge, Merging.merge, hx, hy]
      rfl
    | some src =>
      simp only [merge, Merging.merge, hx, hy, result_bind, result_graces]
      cases Merging.graces s h m dest src <;> rfl

theorem result_make (h : Hand) (m : Merge) (made : Nat) (s : Score) :
    (make h made m).result s = (Merging.make h ⟨s, made⟩ m).map fun p => (p.merges, p.score) := by
  rw [make, result_bind, result_merge, Merging.make]
  cases Merging.merge h s m <;> rfl

/-- Work along a list that counts is a fold that changes the score and the count. -/
theorem result_foldlM {α : Type} {x : Nat → α → InPlace Nat}
    {f : Merging.Progress → α → Except Fault Merging.Progress}
    (h : ∀ a made s, (x made a).result s = (f ⟨s, made⟩ a).map fun p => (p.merges, p.score))
    (as : List α) (made : Nat) (s : Score) :
    (as.foldlM x made).result s = (as.foldlM f ⟨s, made⟩).map fun p => (p.merges, p.score) := by
  induction as generalizing made s with
  | nil => rfl
  | cons a rest ih =>
    rw [List.foldlM_cons, List.foldlM_cons, result_bind, h]
    cases f ⟨s, made⟩ a with
    | error fault => rfl
    | ok p => exact ih p.merges p.score

theorem result_perform (l : Layout) (plans : List Plan) (s : Score) : (perform l plans).result s =
    (Merging.perform s l plans).map fun p => (p.merges, p.score) :=
  result_foldlM (fun (x : Hand × Plan) => result_foldlM (result_make x.1) x.2) _ 0 s

/-- **Combining in place is combining.** -/
theorem result_combine (s : Score) :
    combine.result s = s.combineVoices.map fun c => (c.merges, c.score) := by
  refine result_ask_bind fun l => result_ask_bind fun verdicts => ?_
  rw [result_get_bind, result_perform]
  generalize l.plan s (verdicts.map Affinity.ofVerdicts) = planned
  dsimp only
  cases Merging.perform s l planned.plans with
  | error fault => rfl
  | ok p => rfl

end Agree

end InPlace

/-! ## Combining an edited score -/

/-- **Combining fails before it changes anything, or not at all.** Whatever edits were made to a
score that was read and has had its chords built: if it can be laid out and judged, the merges that
are planned for it can be made. So combining it in place, where it meets a fault, leaves it as it
was. -/
theorem Score.Reworked.combines_or_spares {t s : Score} (ht : t.Chorded) (h : t.Reworked s) :
    (∀ l verdicts, Layout.of s = .ok l → l.judge s = .ok verdicts →
      ∃ p, Merging.perform s l (l.plan s (verdicts.map Affinity.ofVerdicts)).plans = .ok p) ∧
    (∀ fault s', InPlace.combine.run s = .error fault s' → s' = s ∧
      s.combineVoices = .error fault ∧
        (Layout.of s = .error fault ∨ ∃ l, Layout.of s = .ok l ∧ l.judge s = .error fault)) ∧
    ∀ merges s', InPlace.combine.run s = .ok merges s' →
      ∃ c, s.combineVoices = .ok c ∧ c.merges = merges ∧ c.score = s' := by
  have hperform : ∀ l verdicts, Layout.of s = .ok l → l.judge s = .ok verdicts →
      ∃ p, Merging.perform s l (l.plan s (verdicts.map Affinity.ofVerdicts)).plans = .ok p := by
    intro l verdicts hof hjudge
    obtain ⟨hamong, hnotAfter⟩ := Layout.hands_spec hof
    refine Merging.InTurn.exists_perform ⟨h.ordered ht, fun x hx => ?_, ?_⟩
      (Layout.found_of_plan hjudge)
    · exact hamong x.1 (List.of_mem_zip (a := x.1) (b := x.2) hx).1
    · refine List.pairwise_map.mp ?_
      rw [Merging.map_fst_zip]
      exact hnotAfter.sublist (List.take_sublist _ _)
  refine ⟨hperform, fun fault s' hrun => ?_, fun merges s' hrun => ?_⟩
  · have hresult := (InPlace.result_combine s).symm.trans (InPlace.result_of_error hrun)
    cases hof : Layout.of s with
    | error other =>
      cases hrun.symm.trans (InPlace.run_ask_of_error hof)
      exact ⟨rfl, by rw [combineVoices, hof]; rfl, .inl rfl⟩
    | ok l =>
      cases hjudge : l.judge s with
      | error other =>
        cases hrun.symm.trans ((InPlace.run_ask_of_ok hof).trans (InPlace.run_ask_of_error hjudge))
        refine ⟨rfl, ?_, .inr ⟨l, rfl, hjudge⟩⟩
        simp only [combineVoices, hof, hjudge, bind, Except.bind]
      | ok verdicts =>
        obtain ⟨u, hu⟩ := hperform l verdicts hof hjudge
        simp only [combineVoices, hof, hjudge, hu, bind, Except.bind] at hresult
        cases hresult
  · obtain ⟨c, hc, heq⟩ := map_eq_ok.mp
      ((InPlace.result_combine s).symm.trans (InPlace.result_of_ok hrun))
    cases heq
    exact ⟨c, hc, rfl, rfl⟩

/-- Two voices that move together in two steps. -/
def twoSteps : String :=
  "vcombine:\n voices: [1,2]\nmusic:\n- measure:\n  - voices:\n     1:\n     - time: 2\n" ++
  "       notes: [e5]\n     - time: 2\n       notes: [f5]\n     2:\n     - time: 2\n" ++
  "       notes: [c4]\n     - time: 2\n       notes: [d4]\n"

/-- The score with its first group made a space, whatever notes that has. -/
def spaced (s : Score) : Score :=
  { s with groups := s.groups.modify ⟨0⟩ fun g => { g with kind := .space } }

/-- With a group of voice 2 made a grace note both merges are made, and it moves to voice 1. So are
they with a group of voice 1 made a space that keeps its note. With voice 2 made absent nothing is
changed. -/
theorem combines_or_spares_twoSteps : ∃ t s r s' : Score, t.Chorded ∧ t.Reworked s ∧
    t.Reworked r ∧ t.Reworked s' ∧
    (∃ u, InPlace.combine.run s = .ok 2 u ∧ (s.list? ⟨1, 1, 1⟩).map List.length = some 2 ∧
      (u.list? ⟨1, 1, 1⟩).map List.length = some 3) ∧
    ((r.groups.get ⟨0⟩).kind = .space ∧ (r.groups.get ⟨0⟩).notes.length = 1 ∧
      ∃ u, InPlace.combine.run r = .ok 2 u) ∧
    ∃ fault, InPlace.combine.run s' = .error fault s' := by
  obtain ⟨s, hs, hfault, hmade, hlist, ⟨hkind, hnotes, hspaced⟩, hnone⟩ :=
    Score.exists_of_spelled twoSteps
    (.append (.append (.ofList _) (.ofList _)) (.ofList _))
    (P := fun s => s.buildChords.fault = none ∧
      ((s.buildChords.now.edit (.revise ⟨2⟩ { grace := some true })).combineVoices.toOption.any
        fun c => c.merges == 2 && (c.score.list? ⟨1, 1, 1⟩).map List.length == some 3) = true ∧
      ((s.buildChords.now.edit (.revise ⟨2⟩ { grace := some true })).list? ⟨1, 1, 1⟩).map
        List.length = some 2 ∧
      (((spaced s.buildChords.now).groups.get ⟨0⟩).kind = .space ∧
        ((spaced s.buildChords.now).groups.get ⟨0⟩).notes.length = 1 ∧
        ((spaced s.buildChords.now).combineVoices.toOption.any (·.merges == 2)) = true) ∧
      (s.buildChords.now.edit (.silence ⟨1, 1, 2⟩)).combineVoices.toOption.isNone = true)
    (by decide +kernel)
  have ht : s.buildChords.now.Chorded := ⟨s, .of_text hs, hfault, rfl⟩
  have hgraced : s.buildChords.now.Reworked
      (s.buildChords.now.edit (.revise ⟨2⟩ { grace := some true })) := .regroup _ _ .start
  have hsilenced : s.buildChords.now.Reworked
      (s.buildChords.now.edit (.silence ⟨1, 1, 2⟩)) := .silence _ .start
  have hspace : s.buildChords.now.Reworked (spaced s.buildChords.now) := .regroup _ _ .start
  refine ⟨_, _, _, _, ht, hgraced, hspace, hsilenced, ?_, ⟨hkind, hnotes, ?_⟩, ?_⟩
  · obtain ⟨-, herror, hok⟩ := Score.Reworked.combines_or_spares ht hgraced
    cases hrun : InPlace.combine.run (s.buildChords.now.edit (.revise ⟨2⟩ { grace := some true }))
      with
    | error fault u =>
      rw [(herror fault u hrun).2.1] at hmade
      cases hmade
    | ok merges u =>
      obtain ⟨c, hc, rfl, rfl⟩ := hok merges u hrun
      simp only [hc, Except.toOption, Option.any_some, Bool.and_eq_true, beq_iff_eq] at hmade
      exact ⟨c.score, by rw [hmade.1], hlist, hmade.2⟩
  · obtain ⟨-, herror, hok⟩ := Score.Reworked.combines_or_spares ht hspace
    cases hrun : InPlace.combine.run (spaced s.buildChords.now) with
    | error fault u =>
      rw [(herror fault u hrun).2.1] at hspaced
      cases hspaced
    | ok merges u =>
      obtain ⟨c, hc, rfl, rfl⟩ := hok merges u hrun
      simp only [hc, Except.toOption, Option.any_some, beq_iff_eq] at hspaced
      exact ⟨c.score, by rw [hspaced]⟩
  · obtain ⟨-, herror, hok⟩ := Score.Reworked.combines_or_spares ht hsilenced
    cases hrun : InPlace.combine.run (s.buildChords.now.edit (.silence ⟨1, 1, 2⟩)) with
    | error fault u => exact ⟨fault, by rw [(herror fault u hrun).1]⟩
    | ok merges u =>
      obtain ⟨c, hc, -, -⟩ := hok merges u hrun
      rw [hc] at hnone
      cases hnone

end Divisi
