/-
Grace notes in a voice list.

The run of an entry is what stands directly before it and is a grace note. Putting grace
notes in front of the run of one entry, or taking some of the first away, leaves the run
of every other entry as it is (`runOf_congr`).
-/
import Mathlib.Data.List.TakeWhile
import Divisi.Combination
import Divisi.Proofs.Layers
import Divisi.Proofs.Outcome

namespace Divisi

/-! ## Runs -/

section Run

variable {α : Type} [DecidableEq α] {grace : α → Bool} {before after run run' : List α} {x z : α}

/-- The entries directly before `x` for which `grace` holds, in the order of the list. -/
def runOf (grace : α → Bool) (list : List α) (x : α) : List α :=
  ((list.takeWhile (· ≠ x)).reverse.takeWhile grace).reverse

theorem grace_of_runOf {list : List α} (h : z ∈ runOf grace list x) : grace z = true :=
  List.mem_takeWhile_imp (List.mem_reverse.mp h)

theorem takeWhile_ne_of_notMem (hx : x ∉ before) :
    (before ++ x :: after).takeWhile (· ≠ x) = before := by
  have hall : ∀ y ∈ before, decide (y ≠ x) = true := fun y hy =>
    decide_eq_true fun he => hx (he ▸ hy)
  rw [List.takeWhile_append_of_pos hall]
  simp

omit [DecidableEq α] in
theorem takeWhile_append_stop (hx : grace x = false) :
    (before ++ x :: after).takeWhile grace = before.takeWhile grace := by
  induction before with
  | nil => simp [hx]
  | cons y rest ih =>
    rw [List.cons_append, List.takeWhile_cons, List.takeWhile_cons, ih]

/-- An entry with its run in the list. -/
theorem exists_runOf (grace : α → Bool) {list : List α} (h : x ∈ list) : ∃ before after,
    list = before ++ runOf grace list x ++ x :: after ∧ x ∉ before ∧ x ∉ runOf grace list x ∧
      ∀ z ∈ before.getLast?, grace z = false := by
  have hsplit : list = list.takeWhile (· ≠ x) ++ list.dropWhile (· ≠ x) :=
    List.takeWhile_append_dropWhile.symm
  have hnot : x ∉ list.takeWhile (· ≠ x) := fun hx => by simpa using List.mem_takeWhile_imp hx
  obtain ⟨after, hafter⟩ : ∃ after, list.dropWhile (· ≠ x) = x :: after := by
    cases hdrop : list.dropWhile (· ≠ x) with
    | nil =>
      rw [hdrop, List.append_nil] at hsplit
      rw [hsplit] at h
      exact absurd h hnot
    | cons y after =>
      have := List.head?_dropWhile_not (· ≠ x) list
      rw [hdrop, List.head?_cons] at this
      exact ⟨after, by simpa using this⟩
  have hreverse : list.takeWhile (· ≠ x) =
      ((list.takeWhile (· ≠ x)).reverse.dropWhile grace).reverse ++ runOf grace list x := by
    rw [runOf, ← List.reverse_append, List.takeWhile_append_dropWhile, List.reverse_reverse]
  refine ⟨((list.takeWhile (· ≠ x)).reverse.dropWhile grace).reverse, after, ?_, ?_, ?_, ?_⟩
  · rw [← hreverse, ← hafter]
    exact hsplit
  · exact fun hx => hnot (hreverse ▸ List.mem_append_left _ hx)
  · exact fun hx => hnot (hreverse ▸ List.mem_append_right _ hx)
  · intro z hz
    rw [List.getLast?_reverse] at hz
    have := List.head?_dropWhile_not grace (list.takeWhile (· ≠ x)).reverse
    rw [Option.mem_def.mp hz] at this
    simpa using this

theorem runOf_eq (hx : x ∉ before ++ run) (hrun : ∀ z ∈ run, grace z = true)
    (hbefore : ∀ z ∈ before.getLast?, grace z = false) :
    runOf grace (before ++ run ++ x :: after) x = run := by
  rw [runOf, takeWhile_ne_of_notMem hx, List.reverse_append,
    List.takeWhile_append_of_pos fun z hz => hrun z (List.mem_reverse.mp hz)]
  have hstop : before.reverse.takeWhile grace = [] := by
    cases hlast : before.reverse with
    | nil => rfl
    | cons z rest =>
      have hz : z ∈ before.getLast? := by rw [← List.head?_reverse, hlast]; rfl
      rw [List.takeWhile_cons, if_neg (by simp [hbefore z hz])]
  rw [hstop, List.append_nil, List.reverse_reverse]

theorem runOf_congr (hx : grace x = false) (hz : grace z = false) (hne : z ≠ x)
    (hrun : ∀ w ∈ run, grace w = true) (hrun' : ∀ w ∈ run', grace w = true) :
    runOf grace (before ++ run ++ x :: after) z = runOf grace (before ++ run' ++ x :: after) z := by
  have hnot : ∀ {run : List α}, (∀ w ∈ run, grace w = true) → ∀ w ∈ run, decide (w ≠ z) = true := by
    intro run hrun w hw
    refine decide_eq_true fun he => ?_
    have := hrun w hw
    rw [he, hz] at this
    cases this
  unfold runOf
  by_cases hmem : z ∈ before
  · obtain ⟨early, late, rfl⟩ := List.append_of_mem hmem
    have hsplit : ∀ rest : List α, (early ++ z :: rest).takeWhile (· ≠ z) =
        early.takeWhile (· ≠ z) := fun rest => takeWhile_append_stop (by simp)
    simp only [List.append_assoc, List.cons_append, hsplit]
  · have hall : ∀ w ∈ before, decide (w ≠ z) = true := fun w hw =>
      decide_eq_true fun he => hmem (he ▸ hw)
    have hsplit : ∀ {run : List α}, (∀ w ∈ run, grace w = true) →
        ((before ++ run ++ x :: after).takeWhile (· ≠ z)).reverse.takeWhile grace =
          (after.takeWhile (· ≠ z)).reverse.takeWhile grace := by
      intro run hrun
      rw [List.append_assoc, List.takeWhile_append_of_pos hall,
        List.takeWhile_append_of_pos (hnot hrun), List.takeWhile_cons,
        if_pos (by simpa using Ne.symm hne)]
      simp only [List.reverse_append, List.reverse_cons, List.append_assoc, List.singleton_append]
      exact takeWhile_append_stop hx
    rw [hsplit hrun, hsplit hrun']

theorem runOf_disjoint {list : List α} {w : α} (hnodup : list.Nodup) (hxl : x ∈ list) (hzl : z ∈ list)
    (hne : z ≠ x) (hx : grace x = false) (hz : grace z = false) (hw : w ∈ runOf grace list x) :
    w ∉ runOf grace list z := by
  intro hwz
  have hsub : ∀ {xs : List α}, ∀ v ∈ (xs.reverse.takeWhile grace).reverse, v ∈ xs := fun v hv =>
    List.mem_reverse.mp ((List.takeWhile_sublist _).subset (List.mem_reverse.mp hv))
  obtain ⟨before, after, hlist, -⟩ := exists_runOf grace hxl
  have hzr : z ∉ runOf grace list x := fun hmem =>
    Bool.false_ne_true (hz.symm.trans (grace_of_runOf hmem))
  generalize runOf grace list x = run at hw hlist hzr
  subst hlist
  obtain ⟨hleft, -, hcross⟩ := List.nodup_append.mp hnodup
  have hbefore := (List.nodup_append.mp hleft).2.2
  rw [runOf] at hwz
  by_cases hzb : z ∈ before
  · -- `z` comes before the run of `x`
    obtain ⟨early, late, rfl⟩ := List.append_of_mem hzb
    simp only [List.append_assoc, List.cons_append] at hwz
    rw [takeWhile_append_stop (by simp)] at hwz
    have hearly := (List.takeWhile_sublist _).subset (hsub w hwz)
    exact hbefore w (List.mem_append_left _ hearly) w hw rfl
  · -- `z` comes after `x`
    have hall : ∀ v ∈ before ++ run, decide (v ≠ z) = true := fun v hv =>
      decide_eq_true fun he => (List.mem_append.mp (he ▸ hv)).elim hzb hzr
    rw [List.takeWhile_append_of_pos hall, List.takeWhile_cons,
      if_pos (by simpa using Ne.symm hne)] at hwz
    simp only [List.reverse_append, List.reverse_cons, List.append_assoc, List.cons_append,
      List.nil_append] at hwz
    rw [takeWhile_append_stop hx] at hwz
    have hlate := (List.takeWhile_sublist _).subset (hsub w hwz)
    exact hcross w (List.mem_append_right _ hw) w (List.mem_cons_of_mem _ hlate) rfl

end Run

namespace Score

variable {s : Score} {layer other : Layer} {list : List GroupKey} {k : GroupKey}

/-- A group is a grace note. -/
def graceAt (s : Score) (k : GroupKey) : Bool := (s.groups.get k).grace

theorem graceAt_of_get? {s : Score} {k : GroupKey} {g : Group} (h : s.groups.get? k = some g) :
    s.graceAt k = g.grace := by
  rw [graceAt, Arena.get_of_get? h]

theorem takeWhile_eq_take {α : Type} [DecidableEq α] {list : List α} {x : α} {place : Nat}
    (h : list.idxOf? x = some place) : list.take place = list.takeWhile (· ≠ x) := by
  obtain ⟨hplace, hx, hbefore⟩ := List.findIdx?_eq_some_iff_getElem.mp h
  have hx : list[place] = x := by simpa using hx
  have hnot : x ∉ list.take place := by
    intro hmem
    obtain ⟨j, hj, hjx⟩ := List.mem_take_iff_getElem.mp hmem
    exact hbefore j (by omega) (by simpa using hjx)
  conv_rhs => rw [← List.take_append_drop place list, List.drop_eq_getElem_cons hplace, hx]
  exact (takeWhile_ne_of_notMem hnot).symm

theorem graceRun_eq_ok (hlist : s.list? layer = some list) (hk : k ∈ list) :
    s.graceRun layer.item layer.staff layer.voice k = .ok (runOf s.graceAt list k) := by
  unfold graceRun
  rw [voiceList_eq_ok.mpr hlist]
  obtain ⟨place, hplace⟩ : ∃ place, list.idxOf? k = some place := by
    rw [← Option.isSome_iff_exists]
    simpa using hk
  simp only [bind, Except.bind, hplace, pure, Except.pure, takeWhile_eq_take hplace]
  rfl

end Score

/-! ## Tidy lists -/

/-- Live groups stand in the layers of a score, each in one place. -/
structure Score.Tidy (s : Score) : Prop where
  nodup : ∀ layer list, s.list? layer = some list → list.Nodup
  apart : ∀ layer layer' list list' k, s.list? layer = some list → s.list? layer' = some list' →
    k ∈ list → k ∈ list' → layer = layer'
  live : ∀ layer list k, s.list? layer = some list → k ∈ list → ∃ g, s.groups.get? k = some g

theorem Score.Sound.tidy {fits : Group → Prop} {s : Score} (h : s.Sound fits) : s.Tidy :=
  ⟨fun _ _ hlist => h.list_nodup hlist,
    fun _ _ _ _ _ hlist hlist' hk hk' => h.layer_unique hlist hk hlist' hk',
    fun _ _ _ hlist hk => (h.get?_of_mem hlist hk).imp fun _ h => h.elim fun _ h => h.1⟩

theorem Score.list?_congr {s s' : Score} (h : s'.items = s.items) (layer : Layer) :
    s'.list? layer = s.list? layer := by
  simp only [list?, measureAt?, h]

end Divisi
