/-
Settings in force, told by the changes that set them.

What a scope has been set to is, setting by setting, what the last change of that scope gives
that gives it at all (`InForce.settings_after`). So every question that is asked of the settings
in force is answered by the changes alone (`InForce.after_replays`); a change of a scope that
does not apply, or one that leaves the setting out, might as well not be there.
-/
import Mathlib.Data.List.Induction
import Divisi.Settings

namespace Divisi

namespace Change

variable {α : Type} {scope : Scope} {setting : Settings → Option α}

/-- The value that a change gives a setting of one scope, if it is of that scope. -/
def given? (scope : Scope) (setting : Settings → Option α) (c : Change) : Option α :=
  if c.scope = scope then setting c.settings else none

/-- The last value that changes give a setting of one scope. -/
def last? (scope : Scope) (setting : Settings → Option α) (changes : List Change) : Option α :=
  changes.reverse.findSome? (given? scope setting)

theorem given?_eq_none {c : Change} :
    c.given? scope setting = none ↔ (c.scope = scope → setting c.settings = none) := by
  unfold given?
  split <;> simp_all

/-- The last value is one that a change gives and that none after it overrides. -/
theorem last?_eq_some {changes : List Change} {x : α} : last? scope setting changes = some x ↔
    ∃ before c after, changes = before ++ c :: after ∧ c.given? scope setting = some x ∧
      ∀ c' ∈ after, c'.given? scope setting = none := by
  rw [last?, List.findSome?_eq_some_iff]
  constructor
  · rintro ⟨after, c, before, heq, hc, hafter⟩
    refine ⟨before.reverse, c, after.reverse, ?_, hc, fun c' hc' => hafter c' (by simpa using hc')⟩
    rw [← List.reverse_reverse changes, heq]
    simp
  · rintro ⟨before, c, after, rfl, hc, hafter⟩
    exact ⟨after.reverse, c, before.reverse, by simp, hc, fun c' hc' => hafter c' (by simpa using hc')⟩

theorem last?_snoc (changes : List Change) (c : Change) : last? scope setting (changes ++ [c]) =
    (c.given? scope setting).or (last? scope setting changes) := by
  rw [last?, List.reverse_append, List.findSome?_append]
  cases hc : c.given? scope setting <;> simp [last?, hc]

/-- A change that gives no value might as well not be there. -/
theorem last?_insert {before after : List Change} {c : Change} (h : c.given? scope setting = none) :
    last? scope setting (before ++ c :: after) = last? scope setting (before ++ after) := by
  simp only [last?, List.reverse_append, List.reverse_cons, List.findSome?_append,
    List.findSome?_cons, List.findSome?_nil, h, Option.or_none]

end Change

namespace InForce

open Change

theorem after_snoc (changes : List Change) (c : Change) :
    after (changes ++ [c]) = (after changes).apply c := by
  rw [after, List.foldl_append]
  rfl

theorem settings_after (changes : List Change) (scope : Scope) :
    (after changes).settings scope =
      { time := last? scope Settings.time changes
        visible := last? scope Settings.visible changes
        request := last? scope Settings.request changes } := by
  induction changes using List.reverseRecOn with
  | nil => rfl
  | append_singleton changes c ih =>
    rw [after_snoc, last?_snoc, last?_snoc, last?_snoc, apply]
    by_cases hc : scope = c.scope
    · subst hc
      simp only [if_true, ih, Settings.orElse, given?, Option.orElse_eq_orElse, Option.orElse_eq_or]
    · simp only [if_neg hc, given?, if_neg (Ne.symm hc), ih, Option.none_or]

section Answers

variable (changes : List Change) (staff voice : Nat)

theorem time_after : (after changes).time =
    (last? .score Settings.time changes).getD { beats := 4, unit := 4 } := by
  rw [time, settings_after]

theorem staffVisible_after : (after changes).staffVisible staff =
    ((last? (.staff staff) Settings.visible changes).or
      (last? .score Settings.visible changes)).getD true := by
  rw [staffVisible, settings_after, settings_after, Option.orElse_eq_orElse, Option.orElse_eq_or]

theorem voiceVisible_after : (after changes).voiceVisible staff voice =
    ((after changes).staffVisible staff &&
      (last? (.voice staff voice) Settings.visible changes).getD true) := by
  rw [voiceVisible, settings_after]

theorem request_after : (after changes).request staff =
    ((last? (.staff staff) Settings.request changes).or
      (last? .score Settings.request changes)).filter Request.isActive := by
  rw [request, settings_after, settings_after, Option.orElse_eq_orElse, Option.orElse_eq_or]

end Answers

/-- **The settings in force are a replay of the changes.** The time signature is the last that
was given to the score, else 4/4. A staff is visible as it was last said of it, else of the score,
else it is; a voice is where its staff is and it was not last said to be hidden. The request is the
last of the staff, else of the score, if that one names two voices. A change that is of none
of the scopes concerned, or that gives nothing there, makes no difference. -/
theorem after_replays (changes : List Change) :
    (after changes).time = (last? .score Settings.time changes).getD { beats := 4, unit := 4 } ∧
    (∀ staff, (after changes).staffVisible staff =
      ((last? (.staff staff) Settings.visible changes).or
        (last? .score Settings.visible changes)).getD true) ∧
    (∀ staff voice, (after changes).voiceVisible staff voice = true ↔
      (after changes).staffVisible staff = true ∧
        ∀ shown, last? (.voice staff voice) Settings.visible changes = some shown → shown = true) ∧
    (∀ staff r, (after changes).request staff = some r ↔
      (last? (.staff staff) Settings.request changes).or (last? .score Settings.request changes) =
        some r ∧ 2 ≤ r.voices.length) ∧
    ∀ before c later, changes = before ++ c :: later →
      ((c.scope = .score → c.settings.time = none) →
        (after (before ++ later)).time = (after changes).time) ∧
      (∀ staff, (c.scope = .score ∨ c.scope = .staff staff → c.settings.visible = none) →
        (after (before ++ later)).staffVisible staff = (after changes).staffVisible staff) ∧
      (∀ staff voice, (c.scope = .score ∨ c.scope = .staff staff ∨ c.scope = .voice staff voice →
          c.settings.visible = none) →
        (after (before ++ later)).voiceVisible staff voice =
          (after changes).voiceVisible staff voice) ∧
      ∀ staff, (c.scope = .score ∨ c.scope = .staff staff → c.settings.request = none) →
        (after (before ++ later)).request staff = (after changes).request staff := by
  refine ⟨time_after changes, staffVisible_after changes, fun staff voice => ?_, fun staff r => ?_, ?_⟩
  · rw [voiceVisible_after, Bool.and_eq_true]
    cases last? (.voice staff voice) Settings.visible changes <;> simp
  · rw [request_after, Option.filter_eq_some_iff, Request.isActive, decide_eq_true_eq]
  · rintro before c later rfl
    have hsame : ∀ {α : Type} {scope : Scope} {setting : Settings → Option α},
        (c.scope = scope → setting c.settings = none) →
        last? scope setting (before ++ later) = last? scope setting (before ++ c :: later) :=
      fun h => (last?_insert (given?_eq_none.mpr h)).symm
    have hstaff : ∀ staff, (c.scope = .score ∨ c.scope = .staff staff → c.settings.visible = none) →
        (after (before ++ later)).staffVisible staff =
          (after (before ++ c :: later)).staffVisible staff := by
      intro staff h
      rw [staffVisible_after, staffVisible_after, hsame fun hc => h (.inr hc),
        hsame fun hc => h (.inl hc)]
    refine ⟨fun h => ?_, hstaff, fun staff voice h => ?_, fun staff h => ?_⟩
    · rw [time_after, time_after, hsame h]
    · rw [voiceVisible_after, voiceVisible_after, hsame fun hc => h (.inr (.inr hc)),
        hstaff staff fun hc => h (hc.imp_right .inl)]
    · rw [request_after, request_after, hsame fun hc => h (.inr hc), hsame fun hc => h (.inl hc)]

/-- Staff 2 asks for nothing, which hides what the score asks for; a change of staff 1 is no
concern of it. -/
theorem request_replayed_behindStaff :
    let ofScore : Change := { scope := .score, settings := { request := some { voices := [1, 2] } } }
    let ofStaff : Change := { scope := .staff 2, settings := { request := some {} } }
    let elsewhere : Change := { scope := .staff 1, settings := { request := some { voices := [2, 3] } } }
    (after [ofScore, ofStaff]).request 1 = some { voices := [1, 2] } ∧
      (after [ofScore, elsewhere, ofStaff]).request 2 = none ∧
      (after [ofScore, ofStaff]).request 2 = (after [ofScore, elsewhere, ofStaff]).request 2 := by
  intro ofScore ofStaff elsewhere
  refine ⟨((after_replays [ofScore, ofStaff]).2.2.2.1 1 _).mpr ⟨by decide, by decide⟩, by decide, ?_⟩
  exact ((after_replays [ofScore, elsewhere, ofStaff]).2.2.2.2 [ofScore] elsewhere [ofStaff] rfl).2.2.2 2
    (by decide)

end InForce

end Divisi
