/-
What the arenas of a score hold is what its voice lists and its verses name.

`Arena.Lists` says that a list of keys names everything in an arena, each value
once. A `Posting` is a key together with the measure, the staff and the voice of
the list that it stands in; the postings of a score, in any order, are what its
groups are kept by. The lemmas here say what the operations on arenas and on
staves do to such lists.
-/
import Mathlib.Data.List.Perm.Basic
import Divisi.Score

namespace Divisi

namespace Arena

variable {α : Type}

/-! ## Arenas -/

theorem contains_iff {a : Arena α} {k : Key α} : a.contains k = true ↔ ∃ x, a.get? k = some x := by
  simp [contains, Option.isSome_iff_exists]

theorem get_of_get? [Inhabited α] {a : Arena α} {k : Key α} {x : α} (h : a.get? k = some x) :
    a.get k = x := by
  simp [get, h]

theorem lt_size_of_get? {a : Arena α} {k : Key α} {x : α} (h : a.get? k = some x) :
    k.slot < a.slots.size := by
  refine Nat.lt_of_not_ge fun hge => ?_
  rw [get?, Array.getElem?_eq_none hge] at h
  cases h

theorem size_slots_removeAll (a : Arena α) (ks : List (Key α)) :
    (a.removeAll ks).slots.size = a.slots.size := by
  unfold removeAll
  induction ks generalizing a with
  | nil => rfl
  | cons k ks ih => rw [List.foldl_cons, ih, remove, Array.size_modify]

theorem get?_removeAll (a : Arena α) (ks : List (Key α)) (l : Key α) :
    (a.removeAll ks).get? l = if l ∈ ks then none else a.get? l := by
  unfold removeAll
  induction ks generalizing a with
  | nil => simp
  | cons k ks ih =>
    rw [List.foldl_cons, ih, get?_remove]
    by_cases hl : l ∈ ks
    · simp [hl]
    · by_cases hk : k = l
      · simp [hk]
      · simp [hl, hk, Ne.symm hk]

/-- The keys name all that is in the arena, each value once. -/
structure Lists (a : Arena α) (keys : List (Key α)) : Prop where
  nodup : keys.Nodup
  mem_iff : ∀ k, k ∈ keys ↔ a.contains k

namespace Lists

variable {a : Arena α} {keys old rest : List (Key α)}

theorem empty : ({} : Arena α).Lists [] :=
  ⟨List.nodup_nil, fun k => by simp [contains, get?]⟩

theorem perm (h : a.Lists keys) (hp : keys.Perm rest) : a.Lists rest :=
  ⟨hp.nodup_iff.mp h.nodup, fun k => (hp.mem_iff).symm.trans (h.mem_iff k)⟩

theorem get? (h : a.Lists keys) {k : Key α} (hk : k ∈ keys) : ∃ x, a.get? k = some x :=
  contains_iff.mp ((h.mem_iff k).mp hk)

theorem fresh_notMem (h : a.Lists keys) : a.fresh ∉ keys := by
  rw [h.mem_iff]
  simp [contains]

theorem ne_fresh (h : a.Lists keys) {k : Key α} (hk : k ∈ keys) : k ≠ a.fresh :=
  fun he => h.fresh_notMem (he ▸ hk)

theorem insert (h : a.Lists keys) (x : α) : (a.insert x).Lists (a.fresh :: keys) := by
  refine ⟨List.nodup_cons.mpr ⟨h.fresh_notMem, h.nodup⟩, fun k => ?_⟩
  rw [List.mem_cons, h.mem_iff]
  simp only [contains, get?_insert]
  split <;> simp_all

theorem removeAll (h : a.Lists (old ++ rest)) : (a.removeAll old).Lists rest := by
  obtain ⟨-, hrest, hdisjoint⟩ := List.nodup_append.mp h.nodup
  refine ⟨hrest, fun k => ?_⟩
  have hk := h.mem_iff k
  simp only [contains, get?_removeAll] at hk ⊢
  split
  next hold => simpa using fun hr => hdisjoint k hold k hr rfl
  next hold => simpa [hold] using hk

end Lists

end Arena

/-! ## The voices of a stave -/

namespace PerVoice

variable {α : Type}

/-- Voice `v` comes after `before` and is followed by `after` in the order of
voices. -/
theorem exists_toList {p : PerVoice α} {v : Nat} {x : α} (h : p.get? v = some x) :
    ∃ before after, p.toList = before ++ (v, x) :: after ∧
      (∀ y, (p.set v y).toList = before ++ (v, y) :: after) ∧
      ∀ w z, (w, z) ∈ before ++ after → w ≠ v := by
  unfold get? at h
  split at h <;> simp only [Option.some.injEq, reduceCtorEq] at h <;> subst h
  · exact ⟨[], [(2, p.two), (3, p.three)], rfl, fun _ => rfl, by simp +contextual [or_imp]⟩
  · exact ⟨[(1, p.one)], [(3, p.three)], rfl, fun _ => rfl, by simp +contextual [or_imp]⟩
  · exact ⟨[(1, p.one), (2, p.two)], [], rfl, fun _ => rfl, by simp +contextual [or_imp]⟩

theorem get?_isSome {p : PerVoice α} {v : Nat} (hv : 1 ≤ v ∧ v ≤ 3) :
    ∃ x, p.get? v = some x := by
  obtain rfl | rfl | rfl : v = 1 ∨ v = 2 ∨ v = 3 := by omega
  all_goals exact ⟨_, rfl⟩

theorem le_of_get? {p : PerVoice α} {v : Nat} {x : α} (h : p.get? v = some x) :
    1 ≤ v ∧ v ≤ 3 := by
  unfold get? at h
  split at h <;> simp_all

end PerVoice

namespace Stave

theorem mem_present {s : Stave} {v : Nat} {list : List GroupKey} :
    (v, list) ∈ s.present ↔ s.list? v = some list := by
  unfold present list?
  simp only [List.mem_filterMap, Prod.exists, Option.map_eq_some_iff, Prod.mk.injEq,
    PerVoice.mem_toList, Option.join_eq_some_iff]
  constructor
  · rintro ⟨w, x, hx, keys, rfl, rfl, rfl⟩
    exact hx
  · intro h
    exact ⟨v, some list, h, list, rfl, rfl, rfl⟩

theorem le_of_list? {s : Stave} {v : Nat} {list : List GroupKey} (h : s.list? v = some list) :
    1 ≤ v ∧ v ≤ 3 :=
  PerVoice.le_of_get? (Option.join_eq_some_iff.mp h)

@[simp] theorem staff_setList (s : Stave) (v : Nat) (list : Option (List GroupKey)) :
    (s.setList v list).staff = s.staff := rfl

theorem list?_setList {s : Stave} {v w : Nat} {list : Option (List GroupKey)}
    (hv : 1 ≤ v ∧ v ≤ 3) :
    (s.setList v list).list? w = if v = w then list else s.list? w := by
  obtain ⟨x, hx⟩ := PerVoice.get?_isSome (p := s.voices) hv
  unfold list? setList
  rw [PerVoice.get?_set]
  split
  next h => simp [← h, hx]
  next => rfl

theorem present_setList {s : Stave} {v : Nat} (hv : 1 ≤ v ∧ v ≤ 3) :
    ∃ before after, s.present = before ++ ((s.list? v).map fun keys => (v, keys)).toList ++ after ∧
      ∀ list, (s.setList v list).present =
        before ++ (list.map fun keys => (v, keys)).toList ++ after := by
  obtain ⟨x, hx⟩ := PerVoice.get?_isSome (p := s.voices) hv
  obtain ⟨before, after, hlist, hset, -⟩ := PerVoice.exists_toList hx
  let shown := fun (w : Nat × Option (List GroupKey)) => w.2.map fun keys => (w.1, keys)
  have hcons : ∀ y : Option (List GroupKey),
      ((v, y) :: after).filterMap shown =
        (y.map fun keys => (v, keys)).toList ++ after.filterMap shown := by
    intro y
    cases y <;> simp [shown]
  refine ⟨before.filterMap shown, after.filterMap shown, ?_, fun list => ?_⟩
  · have hx' : s.list? v = x := by simp [list?, hx]
    change s.voices.toList.filterMap shown = _
    rw [hlist, List.filterMap_append, hcons, hx', List.append_assoc]
  · change (s.voices.set v list).toList.filterMap shown = _
    rw [hset, List.filterMap_append, hcons, List.append_assoc]

end Stave

/-! ## Postings -/

/-- A group as a voice list holds it. -/
structure Posting where
  /-- Number of the measure. -/
  measure : Nat
  staff : Nat
  voice : Nat
  key : GroupKey
  deriving DecidableEq

/-- The group at the posting names the list that it stands in. -/
def Posting.Named (groups : Arena Group) (p : Posting) : Prop :=
  ∃ g, groups.get? p.key = some g ∧ g.measure = p.measure ∧ g.staff = p.staff ∧ g.voice = p.voice

/-- The postings of a voice list. -/
def postingsOf (measure staff voice : Nat) (list : List GroupKey) : List Posting :=
  list.map fun key => { measure, staff, voice, key }

@[simp] theorem map_key_postingsOf (measure staff voice : Nat) (list : List GroupKey) :
    (postingsOf measure staff voice list).map (·.key) = list := by
  simp [postingsOf, Function.comp_def]

namespace Stave

def postings (measure : Nat) (s : Stave) : List Posting :=
  s.present.flatMap fun (voice, list) => postingsOf measure s.staff voice list

/-- The syllables of a stave. -/
def sung (s : Stave) : List SyllableKey := s.verses.flatten

theorem mem_postings {measure : Nat} {s : Stave} {p : Posting} :
    p ∈ s.postings measure ↔ p.measure = measure ∧ p.staff = s.staff ∧
      ∃ list, s.list? p.voice = some list ∧ p.key ∈ list := by
  simp only [postings, List.mem_flatMap, Prod.exists, mem_present, postingsOf, List.mem_map]
  constructor
  · rintro ⟨v, list, hlist, key, hkey, rfl⟩
    exact ⟨rfl, rfl, list, hlist, hkey⟩
  · rintro ⟨rfl, hstaff, list, hlist, hkey⟩
    exact ⟨p.voice, list, hlist, p.key, hkey, by rw [← hstaff]⟩

theorem postings_setList {s : Stave} {v : Nat} (measure : Nat) (hv : 1 ≤ v ∧ v ≤ 3) :
    ∃ others, (s.postings measure).Perm
        (postingsOf measure s.staff v ((s.list? v).getD []) ++ others) ∧
      ∀ list, ((s.setList v list).postings measure).Perm
        (postingsOf measure s.staff v (list.getD []) ++ others) := by
  obtain ⟨before, after, hbefore, hset⟩ := present_setList (s := s) hv
  let posted := fun (w : Nat × List GroupKey) => postingsOf measure s.staff w.1 w.2
  have hmid : ∀ list : Option (List GroupKey),
      ((list.map fun keys => (v, keys)).toList.flatMap posted) =
        postingsOf measure s.staff v (list.getD []) := by
    intro list
    cases list <;> simp [posted, postingsOf]
  refine ⟨before.flatMap posted ++ after.flatMap posted, ?_, fun list => ?_⟩
  · change (s.present.flatMap posted).Perm _
    rw [hbefore, List.flatMap_append, List.flatMap_append, hmid]
    exact (List.perm_append_comm.append_right _).trans (by rw [List.append_assoc])
  · change ((s.setList v list).present.flatMap posted).Perm _
    rw [hset, List.flatMap_append, List.flatMap_append, hmid]
    exact (List.perm_append_comm.append_right _).trans (by rw [List.append_assoc])

end Stave

namespace Measure

theorem stave?_of_mem {m : Measure} (h : (m.staves.map (·.staff)).Pairwise (· < ·)) {s : Stave}
    (hs : s ∈ m.staves) : m.stave? s.staff = some s := by
  unfold stave?
  generalize m.staves = staves at h hs
  induction staves with
  | nil => simp at hs
  | cons t rest ih =>
    rw [List.map_cons, List.pairwise_cons] at h
    rcases List.mem_cons.mp hs with rfl | hs
    · simp
    · have hlt := h.1 s.staff (List.mem_map_of_mem hs)
      rw [List.find?_cons_of_neg (by simpa using Nat.ne_of_lt hlt)]
      exact ih h.2 hs

theorem mem_of_stave? {m : Measure} {staff : Nat} {s : Stave} (h : m.stave? staff = some s) :
    s ∈ m.staves ∧ s.staff = staff :=
  ⟨List.mem_of_find?_eq_some h, by simpa using List.find?_some h⟩

def postings (m : Measure) : List Posting := m.staves.flatMap (Stave.postings m.number)

def sung (m : Measure) : List SyllableKey := m.staves.flatMap Stave.sung

end Measure

namespace Score

/-- The groups of a score as its voice lists hold them. -/
def postings (s : Score) : List Posting := s.measures.flatMap Measure.postings

/-- The syllables of a score as its verses hold them. -/
def sung (s : Score) : List SyllableKey := s.measures.flatMap Measure.sung

end Score

end Divisi
