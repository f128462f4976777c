/-
Computations that may stop at an error, opened at their results.

A chain of steps that ends well did so at every step (`bind_eq_ok`); what each
step of a fold keeps, the fold keeps (`foldlM_induction`), and where each step
goes well, the fold does (`foldlM_total`).
-/
import Mathlib.Data.List.Forall2
import Divisi.Loading

namespace Divisi

variable {σ α β ε : Type}

theorem bind_eq_ok {x : Except ε α} {f : α → Except ε β} {b : β} :
    (x >>= f) = .ok b ↔ ∃ a, x = .ok a ∧ f a = .ok b := by
  cases x <;> simp [bind, Except.bind]

theorem map_eq_ok {x : Except ε α} {f : α → β} {b : β} :
    x.map f = .ok b ↔ ∃ a, x = .ok a ∧ f a = b := by
  cases x <;> simp [Except.map]

theorem map_bind_eq {γ : Type} {x : Except ε α} {f : α → Except ε β} {g : β → γ} :
    (x >>= f).map g = x >>= fun a => (f a).map g := by
  cases x <;> rfl

@[simp] theorem pure_eq_ok {a b : α} : (pure a : Except ε α) = .ok b ↔ a = b := by
  simp [pure, Except.pure]

theorem discard_eq_ok {x : Except ε α} {u : PUnit} :
    discard x = .ok u ↔ ∃ a, x = .ok a := by
  cases x with
  | error e => exact ⟨(nomatch ·), fun h => h.elim fun _ ha => (nomatch ha)⟩
  | ok a => exact ⟨fun _ => ⟨a, rfl⟩, fun _ => rfl⟩

/-- What each step of a fold keeps; the motive sees the elements still to
come. -/
theorem foldlM_induction {f : σ → α → Except ε σ} {P : List α → σ → Prop}
    (step : ∀ x rest s t, P (x :: rest) s → f s x = .ok t → P rest t)
    {xs : List α} {s t : σ} (h0 : P xs s) (h : xs.foldlM f s = .ok t) : P [] t := by
  induction xs generalizing s with
  | nil =>
    simp only [List.foldlM_nil, pure_eq_ok] at h
    exact h ▸ h0
  | cons x rest ih =>
    simp only [List.foldlM_cons, bind_eq_ok] at h
    obtain ⟨u, hu, h⟩ := h
    exact ih (step x rest s u h0 hu) h

theorem foldlM_total {f : σ → α → Except ε σ} {P : List α → σ → Prop} (xs : List α)
    (step : ∀ x rest s, P (x :: rest) s → ∃ t, f s x = .ok t ∧ P rest t)
    {s : σ} (h0 : P xs s) : ∃ t, xs.foldlM f s = .ok t ∧ P [] t := by
  induction xs generalizing s with
  | nil => exact ⟨s, rfl, h0⟩
  | cons x rest ih =>
    obtain ⟨u, hu, hP⟩ := step x rest s h0
    obtain ⟨t, ht, hPt⟩ := ih hP
    exact ⟨t, by simp only [List.foldlM_cons, hu, bind, Except.bind, ht], hPt⟩

/-- Where each step goes as another does elsewhere, so does the fold. -/
theorem foldlM_map_eq {σ' α' : Type} {f : σ → α → Except ε σ} {f' : σ' → α' → Except ε σ'}
    {g : σ → σ'} {h : α → α'} (step : ∀ s x, f' (g s) (h x) = (f s x).map g) (xs : List α) (s : σ) :
    (xs.map h).foldlM f' (g s) = (xs.foldlM f s).map g := by
  induction xs generalizing s with
  | nil => rfl
  | cons x rest ih =>
    rw [List.map_cons, List.foldlM_cons, List.foldlM_cons, step]
    cases f s x with
    | error e => rfl
    | ok t => exact ih t

/-- Where each step can be made elsewhere and leaves related states, so can all. -/
theorem foldlM_related {σ' α' : Type} {f : σ → α → Except ε σ} {f' : σ' → α' → Except ε σ'}
    {R : σ → σ' → Prop} {h : α → α'}
    (step : ∀ x s s' t, R s s' → f s x = .ok t → ∃ t', f' s' (h x) = .ok t' ∧ R t t')
    {xs : List α} {s t : σ} {s' : σ'} (h0 : R s s') (ht : xs.foldlM f s = .ok t) :
    ∃ t', (xs.map h).foldlM f' s' = .ok t' ∧ R t t' := by
  induction xs generalizing s s' with
  | nil =>
    simp only [List.foldlM_nil, pure_eq_ok] at ht
    exact ⟨s', rfl, ht ▸ h0⟩
  | cons x rest ih =>
    simp only [List.foldlM_cons, bind_eq_ok] at ht
    obtain ⟨u, hu, ht⟩ := ht
    obtain ⟨u', hu', hR⟩ := step x s s' u h0 hu
    obtain ⟨t', ht', hRt⟩ := ih hR ht
    exact ⟨t', by simp only [List.map_cons, List.foldlM_cons, hu', bind, Except.bind, ht'], hRt⟩

/-- What each step of a carried state keeps, together with the results so
far. -/
theorem mapCarrying_induction {f : σ → α → Except ε (σ × β)} {P : σ → List β → Prop}
    (step : ∀ s x t y done, P s done → f s x = .ok (t, y) → P t (done ++ [y]))
    {xs : List α} {s t : σ} {ys : List β} (h0 : P s [])
    (h : mapCarrying f s xs = .ok (t, ys)) : P t ys := by
  suffices hrest : ∀ done, P s done → P t (done ++ ys) from hrest [] h0
  clear h0
  induction xs generalizing s ys with
  | nil =>
    simp only [mapCarrying, Except.ok.injEq, Prod.mk.injEq] at h
    obtain ⟨rfl, rfl⟩ := h
    exact fun done hdone => by simpa using hdone
  | cons x rest ih =>
    simp only [mapCarrying, bind_eq_ok, pure_eq_ok, Prod.mk.injEq, Prod.exists] at h
    obtain ⟨u, y, hu, v, zs, hv, rfl, rfl⟩ := h
    exact fun done hdone => by simpa using ih hv _ (step s x u y done hdone hu)

theorem length_of_mapCarrying {f : σ → α → Except ε (σ × β)} {xs : List α} {s t : σ} {ys : List β}
    (h : mapCarrying f s xs = .ok (t, ys)) : ys.length = xs.length := by
  induction xs generalizing s ys with
  | nil =>
    cases h
    rfl
  | cons x rest ih =>
    simp only [mapCarrying, bind_eq_ok, pure_eq_ok, Prod.mk.injEq, Prod.exists] at h
    obtain ⟨u, y, hu, v, zs, hv, rfl, rfl⟩ := h
    simp [ih hv]

theorem forM_eq_ok {f : α → Except ε Unit} {xs : List α} :
    xs.forM f = .ok () ↔ ∀ x ∈ xs, f x = .ok () := by
  induction xs with
  | nil => simp [pure, Except.pure]
  | cons x rest ih =>
    rw [show (x :: rest).forM f = (f x >>= fun _ => rest.forM f) from rfl, bind_eq_ok,
      List.forall_mem_cons]
    exact ⟨fun ⟨_, hx, hrest⟩ => ⟨hx, ih.mp hrest⟩, fun ⟨hx, hrest⟩ => ⟨(), hx, ih.mpr hrest⟩⟩

theorem forM_map_congr {g : α → β} {f : β → Except ε Unit} {f' : α → Except ε Unit} {xs : List α}
    (h : ∀ x ∈ xs, f (g x) = f' x) : (xs.map g).forM f = xs.forM f' := by
  induction xs with
  | nil => rfl
  | cons x rest ih =>
    have hrest := ih fun y hy => h y (List.mem_cons_of_mem x hy)
    rw [List.forM_eq_forM] at hrest ⊢
    rw [List.forM_eq_forM] at hrest ⊢
    rw [List.map_cons, List.forM_cons, List.forM_cons, h x List.mem_cons_self, hrest]

theorem mapM_map_eq {α' β' : Type} {f : α → Except ε β} {f' : α' → Except ε β'} {g : β → β'}
    {h : α → α'} (step : ∀ x, f' (h x) = (f x).map g) (xs : List α) :
    (xs.map h).mapM f' = (xs.mapM f).map (List.map g) := by
  induction xs with
  | nil => rfl
  | cons x rest ih =>
    rw [List.map_cons, List.mapM_cons, List.mapM_cons, step, ih]
    cases f x with
    | error e => rfl
    | ok y => cases rest.mapM f <;> rfl

theorem mapM_eq_ok {f : α → Except ε β} {xs : List α} {ys : List β} (h : xs.mapM f = .ok ys) :
    List.Forall₂ (fun x y => f x = .ok y) xs ys := by
  induction xs generalizing ys with
  | nil =>
    simp only [List.mapM_nil, pure_eq_ok] at h
    exact h ▸ .nil
  | cons x rest ih =>
    simp only [List.mapM_cons, bind_eq_ok, pure_eq_ok] at h
    obtain ⟨y, hy, zs, hzs, rfl⟩ := h
    exact .cons hy (ih hzs)

theorem exists_of_forall₂ {R : α → β → Prop} {xs : List α} {ys : List β} (h : List.Forall₂ R xs ys)
    {n : Nat} {x : α} (hx : xs[n]? = some x) : ∃ y, ys[n]? = some y ∧ R x y := by
  induction h generalizing n with
  | nil => simp at hx
  | @cons a b as bs hab _ ih =>
    cases n with
    | zero =>
      cases hx
      exact ⟨b, rfl, hab⟩
    | succ n => exact ih hx

theorem exists_of_mapM {f : α → Except ε β} {xs : List α} {ys : List β} (h : xs.mapM f = .ok ys)
    {x : α} (hx : x ∈ xs) : ∃ y ∈ ys, f x = .ok y := by
  have hrel := mapM_eq_ok h
  clear h
  induction hrel with
  | nil => simp at hx
  | @cons a b as bs hab hrest ih =>
    rcases List.mem_cons.mp hx with rfl | hx
    · exact ⟨b, by simp, hab⟩
    · obtain ⟨y, hy, hxy⟩ := ih hx
      exact ⟨y, by simp [hy], hxy⟩

theorem mapM_total {f : α → Except ε β} {xs : List α} (h : ∀ x ∈ xs, ∃ y, f x = .ok y) :
    ∃ ys, xs.mapM f = .ok ys := by
  induction xs with
  | nil => exact ⟨[], rfl⟩
  | cons x rest ih =>
    obtain ⟨y, hy⟩ := h x (by simp)
    obtain ⟨ys, hys⟩ := ih fun z hz => h z (by simp [hz])
    exact ⟨y :: ys, by simp only [List.mapM_cons, hy, hys]; rfl⟩

theorem mem_of_mapM {f : α → Except ε β} {xs : List α} {ys : List β} (h : xs.mapM f = .ok ys)
    {y : β} (hy : y ∈ ys) : ∃ x ∈ xs, f x = .ok y := by
  have hrel := mapM_eq_ok h
  clear h
  induction hrel with
  | nil => simp at hy
  | @cons a b as bs hab _ ih =>
    rcases List.mem_cons.mp hy with rfl | hy
    · exact ⟨a, by simp, hab⟩
    · obtain ⟨x, hx, hxy⟩ := ih hy
      exact ⟨x, by simp [hx], hxy⟩

theorem pairwise_zipIdx (xs : List α) : xs.zipIdx.Pairwise fun x y => x.2 < y.2 := by
  refine List.pairwise_map.mp ?_
  rw [List.zipIdx_map_snd]
  exact List.pairwise_lt_range'

theorem rel_of_pairwise {R : α → α → Prop} {xs : List α} {a b : α} {i j : Nat}
    (h : xs.Pairwise R) (hi : xs[i]? = some a) (hj : xs[j]? = some b) (hij : i < j) : R a b := by
  obtain ⟨hilt, rfl⟩ := List.getElem?_eq_some_iff.mp hi
  obtain ⟨hjlt, rfl⟩ := List.getElem?_eq_some_iff.mp hj
  exact List.pairwise_iff_getElem.mp h i j hilt hjlt hij

/-- Of two members of a list in order, the one that does not come later stands first. -/
theorem lt_of_pairwise {R : α → α → Prop} {xs : List α} {a b : α} {i j : Nat}
    (h : xs.Pairwise R) (hnot : ¬R b a) (hne : a ≠ b) (hi : xs[i]? = some a)
    (hj : xs[j]? = some b) : i < j := by
  rcases Nat.lt_trichotomy i j with hlt | rfl | hlt
  · exact hlt
  · exact absurd (Option.some.inj (hi.symm.trans hj)) hne
  · exact absurd (rel_of_pairwise h hj hi hlt) hnot

/-- Relations between the elements of lists that come from related elements. -/
theorem pairwise_flatten_of_mapM {f : α → Except ε (List β)} {xs : List α} {yss : List (List β)}
    {S : α → α → Prop} {R : β → β → Prop} (h : xs.mapM f = .ok yss) (hS : xs.Pairwise S)
    (hin : ∀ x ∈ xs, ∀ ys, f x = .ok ys → ys.Pairwise R)
    (hcross : ∀ x ∈ xs, ∀ x' ∈ xs, S x x' → ∀ ys ys', f x = .ok ys → f x' = .ok ys' →
      ∀ y ∈ ys, ∀ y' ∈ ys', R y y') : yss.flatten.Pairwise R := by
  induction xs generalizing yss with
  | nil =>
    simp only [List.mapM_nil, pure_eq_ok] at h
    subst h
    simp
  | cons x rest ih =>
    simp only [List.mapM_cons, bind_eq_ok, pure_eq_ok] at h
    obtain ⟨ys, hys, zss, hzss, rfl⟩ := h
    obtain ⟨hx, hrest⟩ := List.pairwise_cons.mp hS
    rw [List.flatten_cons, List.pairwise_append]
    refine ⟨hin x (by simp) ys hys, ih hzss hrest (fun z hz => hin z (by simp [hz]))
      (fun z hz z' hz' => hcross z (by simp [hz]) z' (by simp [hz'])), fun y hy z hz => ?_⟩
    obtain ⟨zs, hzs, hz⟩ := List.mem_flatten.mp hz
    obtain ⟨x', hx', hfx'⟩ := mem_of_mapM hzss hzs
    exact hcross x (by simp) x' (by simp [hx']) (hx x' hx') ys zs hys hfx' y hy z hz

end Divisi
