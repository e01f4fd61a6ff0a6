import Mathlib.Data.List.Basic

/-!
Rules for loops over a list that may stop with an error.
-/

namespace Loops

variable {ε σ τ α : Type*} {f : σ → α → Except ε σ} {g : τ → α → Except ε τ}

theorem foldlM_cons_ok {x : α} {xs : List α} {s t : σ} :
    (x :: xs).foldlM f s = .ok t ↔ ∃ m, f s x = .ok m ∧ xs.foldlM f m = .ok t := by
  rw [List.foldlM_cons]
  cases f s x with
  | error e => simp [bind, Except.bind]
  | ok m => simp [bind, Except.bind]

theorem foldlM_append_ok {xs ys : List α} {s t : σ} :
    (xs ++ ys).foldlM f s = .ok t ↔ ∃ m, xs.foldlM f s = .ok m ∧ ys.foldlM f m = .ok t := by
  rw [List.foldlM_append]
  cases xs.foldlM f s with
  | error e => simp [bind, Except.bind]
  | ok m => simp [bind, Except.bind]

theorem foldlM_total {xs : List α} (h : ∀ s, ∀ x ∈ xs, ∃ t, f s x = .ok t) (s : σ) :
    ∃ t, xs.foldlM f s = .ok t := by
  induction xs generalizing s with
  | nil => exact ⟨s, rfl⟩
  | cons x xs ih =>
    obtain ⟨m, hm⟩ := h s x (by simp)
    obtain ⟨t, ht⟩ := ih (fun s y hy => h s y (List.mem_cons_of_mem _ hy)) m
    exact ⟨t, foldlM_cons_ok.mpr ⟨m, hm, ht⟩⟩

/-- A relation that every step keeps, the second loop succeeding whenever the first does. -/
theorem foldlM_simulates {r : σ → τ → Prop} {xs : List α}
    (h : ∀ s t x s', r s t → x ∈ xs → f s x = .ok s' → ∃ t', g t x = .ok t' ∧ r s' t')
    {s s' : σ} {t : τ} (hr : r s t) (hf : xs.foldlM f s = .ok s') :
    ∃ t', xs.foldlM g t = .ok t' ∧ r s' t' := by
  induction xs generalizing s t with
  | nil =>
    cases hf
    exact ⟨t, rfl, hr⟩
  | cons x xs ih =>
    obtain ⟨m, hm, hf⟩ := foldlM_cons_ok.mp hf
    obtain ⟨n, hn, hmn⟩ := h s t x m hr (by simp) hm
    obtain ⟨t', ht', hr'⟩ :=
      ih (fun s t y s' hr hy => h s t y s' hr (List.mem_cons_of_mem _ hy)) hmn hf
    exact ⟨t', foldlM_cons_ok.mpr ⟨n, hn, ht'⟩, hr'⟩

/-- What every step keeps, a whole run keeps. -/
theorem foldlM_keeps {step : σ → α → Option σ} {p : σ → Prop}
    (h : ∀ s x t, p s → step s x = some t → p t) {xs : List α} {s t : σ} (hs : p s)
    (hrun : xs.foldlM step s = some t) : p t := by
  induction xs generalizing s with
  | nil =>
    cases hrun
    exact hs
  | cons x xs ih =>
    rw [List.foldlM_cons, Option.bind_eq_bind, Option.bind_eq_some_iff] at hrun
    obtain ⟨m, hstep, hrest⟩ := hrun
    exact ih (h s x m hs hstep) hrest

end Loops
