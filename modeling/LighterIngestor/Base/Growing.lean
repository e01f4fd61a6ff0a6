import Mathlib.Data.List.Basic
import Mathlib.Order.MinMax

/-!
Series in strictly increasing order, which is how a log of events reads that
only grows at its end.
-/

namespace Growing

variable {α : Type*} [LinearOrder α] {l : List α}

theorem max?_eq_getLast? (h : l.Pairwise (· < ·)) : l.max? = l.getLast? := by
  rcases List.eq_nil_or_concat l with rfl | ⟨init, last, rfl⟩
  · rfl
  · rw [List.concat_eq_append, List.getLast?_concat, List.max?_eq_some_iff]
    rw [List.concat_eq_append, List.pairwise_append] at h
    refine ⟨by simp, ?_⟩
    intro x hx
    rcases List.mem_append.mp hx with hx | hx
    · exact le_of_lt (h.2.2 x hx last (by simp))
    · exact le_of_eq (List.mem_singleton.mp hx)

/-- What lies below a bound is an initial segment. -/
theorem filter_prefix {p : α → Bool} (h : l.Pairwise (· < ·))
    (hp : ∀ x y, x < y → p y = true → p x = true) : l.filter p <+: l := by
  induction l with
  | nil => simp
  | cons x rest ih =>
    obtain ⟨hx, hrest⟩ := List.pairwise_cons.mp h
    by_cases hpx : p x = true
    · rw [List.filter_cons_of_pos hpx]
      exact (List.prefix_cons_inj x).mpr (ih hrest)
    · have hnone : (x :: rest).filter p = [] := by
        rw [List.filter_eq_nil_iff]
        intro y hy hpy
        rcases List.mem_cons.mp hy with rfl | hy
        · exact hpx hpy
        · exact hpx (hp x y (hx y hy) hpy)
      rw [hnone]
      exact List.nil_prefix

theorem filter_append_from {before after : List α} {start : α} (hbefore : ∀ x ∈ before, x < start)
    (hafter : ∀ x ∈ after, start ≤ x) : (before ++ after).filter (fun x => start ≤ x) = after := by
  have hnone : before.filter (fun x => start ≤ x) = [] := by
    rw [List.filter_eq_nil_iff]
    intro x hx
    simpa using hbefore x hx
  rw [List.filter_append, hnone, List.nil_append, List.filter_eq_self]
  intro x hx
  simpa using hafter x hx

/-- Integers that grow from a bound on end as far above it as there are more of them than one. -/
theorem le_getLast {l : List ℤ} (h : l.Pairwise (· < ·)) {first last : ℤ} (hfirst : ∀ x ∈ l, first ≤ x)
    (hlast : last ∈ l.getLast?) : first + (l.length - 1) ≤ last := by
  induction l generalizing first with
  | nil => cases hlast
  | cons x rest ih =>
    obtain ⟨hx, hrest⟩ := List.pairwise_cons.mp h
    have hle : first ≤ x := hfirst x List.mem_cons_self
    rw [List.length_cons]
    by_cases hnil : rest = []
    · have heq : last = x := by simpa [hnil, eq_comm] using hlast
      rw [hnil, heq, List.length_nil]
      omega
    · have hnext : ∀ y ∈ rest, first + 1 ≤ y := by
        intro y hy
        have hlt := hx y hy
        omega
      rw [List.getLast?_cons_of_ne_nil hnil] at hlast
      have hspan := ih hrest hnext hlast
      omega

/-- A part of a series is an initial segment of it where its keys are. -/
theorem prefix_of_map_prefix {β : Type*} {f : β → α} {xs ys : List β} (hys : (ys.map f).Pairwise (· < ·))
    (hsub : xs ⊆ ys) (h : xs.map f <+: ys.map f) : xs <+: ys := by
  induction xs generalizing ys with
  | nil => exact List.nil_prefix
  | cons x xs ih =>
    cases ys with
    | nil => cases List.prefix_nil.mp h
    | cons y ys =>
      rw [List.map_cons, List.map_cons, List.cons_prefix_cons] at h
      obtain ⟨hhead, htail⟩ := h
      rw [List.map_cons, List.pairwise_cons] at hys
      have hrest : ∀ z ∈ y :: ys, f y < f z → z ∈ ys := by
        intro z hz hlt
        rcases List.mem_cons.mp hz with rfl | hz
        · exact absurd hlt (lt_irrefl _)
        · exact hz
      have hx : x = y := by
        rcases List.mem_cons.mp (hsub List.mem_cons_self) with hx | hx
        · exact hx
        · exact absurd (hys.1 _ (List.mem_map_of_mem hx)) (hhead ▸ lt_irrefl _)
      rw [hx, List.prefix_cons_inj]
      refine ih hys.2 (fun z hz => ?_) htail
      exact hrest z (hsub (List.mem_cons_of_mem _ hz)) (hys.1 _ (htail.subset (List.mem_map_of_mem hz)))

end Growing
