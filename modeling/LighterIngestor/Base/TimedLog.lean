import Mathlib.Data.List.Nodup
import Mathlib.Data.List.Sort
import Mathlib.Order.Defs.LinearOrder

/-!
Logs whose entries have ids in the order of writing, read back in the order of
a time and then of the id, and logs that lose entries as these grow old.
-/

namespace TimedLog

variable {α τ : Type*} [LinearOrder τ] (time : α → τ)

/-- `ORDER BY time, id`. -/
def readOrder (a b : ℕ × α) : Bool :=
  time a.2 < time b.2 ∨ (time a.2 = time b.2 ∧ a.1 ≤ b.1)

theorem readOrder_trans (a b c : ℕ × α) (hab : readOrder time a b) (hbc : readOrder time b c) :
    readOrder time a c := by
  simp only [readOrder, decide_eq_true_eq] at *
  rcases hab with hab | ⟨hab, hid⟩ <;> rcases hbc with hbc | ⟨hbc, hid'⟩
  · exact Or.inl (hab.trans hbc)
  · exact Or.inl (hbc ▸ hab)
  · exact Or.inl (hab ▸ hbc)
  · exact Or.inr ⟨hab.trans hbc, hid.trans hid'⟩

theorem readOrder_total (a b : ℕ × α) : (readOrder time a b || readOrder time b a) = true := by
  simp only [readOrder, Bool.or_eq_true, decide_eq_true_eq]
  rcases lt_trichotomy (time a.2) (time b.2) with h | h | h
  · exact Or.inl (Or.inl h)
  · rcases le_total a.1 b.1 with hid | hid
    · exact Or.inl (Or.inr ⟨h, hid⟩)
    · exact Or.inr (Or.inr ⟨h.symm, hid⟩)
  · exact Or.inr (Or.inl h)

/-- Reading gives the order of writing back exactly when times were written in order. -/
theorem mergeSort_eq_self_iff {log : List (ℕ × α)} (hids : (log.map Prod.fst).Pairwise (· < ·)) :
    log.mergeSort (readOrder time) = log ↔
      (log.map Prod.snd).Pairwise (fun a b => time a ≤ time b) := by
  rw [List.pairwise_map] at hids ⊢
  constructor
  · intro h
    have hsorted := List.pairwise_mergeSort (readOrder_trans time) (readOrder_total time) log
    rw [h] at hsorted
    refine hsorted.imp fun hab => ?_
    simp only [readOrder, decide_eq_true_eq] at hab
    exact hab.elim le_of_lt (fun h => le_of_eq h.1)
  · intro h
    refine List.mergeSort_of_pairwise ((h.and hids).imp fun hab => ?_)
    simp only [readOrder, decide_eq_true_eq]
    exact hab.1.lt_or_eq.imp_right fun heq => ⟨heq, le_of_lt hab.2⟩

/-- In a log in time order a window that has no end is a last part of the log. -/
theorem filter_suffix {log : List α} (hordered : log.Pairwise fun a b => time a ≤ time b) {p : α → Bool}
    (hp : ∀ a b, time a ≤ time b → p a = true → p b = true) : log.filter p <:+ log := by
  induction log with
  | nil => exact List.suffix_refl _
  | cons a rest ih =>
    obtain ⟨hfirst, hrest⟩ := List.pairwise_cons.mp hordered
    by_cases ha : p a = true
    · have hall : (a :: rest).filter p = a :: rest := by
        rw [List.filter_eq_self]
        exact List.forall_mem_cons.mpr ⟨ha, fun b hb => hp a b (hfirst b hb) ha⟩
      exact ⟨[], hall⟩
    · rw [List.filter_cons_of_neg ha]
      exact (ih hrest).trans (List.suffix_cons a rest)

theorem readOrder_antisymm {a b : ℕ × α} (hab : readOrder time a b) (hba : readOrder time b a) :
    (time a.2, a.1) = (time b.2, b.1) := by
  simp only [readOrder, decide_eq_true_eq] at hab hba
  rcases hab with hab | ⟨htime, hid⟩
  · rcases hba with hba | ⟨htime, -⟩
    · exact absurd (hab.trans hba) (lt_irrefl _)
    · exact absurd hab (htime ▸ lt_irrefl _)
  · rcases hba with hba | ⟨-, hid'⟩
    · exact absurd hba (htime ▸ lt_irrefl _)
    · rw [htime, le_antisymm hid hid']

/-- A reader that keeps some of the entries sees them as a reader of only these does. -/
theorem filter_mergeSort {log : List (ℕ × α)} (hkeys : (log.map fun e => (time e.2, e.1)).Nodup)
    (p : ℕ × α → Bool) :
    (log.mergeSort (readOrder time)).filter p = (log.filter p).mergeSort (readOrder time) := by
  have hsorted := List.pairwise_mergeSort (readOrder_trans time) (readOrder_total time)
  refine List.Perm.eq_of_pairwise ?_ ((hsorted log).filter p) (hsorted (log.filter p)) ?_
  · intro a b ha hb hab hba
    have hmem : ∀ e ∈ (log.mergeSort (readOrder time)).filter p, e ∈ log := fun e he =>
      List.mem_mergeSort.mp (List.mem_of_mem_filter he)
    exact List.inj_on_of_nodup_map hkeys (hmem a ha)
      (List.mem_of_mem_filter (List.mem_mergeSort.mp hb)) (readOrder_antisymm time hab hba)
  · exact ((List.mergeSort_perm log _).filter p).trans (List.mergeSort_perm _ _).symm

/-- What is left of a log that has lost some of the entries that may go. -/
inductive Remains (gone : α → Prop) : List α → List α → Prop
  | nil : Remains gone [] []
  | kept (a : α) {all held : List α} (h : Remains gone all held) : Remains gone (a :: all) (a :: held)
  | lost {a : α} {all held : List α} (ha : gone a) (h : Remains gone all held) : Remains gone (a :: all) held

namespace Remains

variable {gone : α → Prop} {all held : List α}

theorem append (h : Remains gone all held) (new : List α) : Remains gone (all ++ new) (held ++ new) := by
  induction h with
  | nil =>
    induction new with
    | nil => exact .nil
    | cons a new ih => exact ih.kept a
  | kept a h ih => exact ih.kept a
  | lost ha h ih => exact ih.lost ha

theorem filter (h : Remains gone all held) {p : α → Bool} (hp : ∀ a, p a = false → gone a) :
    Remains gone all (held.filter p) := by
  induction h with
  | nil => exact .nil
  | kept a h ih =>
    by_cases ha : p a = true
    · rw [List.filter_cons_of_pos ha]
      exact ih.kept a
    · rw [List.filter_cons_of_neg ha]
      exact ih.lost (hp a (Bool.eq_false_iff.mpr ha))
  | lost ha h ih => exact ih.lost ha

theorem sublist (h : Remains gone all held) : held.Sublist all := by
  induction h with
  | nil => exact List.Sublist.refl _
  | kept a h ih => exact ih.cons_cons a
  | lost ha h ih => exact ih.cons _

theorem eq_of_none (h : Remains gone all held) (hnone : ∀ a, ¬ gone a) : held = all := by
  induction h with
  | nil => rfl
  | kept a h ih => rw [ih]
  | lost ha h ih => exact absurd ha (hnone _)

end Remains

/-- Of a log in time order, losing old entries leaves a last part. -/
theorem trim_suffix {all held : List α} (hordered : all.Pairwise fun a b => time a ≤ time b)
    (hheld : held <:+ all) {p : α → Bool} (hp : ∀ a b, time a ≤ time b → p a = true → p b = true) :
    held.filter p <:+ all :=
  (filter_suffix time (hordered.sublist hheld.sublist) hp).trans hheld

end TimedLog
