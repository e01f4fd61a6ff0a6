import Mathlib.Data.List.Basic

/-!
Logs that are written in segments, each of which may have been cut off.
-/

namespace Segments

variable {α : Type*} {p : List α → Prop} {a b l : List α}

def Made (p : List α → Prop) (l : List α) : Prop :=
  ∃ segments : List (List α), (∀ s ∈ segments, p s) ∧ l = segments.flatten

theorem Made.nil : Made p [] := ⟨[], by simp, rfl⟩

theorem Made.single (h : p l) : Made p l := ⟨[l], by simpa using h, by simp⟩

theorem Made.append (ha : Made p a) (hb : Made p b) : Made p (a ++ b) := by
  obtain ⟨as, has, rfl⟩ := ha
  obtain ⟨bs, hbs, rfl⟩ := hb
  refine ⟨as ++ bs, fun s hs => ?_, List.flatten_append.symm⟩
  exact (List.mem_append.mp hs).elim (has s) (hbs s)

theorem Made.flatMap {β : Type*} {xs : List β} {f : β → List α} (h : ∀ x ∈ xs, Made p (f x)) :
    Made p (xs.flatMap f) := by
  induction xs with
  | nil => exact .nil
  | cons x xs ih =>
    obtain ⟨hx, hxs⟩ := List.forall_mem_cons.mp h
    exact hx.append (ih hxs)

theorem Made.rule {q : List α → Prop} (h : Made p l) (hnil : q [])
    (happend : ∀ s rest, p s → q rest → q (s ++ rest)) : q l := by
  obtain ⟨segments, hsegments, rfl⟩ := h
  induction segments with
  | nil => exact hnil
  | cons s rest ih =>
    obtain ⟨hs, hrest⟩ := List.forall_mem_cons.mp hsegments
    exact happend s rest.flatten hs (ih hrest)

/-- Where the start of a segment is a segment, the start of a log is a log. -/
theorem Made.of_prefix (hp : ∀ s t, p s → t <+: s → p t) (h : Made p l) (ha : a <+: l) : Made p a := by
  refine h.rule (q := fun l => ∀ a, a <+: l → Made p a) ?_ ?_ a ha
  · intro a ha
    rw [List.prefix_nil.mp ha]
    exact .nil
  · intro s rest hs ih a ha
    obtain ⟨t, ht⟩ := ha
    rcases List.append_eq_append_iff.mp ht with ⟨cut, rfl, -⟩ | ⟨more, rfl, rfl⟩
    · exact .single (hp _ a hs (List.prefix_append a cut))
    · exact (Made.single hs).append (ih more (List.prefix_append more t))

end Segments
