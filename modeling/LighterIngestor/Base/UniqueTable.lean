import Mathlib.Data.List.Nodup
import Mathlib.Data.List.Basic

/-!
Tables with a unique index, filled by `INSERT ... ON CONFLICT DO NOTHING`: a
row whose key is taken is skipped, also when an earlier row of the same
statement has taken it.
-/

structure UniqueTable {R K : Type*} (key : R → K) where
  rows : List R
  unique : (rows.map key).Nodup

namespace UniqueTable

variable {R K : Type*} {key : R → K}

def empty : UniqueTable key := ⟨[], List.nodup_nil⟩

theorem row_unique (t : UniqueTable key) {r s : R} (hr : r ∈ t.rows) (hs : s ∈ t.rows)
    (h : key r = key s) : r = s := List.inj_on_of_nodup_map t.unique hr hs h

variable [DecidableEq K]

def insertRow (t : UniqueTable key) (r : R) : UniqueTable key :=
  if h : key r ∈ t.rows.map key then t
  else ⟨t.rows ++ [r], by
    rw [List.map_append]
    exact t.unique.append (List.nodup_singleton _) (by simpa using h)⟩

def insert (t : UniqueTable key) (rows : List R) : UniqueTable key := rows.foldl insertRow t

theorem insert_append (t : UniqueTable key) (a b : List R) :
    t.insert (a ++ b) = (t.insert a).insert b := List.foldl_append

theorem mem_insertRow {t : UniqueTable key} {r s : R} :
    s ∈ (t.insertRow r).rows ↔ s ∈ t.rows ∨ (s = r ∧ key r ∉ t.rows.map key) := by
  unfold insertRow
  split_ifs with h
  · simp [h]
  · simp [h]

theorem key_insertRow (t : UniqueTable key) (r : R) (k : K) :
    k ∈ (t.insertRow r).rows.map key ↔ k ∈ t.rows.map key ∨ k = key r := by
  unfold insertRow
  split_ifs with h
  · refine ⟨Or.inl, fun hk => hk.elim id ?_⟩
    rintro rfl
    exact h
  · simp [eq_comm]

theorem key_insert (t : UniqueTable key) (rows : List R) (k : K) :
    k ∈ (t.insert rows).rows.map key ↔ k ∈ t.rows.map key ∨ k ∈ rows.map key := by
  induction rows generalizing t with
  | nil => simp [insert]
  | cons r rest ih =>
    have hstep : t.insert (r :: rest) = (t.insertRow r).insert rest := rfl
    rw [hstep, ih, key_insertRow, List.map_cons, List.mem_cons, or_assoc]

theorem mem_insert {t : UniqueTable key} {rows : List R} {s : R} (h : s ∈ (t.insert rows).rows) :
    s ∈ t.rows ∨ s ∈ rows := by
  induction rows generalizing t with
  | nil => exact Or.inl h
  | cons r rest ih =>
    rcases ih (t := t.insertRow r) h with hs | hs
    · rcases mem_insertRow.mp hs with hs | ⟨rfl, -⟩
      · exact Or.inl hs
      · exact Or.inr (by simp)
    · exact Or.inr (List.mem_cons_of_mem _ hs)

/-- Where rows of one key are one row, none is ever lost to another. -/
theorem mem_insert_of_agree {t : UniqueTable key} {rows : List R} {s : R} (hs : s ∈ rows)
    (hagree : ∀ r ∈ (t.insert rows).rows, key r = key s → r = s) : s ∈ (t.insert rows).rows := by
  have hkey : key s ∈ (t.insert rows).rows.map key :=
    (key_insert t rows _).mpr (Or.inr (List.mem_map_of_mem hs))
  obtain ⟨r, hr, heq⟩ := List.mem_map.mp hkey
  exact hagree r hr heq ▸ hr

theorem insert_fresh {t : UniqueTable key} {rows : List R} (hnodup : (rows.map key).Nodup)
    (hnew : ∀ r ∈ rows, key r ∉ t.rows.map key) : (t.insert rows).rows = t.rows ++ rows := by
  induction rows generalizing t with
  | nil => simp [insert]
  | cons r rest ih =>
    obtain ⟨hr, hrest⟩ := List.forall_mem_cons.mp hnew
    obtain ⟨hnot, hnodup⟩ := List.nodup_cons.mp hnodup
    have hstep : (t.insertRow r).rows = t.rows ++ [r] := by rw [insertRow, dif_neg hr]
    have hnext : ∀ s ∈ rest, key s ∉ (t.insertRow r).rows.map key := by
      intro s hs hmem
      rcases (key_insertRow t r _).mp hmem with hmem | heq
      · exact hrest s hs hmem
      · exact hnot (heq ▸ List.mem_map_of_mem hs)
    have hinsert : (t.insert (r :: rest)).rows = (t.insertRow r).rows ++ rest := ih hnodup hnext
    rw [hinsert, hstep, List.append_assoc, List.singleton_append]

end UniqueTable
