import Mathlib.Data.List.Induction
import LighterIngestor.Base.Channel
import LighterIngestor.Base.Loops

/-!
Rows collected into batches of a fixed size, which are written when they are full, and the
rest at the end.
-/

namespace Batching

variable {κ : Type*}

/-- The batches that are done, and the rows of the next one. -/
structure Split (κ : Type*) where
  done : List (List κ)
  pending : List κ

def Split.add (size : ℕ) (s : Split κ) (x : κ) : Split κ :=
  if (s.pending ++ [x]).length = size then ⟨s.done ++ [s.pending ++ [x]], []⟩
  else ⟨s.done, s.pending ++ [x]⟩

def Split.close (s : Split κ) : List (List κ) := if s.pending.isEmpty then s.done else s.done ++ [s.pending]

def split (size : ℕ) (xs : List κ) : Split κ := xs.foldl (Split.add size) ⟨[], []⟩

def batches (size : ℕ) (xs : List κ) : List (List κ) := (split size xs).close

/-- What `split` keeps: nothing is lost, a batch is full when it is done, and the next is not. -/
structure Split.Of (size : ℕ) (xs : List κ) (s : Split κ) : Prop where
  all : s.done.flatten ++ s.pending = xs
  full : ∀ batch ∈ s.done, batch.length = size
  partly : s.pending.length < size

theorem Split.Of.add {size : ℕ} {xs : List κ} {s : Split κ} (h : s.Of size xs) (x : κ) :
    (s.add size x).Of size (xs ++ [x]) := by
  have hlt := h.partly
  unfold Split.add
  split_ifs with hfull
  · refine ⟨?_, ?_, by simp at hfull ⊢; omega⟩
    · rw [← h.all]
      simp
    · intro batch hbatch
      rcases List.mem_append.mp hbatch with hbatch | hbatch
      · exact h.full batch hbatch
      · rw [List.mem_singleton.mp hbatch, hfull]
  · refine ⟨?_, h.full, ?_⟩
    · rw [← h.all]
      simp
    · rw [List.length_append, List.length_singleton] at hfull ⊢
      omega

theorem split_append (size : ℕ) (xs : List κ) (x : κ) : split size (xs ++ [x]) = (split size xs).add size x := by
  rw [split, List.foldl_append]
  rfl

theorem split_of {size : ℕ} (hsize : 0 < size) (xs : List κ) : (split size xs).Of size xs := by
  induction xs using List.reverseRecOn with
  | nil => exact ⟨rfl, by simp [split], hsize⟩
  | append_singleton xs x ih =>
    rw [split_append]
    exact ih.add x

theorem flatten_batches {size : ℕ} (hsize : 0 < size) (xs : List κ) : (batches size xs).flatten = xs := by
  have hall := (split_of hsize xs).all
  unfold batches Split.close
  split_ifs with hempty
  · rwa [List.isEmpty_iff.mp hempty, List.append_nil] at hall
  · simpa using hall

theorem length_batches {size : ℕ} (hsize : 0 < size) (xs : List κ) :
    ∀ batch ∈ batches size xs, 1 ≤ batch.length ∧ batch.length ≤ size := by
  obtain ⟨-, hfull, hpartly⟩ := split_of hsize xs
  intro batch hbatch
  unfold batches Split.close at hbatch
  split_ifs at hbatch with hempty
  · rw [hfull batch hbatch]
    omega
  · rcases List.mem_append.mp hbatch with hbatch | hbatch
    · rw [hfull batch hbatch]
      omega
    · rw [List.mem_singleton.mp hbatch]
      rw [List.isEmpty_iff] at hempty
      have := List.length_pos_iff.mpr hempty
      omega

theorem full_batches {size : ℕ} (hsize : 0 < size) (xs : List κ) :
    ∀ batch ∈ (batches size xs).dropLast, batch.length = size := by
  obtain ⟨-, hfull, -⟩ := split_of hsize xs
  intro batch hbatch
  unfold batches Split.close at hbatch
  split_ifs at hbatch with hempty
  · exact hfull batch ((List.dropLast_sublist _).mem hbatch)
  · rw [List.dropLast_concat] at hbatch
    exact hfull batch hbatch

/-- A batch object and the file its batches go to. -/
structure Writer (ρ β γ ε : Type*) where
  push : β → ρ → Except ε β
  len : β → ℕ
  isEmpty : β → Bool
  write : β → Channel γ → Except ε (β × Channel γ)

namespace Writer

variable {ρ β γ ε : Type*} (w : Writer ρ β γ ε)

def step (size : ℕ) (s : β × Channel γ) (row : ρ) : Except ε (β × Channel γ) :=
  match w.push s.1 row with
  | .error e => .error e
  | .ok batch => if w.len batch = size then w.write batch s.2 else .ok (batch, s.2)

def read (size : ℕ) (s : β × Channel γ) (rows : List ρ) : Except ε (β × Channel γ) :=
  rows.foldlM (w.step size) s

def run (size : ℕ) (s : β × Channel γ) (rows : List ρ) : Except ε (β × Channel γ) :=
  match w.read size s rows with
  | .error e => .error e
  | .ok (batch, file) => if w.isEmpty batch then .ok (batch, file) else w.write batch file

/-- The batch object stands for a list of cells, one for each row pushed since the last write. -/
structure Keeps (of : List κ → β) (cell : ρ → Except ε κ) (record : List κ → γ) (failed : ε) : Prop where
  push : ∀ cells row,
    w.push (of cells) row =
      match cell row with
      | .error e => .error e
      | .ok c => .ok (of (cells ++ [c]))
  len : ∀ cells, w.len (of cells) = cells.length
  isEmpty : ∀ cells, w.isEmpty (of cells) = cells.isEmpty
  write : ∀ cells file,
    w.write (of cells) file =
      match file.send (record cells) with
      | none => .error failed
      | some file => .ok (of [], file)

variable {w} {of : List κ → β} {cell : ρ → Except ε κ} {record : List κ → γ} {failed : ε}

/-- The object holds the pending cells, and the file has got the batches that are done. -/
structure Shows (of : List κ → β) (record : List κ → γ) (file : Channel γ) (s : Split κ)
    (state : β × Channel γ) : Prop where
  batch : state.1 = of s.pending
  sent : state.2.sent = file.sent ++ s.done.map record
  lifetime : state.2.lifetime = file.lifetime

theorem Keeps.write_ok (h : w.Keeps of cell record failed) {cells : List κ} {file : Channel γ}
    {state : β × Channel γ} (hwrite : w.write (of cells) file = .ok state) :
    state.1 = of [] ∧ state.2.sent = file.sent ++ [record cells] ∧ state.2.lifetime = file.lifetime := by
  rw [h.write] at hwrite
  cases hsend : file.send (record cells) with
  | none =>
    rw [hsend] at hwrite
    cases hwrite
  | some next =>
    rw [hsend] at hwrite
    cases hwrite
    exact ⟨rfl, Channel.send_some hsend, (Channel.send_grew hsend).lifetime⟩

theorem Keeps.write_error (h : w.Keeps of cell record failed) {cells : List κ} {file : Channel γ} {e : ε}
    (hwrite : w.write (of cells) file = .error e) : e = failed ∧ file.lifetime ≠ none := by
  rw [h.write] at hwrite
  cases hsend : file.send (record cells) with
  | some next =>
    rw [hsend] at hwrite
    cases hwrite
  | none =>
    rw [hsend] at hwrite
    cases hwrite
    refine ⟨rfl, fun hnone => ?_⟩
    simp [Channel.send, hnone] at hsend

theorem Keeps.step_eq (h : w.Keeps of cell record failed) {size : ℕ} {file : Channel γ} {s : Split κ}
    {state : β × Channel γ} (hshows : Shows of record file s state) (row : ρ) :
    w.step size state row =
      match cell row with
      | .error e => .error e
      | .ok c =>
        if (s.pending ++ [c]).length = size then w.write (of (s.pending ++ [c])) state.2
        else .ok (of (s.pending ++ [c]), state.2) := by
  rw [step, hshows.batch, h.push]
  cases cell row with
  | error e => rfl
  | ok c => simp only [h.len]

theorem Keeps.step_ok (h : w.Keeps of cell record failed) {size : ℕ} {file : Channel γ} {s : Split κ}
    {row : ρ} {state next : β × Channel γ} (hshows : Shows of record file s state)
    (hstep : w.step size state row = .ok next) :
    ∃ c, cell row = .ok c ∧ Shows of record file (s.add size c) next := by
  rw [h.step_eq hshows] at hstep
  obtain ⟨-, hsent, hlifetime⟩ := hshows
  cases hcell : cell row with
  | error e =>
    rw [hcell] at hstep
    cases hstep
  | ok c =>
    simp only [hcell] at hstep
    refine ⟨c, rfl, ?_⟩
    unfold Split.add
    split_ifs at hstep ⊢ with hfull
    · obtain ⟨hbatch, hnext, hstill⟩ := h.write_ok hstep
      refine ⟨hbatch, ?_, hstill.trans hlifetime⟩
      rw [hnext, hsent, List.map_append, List.append_assoc]
      rfl
    · cases hstep
      exact ⟨rfl, hsent, hlifetime⟩

theorem Keeps.step_error (h : w.Keeps of cell record failed) {size : ℕ} {file : Channel γ} {s : Split κ}
    {row : ρ} {state : β × Channel γ} {e : ε} (hshows : Shows of record file s state)
    (hstep : w.step size state row = .error e) :
    cell row = .error e ∨ (e = failed ∧ file.lifetime ≠ none) := by
  rw [h.step_eq hshows] at hstep
  cases hcell : cell row with
  | error e' =>
    rw [hcell] at hstep
    cases hstep
    exact Or.inl rfl
  | ok c =>
    simp only [hcell] at hstep
    split_ifs at hstep with hfull
    · obtain ⟨rfl, hgone⟩ := h.write_error hstep
      exact Or.inr ⟨rfl, hshows.lifetime ▸ hgone⟩

theorem Keeps.read_ok (h : w.Keeps of cell record failed) {size : ℕ} {file : Channel γ} {rows : List ρ}
    {s : Split κ} {state next : β × Channel γ} (hshows : Shows of record file s state)
    (hread : w.read size state rows = .ok next) :
    ∃ cells, List.Forall₂ (fun row c => cell row = .ok c) rows cells ∧
      Shows of record file (cells.foldl (Split.add size) s) next := by
  induction rows generalizing s state with
  | nil =>
    cases hread
    exact ⟨[], .nil, hshows⟩
  | cons row rest ih =>
    obtain ⟨mid, hmid, hrest⟩ := Loops.foldlM_cons_ok.mp hread
    obtain ⟨c, hcell, hmid'⟩ := h.step_ok hshows hmid
    obtain ⟨cells, hcells, hlast⟩ := ih hmid' hrest
    exact ⟨c :: cells, .cons hcell hcells, hlast⟩

theorem Keeps.read_error (h : w.Keeps of cell record failed) {size : ℕ} {file : Channel γ} {rows : List ρ}
    {s : Split κ} {state : β × Channel γ} {e : ε} (hshows : Shows of record file s state)
    (hread : w.read size state rows = .error e) :
    (∃ row ∈ rows, cell row = .error e) ∨ (e = failed ∧ file.lifetime ≠ none) := by
  induction rows generalizing s state with
  | nil => cases hread
  | cons row rest ih =>
    rw [read, List.foldlM_cons] at hread
    cases hstep : w.step size state row with
    | error e' =>
      rw [hstep] at hread
      cases hread
      exact (h.step_error hshows hstep).imp_left fun hcell => ⟨row, List.mem_cons_self, hcell⟩
    | ok mid =>
      rw [hstep] at hread
      obtain ⟨c, -, hmid⟩ := h.step_ok hshows hstep
      exact (ih hmid hread).imp_left fun ⟨row, hrow, hcell⟩ => ⟨row, List.mem_cons_of_mem _ hrow, hcell⟩

theorem Keeps.shows_start (of : List κ → β) (record : List κ → γ) (file : Channel γ) :
    Shows of record file ⟨[], []⟩ (of [], file) := ⟨rfl, by simp, rfl⟩

/-- Once all rows are read, a run writes what is pending, if anything is. -/
theorem Keeps.run_eq (h : w.Keeps of cell record failed) {size : ℕ} {file : Channel γ} {rows : List ρ}
    {s : Split κ} {state : β × Channel γ} (hshows : Shows of record file s state)
    (hread : w.read size (of [], file) rows = .ok state) :
    w.run size (of [], file) rows =
      if s.pending.isEmpty then .ok (of s.pending, state.2) else w.write (of s.pending) state.2 := by
  obtain ⟨batch, written⟩ := state
  obtain rfl : batch = of s.pending := hshows.batch
  simp only [run, hread, h.isEmpty]

/-- A run that succeeds has written the cells of all rows, batch by batch, and leaves no row. -/
theorem Keeps.run_ok (h : w.Keeps of cell record failed) {size : ℕ} {file : Channel γ} {rows : List ρ}
    {next : β × Channel γ} (hrun : w.run size (of [], file) rows = .ok next) :
    ∃ cells, List.Forall₂ (fun row c => cell row = .ok c) rows cells ∧ next.1 = of [] ∧
      next.2.sent = file.sent ++ (batches size cells).map record := by
  cases hread : w.read size (of [], file) rows with
  | error e =>
    rw [run, hread] at hrun
    cases hrun
  | ok state =>
    obtain ⟨cells, hcells, hshows⟩ := h.read_ok (Keeps.shows_start of record file) hread
    rw [h.run_eq hshows hread] at hrun
    refine ⟨cells, hcells, ?_⟩
    unfold batches split Split.close
    split_ifs at hrun ⊢ with hempty
    · cases hrun
      exact ⟨by rw [List.isEmpty_iff.mp hempty], hshows.sent⟩
    · obtain ⟨hnew, hnext, -⟩ := h.write_ok hrun
      refine ⟨hnew, ?_⟩
      rw [hnext, hshows.sent, List.map_append, List.append_assoc]
      rfl

/-- A run fails on a row that has no cell, or on a file that is gone, and on nothing else. -/
theorem Keeps.run_error (h : w.Keeps of cell record failed) {size : ℕ} {file : Channel γ} {rows : List ρ}
    {e : ε} (hrun : w.run size (of [], file) rows = .error e) :
    (∃ row ∈ rows, cell row = .error e) ∨ (e = failed ∧ file.lifetime ≠ none) := by
  cases hread : w.read size (of [], file) rows with
  | error e' =>
    rw [run, hread] at hrun
    cases hrun
    exact h.read_error (Keeps.shows_start of record file) hread
  | ok state =>
    obtain ⟨cells, hcells, hshows⟩ := h.read_ok (Keeps.shows_start of record file) hread
    rw [h.run_eq hshows hread] at hrun
    split_ifs at hrun with hempty
    · obtain ⟨rfl, hgone⟩ := h.write_error hrun
      exact Or.inr ⟨rfl, hshows.lifetime ▸ hgone⟩

end Writer

end Batching
