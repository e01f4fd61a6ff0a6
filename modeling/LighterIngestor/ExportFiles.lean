import LighterIngestor.ExportRun

namespace LighterIngestor

namespace ExportRun

section

variable [NumberTypes] {args : ExportArgs} {r r' : ExportRun} {event : ExportEvent} {events : List ExportEvent}

theorem next_sub {files : List ExportFile} {file : ExportFile} {rest : List ExportFile}
    (h : ExportStage.next files = .opening file rest) : files = file :: rest := by
  cases files with
  | nil => cases h
  | cons first more =>
    cases h
    rfl

/-- What an export has open is selected, and was created by it where it replaces no files. -/
structure Owned (args : ExportArgs) (base : ℕ) (r : ExportRun) : Prop where
  next : base ≤ r.disk.next
  created : ∀ inode ∈ r.created, base ≤ inode
  opened : ∀ file inode, (file, inode) ∈ r.opened →
    file ∈ args.selected ∧ (args.overwrite = false → inode ∈ r.created)
  opening : ∀ file rest, r.stage = .opening file rest → file :: rest ⊆ args.selected
  querying : ∀ file inode rest, r.stage = .querying file inode rest →
    (file, inode) ∈ r.opened ∧ rest ⊆ args.selected
  writing : ∀ inode result left rest, r.stage = .writing inode result left rest →
    (∃ file, (file, inode) ∈ r.opened) ∧ rest ⊆ args.selected

theorem start_stage (args : ExportArgs) (disk : Disk ExportFile Contents) :
    (start args disk).stage = .failed .noDataset ∨ (start args disk).stage = .connecting ∨
      (args.overwrite = false ∧ (start args disk).stage = .checking args.selected) := by
  unfold start
  dsimp only
  split_ifs with hnone hoverwrite
  · exact Or.inl rfl
  · exact Or.inr (Or.inl rfl)
  · exact Or.inr (Or.inr ⟨by simpa using hoverwrite, rfl⟩)

/-- A stage in which no file is open or about to be. -/
def Idle (stage : ExportStage) : Prop :=
  (∀ file rest, stage ≠ .opening file rest) ∧ (∀ file inode rest, stage ≠ .querying file inode rest) ∧
    ∀ inode result left rest, stage ≠ .writing inode result left rest

theorem Owned.idle {base : ℕ} (h : r.Owned args base) {stage : ExportStage} (hidle : Idle stage) :
    Owned args base { r with stage } where
  next := h.next
  created := h.created
  opened := h.opened
  opening file rest hat := absurd hat (hidle.1 file rest)
  querying file inode rest hat := absurd hat (hidle.2.1 file inode rest)
  writing inode result left rest hat := absurd hat (hidle.2.2 inode result left rest)

theorem start_owned (args : ExportArgs) (disk : Disk ExportFile Contents) :
    (start args disk).Owned args disk.next := by
  have hidle : Idle (start args disk).stage := by
    rcases start_stage args disk with hat | hat | ⟨-, hat⟩ <;> rw [hat] <;> exact ⟨nofun, nofun, nofun⟩
  exact ⟨Nat.le_refl _, nofun, nofun, fun file rest hat => absurd hat (hidle.1 file rest),
    fun file inode rest hat => absurd hat (hidle.2.1 file inode rest),
    fun inode result left rest hat => absurd hat (hidle.2.2 inode result left rest)⟩

theorem Owned.to_next {base : ℕ} {disk : Disk ExportFile Contents} {closed : List (ℕ × QueryResult)}
    (h : r.Owned args base) (hnext : base ≤ disk.next) {files : List ExportFile}
    (hfiles : files ⊆ args.selected) :
    Owned args base { r with disk, closed, stage := .next files } where
  next := hnext
  created := h.created
  opened := h.opened
  opening file rest hat := next_sub hat ▸ hfiles
  querying file inode rest hat := by cases files <;> cases hat
  writing inode result left rest hat := by cases files <;> cases hat

theorem Owned.openFile {base : ℕ} (h : r.Owned args base) {file : ExportFile} {rest : List ExportFile}
    (hat : r.stage = .opening file rest) : (r.openFile args file rest).Owned args base := by
  obtain ⟨hfile, hrest⟩ := List.cons_subset.mp (h.opening file rest hat)
  have hadd : ∀ inode (created : List ℕ), r.created ⊆ created → (∀ new ∈ created, base ≤ new) →
      (args.overwrite = false → inode ∈ created) → ∀ disk : Disk ExportFile Contents, base ≤ disk.next →
        Owned args base ⟨disk, .querying file inode rest, r.opened ++ [(file, inode)], created, r.closed⟩ := by
    intro inode created hmore hcreated hinode disk hnext
    refine ⟨hnext, hcreated, ?_, nofun, ?_, nofun⟩
    · intro other otherInode hmem
      rcases List.mem_append.mp hmem with hmem | hmem
      · obtain ⟨hother, hnew⟩ := h.opened other otherInode hmem
        exact ⟨hother, fun hno => hmore (hnew hno)⟩
      · cases List.mem_singleton.mp hmem
        exact ⟨hfile, hinode⟩
    · rintro _ _ _ ⟨⟩
      exact ⟨List.mem_append_right _ (List.mem_singleton_self _), hrest⟩
  unfold ExportRun.openFile
  split
  · refine hadd _ _ (List.subset_append_left _ _) ?_ (fun _ => by simp) _ (Nat.le_succ_of_le h.next)
    intro new hnew
    rcases List.mem_append.mp hnew with hnew | hnew
    · exact h.created new hnew
    · exact List.mem_singleton.mp hnew ▸ h.next
  · split_ifs with hoverwrite
    · exact hadd _ _ (List.Subset.refl _) h.created (fun hno => by simp [hoverwrite] at hno) _ h.next
    · exact h.idle ⟨nofun, nofun, nofun⟩

theorem Owned.step {base : ℕ} (h : r.Owned args base) (hstep : r.step args event = some r') :
    r'.Owned args base := by
  cases step_does hstep with
  | checked hat => exact h.idle ⟨nofun, nofun, nofun⟩
  | free hat hnone => exact h.idle ⟨nofun, nofun, nofun⟩
  | taken hat => exact h.idle ⟨nofun, nofun, nofun⟩
  | connect hat => exact h.idle ⟨nofun, nofun, nofun⟩
  | select hat => exact h.idle ⟨nofun, nofun, nofun⟩
  | createDir hat => exact h.to_next h.next (List.Subset.refl _)
  | «open» hat => exact h.openFile hat
  | query hat hfile =>
    obtain ⟨hopen, hrest⟩ := h.querying _ _ _ hat
    refine ⟨h.next, h.created, h.opened, nofun, nofun, ?_⟩
    rintro _ _ _ _ ⟨⟩
    exact ⟨⟨_, hopen⟩, hrest⟩
  | write hat =>
    obtain ⟨hopen, hrest⟩ := h.writing _ _ _ _ hat
    refine ⟨h.next, h.created, h.opened, nofun, nofun, ?_⟩
    rintro _ _ _ _ ⟨⟩
    exact ⟨hopen, hrest⟩
  | close hat =>
    apply h.to_next _ (h.writing _ _ _ _ hat).2
    exact h.next
  | fail => exact h.idle ⟨nofun, nofun, nofun⟩

theorem Reaches.owned {others : ExportRun → Disk ExportFile Contents → Prop} {disk : Disk ExportFile Contents}
    (h : Reaches args others (start args disk) events r) : r.Owned args disk.next := by
  induction h with
  | refl => exact start_owned args disk
  | step _ hstep ih => exact ih.step hstep
  | other _ hnext _ ih => exact ⟨ih.next.trans hnext, ih.created, ih.opened, ih.opening, ih.querying, ih.writing⟩

def Spares (r r' : ExportRun) : Prop :=
  (∀ inode, (∀ file, (file, inode) ∉ r'.opened) → r'.disk.contents inode = r.disk.contents inode) ∧
    ∀ file inode, r.disk.entry file = some inode → r'.disk.entry file = some inode

theorem openFile_spares (r : ExportRun) (file : ExportFile) (rest : List ExportFile) :
    r.Spares (r.openFile args file rest) := by
  unfold ExportRun.openFile
  split
  · rename_i hnone
    refine ⟨fun inode hclosed => ?_, fun other inode hother => ?_⟩
    · apply Disk.create_contents_ne
      rintro rfl
      exact hclosed file (List.mem_append_right _ (List.mem_singleton_self _))
    · rw [← hother]
      apply Disk.create_entry_ne
      rintro rfl
      cases hnone.symm.trans hother
  · split_ifs
    · refine ⟨fun inode hclosed => ?_, fun _ _ hother => hother⟩
      apply Disk.put_ne
      rintro rfl
      exact hclosed file (List.mem_append_right _ (List.mem_singleton_self _))
    · exact ⟨fun _ _ => rfl, fun _ _ hother => hother⟩

theorem Owned.put_spares {base : ℕ} (h : r.Owned args base) {inode : ℕ} {result : QueryResult}
    {left : List FileRecord} {rest : List ExportFile} (hat : r.stage = .writing inode result left rest)
    (contents : Contents) (stage : ExportStage) (closed : List (ℕ × QueryResult)) :
    r.Spares ⟨r.disk.put inode contents, stage, r.opened, r.created, closed⟩ := by
  obtain ⟨⟨file, hopen⟩, -⟩ := h.writing inode result left rest hat
  refine ⟨fun other hclosed => ?_, fun _ _ hother => hother⟩
  apply Disk.put_ne
  rintro rfl
  exact hclosed file hopen

/-- A step writes to open files only, and takes no name from a file. -/
theorem Owned.spares {base : ℕ} (h : r.Owned args base) (hstep : r.step args event = some r') :
    r.Spares r' := by
  cases step_does hstep with
  | «open» hat => exact openFile_spares r _ _
  | write hat => exact h.put_spares hat _ _ _
  | close hat => exact h.put_spares hat _ _ _
  | _ => exact ⟨fun _ _ => rfl, fun _ _ hother => hother⟩

/-- Where an export without replacement stays while a selected file is there. -/
def StopsAt (file : ExportFile) : ExportStage → Prop
  | .checking rest => file ∈ rest
  | .failed _ => True
  | _ => False

structure Stopped (file : ExportFile) (r : ExportRun) : Prop where
  there : r.disk.entry file ≠ none
  opened : r.opened = []
  stage : StopsAt file r.stage

theorem Stopped.step {file : ExportFile} (h : r.Stopped file) (hstep : r.step args event = some r') :
    r'.Stopped file := by
  have hstops := h.stage
  cases step_does hstep with
  | checked hat =>
    rw [hat] at hstops
    cases hstops
  | free hat hnone =>
    rw [hat] at hstops
    rcases List.mem_cons.mp hstops with rfl | hrest
    · exact absurd hnone h.there
    · exact ⟨h.there, h.opened, hrest⟩
  | taken hat => exact ⟨h.there, h.opened, trivial⟩
  | fail => exact ⟨h.there, h.opened, trivial⟩
  -- all later stages are not reached
  | connect hat | select hat | createDir hat | «open» hat | query hat | write hat | close hat =>
    rw [hat] at hstops
    cases hstops

def KeepsNames (r : ExportRun) (disk : Disk ExportFile Contents) : Prop :=
  ∀ file, r.disk.entry file ≠ none → disk.entry file ≠ none

theorem start_stopped {disk : Disk ExportFile Contents} {file : ExportFile} (hno : args.overwrite = false)
    (hfile : file ∈ args.selected) (hthere : disk.entry file ≠ none) : (start args disk).Stopped file := by
  refine ⟨hthere, rfl, ?_⟩
  have hsome : args.selected ≠ [] := List.ne_nil_of_mem hfile
  simpa [start, hsome, hno, StopsAt] using hfile

theorem Reaches.stopped {others : ExportRun → Disk ExportFile Contents → Prop} {disk : Disk ExportFile Contents}
    {file : ExportFile} (hkeeps : ∀ mid disk', others mid disk' → mid.KeepsNames disk')
    (hstart : (start args disk).Stopped file) (h : Reaches args others (start args disk) events r) :
    r.Stopped file := by
  induction h with
  | refl => exact hstart
  | step _ hstep ih => exact ih.step hstep
  | other _ _ hothers ih => exact ⟨hkeeps _ _ hothers file ih.there, ih.opened, ih.stage⟩

/-- An export creates a file only where there is none yet. -/
theorem step_created (hstep : r.step args event = some r') :
    r'.created = r.created ∨ r'.created = r.created ++ [r.disk.next] := by
  cases step_does hstep with
  | «open» hat =>
    unfold ExportRun.openFile
    split
    · exact Or.inr rfl
    · split_ifs <;> exact Or.inl rfl
  | _ => exact Or.inl rfl

/-- Whatever other programs do, an export writes only to files of its data sets that it has
opened, takes no name from a file, and without replacement leaves every file alone that it has
not created. Then it also goes no further than its checks if one of its files is there. -/
theorem export_spares_files {others : ExportRun → Disk ExportFile Contents → Prop}
    {disk : Disk ExportFile Contents} (h : Reaches args others (start args disk) events r) :
    (∀ event r', r.step args event = some r' →
      r.Spares r' ∧ (∀ file inode, (file, inode) ∈ r'.opened → file ∈ args.selected) ∧
        (r'.created = r.created ∨ r'.created = r.created ++ [r.disk.next]) ∧
        (args.overwrite = false →
          (∀ inode, inode ∉ r'.created → r'.disk.contents inode = r.disk.contents inode) ∧
            ∀ inode < disk.next, r'.disk.contents inode = r.disk.contents inode)) ∧
      (args.overwrite = false → (∀ mid disk', others mid disk' → mid.KeepsNames disk') →
        ∀ file ∈ args.selected, disk.entry file ≠ none → r.opened = [] ∧ StopsAt file r.stage) := by
  constructor
  · intro event r' hstep
    have howned : r'.Owned args disk.next := h.owned.step hstep
    have hspares : r.Spares r' := h.owned.spares hstep
    refine ⟨hspares, fun file inode hopen => (howned.opened file inode hopen).1, step_created hstep, fun hno => ?_⟩
    have hcreated : ∀ inode, inode ∉ r'.created → r'.disk.contents inode = r.disk.contents inode := by
      intro inode hnew
      apply hspares.1
      exact fun file hopen => hnew ((howned.opened file inode hopen).2 hno)
    refine ⟨hcreated, fun inode hold => hcreated inode fun hnew => ?_⟩
    exact absurd (howned.created inode hnew) (Nat.not_le_of_lt hold)
  · intro hno hkeeps file hfile hthere
    have hstopped := h.stopped hkeeps (start_stopped hno hfile hthere)
    exact ⟨hstopped.opened, hstopped.stage⟩

end

end ExportRun

section

variable [NumberTypes]

def bothFiles : ExportArgs := ⟨true, true, false⟩

def sampleDisk : Disk ExportFile Contents := (Disk.blank (.foreign [])).create .orderbooks (.foreign [80, 65])

end

theorem sample_spares_files : letI := wholeNumbers;
    ∃ r, ExportRun.Reaches bothFiles ExportRun.KeepsNames (.start bothFiles sampleDisk) [.check] r ∧
      r.stage = .checking [.orderbooks] ∧ r.opened = [] ∧
      ∃ r', r.step bothFiles .check = some r' ∧ r'.stage = .failed (.alreadyExists .orderbooks) ∧
        r.Spares r' := by
  let := wholeNumbers
  have hreach : ExportRun.Reaches bothFiles ExportRun.KeepsNames (.start bothFiles sampleDisk) [.check] _ :=
    .step .refl (show ExportRun.step bothFiles (.start bothFiles sampleDisk) .check = some _ from rfl)
  obtain ⟨hspares, hstops⟩ := @ExportRun.export_spares_files wholeNumbers _ _ _ _ _ hreach
  obtain ⟨hopened, -⟩ := hstops rfl (fun _ _ h => h) .orderbooks (by decide) (by decide)
  exact ⟨_, hreach, rfl, hopened, _, rfl, rfl, (hspares .check _ rfl).1⟩

end LighterIngestor
