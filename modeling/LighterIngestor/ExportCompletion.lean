import LighterIngestor.ExportFiles

namespace LighterIngestor

namespace ExportRun

section

variable [NumberTypes] {args : ExportArgs} {r r' : ExportRun} {event : ExportEvent} {events : List ExportEvent}

/-- Other programs leave the files alone that the export has opened. -/
def Quiet (r : ExportRun) (disk : Disk ExportFile Contents) : Prop :=
  ∀ file inode, (file, inode) ∈ r.opened →
    disk.entry file = some inode ∧ disk.contents inode = r.disk.contents inode

def finished (closed : List (ℕ × QueryResult)) : List (ExportFile × ℕ) :=
  closed.map fun (inode, result) => (result.file, inode)

/-- What the export has done at its stage, with `opened` and `closed` for the files of it. -/
def AtStage (args : ExportArgs) (contents : ℕ → Contents) (opened : List (ExportFile × ℕ))
    (closed : List (ℕ × QueryResult)) : ExportStage → Prop
  | .checking _ | .connecting | .selecting | .creatingDir => opened = [] ∧ closed = []
  | .opening file rest =>
    opened = finished closed ∧ (finished closed).map Prod.fst ++ file :: rest = args.selected
  | .querying file inode rest =>
    opened = finished closed ++ [(file, inode)] ∧
      (finished closed).map Prod.fst ++ file :: rest = args.selected ∧ contents inode = .parquet [] false
  | .writing inode result left rest =>
    opened = finished closed ++ [(result.file, inode)] ∧
      (finished closed).map Prod.fst ++ result.file :: rest = args.selected ∧
        ∃ written, contents inode = .parquet written false ∧ written ++ left = result.records
  | .done => opened = finished closed ∧ (finished closed).map Prod.fst = args.selected
  | .failed _ =>
    opened = finished closed ∨
      ∃ file inode written, opened = finished closed ++ [(file, inode)] ∧ contents inode = .parquet written false

structure Whole (args : ExportArgs) (r : ExportRun) : Prop where
  named : ∀ file inode, (file, inode) ∈ r.opened → r.disk.entry file = some inode
  closed : ∀ inode result, (inode, result) ∈ r.closed → r.disk.contents inode = .parquet result.records true
  stage : AtStage args r.disk.contents r.opened r.closed r.stage

theorem mem_finished {closed : List (ℕ × QueryResult)} {file : ExportFile} {inode : ℕ} :
    (file, inode) ∈ finished closed ↔ ∃ result, (inode, result) ∈ closed ∧ result.file = file := by
  constructor
  · intro h
    obtain ⟨⟨other, result⟩, hmem, heq⟩ := List.mem_map.mp h
    cases heq
    exact ⟨result, hmem, rfl⟩
  · rintro ⟨result, hmem, rfl⟩
    exact List.mem_map_of_mem hmem

theorem start_whole (args : ExportArgs) (disk : Disk ExportFile Contents) : (start args disk).Whole args := by
  refine ⟨nofun, nofun, ?_⟩
  rcases start_stage args disk with hat | hat | ⟨-, hat⟩ <;> rw [hat]
  · exact Or.inl rfl
  · exact ⟨rfl, rfl⟩
  · exact ⟨rfl, rfl⟩

theorem fresh_file {closed : List (ℕ × QueryResult)} {file : ExportFile} {rest : List ExportFile}
    (hselected : (finished closed).map Prod.fst ++ file :: rest = args.selected) {other : ExportFile} {inode : ℕ}
    (hother : (other, inode) ∈ finished closed) : other ≠ file := by
  have hnodup : ((finished closed).map Prod.fst ++ file :: rest).Nodup := hselected ▸ args.selected_nodup
  rw [List.nodup_append] at hnodup
  exact hnodup.2.2 other (List.mem_map_of_mem hother) file List.mem_cons_self

theorem Whole.put {file : ExportFile} {rest : List ExportFile} (h : r.Whole args)
    (hopened : finished r.closed ⊆ r.opened)
    (hselected : (finished r.closed).map Prod.fst ++ file :: rest = args.selected) {inode : ℕ}
    (hentry : r.disk.entry file = some inode) (contents : Contents) :
    ∀ other result, (other, result) ∈ r.closed →
      (r.disk.put inode contents).contents other = .parquet result.records true := by
  intro other result hmem
  have hfinished : (result.file, other) ∈ finished r.closed := mem_finished.mpr ⟨result, hmem, rfl⟩
  rw [Disk.put_ne, h.closed other result hmem]
  rintro rfl
  apply fresh_file hselected hfinished
  exact r.disk.separate _ _ other (h.named _ _ (hopened hfinished)) hentry

theorem Whole.openFile (h : r.Whole args) {file : ExportFile} {rest : List ExportFile}
    (hat : r.stage = .opening file rest) : (r.openFile args file rest).Whole args := by
  obtain ⟨hopened, hselected⟩ : r.opened = finished r.closed ∧ _ := by
    have hstage := h.stage
    rw [hat] at hstage
    exact hstage
  have hadd : ∀ (disk : Disk ExportFile Contents) (inode : ℕ) (created : List ℕ), disk.entry file = some inode →
      (∀ other, other ≠ file → disk.entry other = r.disk.entry other) → disk.contents inode = .parquet [] false →
      (∀ other result, (other, result) ∈ r.closed → disk.contents other = .parquet result.records true) →
      Whole args ⟨disk, .querying file inode rest, r.opened ++ [(file, inode)], created, r.closed⟩ := by
    intro disk inode created hentry hother hcontents hclosed
    refine ⟨fun other otherInode hmem => ?_, hclosed, by rw [hopened], hselected, hcontents⟩
    rcases List.mem_append.mp hmem with hmem | hmem
    · rw [← h.named other otherInode hmem]
      apply hother
      exact fresh_file hselected (hopened ▸ hmem)
    · cases List.mem_singleton.mp hmem
      exact hentry
  unfold ExportRun.openFile
  split
  · apply hadd _ _ _ (Disk.create_entry_self ..) (fun other hne => Disk.create_entry_ne _ _ hne)
      (Disk.create_contents_self ..)
    intro other result hmem
    rw [Disk.create_contents_ne, h.closed other result hmem]
    have hnamed := h.named result.file other (hopened ▸ mem_finished.mpr ⟨result, hmem, rfl⟩)
    exact Nat.ne_of_lt (r.disk.bound _ _ hnamed)
  · rename_i inode hentry
    split_ifs
    · exact hadd _ _ _ hentry (fun _ _ => rfl) (Disk.put_self ..)
        (h.put (hopened ▸ List.Subset.refl _) hselected hentry _)
    · exact ⟨h.named, h.closed, Or.inl hopened⟩

theorem Whole.failed (h : r.Whole args) (failure : ExportFailure) :
    Whole args { r with stage := .failed failure } := by
  refine ⟨h.named, h.closed, ?_⟩
  have hstage := h.stage
  cases hat : r.stage with
  | checking _ | connecting | selecting | creatingDir =>
    rw [hat] at hstage
    refine Or.inl ?_
    change r.opened = finished r.closed
    rw [hstage.1, hstage.2]
    rfl
  | opening file rest | done =>
    rw [hat] at hstage
    exact Or.inl hstage.1
  | querying file inode rest =>
    rw [hat] at hstage
    exact Or.inr ⟨file, inode, [], hstage.1, hstage.2.2⟩
  | writing inode result left rest =>
    rw [hat] at hstage
    obtain ⟨hopened, -, written, hcontents, -⟩ := hstage
    exact Or.inr ⟨result.file, inode, written, hopened, hcontents⟩
  | failed _ =>
    rw [hat] at hstage
    exact hstage

theorem at_next {contents : ℕ → Contents} {opened : List (ExportFile × ℕ)} {closed : List (ℕ × QueryResult)}
    {rest : List ExportFile} (hopened : opened = finished closed)
    (hselected : (finished closed).map Prod.fst ++ rest = args.selected) :
    AtStage args contents opened closed (.next rest) := by
  cases rest with
  | nil => exact ⟨hopened, by simpa using hselected⟩
  | cons file rest => exact ⟨hopened, hselected⟩

theorem Whole.step (h : r.Whole args) (hstep : r.step args event = some r') : r'.Whole args := by
  have hstage := h.stage
  cases step_does hstep with
  | checked hat | free hat hnone | connect hat | select hat =>
    rw [hat] at hstage
    exact ⟨h.named, h.closed, hstage⟩
  | taken hat => exact h.failed _
  | fail => exact h.failed _
  | createDir hat =>
    rw [hat] at hstage
    obtain ⟨hopened, hclosed⟩ := hstage
    refine ⟨h.named, h.closed, at_next ?_ ?_⟩ <;> simp [hopened, hclosed, finished]
  | «open» hat => exact h.openFile hat
  | query hat hfile =>
    rw [hat] at hstage
    subst hfile
    obtain ⟨hopened, hselected, hcontents⟩ := hstage
    exact ⟨h.named, h.closed, hopened, hselected, [], hcontents, rfl⟩
  | write hat =>
    rename_i inode result record left rest
    rw [hat] at hstage
    obtain ⟨hopened, hselected, written, hcontents, hrecords⟩ := hstage
    have hentry : r.disk.entry result.file = some inode := h.named _ _ (by simp [hopened])
    refine ⟨h.named, h.put (by simp [hopened]) hselected hentry _, hopened, hselected, written ++ [record], ?_, ?_⟩
    · rw [Disk.put_self, hcontents, Contents.append]
    · rw [List.append_assoc, List.singleton_append, hrecords]
  | close hat =>
    rename_i inode result rest
    rw [hat] at hstage
    obtain ⟨hopened, hselected, written, hcontents, hrecords⟩ := hstage
    have hentry : r.disk.entry result.file = some inode := h.named _ _ (by simp [hopened])
    have hfinished : finished (r.closed ++ [(inode, result)]) = finished r.closed ++ [(result.file, inode)] := by
      simp [finished]
    refine ⟨h.named, ?_, at_next (hfinished ▸ hopened) ?_⟩
    · intro other otherResult hmem
      rcases List.mem_append.mp hmem with hmem | hmem
      · exact h.put (by simp [hopened]) hselected hentry _ other otherResult hmem
      · cases List.mem_singleton.mp hmem
        rw [Disk.put_self, hcontents, Contents.close, ← hrecords, List.append_nil]
    · rw [hfinished, List.map_append, List.append_assoc]
      exact hselected

theorem AtStage.congr {contents other : ℕ → Contents} {opened : List (ExportFile × ℕ)}
    {closed : List (ℕ × QueryResult)} {stage : ExportStage} (h : AtStage args contents opened closed stage)
    (hsame : ∀ file inode, (file, inode) ∈ opened → other inode = contents inode) :
    AtStage args other opened closed stage := by
  cases stage with
  | querying file inode rest =>
    obtain ⟨hopened, hselected, hcontents⟩ := h
    exact ⟨hopened, hselected, (hsame file inode (by simp [hopened])).trans hcontents⟩
  | writing inode result left rest =>
    obtain ⟨hopened, hselected, written, hcontents, hrecords⟩ := h
    exact ⟨hopened, hselected, written, (hsame result.file inode (by simp [hopened])).trans hcontents, hrecords⟩
  | failed failure =>
    rcases h with hopened | ⟨file, inode, written, hopened, hcontents⟩
    · exact Or.inl hopened
    · exact Or.inr ⟨file, inode, written, hopened, (hsame file inode (by simp [hopened])).trans hcontents⟩
  | _ => exact h

/-- A file that the export has opened is closed, or has no footer. -/
theorem Whole.opened (h : r.Whole args) {file : ExportFile} {inode : ℕ} (hopen : (file, inode) ∈ r.opened) :
    (file, inode) ∈ finished r.closed ∨ ∃ written, r.disk.contents inode = .parquet written false := by
  rcases (h.failed .interrupted).stage with hopened | ⟨current, last, written, hopened, hcontents⟩
  · exact Or.inl (hopened ▸ hopen)
  · change r.opened = _ at hopened
    rw [hopened, List.mem_append, List.mem_singleton] at hopen
    rcases hopen with hopen | hopen
    · exact Or.inl hopen
    · cases hopen
      exact Or.inr ⟨written, hcontents⟩

theorem Whole.opened_of_closed (h : r.Whole args) {inode : ℕ} {result : QueryResult}
    (hclosed : (inode, result) ∈ r.closed) : (result.file, inode) ∈ r.opened := by
  have hfinished : (result.file, inode) ∈ finished r.closed := mem_finished.mpr ⟨result, hclosed, rfl⟩
  rcases (h.failed .interrupted).stage with hopened | ⟨_, _, _, hopened, -⟩
  · change r.opened = _ at hopened
    rw [hopened]
    exact hfinished
  · change r.opened = _ at hopened
    rw [hopened]
    exact List.mem_append_left _ hfinished

theorem Reaches.whole {disk : Disk ExportFile Contents} (h : Reaches args Quiet (start args disk) events r) :
    r.Whole args := by
  induction h with
  | refl => exact start_whole args disk
  | step _ hstep ih => exact ih.step hstep
  | other _ _ hquiet ih =>
    refine ⟨fun file inode hopen => (hquiet file inode hopen).1, fun inode result hclosed => ?_, ?_⟩
    · rw [(hquiet _ inode (ih.opened_of_closed hclosed)).2]
      exact ih.closed inode result hclosed
    · exact ih.stage.congr fun file inode hopen => (hquiet file inode hopen).2

/-- What the queries have answered: the results of the closed files, and that of the file in hand. -/
def Answered (closed : List (ℕ × QueryResult)) (results : List QueryResult) : ExportStage → Prop
  | .writing _ result _ _ => results = closed.map Prod.snd ++ [result]
  | .failed _ => closed.map Prod.snd <+: results
  | _ => results = closed.map Prod.snd

/-- Each selected file is queried once at most. -/
structure Asked (args : ExportArgs) (results : List QueryResult) (r : ExportRun) : Prop where
  files : results.map QueryResult.file <+: args.selected
  stage : Answered r.closed results r.stage

theorem Asked.closed {results : List QueryResult} (h : r.Asked args results) : r.closed.map Prod.snd <+: results := by
  have hstage := h.stage
  cases hat : r.stage with
  | writing inode result left rest =>
    rw [hat] at hstage
    exact ⟨_, hstage.symm⟩
  | failed failure =>
    rw [hat] at hstage
    exact hstage
  | _ =>
    rw [hat] at hstage
    exact ⟨[], (List.append_nil _).trans hstage.symm⟩

theorem finished_files (closed : List (ℕ × QueryResult)) :
    (finished closed).map Prod.fst = (closed.map Prod.snd).map QueryResult.file := by
  rw [finished, List.map_map, List.map_map]
  rfl

theorem answered_next {closed : List (ℕ × QueryResult)} {results : List QueryResult}
    (h : results = closed.map Prod.snd) (rest : List ExportFile) : Answered closed results (.next rest) := by
  cases rest with
  | nil => exact h
  | cons file rest => exact h

theorem Asked.silent {results : List QueryResult} (h : r.Asked args results) (hquiet : queryResults [event] = [])
    (hstage : Answered r'.closed results r'.stage) : r'.Asked args (results ++ queryResults [event]) := by
  rw [hquiet, List.append_nil]
  exact ⟨h.files, hstage⟩

theorem Asked.step {results : List QueryResult} (h : r.Asked args results) (hwhole : r.Whole args)
    (hstep : r.step args event = some r') : r'.Asked args (results ++ queryResults [event]) := by
  have hstage := h.stage
  cases step_does hstep with
  | query hat hfile =>
    rename_i file inode rest result
    have hwholestage := hwhole.stage
    rw [hat] at hstage hwholestage
    obtain rfl : results = r.closed.map Prod.snd := hstage
    obtain ⟨-, hselected, -⟩ := hwholestage
    refine ⟨⟨rest, ?_⟩, rfl⟩
    rw [← hselected, finished_files, queryResults, List.map_append, List.append_assoc]
    exact congrArg (fun file => _ ++ file :: rest) hfile
  | checked hat | free hat hnone | connect hat | select hat | write hat =>
    rw [hat] at hstage
    exact h.silent rfl hstage
  | taken hat => exact h.silent rfl h.closed
  | fail => exact h.silent rfl h.closed
  | createDir hat =>
    rw [hat] at hstage
    exact h.silent rfl (answered_next hstage _)
  | «open» hat =>
    rw [hat] at hstage
    obtain rfl : results = r.closed.map Prod.snd := hstage
    apply h.silent rfl
    unfold ExportRun.openFile
    split
    · exact rfl
    · split_ifs
      · exact rfl
      · exact List.prefix_rfl
  | close hat =>
    rw [hat] at hstage
    apply h.silent rfl
    apply answered_next
    rw [List.map_append]
    exact hstage

theorem Reaches.asked {disk : Disk ExportFile Contents} (h : Reaches args Quiet (start args disk) events r) :
    r.Asked args (queryResults events) := by
  induction h with
  | refl =>
    refine ⟨List.nil_prefix, ?_⟩
    rcases start_stage args disk with hat | hat | ⟨-, hat⟩ <;> rw [hat]
    · exact List.nil_prefix
    · rfl
    · rfl
  | step hmid hstep ih =>
    rw [queryResults, List.filterMap_append]
    exact ih.step hmid.whole hstep
  | other _ _ _ ih => exact ⟨ih.files, ih.stage⟩

end

end ExportRun

section

variable [NumberTypes]

def FileRecord.tradeRecord : FileRecord → Option (RecordBatch TradeBatch.lengths)
  | trades record => some record
  | orderbooks _ => none

def FileRecord.orderbookRecord : FileRecord → Option (RecordBatch OrderbookBatch.lengths)
  | trades _ => none
  | orderbooks record => some record

namespace Contents

/-- The rows of one name that a reader gets from a closed file. -/
def readTrades (symbol : String) : Contents → Option (List TradeQueryRow)
  | parquet records true => LighterIngestor.readTrades symbol (records.filterMap FileRecord.tradeRecord)
  | _ => none

def readOrderbooks (symbol : String) : Contents → Option (List (OrderbookQueryRow (List PriceLevel)))
  | parquet records true => readExport symbol (records.filterMap FileRecord.orderbookRecord)
  | _ => none

end Contents

namespace QueryResult

/-- The result is that of the one query of a file. -/
structure AnswerOf (result : QueryResult) (file : ExportFile) (events : List ExportEvent) : Prop where
  named : result.file = file
  asked : .query result ∈ events
  once : ∀ other, .query other ∈ events → other.file = file → other = result

/-- That a file gives back the rows of a query, under each of their names. -/
def ReadFrom (contents : Contents) : QueryResult → Prop
  | trades rows =>
    (∀ row ∈ rows, row.time.Exact) →
      ∀ symbol, contents.readTrades symbol = some (rows.filter fun row => row.name = symbol)
  | orderbooks rows =>
    (∀ row ∈ rows, row.time.Exact) →
      ∀ symbol, contents.readOrderbooks symbol = some (rows.filter fun row => row.name = symbol)

theorem readFrom_records (result : QueryResult) : result.ReadFrom (.parquet result.records true) := by
  cases result with
  | trades rows =>
    intro hexact symbol
    obtain ⟨batch, file, hexport, hread⟩ := trades_read_back hexact
    rw [Contents.readTrades, records, hexport, ← hread symbol]
    simp [List.filterMap_map, Function.comp_def, FileRecord.tradeRecord]
  | orderbooks rows =>
    intro hexact symbol
    obtain ⟨batch, file, hexport, hread⟩ := export_read_back hexact
    rw [Contents.readOrderbooks, records, hexport, ← hread symbol]
    simp [List.filterMap_map, Function.comp_def, FileRecord.orderbookRecord]

end QueryResult

theorem mem_queryResults {events : List ExportEvent} {result : QueryResult} :
    result ∈ queryResults events ↔ .query result ∈ events := by
  constructor
  · intro h
    obtain ⟨event, hevent, heq⟩ := List.mem_filterMap.mp h
    cases event with
    | query other =>
      cases heq
      exact hevent
    | _ => cases heq
  · exact fun h => List.mem_filterMap.mpr ⟨_, h, rfl⟩

theorem ExportRun.Asked.answerOf {args : ExportArgs} {events : List ExportEvent} {r : ExportRun}
    (h : r.Asked args (queryResults events)) {inode : ℕ} {result : QueryResult}
    (hclosed : (inode, result) ∈ r.closed) : result.AnswerOf result.file events := by
  have hasked : result ∈ queryResults events := h.closed.subset (List.mem_map_of_mem hclosed)
  have hnodup : ((queryResults events).map QueryResult.file).Nodup :=
    args.selected_nodup.sublist h.files.sublist
  refine ⟨rfl, mem_queryResults.mp hasked, fun other hother hfile => ?_⟩
  exact List.inj_on_of_nodup_map hnodup (mem_queryResults.mpr hother) hasked hfile

/-- However an export ends, a file of it that can be read has every row of its query; once it
is done, each selected file stands under its name and is one of these. -/
theorem export_whole_files {args : ExportArgs} {disk : Disk ExportFile Contents} {events : List ExportEvent}
    {r : ExportRun} (h : ExportRun.Reaches args ExportRun.Quiet (.start args disk) events r) :
    (∀ file inode records, (file, inode) ∈ r.opened → r.disk.contents inode = .parquet records true →
        ∃ result, (inode, result) ∈ r.closed ∧ result.AnswerOf file events ∧
          result.ReadFrom (r.disk.contents inode)) ∧
      (r.stage = .done → ∀ file ∈ args.selected,
        ∃ inode result, (inode, result) ∈ r.closed ∧ result.AnswerOf file events ∧
          r.disk.entry file = some inode ∧ result.ReadFrom (r.disk.contents inode)) := by
  have hwhole := h.whole
  have hread : ∀ inode result, (inode, result) ∈ r.closed → result.ReadFrom (r.disk.contents inode) := by
    intro inode result hclosed
    rw [hwhole.closed inode result hclosed]
    exact result.readFrom_records
  constructor
  · intro file inode records hopen hcontents
    rcases hwhole.opened hopen with hfinished | ⟨written, hunfinished⟩
    · obtain ⟨result, hclosed, rfl⟩ := ExportRun.mem_finished.mp hfinished
      exact ⟨result, hclosed, h.asked.answerOf hclosed, hread inode result hclosed⟩
    · cases hcontents.symm.trans hunfinished
  · intro hdone file hfile
    have hstage := hwhole.stage
    rw [hdone] at hstage
    obtain ⟨hopened, hselected⟩ := hstage
    rw [← hselected] at hfile
    obtain ⟨⟨file, inode⟩, hfinished, rfl⟩ := List.mem_map.mp hfile
    obtain ⟨result, hclosed, rfl⟩ := ExportRun.mem_finished.mp hfinished
    exact ⟨inode, result, hclosed, h.asked.answerOf hclosed, hwhole.named result.file inode (hopened ▸ hfinished),
      hread inode result hclosed⟩

theorem ExportRun.Reaches.run {args : ExportArgs} {others : ExportRun → Disk ExportFile Contents → Prop}
    {r mid last : ExportRun} {events more : List ExportEvent} (h : ExportRun.Reaches args others r events mid)
    (hmore : more.foldlM (ExportRun.step args) mid = some last) :
    ExportRun.Reaches args others r (events ++ more) last := by
  induction more generalizing events mid with
  | nil =>
    cases hmore
    rw [List.append_nil]
    exact h
  | cons event rest ih =>
    rw [List.foldlM_cons, Option.bind_eq_bind, Option.bind_eq_some_iff] at hmore
    obtain ⟨next, hstep, hrest⟩ := hmore
    rw [List.append_cons]
    exact ih (h.step hstep) hrest

def orderbooksOnly : ExportArgs := ⟨false, true, true⟩

def etherRow : OrderbookQueryRow (List PriceLevel) where
  time := ⟨1790000000, 0, by decide⟩
  name := "ETH"
  messageType := "snapshot"
  sequence := some 3
  bids := [⟨"10", "1"⟩]
  asks := []

def sampleExport : List ExportEvent :=
  [.connect, .select, .createDir, .open, .query (.orderbooks [etherRow]), .write, .close]

end

theorem sample_whole_files : letI := wholeNumbers;
    ∃ r, sampleExport.foldlM (ExportRun.step orderbooksOnly) (.start orderbooksOnly sampleDisk) = some r ∧
      r.stage = .done ∧ r.disk.entry .orderbooks = some 0 ∧
      (r.disk.contents 0).readOrderbooks "ETH" = some [etherRow] := by
  let := wholeNumbers
  have hrun : sampleExport.foldlM (ExportRun.step orderbooksOnly) (.start orderbooksOnly sampleDisk) = some _ := rfl
  obtain ⟨-, hdone⟩ := @export_whole_files wholeNumbers _ _ _ _ (.run .refl hrun)
  obtain ⟨inode, result, hclosed, -, hentry, hread⟩ := hdone rfl .orderbooks (by decide)
  cases List.mem_singleton.mp hclosed
  refine ⟨_, hrun, rfl, hentry, ?_⟩
  have hexact : ∀ row ∈ [etherRow], row.time.Exact := by
    intro row hrow
    cases List.mem_singleton.mp hrow
    exact ⟨1790000000000000, rfl⟩
  exact hread hexact "ETH"

end LighterIngestor
