import LighterIngestor.Base.JsonText
import LighterIngestor.ExportBatches

namespace LighterIngestor

/-- What `serde_json::to_string` makes of a level, whose keys are in order. -/
def levelText (level : PriceLevel) : List Char :=
  "\x7b\x22price\x22:".toList ++ (JsonText.literal level.price.toList ++
    (",\x22size\x22:".toList ++ (JsonText.literal level.size.toList ++ "\x7d".toList)))

def levelsText (levels : List PriceLevel) : String := String.ofList (JsonText.array levelText levels)

/-- The reader of a level, with what follows it. -/
def readLevel (text : List Char) : Option (PriceLevel × List Char) :=
  (JsonText.skip "\x7b\x22price\x22:".toList text).bind fun rest =>
    (JsonText.readLiteral rest).bind fun (price, rest) =>
      (JsonText.skip ",\x22size\x22:".toList rest).bind fun rest =>
        (JsonText.readLiteral rest).bind fun (size, rest) =>
          (JsonText.skip "\x7d".toList rest).map fun rest =>
            (⟨String.ofList price, String.ofList size⟩, rest)

def readLevels (text : String) : Option (List PriceLevel) :=
  match JsonText.readArray readLevel text.toList with
  | some (levels, []) => some levels
  | _ => none

/-- A row of `orderbook_messages.parquet`. -/
structure FileRow where
  time : ℤ
  symbol : String
  messageType : String
  sequence : Option ℤ
  bids : String
  asks : String
  deriving DecidableEq

def OrderbookBatch.fileRows (batch : OrderbookBatch) : List FileRow :=
  (batch.times.zip (batch.symbols.zip (batch.types.zip
    (batch.sequences.zip (batch.bids.zip batch.asks))))).map
      fun (time, symbol, messageType, sequence, bids, asks) =>
        { time, symbol, messageType, sequence, bids, asks }

def readRow (row : FileRow) : Option (OrderbookQueryRow (List PriceLevel)) :=
  match DateTime.fromTimestampMicros row.time, readLevels row.bids, readLevels row.asks with
  | some time, some bids, some asks =>
    some { time, name := row.symbol, messageType := row.messageType, sequence := row.sequence, bids, asks }
  | _, _, _ => none

def readExport (symbol : String) (records : List (RecordBatch OrderbookBatch.lengths)) :
    Option (List (OrderbookQueryRow (List PriceLevel))) :=
  ((records.flatMap fun record => record.columns.fileRows).filter fun row => row.symbol = symbol).mapM readRow

theorem readLevel_levelText (level : PriceLevel) (rest : List Char) :
    readLevel (levelText level ++ rest) = some (level, rest) := by
  unfold readLevel levelText
  rw [List.append_assoc, JsonText.skip_append, Option.bind_some, List.append_assoc,
    JsonText.readLiteral_literal, Option.bind_some]
  dsimp only
  rw [List.append_assoc, JsonText.skip_append, Option.bind_some, List.append_assoc,
    JsonText.readLiteral_literal, Option.bind_some]
  dsimp only
  rw [JsonText.skip_append, Option.map_some, String.ofList_toList, String.ofList_toList]

theorem readLevels_levelsText (levels : List PriceLevel) : readLevels (levelsText levels) = some levels := by
  have hopen : ∀ level : PriceLevel, ∃ c more, levelText level = c :: more ∧ c ≠ ']' := by
    intro level
    exact ⟨'\x7b', _, rfl, by decide⟩
  have hread := JsonText.readArray_array readLevel_levelText hopen levels []
  rw [List.append_nil] at hread
  rw [readLevels, levelsText, String.toList_ofList, hread]

theorem DateTime.timestampMicros_fromTimestampMicros {micros : ℤ} {t : DateTime}
    (h : fromTimestampMicros micros = some t) : t.timestampMicros = micros := by
  obtain ⟨hsecs, hnanos⟩ := fromTimestamp_eq_some.mp h
  rw [timestampMicros, hsecs, hnanos]
  omega

/-- The instants that a column of microseconds holds exactly. -/
def DateTime.Exact (t : DateTime) : Prop := ∃ micros, fromTimestampMicros micros = some t

theorem DateTime.Exact.read {t : DateTime} (h : t.Exact) : fromTimestampMicros t.timestampMicros = some t := by
  obtain ⟨micros, hmicros⟩ := h
  rw [timestampMicros_fromTimestampMicros hmicros]
  exact hmicros

def writtenRow (row : OrderbookQueryRow (List PriceLevel)) : OrderbookQueryRow String :=
  { row with bids := levelsText row.bids, asks := levelsText row.asks }

def fileRow (row : OrderbookQueryRow String) : FileRow :=
  ⟨row.time.timestampMicros, row.name, row.messageType, row.sequence, row.bids, row.asks⟩

theorem fileRows_ofRows (rows : List (OrderbookQueryRow String)) :
    (OrderbookBatch.ofRows rows).fileRows = rows.map fileRow := by
  simp only [OrderbookBatch.fileRows, OrderbookBatch.ofRows, List.zip_map', List.map_map]
  rfl

theorem readRow_written {row : OrderbookQueryRow (List PriceLevel)} (h : row.time.Exact) :
    readRow (fileRow (writtenRow row)) = some row := by
  simp only [readRow, fileRow, writtenRow, h.read, readLevels_levelsText]

theorem mapM_readRow {rows : List (OrderbookQueryRow (List PriceLevel))} (h : ∀ row ∈ rows, row.time.Exact) :
    (rows.map fun row => fileRow (writtenRow row)).mapM readRow = some rows := by
  induction rows with
  | nil => rfl
  | cons row rest ih =>
    obtain ⟨hrow, hrest⟩ := List.forall_mem_cons.mp h
    rw [List.map_cons, List.mapM_cons, readRow_written hrow, ih hrest]
    rfl

theorem written_cells {rows : List (OrderbookQueryRow (List PriceLevel))} {cells : List (OrderbookQueryRow String)}
    (h : List.Forall₂ (fun row cell => orderbookCell (fun levels => .ok (levelsText levels)) row = .ok cell)
      rows cells) : cells = rows.map writtenRow := by
  induction h with
  | nil => rfl
  | cons hcell _ ih =>
    rw [List.map_cons, ← ih]
    exact congrArg (· :: _) (Except.ok.inj hcell).symm

section

variable {ρ κ β ω : Type} {lengths : β → List ℕ}
  {writer : Batching.Writer ρ β (RecordBatch lengths) ExportError} {new : β} {of : List κ → β}
  {cell : ρ → Except ExportError κ} {rows : List ρ}
  {exported : Except ExportError (β × Channel (RecordBatch lengths))}

theorem WritesOnce.file_rows (h : WritesOnce writer new of cell rows (.start none) exported)
    (hcell : ∀ row ∈ rows, ∀ e, cell row ≠ .error e) {fileRows : β → List ω} {fileRow : κ → ω}
    (hof : ∀ cells, fileRows (of cells) = cells.map fileRow) :
    ∃ batch file cells, exported = .ok (batch, file) ∧
      List.Forall₂ (fun row c => cell row = .ok c) rows cells ∧
      (file.sent.flatMap fun record => fileRows record.columns) = cells.map fileRow := by
  cases hrun : exported with
  | error e =>
    rcases h.fails e hrun with ⟨row, hrow, hfails⟩ | ⟨-, hlifetime⟩
    · exact absurd hfails (hcell row hrow e)
    · exact absurd rfl hlifetime
  | ok result =>
    obtain ⟨batch, file⟩ := result
    obtain ⟨-, cells, records, batches, hcells, hsent, hcolumns, hflatten, -⟩ := h.written batch file hrun
    refine ⟨batch, file, cells, rfl, hcells, ?_⟩
    calc (file.sent.flatMap fun record => fileRows record.columns)
        = (records.map RecordBatch.columns).flatMap fileRows := by
          rw [hsent, List.flatMap_map]
          rfl
      _ = batches.flatMap fun batch => batch.map fileRow := by
          rw [hcolumns, List.flatMap_map]
          exact List.flatMap_congr fun batch _ => hof batch
      _ = cells.map fileRow := by rw [← hflatten, List.map_flatten, List.flatMap_def]

end

/-- An export of rows with exact times succeeds, and every row of it is read back as it was. -/
theorem export_read_back {rows : List (OrderbookQueryRow (List PriceLevel))}
    (h : ∀ row ∈ rows, row.time.Exact) :
    ∃ batch file, exportOrderbooks (fun levels => .ok (levelsText levels)) rows (.start none) =
        .ok (batch, file) ∧
      ∀ symbol, readExport symbol file.sent = some (rows.filter fun row => row.name = symbol) := by
  have hwrites : WritesOnce _ _ _ _ rows (.start none)
      (exportOrderbooks (fun levels => .ok (levelsText levels)) rows (.start none)) :=
    writesOnce_of_keeps OrderbookBatch.ofRows_inStep rfl (fun _ _ _ => OrderbookBatch.write_empties)
      (orderbookWriter_keeps fun levels => .ok (levelsText levels)) rows (.start none)
  obtain ⟨batch, file, cells, hrun, hcells, hfile⟩ := hwrites.file_rows (fun _ _ _ => nofun) fileRows_ofRows
  refine ⟨batch, file, hrun, fun symbol => ?_⟩
  rw [readExport, hfile, written_cells hcells, List.map_map, List.filter_map]
  exact mapM_readRow fun row hrow => h row (List.mem_of_mem_filter hrow)

section

variable [NumberTypes]

/-- A row of `trades.parquet`. -/
structure TradeFileRow where
  time : ℤ
  symbol : String
  lighterTradeId : ℤ
  price : F64
  size : F64
  isMakerAsk : Bool
  tradeType : String

def TradeBatch.fileRows (batch : TradeBatch) : List TradeFileRow :=
  (batch.times.zip (batch.symbols.zip (batch.ids.zip (batch.prices.zip
    (batch.sizes.zip (batch.makers.zip batch.kinds)))))).map
      fun (time, symbol, lighterTradeId, price, size, isMakerAsk, tradeType) =>
        { time, symbol, lighterTradeId, price, size, isMakerAsk, tradeType }

def readTradeRow (row : TradeFileRow) : Option TradeQueryRow :=
  (DateTime.fromTimestampMicros row.time).map fun time =>
    { time, name := row.symbol, lighterTradeId := row.lighterTradeId, price := row.price, size := row.size,
      isMakerAsk := row.isMakerAsk, tradeType := row.tradeType }

def readTrades (symbol : String) (records : List (RecordBatch TradeBatch.lengths)) : Option (List TradeQueryRow) :=
  ((records.flatMap fun record => record.columns.fileRows).filter fun row => row.symbol = symbol).mapM readTradeRow

def tradeFileRow (row : TradeQueryRow) : TradeFileRow :=
  ⟨row.time.timestampMicros, row.name, row.lighterTradeId, row.price, row.size, row.isMakerAsk, row.tradeType⟩

theorem tradeFileRows_ofRows (rows : List TradeQueryRow) :
    (TradeBatch.ofRows rows).fileRows = rows.map tradeFileRow := by
  simp only [TradeBatch.fileRows, TradeBatch.ofRows, List.zip_map', List.map_map]
  rfl

theorem mapM_readTradeRow {rows : List TradeQueryRow} (h : ∀ row ∈ rows, row.time.Exact) :
    (rows.map tradeFileRow).mapM readTradeRow = some rows := by
  induction rows with
  | nil => rfl
  | cons row rest ih =>
    obtain ⟨hrow, hrest⟩ := List.forall_mem_cons.mp h
    have hread : readTradeRow (tradeFileRow row) = some row := by
      simp only [readTradeRow, tradeFileRow, hrow.read, Option.map_some]
    rw [List.map_cons, List.mapM_cons, hread, ih hrest]
    rfl

theorem trades_read_back {rows : List TradeQueryRow} (h : ∀ row ∈ rows, row.time.Exact) :
    ∃ batch file, exportTrades rows (.start none) = .ok (batch, file) ∧
      ∀ symbol, readTrades symbol file.sent = some (rows.filter fun row => row.name = symbol) := by
  have hwrites : WritesOnce _ _ _ _ rows (.start none) (exportTrades rows (.start none)) :=
    writesOnce_of_keeps TradeBatch.ofRows_inStep rfl (fun _ _ _ => TradeBatch.write_empties)
      tradeWriter_keeps rows (.start none)
  obtain ⟨batch, file, cells, hrun, hcells, hfile⟩ :=
    hwrites.file_rows (fun _ _ _ => nofun) tradeFileRows_ofRows
  have hsame : rows = cells := by
    simpa [List.forall₂_eq_eq_eq] using hcells
  refine ⟨batch, file, hrun, fun symbol => ?_⟩
  rw [readTrades, hfile, ← hsame, List.filter_map]
  exact mapM_readTradeRow fun row hrow => h row (List.mem_of_mem_filter hrow)

end

end LighterIngestor
