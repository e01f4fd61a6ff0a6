import LighterIngestor.Base.Batching
import LighterIngestor.ExportFilter
import LighterIngestor.PriceBook

namespace LighterIngestor

def batchSize : ℕ := 8192

def DateTime.timestampMicros (t : DateTime) : ℤ := t.secs * 1000000 + t.nanos / 1000

def InStep {β : Type} (lengths : β → List ℕ) (batch : β) : Prop :=
  ∀ m ∈ lengths batch, ∀ n ∈ lengths batch, m = n

instance {β : Type} (lengths : β → List ℕ) (batch : β) : Decidable (InStep lengths batch) :=
  inferInstanceAs (Decidable (∀ m ∈ lengths batch, ∀ n ∈ lengths batch, m = n))

structure RecordBatch {β : Type} (lengths : β → List ℕ) where
  columns : β
  inStep : InStep lengths columns

def RecordBatch.tryNew {β : Type} (lengths : β → List ℕ) (columns : β) :
    Except ExportError (RecordBatch lengths) :=
  if h : InStep lengths columns then .ok ⟨columns, h⟩ else .error .columnLengths

/-- `finish` of a builder and `std::mem::take` of a `Vec`: the array, and what stays behind. -/
def finish {α : Type} (builder : List α) : List α × List α := (builder, [])

/-- The end of `write`, with the columns of the record and what stays behind of the builders. -/
def writeRecord {β : Type} (lengths : β → List ℕ) (columns left : β) (file : Channel (RecordBatch lengths)) :
    Except ExportError (β × Channel (RecordBatch lengths)) :=
  match RecordBatch.tryNew lengths columns with
  | .error e => .error e
  | .ok record =>
    match file.send record with
    | none => .error .writing
    | some file => .ok (left, file)

section

variable [NumberTypes]

structure TradeQueryRow where
  time : DateTime
  name : String
  lighterTradeId : ℤ
  price : F64
  size : F64
  isMakerAsk : Bool
  tradeType : String

structure TradeBatch where
  times : List ℤ
  symbols : List String
  ids : List ℤ
  prices : List F64
  sizes : List F64
  makers : List Bool
  kinds : List String

namespace TradeBatch

def new : TradeBatch := ⟨[], [], [], [], [], [], []⟩

def len (batch : TradeBatch) : ℕ := batch.times.length

def isEmpty (batch : TradeBatch) : Bool := batch.times.isEmpty

def push (batch : TradeBatch) (row : TradeQueryRow) : TradeBatch where
  times := batch.times ++ [row.time.timestampMicros]
  symbols := batch.symbols ++ [row.name]
  ids := batch.ids ++ [row.lighterTradeId]
  prices := batch.prices ++ [row.price]
  sizes := batch.sizes ++ [row.size]
  makers := batch.makers ++ [row.isMakerAsk]
  kinds := batch.kinds ++ [row.tradeType]

def lengths (batch : TradeBatch) : List ℕ :=
  [batch.times.length, batch.symbols.length, batch.ids.length, batch.prices.length, batch.sizes.length,
    batch.makers.length, batch.kinds.length]

def write (batch : TradeBatch) (file : Channel (RecordBatch lengths)) :
    Except ExportError (TradeBatch × Channel (RecordBatch lengths)) :=
  let (times, timesLeft) := finish batch.times
  let (symbols, symbolsLeft) := finish batch.symbols
  let (ids, idsLeft) := finish batch.ids
  let (prices, pricesLeft) := finish batch.prices
  let (sizes, sizesLeft) := finish batch.sizes
  let (makers, makersLeft) := finish batch.makers
  let (kinds, kindsLeft) := finish batch.kinds
  writeRecord lengths ⟨times, symbols, ids, prices, sizes, makers, kinds⟩
    ⟨timesLeft, symbolsLeft, idsLeft, pricesLeft, sizesLeft, makersLeft, kindsLeft⟩ file

def ofRows (rows : List TradeQueryRow) : TradeBatch where
  times := rows.map fun row => row.time.timestampMicros
  symbols := rows.map TradeQueryRow.name
  ids := rows.map TradeQueryRow.lighterTradeId
  prices := rows.map TradeQueryRow.price
  sizes := rows.map TradeQueryRow.size
  makers := rows.map TradeQueryRow.isMakerAsk
  kinds := rows.map TradeQueryRow.tradeType

end TradeBatch

def tradeWriter : Batching.Writer TradeQueryRow TradeBatch (RecordBatch TradeBatch.lengths) ExportError where
  push batch row := .ok (batch.push row)
  len := TradeBatch.len
  isEmpty := TradeBatch.isEmpty
  write := TradeBatch.write

/-- `export_trades` from the rows of its query on. -/
def exportTrades (rows : List TradeQueryRow) (file : Channel (RecordBatch TradeBatch.lengths)) :
    Except ExportError (TradeBatch × Channel (RecordBatch TradeBatch.lengths)) :=
  tradeWriter.run batchSize (TradeBatch.new, file) rows

end

structure OrderbookQueryRow (Json : Type) where
  time : DateTime
  name : String
  messageType : String
  sequence : Option ℤ
  bids : Json
  asks : Json

structure OrderbookBatch where
  times : List ℤ
  symbols : List String
  types : List String
  sequences : List (Option ℤ)
  bids : List String
  asks : List String
  deriving DecidableEq

namespace OrderbookBatch

variable {Json : Type}

def new : OrderbookBatch := ⟨[], [], [], [], [], []⟩

def len (batch : OrderbookBatch) : ℕ := batch.times.length

def isEmpty (batch : OrderbookBatch) : Bool := batch.times.isEmpty

/-- `toText` is `serde_json::to_string`. A row that fails leaves the export, and so its batch, behind. -/
def push (toText : Json → Except String String) (batch : OrderbookBatch) (row : OrderbookQueryRow Json) :
    Except ExportError OrderbookBatch :=
  match toText row.bids with
  | .error e => .error (.serializing e)
  | .ok bids =>
    match toText row.asks with
    | .error e => .error (.serializing e)
    | .ok asks => .ok {
        times := batch.times ++ [row.time.timestampMicros]
        symbols := batch.symbols ++ [row.name]
        types := batch.types ++ [row.messageType]
        sequences := batch.sequences ++ [row.sequence]
        bids := batch.bids ++ [bids]
        asks := batch.asks ++ [asks] }

def lengths (batch : OrderbookBatch) : List ℕ :=
  [batch.times.length, batch.symbols.length, batch.types.length, batch.sequences.length, batch.bids.length,
    batch.asks.length]

def write (batch : OrderbookBatch) (file : Channel (RecordBatch lengths)) :
    Except ExportError (OrderbookBatch × Channel (RecordBatch lengths)) :=
  let (times, timesLeft) := finish batch.times
  let (symbols, symbolsLeft) := finish batch.symbols
  let (types, typesLeft) := finish batch.types
  let (sequences, sequencesLeft) := finish batch.sequences
  let (bids, bidsLeft) := finish batch.bids
  let (asks, asksLeft) := finish batch.asks
  writeRecord lengths ⟨times, symbols, types, sequences, bids, asks⟩
    ⟨timesLeft, symbolsLeft, typesLeft, sequencesLeft, bidsLeft, asksLeft⟩ file

def ofRows (rows : List (OrderbookQueryRow String)) : OrderbookBatch where
  times := rows.map fun row => row.time.timestampMicros
  symbols := rows.map OrderbookQueryRow.name
  types := rows.map OrderbookQueryRow.messageType
  sequences := rows.map OrderbookQueryRow.sequence
  bids := rows.map OrderbookQueryRow.bids
  asks := rows.map OrderbookQueryRow.asks

end OrderbookBatch

def orderbookWriter {Json : Type} (toText : Json → Except String String) :
    Batching.Writer (OrderbookQueryRow Json) OrderbookBatch (RecordBatch OrderbookBatch.lengths) ExportError where
  push := OrderbookBatch.push toText
  len := OrderbookBatch.len
  isEmpty := OrderbookBatch.isEmpty
  write := OrderbookBatch.write

/-- `export_orderbooks` from the rows of its query on. -/
def exportOrderbooks {Json : Type} (toText : Json → Except String String) (rows : List (OrderbookQueryRow Json))
    (file : Channel (RecordBatch OrderbookBatch.lengths)) :
    Except ExportError (OrderbookBatch × Channel (RecordBatch OrderbookBatch.lengths)) :=
  (orderbookWriter toText).run batchSize (OrderbookBatch.new, file) rows

theorem writeRecord_inStep {β : Type} {lengths : β → List ℕ} {columns left : β}
    {file : Channel (RecordBatch lengths)} (h : InStep lengths columns) :
    writeRecord lengths columns left file =
      match file.send ⟨columns, h⟩ with
      | none => .error .writing
      | some file => .ok (left, file) := by
  rw [writeRecord, RecordBatch.tryNew, dif_pos h]

theorem writeRecord_left {β : Type} {lengths : β → List ℕ} {columns left : β}
    {file : Channel (RecordBatch lengths)} {next : β × Channel (RecordBatch lengths)}
    (h : writeRecord lengths columns left file = .ok next) : next.1 = left := by
  unfold writeRecord at h
  split at h
  · cases h
  · split at h <;> cases h
    rfl

theorem TradeBatch.write_empties [NumberTypes] {batch : TradeBatch} {file : Channel (RecordBatch lengths)}
    {next : TradeBatch × Channel (RecordBatch lengths)} (h : batch.write file = .ok next) : next.1 = new :=
  writeRecord_left h

theorem OrderbookBatch.write_empties {batch : OrderbookBatch} {file : Channel (RecordBatch lengths)}
    {next : OrderbookBatch × Channel (RecordBatch lengths)} (h : batch.write file = .ok next) :
    next.1 = new := writeRecord_left h

/-- What an export does with the rows of its query: it writes every row once, in order, in
full batches and one of the rest; its columns never get out of step, so that no batch fails
on them, and no write leaves a row behind. -/
structure WritesOnce {ρ κ β : Type} {lengths : β → List ℕ}
    (writer : Batching.Writer ρ β (RecordBatch lengths) ExportError) (new : β) (of : List κ → β)
    (cell : ρ → Except ExportError κ) (rows : List ρ) (file : Channel (RecordBatch lengths))
    (exported : Except ExportError (β × Channel (RecordBatch lengths))) : Prop where
  inStep : ∀ before after state, rows = before ++ after →
    writer.read batchSize (new, file) before = .ok state →
      InStep lengths state.1 ∧ ∀ row batch, writer.push state.1 row = .ok batch → InStep lengths batch
  emptied : ∀ batch file next, writer.write batch file = .ok next → next.1 = new
  fails : ∀ e, exported = .error e →
    (∃ row ∈ rows, cell row = .error e) ∨ (e = .writing ∧ file.lifetime ≠ none)
  written : ∀ batch final, exported = .ok (batch, final) →
    batch = new ∧
      ∃ (cells : List κ) (records : List (RecordBatch lengths)) (batches : List (List κ)),
        List.Forall₂ (fun row c => cell row = .ok c) rows cells ∧
        final.sent = file.sent ++ records ∧
        records.map RecordBatch.columns = batches.map of ∧
        batches.flatten = cells ∧ (∀ batch ∈ batches, 1 ≤ batch.length ∧ batch.length ≤ batchSize) ∧
        ∀ batch ∈ batches.dropLast, batch.length = batchSize

theorem writesOnce_of_keeps {ρ κ β : Type} {lengths : β → List ℕ}
    {writer : Batching.Writer ρ β (RecordBatch lengths) ExportError} {new : β} {of : List κ → β}
    {cell : ρ → Except ExportError κ} (hof : ∀ cells, InStep lengths (of cells)) (hnew : of [] = new)
    (hempty : ∀ batch file next, writer.write batch file = .ok next → next.1 = new)
    (h : writer.Keeps of cell (fun cells => ⟨of cells, hof cells⟩) .writing) (rows : List ρ)
    (file : Channel (RecordBatch lengths)) :
    WritesOnce writer new of cell rows file (writer.run batchSize (new, file) rows) where
  inStep := by
    subst hnew
    rintro before after state rfl hread
    obtain ⟨cells, -, hbatch, -, -⟩ := h.read_ok (Batching.Writer.Keeps.shows_start of _ file) hread
    rw [hbatch]
    refine ⟨hof _, fun row batch hpush => ?_⟩
    rw [h.push] at hpush
    split at hpush <;> cases hpush
    exact hof _
  emptied := hempty
  fails := by
    subst hnew
    exact fun e hrun => h.run_error hrun
  written := by
    subst hnew
    intro batch final hrun
    obtain ⟨cells, hcells, hbatch, hsent⟩ := h.run_ok hrun
    have hsize : 0 < batchSize := by decide
    refine ⟨hbatch, cells, _, Batching.batches batchSize cells, hcells, hsent, ?_,
      Batching.flatten_batches hsize cells, Batching.length_batches hsize cells,
      Batching.full_batches hsize cells⟩
    rw [List.map_map]
    rfl

theorem TradeBatch.ofRows_inStep [NumberTypes] (rows : List TradeQueryRow) :
    InStep TradeBatch.lengths (TradeBatch.ofRows rows) := by
  simp [InStep, TradeBatch.lengths, TradeBatch.ofRows]

theorem tradeWriter_keeps [NumberTypes] :
    tradeWriter.Keeps TradeBatch.ofRows .ok
      (fun rows => ⟨TradeBatch.ofRows rows, TradeBatch.ofRows_inStep rows⟩) .writing where
  push rows row := by simp [tradeWriter, TradeBatch.push, TradeBatch.ofRows]
  len rows := by simp [tradeWriter, TradeBatch.len, TradeBatch.ofRows]
  isEmpty rows := by simp [tradeWriter, TradeBatch.isEmpty, TradeBatch.ofRows]
  write rows file := by
    change writeRecord _ (TradeBatch.ofRows rows) TradeBatch.new file = _
    rw [writeRecord_inStep (TradeBatch.ofRows_inStep rows)]
    cases file.send ⟨TradeBatch.ofRows rows, TradeBatch.ofRows_inStep rows⟩ <;> rfl

theorem OrderbookBatch.ofRows_inStep (rows : List (OrderbookQueryRow String)) :
    InStep OrderbookBatch.lengths (OrderbookBatch.ofRows rows) := by
  simp [InStep, OrderbookBatch.lengths, OrderbookBatch.ofRows]

def orderbookCell {Json : Type} (toText : Json → Except String String) (row : OrderbookQueryRow Json) :
    Except ExportError (OrderbookQueryRow String) :=
  match toText row.bids with
  | .error e => .error (.serializing e)
  | .ok bids =>
    match toText row.asks with
    | .error e => .error (.serializing e)
    | .ok asks => .ok { row with bids, asks }

theorem orderbookWriter_keeps {Json : Type} (toText : Json → Except String String) :
    (orderbookWriter toText).Keeps OrderbookBatch.ofRows (orderbookCell toText)
      (fun rows => ⟨OrderbookBatch.ofRows rows, OrderbookBatch.ofRows_inStep rows⟩) .writing where
  push rows row := by
    simp only [orderbookWriter, OrderbookBatch.push, orderbookCell]
    cases toText row.bids with
    | error e => rfl
    | ok bids =>
      cases toText row.asks with
      | error e => rfl
      | ok asks => simp [OrderbookBatch.ofRows]
  len rows := by simp [orderbookWriter, OrderbookBatch.len, OrderbookBatch.ofRows]
  isEmpty rows := by simp [orderbookWriter, OrderbookBatch.isEmpty, OrderbookBatch.ofRows]
  write rows file := by
    change writeRecord _ (OrderbookBatch.ofRows rows) OrderbookBatch.new file = _
    rw [writeRecord_inStep (OrderbookBatch.ofRows_inStep rows)]
    cases file.send ⟨OrderbookBatch.ofRows rows, OrderbookBatch.ofRows_inStep rows⟩ <;> rfl

/-- Both exports write every row of their query once. -/
theorem exports_write_rows_once [NumberTypes] {Json : Type} (toText : Json → Except String String)
    (tradeRows : List TradeQueryRow) (tradeFile : Channel (RecordBatch TradeBatch.lengths))
    (orderbookRows : List (OrderbookQueryRow Json))
    (orderbookFile : Channel (RecordBatch OrderbookBatch.lengths)) :
    WritesOnce tradeWriter TradeBatch.new TradeBatch.ofRows .ok tradeRows tradeFile
        (exportTrades tradeRows tradeFile) ∧
      WritesOnce (orderbookWriter toText) OrderbookBatch.new OrderbookBatch.ofRows (orderbookCell toText)
        orderbookRows orderbookFile (exportOrderbooks toText orderbookRows orderbookFile) :=
  ⟨writesOnce_of_keeps TradeBatch.ofRows_inStep rfl (fun _ _ _ => TradeBatch.write_empties) tradeWriter_keeps _ _,
    writesOnce_of_keeps OrderbookBatch.ofRows_inStep rfl (fun _ _ _ => OrderbookBatch.write_empties)
      (orderbookWriter_keeps toText) _ _⟩

end LighterIngestor
