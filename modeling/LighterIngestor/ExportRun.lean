import LighterIngestor.Base.Disk
import LighterIngestor.ExportReading

namespace LighterIngestor

/-- The two files of an export, `trades.parquet` and `orderbook_messages.parquet`. -/
inductive ExportFile where
  | trades
  | orderbooks
  deriving DecidableEq

/-- What `main` passes on of the command line; the names and the hours are in the queries. -/
structure ExportArgs where
  trades : Bool
  orderbooks : Bool
  overwrite : Bool
  deriving DecidableEq

namespace ExportArgs

def selected (args : ExportArgs) : List ExportFile :=
  (if args.trades then [.trades] else []) ++ if args.orderbooks then [.orderbooks] else []

theorem selected_nodup (args : ExportArgs) : args.selected.Nodup := by
  unfold selected
  split_ifs <;> decide

end ExportArgs

variable [NumberTypes]

inductive FileRecord where
  | trades (record : RecordBatch TradeBatch.lengths)
  | orderbooks (record : RecordBatch OrderbookBatch.lengths)

/-- The contents of a file; a Parquet file that is not closed has no footer and no reader. -/
inductive Contents where
  | foreign (bytes : List ℕ)
  | parquet (records : List FileRecord) (closed : Bool)

namespace Contents

def append (record : FileRecord) : Contents → Contents
  | foreign bytes => foreign bytes
  | parquet records closed => parquet (records ++ [record]) closed

def close : Contents → Contents
  | foreign bytes => foreign bytes
  | parquet records _ => parquet records true

end Contents

inductive QueryResult where
  | trades (rows : List TradeQueryRow)
  | orderbooks (rows : List (OrderbookQueryRow (List PriceLevel)))

namespace QueryResult

def file : QueryResult → ExportFile
  | trades _ => .trades
  | orderbooks _ => .orderbooks

/-- What the loop of the export writes of them if nothing fails. -/
def records : QueryResult → List FileRecord
  | trades rows =>
    match exportTrades rows (.start none) with
    | .ok (_, file) => file.sent.map .trades
    | .error _ => []
  | orderbooks rows =>
    match exportOrderbooks (fun levels => .ok (levelsText levels)) rows (.start none) with
    | .ok (_, file) => file.sent.map .orderbooks
    | .error _ => []

end QueryResult

inductive ExportFailure where
  | noDataset
  | alreadyExists (file : ExportFile)
  | creating (file : ExportFile)
  | interrupted
  deriving DecidableEq

inductive ExportStage where
  | checking (rest : List ExportFile)
  | connecting
  | selecting
  | creatingDir
  | opening (file : ExportFile) (rest : List ExportFile)
  | querying (file : ExportFile) (inode : ℕ) (rest : List ExportFile)
  | writing (inode : ℕ) (result : QueryResult) (left : List FileRecord) (rest : List ExportFile)
  | done
  | failed (failure : ExportFailure)

def ExportStage.next : List ExportFile → ExportStage
  | [] => .done
  | file :: rest => .opening file rest

/-- A `fail` is an error of the file system, the network or the database, or of a row. -/
inductive ExportEvent where
  | check
  | connect
  | select
  | createDir
  | open
  | query (result : QueryResult)
  | write
  | close
  | fail

/-- The results of the queries, in their order. -/
def queryResults (events : List ExportEvent) : List QueryResult :=
  events.filterMap fun event =>
    match event with
    | .query result => some result
    | _ => none

/-- An export with the disk it works on, the files that it has opened, those of them that it has
created, and those it has closed. -/
structure ExportRun where
  disk : Disk ExportFile Contents
  stage : ExportStage
  opened : List (ExportFile × ℕ)
  created : List ℕ
  closed : List (ℕ × QueryResult)

namespace ExportRun

def start (args : ExportArgs) (disk : Disk ExportFile Contents) : ExportRun where
  disk
  stage :=
    if args.selected = [] then .failed .noDataset
    else if args.overwrite then .connecting
    else .checking args.selected
  opened := []
  created := []
  closed := []

/-- `parquet_writer`, with `truncate` where files are replaced and `create_new` where not. -/
def openFile (args : ExportArgs) (r : ExportRun) (file : ExportFile) (rest : List ExportFile) : ExportRun :=
  match r.disk.entry file with
  | none =>
    { r with
      disk := r.disk.create file (.parquet [] false)
      stage := .querying file r.disk.next rest
      opened := r.opened ++ [(file, r.disk.next)]
      created := r.created ++ [r.disk.next] }
  | some inode =>
    if args.overwrite then
      { r with
        disk := r.disk.put inode (.parquet [] false)
        stage := .querying file inode rest
        opened := r.opened ++ [(file, inode)] }
    else { r with stage := .failed (.creating file) }

def step (args : ExportArgs) (r : ExportRun) (event : ExportEvent) : Option ExportRun :=
  match event, r.stage with
  | .check, .checking [] => some { r with stage := .connecting }
  | .check, .checking (file :: rest) =>
    if r.disk.entry file = none then some { r with stage := .checking rest }
    else some { r with stage := .failed (.alreadyExists file) }
  | .connect, .connecting => some { r with stage := .selecting }
  | .select, .selecting => some { r with stage := .creatingDir }
  | .createDir, .creatingDir => some { r with stage := .next args.selected }
  | .open, .opening file rest => some (r.openFile args file rest)
  | .query result, .querying file inode rest =>
    if result.file = file then some { r with stage := .writing inode result result.records rest } else none
  | .write, .writing inode result (record :: left) rest =>
    some { r with
      disk := r.disk.put inode ((r.disk.contents inode).append record)
      stage := .writing inode result left rest }
  | .close, .writing inode result [] rest =>
    some { r with
      disk := r.disk.put inode (r.disk.contents inode).close
      stage := .next rest
      closed := r.closed ++ [(inode, result)] }
  | .fail, .done => none
  | .fail, .failed _ => none
  | .fail, _ => some { r with stage := .failed .interrupted }
  | _, _ => none

/-- The export, which takes the steps `events`, and the other programs of the machine, in any
order. `others` is what these may do to the disk. -/
inductive Reaches (args : ExportArgs) (others : ExportRun → Disk ExportFile Contents → Prop)
    (r : ExportRun) : List ExportEvent → ExportRun → Prop where
  | refl : Reaches args others r [] r
  | step {mid next : ExportRun} {events : List ExportEvent} {event : ExportEvent}
      (h : Reaches args others r events mid) (hstep : mid.step args event = some next) :
      Reaches args others r (events ++ [event]) next
  | other {mid : ExportRun} {events : List ExportEvent} {disk : Disk ExportFile Contents}
      (h : Reaches args others r events mid) (hnext : mid.disk.next ≤ disk.next) (hothers : others mid disk) :
      Reaches args others r events { mid with disk }

inductive Does (args : ExportArgs) (r : ExportRun) : ExportEvent → ExportRun → Prop
  | checked (hat : r.stage = .checking []) : Does args r .check { r with stage := .connecting }
  | free {file rest} (hat : r.stage = .checking (file :: rest)) (hnone : r.disk.entry file = none) :
      Does args r .check { r with stage := .checking rest }
  | taken {file rest} (hat : r.stage = .checking (file :: rest)) :
      Does args r .check { r with stage := .failed (.alreadyExists file) }
  | connect (hat : r.stage = .connecting) : Does args r .connect { r with stage := .selecting }
  | select (hat : r.stage = .selecting) : Does args r .select { r with stage := .creatingDir }
  | createDir (hat : r.stage = .creatingDir) :
      Does args r .createDir { r with stage := .next args.selected }
  | open {file rest} (hat : r.stage = .opening file rest) : Does args r .open (r.openFile args file rest)
  | query {file inode rest result} (hat : r.stage = .querying file inode rest) (hfile : result.file = file) :
      Does args r (.query result) { r with stage := .writing inode result result.records rest }
  | write {inode result record left rest} (hat : r.stage = .writing inode result (record :: left) rest) :
      Does args r .write
        { r with
          disk := r.disk.put inode ((r.disk.contents inode).append record)
          stage := .writing inode result left rest }
  | close {inode result rest} (hat : r.stage = .writing inode result [] rest) :
      Does args r .close
        { r with
          disk := r.disk.put inode (r.disk.contents inode).close
          stage := .next rest
          closed := r.closed ++ [(inode, result)] }
  | fail : Does args r .fail { r with stage := .failed .interrupted }

theorem step_does {args : ExportArgs} {r r' : ExportRun} {event : ExportEvent}
    (h : r.step args event = some r') : r.Does args event r' := by
  unfold step at h
  split at h
  · cases h
    exact .checked ‹_›
  · split_ifs at h with hnone
    · cases h
      exact .free ‹_› hnone
    · cases h
      exact .taken ‹_›
  · cases h
    exact .connect ‹_›
  · cases h
    exact .select ‹_›
  · cases h
    exact .createDir ‹_›
  · cases h
    exact .open ‹_›
  · split_ifs at h with hfile
    cases h
    exact .query ‹_› hfile
  · cases h
    exact .write ‹_›
  · cases h
    exact .close ‹_›
  · cases h
  · cases h
  · cases h
    exact .fail
  · cases h

end ExportRun

end LighterIngestor
