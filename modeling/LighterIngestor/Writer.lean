import LighterIngestor.WsMessages

namespace LighterIngestor

def batchCapacity : ℕ := 128

/-- How a flush goes for as long as it gets: whether a connection is to be had, and
whether each of the two statements succeeds. -/
structure FlushOutcome where
  connection : Bool
  trades : Bool
  orderbook : Bool

variable [NumberTypes]

def tradeRows (messages : List WriteMsg) : List TradeRow :=
  messages.filterMap fun message =>
    match message with
    | .trade row => some row
    | .orderbook _ => none

def orderbookRows (messages : List WriteMsg) : List OrderbookMessageRow :=
  messages.filterMap fun message =>
    match message with
    | .trade _ => none
    | .orderbook row => some row

inductive Statement where
  | insertTrades (rows : List TradeRow)
  | insertOrderbookMessages (rows : List OrderbookMessageRow)

def Statement.rowCount : Statement → ℕ
  | insertTrades rows => rows.length
  | insertOrderbookMessages rows => rows.length

/-- The blocking task of `flush`: the statements it runs, each with its success, and its result. -/
def runInserts (trades : List TradeRow) (books : List OrderbookMessageRow) (outcome : FlushOutcome) :
    List (Statement × Bool) × Bool :=
  if ¬ outcome.connection then ([], false)
  else
    let first := if trades.isEmpty then [] else [(Statement.insertTrades trades, outcome.trades)]
    if ¬ trades.isEmpty ∧ ¬ outcome.trades then (first, false)
    else if books.isEmpty then (first, true)
    else (first ++ [(.insertOrderbookMessages books, outcome.orderbook)], outcome.orderbook)

/-- A flush that has run: the batch it drained and what became of it. -/
structure Flushed where
  batch : List WriteMsg
  statements : List (Statement × Bool)
  ok : Bool

inductive WriterStatus where
  | running
  | exited
  | returned
  deriving DecidableEq

/-- `writer_task` with the channel it receives from. `received` and `flushes` record what
has happened. -/
structure Writer where
  queue : List WriteMsg
  closed : Bool
  received : List WriteMsg
  batch : List WriteMsg
  flushes : List Flushed
  status : WriterStatus

inductive WriterEvent where
  | send (message : WriteMsg)
  | close
  | recv (outcome : FlushOutcome)
  | tick (outcome : FlushOutcome)

namespace Writer

def start : Writer := ⟨[], false, [], [], [], .running⟩

def sent (w : Writer) : List WriteMsg := w.received ++ w.queue

def flush (w : Writer) (outcome : FlushOutcome) : Writer :=
  if w.batch.isEmpty then w
  else
    let (statements, ok) := runInserts (tradeRows w.batch) (orderbookRows w.batch) outcome
    { w with
      batch := []
      flushes := w.flushes ++ [⟨w.batch, statements, ok⟩]
      status := if ok then w.status else .exited }

def push (w : Writer) (message : WriteMsg) (rest : List WriteMsg) : Writer where
  queue := rest
  closed := w.closed
  received := w.received ++ [message]
  batch := w.batch ++ [message]
  flushes := w.flushes
  status := w.status

/-- The `Some` arm of `rx.recv()`. -/
def accept (w : Writer) (message : WriteMsg) (rest : List WriteMsg) (outcome : FlushOutcome) : Writer :=
  if (w.push message rest).batch.length ≥ batchCapacity then (w.push message rest).flush outcome
  else w.push message rest

/-- The `None` arm of `rx.recv()`. -/
def finish (w : Writer) (outcome : FlushOutcome) : Writer :=
  let w := w.flush outcome
  if w.status = .exited then w else { w with status := .returned }

/-- One event; `none` where it cannot happen. -/
def step (w : Writer) : WriterEvent → Option Writer
  | .send message =>
    if w.closed ∨ w.status ≠ .running then none else some { w with queue := w.queue ++ [message] }
  | .close => some { w with closed := true }
  | .recv outcome =>
    if w.status ≠ .running then none
    else
      match w.queue with
      | message :: rest => some (w.accept message rest outcome)
      | [] => if w.closed then some (w.finish outcome) else none
  | .tick outcome => if w.status ≠ .running then none else some (w.flush outcome)

def run (w : Writer) (events : List WriterEvent) : Option Writer := events.foldlM step w

def log (w : Writer) : List (Statement × Bool) := w.flushes.flatMap Flushed.statements

end Writer

/-- The messages that a run sends. -/
def sentMessages (events : List WriterEvent) : List WriteMsg :=
  events.filterMap fun event =>
    match event with
    | .send message => some message
    | _ => none

/-- The trade rows that the successful statements of a log have handed over. -/
def writtenTrades (log : List (Statement × Bool)) : List TradeRow :=
  log.flatMap fun entry =>
    match entry with
    | (.insertTrades rows, true) => rows
    | _ => []

def writtenBooks (log : List (Statement × Bool)) : List OrderbookMessageRow :=
  log.flatMap fun entry =>
    match entry with
    | (.insertOrderbookMessages rows, true) => rows
    | _ => []

end LighterIngestor
