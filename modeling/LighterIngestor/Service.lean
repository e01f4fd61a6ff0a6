import LighterIngestor.StorableRows
import LighterIngestor.SymbolHistory
import LighterIngestor.Writer

namespace LighterIngestor

def writeChannelCapacity : ℕ := 1024

/-- The `chunk_interval` of `orderbook_messages`, in seconds. -/
def chunkInterval : ℤ := 86400

/-- The `drop_after` of its retention policy. -/
def dropAfter : ℤ := 4 * 86400

/-- The end of the chunk that a time lies in. -/
def chunkEnd (t : DateTime) : ℤ := (t.secs / chunkInterval + 1) * chunkInterval

/-- A chunk is dropped once all of it is older than the policy keeps. -/
def Expired (now t : DateTime) : Prop := chunkEnd t ≤ now.secs - dropAfter

instance (now t : DateTime) : Decidable (Expired now t) := inferInstanceAs (Decidable (_ ≤ _))

instance (table : SymbolTable) (symbol : ℤ) : Decidable (References table symbol) :=
  inferInstanceAs (Decidable (∃ row ∈ table.rows, _))

instance (table : SymbolTable) (row : OrderbookMessageRow) : Decidable (StorableMessage table row) :=
  decidable_of_iff
    (References table row.symbol ∧ row.messageType ∈ messageTypes ∧ Timestamptz row.time)
    ⟨fun ⟨hsymbol, htype, htime⟩ => ⟨hsymbol, htype, htime⟩, fun h => ⟨h.symbol, h.messageType, h.time⟩⟩

variable [NumberTypes]

instance (table : SymbolTable) (row : TradeRow) : Decidable (StorableTrade table row) :=
  decidable_of_iff
    (References table row.symbol ∧ row.tradeType ∈ tradeTypes ∧ Timestamptz row.time)
    ⟨fun ⟨hsymbol, htype, htime⟩ => ⟨hsymbol, htype, htime⟩, fun h => ⟨h.symbol, h.tradeType, h.time⟩⟩

/-- The tables that the market data goes to, `messages` in the order of its ids. -/
structure Tables where
  symbols : SymbolTable
  trades : TradesTable
  messages : List OrderbookMessageRow

namespace Tables

def empty : Tables where
  symbols := ⟨[], 1, List.nodup_nil, List.nodup_nil, List.nodup_nil, by simp⟩
  trades := .empty
  messages := []

/-- What a statement does that succeeds; `none` where a constraint does not let it. -/
def execute (db : Tables) : Statement → Option Tables
  | .insertTrades rows =>
    if ∀ row ∈ rows, StorableTrade db.symbols row then
      some { db with trades := db.trades.insert rows }
    else none
  | .insertOrderbookMessages rows =>
    if ∀ row ∈ rows, StorableMessage db.symbols row then
      some { db with messages := db.messages ++ rows }
    else none

def executeAll (db : Tables) : List (Statement × Bool) → Option Tables
  | [] => some db
  | (_, false) :: rest => db.executeAll rest
  | (statement, true) :: rest =>
    match db.execute statement with
    | none => none
    | some db => db.executeAll rest

/-- The job of the retention policy, at a time. -/
def retain (db : Tables) (now : DateTime) : Tables :=
  { db with messages := db.messages.filter fun row => ¬ Expired now row.time }

end Tables

/-- Where the reconnect loop of `main` is. -/
inductive Link where
  | down (tx : Channel WriteMsg)
  | up (session : Session)

def Link.tx : Link → Channel WriteMsg
  | down tx => tx
  | up session => session.tx

/-- A process that has started up. `outbox` is what the present turn of the loop has sent and
the channel has not taken yet; the loop waits for it to become empty. -/
structure Process where
  config : Config
  link : Link
  outbox : List WriteMsg
  writer : Writer

namespace Process

def start (marketIds : List ℤ) (symbolCache : SymbolCache) : Process :=
  ⟨⟨marketIds, symbolCache⟩, .down (.start none), [], .start⟩

def connect (p : Process) (writeLifetime : Option ℕ) : Option Process :=
  match p.link, p.outbox with
  | .down tx, [] =>
    match sendClients ⟨∅, tx, .start writeLifetime⟩ (subscriptions p.config) with
    | (s, .error _) => some { p with link := .down s.tx }
    | (s, .ok ()) => some { p with link := .up s }
  | _, _ => none

def turn (p : Process) (event : Event) : Option Process :=
  match p.link, p.outbox with
  | .up s, [] =>
    match step p.config s event with
    | (next, .error _) =>
      some { p with link := .down next.tx, outbox := next.tx.sent.drop s.tx.sent.length }
    | (next, .ok ()) => some { p with link := .up next, outbox := next.tx.sent.drop s.tx.sent.length }
  | _, _ => none

/-- The channel takes the next message of the turn, if it has room. -/
def enqueue (p : Process) : Option Process :=
  match p.outbox with
  | [] => none
  | message :: rest =>
    if p.writer.queue.length < writeChannelCapacity then
      (p.writer.step (.send message)).map fun writer => { p with outbox := rest, writer }
    else none

end Process

structure Service where
  db : Tables
  process : Option Process

/-- What can happen. `drawn` is how many ids a sync has drawn that was rolled back. A process
may stop at any time: it is killed, or its funding poller fails. The retention job runs in the
database, whether there is a process or not. -/
inductive ServiceEvent where
  | start (resp : OrderBooksResponse) (marketIds : List ℤ) (drawn : ℕ)
  | connect (writeLifetime : Option ℕ)
  | turn (event : Event)
  | enqueue
  | receive (outcome : FlushOutcome)
  | tick (outcome : FlushOutcome)
  | stop
  | retain (now : DateTime)

namespace Service

def initial : Service := ⟨.empty, none⟩

/-- `main` up to its loop. The keys of the cache come in any order. -/
def start (σ : Service) (resp : OrderBooksResponse) (marketIds : List ℤ) (drawn : ℕ) : Option Service :=
  match syncSymbols resp σ.db.symbols with
  | .error _ => some { σ with db := { σ.db with symbols := σ.db.symbols.skip drawn } }
  | .ok symbols =>
    if marketIds.Perm (loadSymbolCache symbols).map.keys then
      some ⟨{ σ.db with symbols }, some (.start marketIds (loadSymbolCache symbols))⟩
    else none

/-- A turn of the writer, with what its statements do. A flush that fails ends the process. -/
def write (σ : Service) (p : Process) (event : WriterEvent) : Option Service :=
  match p.writer.step event with
  | none => none
  | some writer =>
    match σ.db.executeAll (writer.log.drop p.writer.log.length) with
    | none => none
    | some db => some ⟨db, if writer.status = .running then some { p with writer } else none⟩

/-- One event; `none` where it cannot happen. -/
def step (σ : Service) (event : ServiceEvent) : Option Service :=
  match σ.process, event with
  | _, .retain now => some { σ with db := σ.db.retain now }
  | none, .start resp marketIds drawn => σ.start resp marketIds drawn
  | some p, .connect writeLifetime => (p.connect writeLifetime).map fun p => { σ with process := some p }
  | some p, .turn event => (p.turn event).map fun p => { σ with process := some p }
  | some p, .enqueue => p.enqueue.map fun p => { σ with process := some p }
  | some p, .receive outcome => σ.write p (.recv outcome)
  | some p, .tick outcome => σ.write p (.tick outcome)
  | some _, .stop => some { σ with process := none }
  | _, _ => none

def run (σ : Service) (events : List ServiceEvent) : Option Service := events.foldlM step σ

end Service

end LighterIngestor
