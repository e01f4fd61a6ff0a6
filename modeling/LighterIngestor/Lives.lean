import LighterIngestor.KnownSymbols
import LighterIngestor.PartialFlush
import LighterIngestor.Service
import Mathlib.Data.List.ModifyLast

namespace LighterIngestor

variable [NumberTypes]

structure ProcessLog where
  config : Config
  connections : List Connection

def ProcessLog.connect (log : ProcessLog) (writeLifetime : Option ℕ) : ProcessLog :=
  { log with connections := log.connections ++ [⟨writeLifetime, []⟩] }

def Connection.turn (event : Event) (connection : Connection) : Connection :=
  { connection with events := connection.events ++ [event] }

def ProcessLog.turn (log : ProcessLog) (event : Event) : ProcessLog :=
  { log with connections := log.connections.modifyLast (.turn event) }

/-- What an event that has led to `σ` adds to the logs of the processes so far. -/
def Service.record (σ : Service) (logs : List ProcessLog) : ServiceEvent → List ProcessLog
  | .start .. => logs ++ (σ.process.map fun p => ⟨p.config, []⟩).toList
  | .connect writeLifetime => logs.modifyLast (·.connect writeLifetime)
  | .turn event => logs.modifyLast (·.turn event)
  | _ => logs

/-- The processes of a run with their connections. -/
def Service.history : Service → List ProcessLog → List ServiceEvent → List ProcessLog
  | _, logs, [] => logs
  | σ, logs, event :: rest =>
    match σ.step event with
    | none => logs
    | some next => next.history (next.record logs event) rest

def Connection.withoutLast (connection : Connection) : Connection :=
  { connection with events := connection.events.dropLast }

/-- What the last event of the connections has sent. -/
def lastTurn (config : Config) (connections : List Connection) : List WriteMsg :=
  (collect config (.start none) connections).sent.drop
    (collect config (.start none) (connections.modifyLast .withoutLast)).sent.length

/-- A process as the tables see it: its connections one after another, and the rows that were
stored, which are the first ones of those that the connections sent. -/
structure Life extends ProcessLog where
  messages : List OrderbookMessageRow
  trades : List TradeRow
  messagesSent : messages <+: orderbookRows (collect config (.start none) connections).sent
  tradesSent : trades <+: tradeRows (collect config (.start none) connections).sent

/-- The tables hold what the lives have stored and nothing else, and every symbol that one of
them has used is still that of its market. -/
structure Stored (db : Tables) (lives : List Life) : Prop where
  messages : db.messages = lives.flatMap Life.messages
  trades : db.trades = UniqueTable.empty.insert (lives.flatMap Life.trades)
  symbols : ∀ life ∈ lives, ∀ marketId symbol, life.config.symbolCache.map.lookup marketId = some symbol →
    (loadSymbolCache db.symbols).map.lookup marketId = some symbol

/-- The connections that have brought the reconnect loop to where it is. -/
inductive Link.Reached (config : Config) : Link → List Connection → Prop where
  | down (connections : List Connection) :
      Reached config (.down (collect config (.start none) connections)) connections
  | up {connections : List Connection} {current : Connection} {s : Session}
      (hrun : runWsIngestion config (collect config (.start none) connections) current = (s, .ok ())) :
      Reached config (.up s) (connections ++ [current])

/-- The process has come to where it is by these connections. -/
structure Process.Reached (p : Process) (connections : List Connection) : Prop where
  link : p.link.Reached p.config connections
  outbox : p.outbox <:+ lastTurn p.config connections

structure Process.Inv (p : Process) : Prop where
  writer : p.writer.Inv
  running : p.writer.status = .running
  opened : p.writer.closed = false
  handed : p.writer.sent ++ p.outbox = p.link.tx.sent
  room : p.writer.queue.length ≤ writeChannelCapacity

structure Process.Lives (p : Process) (db : Tables) (life : Life) : Prop where
  config : life.config = p.config
  reached : p.Reached life.connections
  messages : life.messages = writtenBooks p.writer.log
  trades : life.trades = writtenTrades p.writer.log
  cache : p.config.symbolCache = loadSymbolCache db.symbols
  marketIds : p.config.marketIds.Perm (loadSymbolCache db.symbols).map.keys

def Life.emitted (life : Life) : Channel WriteMsg := collect life.config (.start none) life.connections

/-- What a life has sent and not stored, the last of its messages: those in the writer's batch and
in the channel, and the last ones of what its last event has sent. Trades of the batch may be stored when its
order-book rows are not. -/
structure Life.Misses (life : Life) (batch queue outbox : List WriteMsg) : Prop where
  last : batch ++ queue ++ outbox <:+ life.emitted.sent
  messages : life.messages ++ orderbookRows (batch ++ queue ++ outbox) = orderbookRows life.emitted.sent
  trades : ∃ missing, missing <:+ tradeRows (batch ++ queue ++ outbox) ∧
    life.trades ++ missing = tradeRows life.emitted.sent
  batch : batch.length ≤ batchCapacity
  queue : queue.length ≤ writeChannelCapacity
  outbox : outbox <:+ lastTurn life.config life.connections

structure Service.Inv (σ : Service) (lives : List Life) : Prop where
  stored : Stored σ.db lives
  misses : ∀ life ∈ lives, ∃ batch queue outbox, life.Misses batch queue outbox
  serving : ∀ p ∈ σ.process, p.Inv ∧ ∃ earlier life, lives = earlier ++ [life] ∧ p.Lives σ.db life

theorem collect_append (config : Config) (tx : Channel WriteMsg) (a b : List Connection) :
    collect config tx (a ++ b) = collect config (collect config tx a) b := List.foldl_append

theorem collect_concat (config : Config) (tx : Channel WriteMsg) (earlier : List Connection)
    (current : Connection) : collect config tx (earlier ++ [current]) =
      (runWsIngestion config (collect config tx earlier) current).1.tx := collect_append config tx earlier [current]

theorem Link.Reached.tx {config : Config} {link : Link} {connections : List Connection}
    (h : link.Reached config connections) : collect config (.start none) connections = link.tx := by
  cases h with
  | down => rfl
  | up hrun =>
    rw [collect_concat, hrun]
    rfl

theorem runEvents_append {config : Config} {s s' : Session} {events : List Event}
    (h : runEvents config s events = (s', .ok ())) (event : Event) :
    runEvents config s (events ++ [event]) = step config s' event := by
  induction events generalizing s with
  | nil =>
    cases h
    rw [List.nil_append, runEvents]
    split
    · rename_i heq
      exact heq.symm
    · rename_i heq
      exact heq.symm
  | cons first rest ih =>
    rw [runEvents] at h
    rw [List.cons_append, runEvents]
    split at h
    · cases h
    · exact ih h

theorem runWsIngestion_append {config : Config} {tx : Channel WriteMsg} {connection : Connection}
    {s : Session} (h : runWsIngestion config tx connection = (s, .ok ())) (event : Event) :
    runWsIngestion config tx (connection.turn event) = step config s event := by
  unfold runWsIngestion at h ⊢
  split at h
  · cases h
  · rename_i start heq
    simp only [Connection.turn, heq]
    exact runEvents_append h event

theorem Tables.execute_some {db db' : Tables} {statement : Statement}
    (h : db.execute statement = some db') :
    db'.symbols = db.symbols ∧ db'.messages = db.messages ++ writtenBooks [(statement, true)] ∧
      db'.trades = db.trades.insert (writtenTrades [(statement, true)]) := by
  cases statement with
  | insertTrades rows =>
    simp only [execute] at h
    split_ifs at h
    cases h
    simp [writtenBooks, writtenTrades]
  | insertOrderbookMessages rows =>
    simp only [execute] at h
    split_ifs at h
    cases h
    simp [writtenBooks, writtenTrades, UniqueTable.insert]

theorem Tables.executeAll_some {db db' : Tables} {log : List (Statement × Bool)}
    (h : db.executeAll log = some db') :
    db'.symbols = db.symbols ∧ db'.messages = db.messages ++ writtenBooks log ∧
      db'.trades = db.trades.insert (writtenTrades log) := by
  induction log generalizing db with
  | nil =>
    cases h
    exact ⟨rfl, (List.append_nil _).symm, rfl⟩
  | cons entry rest ih =>
    obtain ⟨statement, ok⟩ := entry
    cases ok with
    | false =>
      obtain ⟨hsymbols, hmessages, htrades⟩ := ih h
      cases statement <;> exact ⟨hsymbols, hmessages, htrades⟩
    | true =>
      simp only [executeAll] at h
      split at h
      · cases h
      · rename_i mid hmid
        obtain ⟨hsymbols, hmessages, htrades⟩ := ih h
        obtain ⟨hsymbols', hmessages', htrades'⟩ := execute_some hmid
        rw [hmessages', List.append_assoc, ← writtenBooks_append] at hmessages
        rw [htrades', ← UniqueTable.insert_append, ← writtenTrades_append] at htrades
        exact ⟨hsymbols.trans hsymbols', hmessages, htrades⟩

theorem Stored.grow {db db' : Tables} {earlier : List Life} {life life' : Life}
    {log : List (Statement × Bool)} (h : Stored db (earlier ++ [life]))
    (hdb : db.executeAll log = some db') (hconfig : life'.config = life.config)
    (hmessages : life'.messages = life.messages ++ writtenBooks log)
    (htrades : life'.trades = life.trades ++ writtenTrades log) : Stored db' (earlier ++ [life']) := by
  obtain ⟨hsymbols, hmore, hinsert⟩ := Tables.executeAll_some hdb
  refine ⟨?_, ?_, fun other hother => ?_⟩
  · rw [hmore, h.messages]
    simp [hmessages]
  · rw [hinsert, h.trades, ← UniqueTable.insert_append]
    simp [htrades]
  · rw [hsymbols]
    rcases List.mem_append.mp hother with hother | hother
    · exact h.symbols other (by simp [hother])
    · rw [List.mem_singleton.mp hother, hconfig]
      exact h.symbols life (by simp)

theorem Stored.extends {db : Tables} {lives : List Life} {symbols : SymbolTable} (h : Stored db lives)
    (hextends : db.symbols.Extends symbols) : Stored { db with symbols } lives :=
  ⟨h.messages, h.trades, fun life hlife marketId symbol hlookup =>
    loadSymbolCache_extends hextends (h.symbols life hlife marketId symbol hlookup)⟩

end LighterIngestor
