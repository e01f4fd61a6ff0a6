import LighterIngestor.MarketBooks
import LighterIngestor.Trades

namespace LighterIngestor

variable [NumberTypes]

/-- An order in which a hash map may be iterated, for every content it can have. -/
structure IterationOrder where
  arrange : List (Σ _ : ℤ, MarketBook) → List (Σ _ : ℤ, MarketBook)
  perm : ∀ entries, (arrange entries).Perm entries

/-- What `read.next()` can yield. -/
inductive Frame where
  | text (value : Except String FrameValue)
  | close (reason : String)
  | other

/-- The branch that `select!` takes, with what it got. -/
inductive Event where
  | read (frame : Option (Except String Frame))
  | snapshotTick (order : IterationOrder)
  | keepaliveTick
  | bookCheckTick

/-- The frame of an order_book message as the server sends it. -/
def orderbookFrame (message : OrderBookWsMessage) : FrameValue where
  ty := match message with
    | .subscribed .. => "subscribed/order_book"
    | .update .. => "update/order_book"
  hasError := false
  orderBook := .ok message
  trade := .error "unknown variant"

def Event.orderbook (message : OrderBookWsMessage) : Event :=
  .read (some (.ok (.text (.ok (orderbookFrame message)))))

structure Config where
  marketIds : List ℤ
  symbolCache : SymbolCache

/-- What one connection works on; `tx` outlives it. -/
structure Session where
  markets : Markets
  tx : Channel WriteMsg
  write : Channel ClientMessage

/-- Subscribed markets that have no book in this connection yet. -/
def missingBooks (marketIds : List ℤ) (markets : Markets) : List ℤ :=
  marketIds.filter (fun id => id ∉ markets)

/-- The loop of `write_periodic_snapshots` over the entries of `markets`. -/
def writePeriodicSnapshots (symbolCache : SymbolCache) :
    List (Σ _ : ℤ, MarketBook) → Channel WriteMsg → Channel WriteMsg × Except WsError Unit
  | [], tx => (tx, .ok ())
  | ⟨marketId, market⟩ :: rest, tx =>
    match symbolCache.map.lookup marketId with
    | none => (tx, .error (.unknownBook marketId))
    | some symbol =>
      match tx.send (.orderbook (bookSnapshotRow symbol market)) with
      | none => (tx, .error .writerClosed)
      | some tx => writePeriodicSnapshots symbolCache rest tx

def handleOrderbookFrame (value : FrameValue) (symbolCache : SymbolCache) (s : Session) :
    Session × Except WsError Unit :=
  match value.orderBook with
  | .error e => (s, .error (.deserializing "order_book" e))
  | .ok parsed =>
    match parsed.marketId with
    | none => (s, .error (.missingMarketId "order_book"))
    | some marketId =>
      match symbolCache.map.lookup marketId with
      | none => (s, .ok ())
      | some symbol =>
        match applyOrderbookMessage symbol marketId parsed s.markets with
        | (markets, .error e) => ({ s with markets }, .error e)
        | (markets, .ok row) =>
          match s.tx.send (.orderbook row) with
          | none => ({ s with markets }, .error .writerClosed)
          | some tx => ({ s with markets, tx }, .ok ())

def sendClient (s : Session) (message : ClientMessage) : Session × Except WsError Unit :=
  match s.write.send message with
  | none => (s, .error (.sending message))
  | some write => ({ s with write }, .ok ())

def sendClients : Session → List ClientMessage → Session × Except WsError Unit
  | s, [] => (s, .ok ())
  | s, message :: rest =>
    match sendClient s message with
    | (s, .error e) => (s, .error e)
    | (s, .ok ()) => sendClients s rest

def orderbookChannel (marketId : ℤ) : String := s!"order_book/{marketId}"

def tradeChannel (marketId : ℤ) : String := s!"trade/{marketId}"

/-- `ty.ends_with(name)`. -/
def endsWith (ty name : String) : Bool := name.toList.isSuffixOf ty.toList

def handleText (config : Config) (value : FrameValue) (s : Session) : Session × Except WsError Unit :=
  if value.hasError then (s, .ok ())
  else if endsWith value.ty "order_book" then handleOrderbookFrame value config.symbolCache s
  else if endsWith value.ty "trade" then
    let (tx, result) := handleTradeFrame value config.symbolCache s.tx
    ({ s with tx }, result)
  else if value.ty = "ping" then sendClient s .pong
  else (s, .ok ())

/-- One turn of the loop of `run_ws_ingestion`. -/
def step (config : Config) (s : Session) : Event → Session × Except WsError Unit
  | .read none => (s, .error .streamEnded)
  | .read (some (.error e)) => (s, .error (.readError e))
  | .read (some (.ok (.close reason))) => (s, .error (.closedByServer reason))
  | .read (some (.ok .other)) => (s, .ok ())
  | .read (some (.ok (.text (.error e)))) => (s, .error (.parsingFrame e))
  | .read (some (.ok (.text (.ok value)))) => handleText config value s
  | .snapshotTick order =>
    let (tx, result) :=
      writePeriodicSnapshots config.symbolCache (order.arrange s.markets.entries) s.tx
    ({ s with tx }, result)
  | .keepaliveTick => sendClient s .ping
  | .bookCheckTick =>
    sendClients s ((missingBooks config.marketIds s.markets).flatMap fun marketId =>
      [.unsubscribe (orderbookChannel marketId), .subscribe (orderbookChannel marketId)])

/-- The loop of `run_ws_ingestion` over a list of events; the first error ends it. -/
def runEvents (config : Config) : Session → List Event → Session × Except WsError Unit
  | s, [] => (s, .ok ())
  | s, event :: rest =>
    match step config s event with
    | (s, .error e) => (s, .error e)
    | (s, .ok ()) => runEvents config s rest

/-- A connection: how long its write half lives, and what the loop sees. -/
structure Connection where
  writeLifetime : Option ℕ
  events : List Event

def subscriptions (config : Config) : List ClientMessage :=
  config.marketIds.flatMap fun marketId =>
    [.subscribe (orderbookChannel marketId), .subscribe (tradeChannel marketId)]

/-- `run_ws_ingestion` from an established connection on. -/
def runWsIngestion (config : Config) (tx : Channel WriteMsg) (connection : Connection) :
    Session × Except WsError Unit :=
  match sendClients ⟨∅, tx, .start connection.writeLifetime⟩ (subscriptions config) with
  | (s, .error e) => (s, .error e)
  | (s, .ok ()) => runEvents config s connection.events

/-- The reconnect loop of `main` over the connections so far. -/
def collect (config : Config) (tx : Channel WriteMsg) (connections : List Connection) :
    Channel WriteMsg :=
  connections.foldl (fun tx connection => (runWsIngestion config tx connection).1.tx) tx

def sampleConfig : Config := ⟨[7], .single 7 3⟩

def sampleSnapshot : OrderBookWsMessage :=
  .subscribed "order_book:7" 1790015233367788 ⟨1, 10, 0, [⟨"218", "2"⟩], [⟨"217", "1"⟩]⟩

def sampleDelta : OrderBookWsMessage :=
  .update "order_book:7" 1790015233367999 ⟨2, 15, 10, [⟨"218", "0"⟩], [⟨"216", "46"⟩]⟩

def sampleTick : Event := .snapshotTick ⟨id, fun _ => .refl _⟩

def sampleConnection : Connection :=
  ⟨none, [.orderbook sampleSnapshot, sampleTick, .orderbook sampleDelta, sampleTick]⟩

end LighterIngestor
