import LighterIngestor.Session

namespace LighterIngestor

/-- What a connection looks like from one of its markets: its own messages and the ticks. -/
inductive MarketEvent where
  | message (message : OrderBookWsMessage)
  | tick
  deriving DecidableEq

def messagesOf (events : List MarketEvent) : List OrderBookWsMessage :=
  events.filterMap fun event =>
    match event with
    | .message message => some message
    | .tick => none

@[simp] theorem messagesOf_message (message : OrderBookWsMessage) (events : List MarketEvent) :
    messagesOf (.message message :: events) = message :: messagesOf events := rfl

@[simp] theorem messagesOf_tick (events : List MarketEvent) :
    messagesOf (.tick :: events) = messagesOf events := rfl

theorem messagesOf_append (a b : List MarketEvent) :
    messagesOf (a ++ b) = messagesOf a ++ messagesOf b := List.filterMap_append

variable [NumberTypes]

/-- The part of an event that concerns the market `m`. -/
def Event.project (m : ℤ) : Event → Option MarketEvent
  | .read (some (.ok (.text (.ok value)))) =>
    if value.hasError then none
    else if endsWith value.ty "order_book" then
      match value.orderBook with
      | .error _ => none
      | .ok message => if message.marketId = some m then some (.message message) else none
    else none
  | .snapshotTick _ => some .tick
  | _ => none

/-- The order-book rows of one symbol in a log, each with the mark of the log. -/
def rowsOf (symbol : ℤ) (log : List (Bool × WriteMsg)) : List (Bool × OrderbookMessageRow) :=
  log.filterMap fun entry =>
    match entry.2 with
    | .orderbook row => if row.symbol = symbol then some (entry.1, row) else none
    | .trade _ => none

/-- The order-book rows of one symbol among the messages of a channel. -/
def symbolRows (symbol : ℤ) (sent : List WriteMsg) : List OrderbookMessageRow :=
  sent.filterMap fun msg =>
    match msg with
    | .orderbook row => if row.symbol = symbol then some row else none
    | .trade _ => none

def Event.isTick : Event → Bool
  | .snapshotTick _ => true
  | _ => false

/-- The messages a run of the loop sends to the writer, those of a snapshot tick marked. -/
def emissions (config : Config) : Session → List Event → List (Bool × WriteMsg)
  | _, [] => []
  | s, event :: rest =>
    let (next, result) := step config s event
    (next.tx.sent.drop s.tx.sent.length).map (event.isTick, ·) ++
      match result with
      | .error _ => []
      | .ok () => emissions config next rest

def processed (config : Config) : Session → List Event → List Event
  | _, [] => []
  | s, event :: rest =>
    match step config s event with
    | (_, .error _) => []
    | (next, .ok ()) => event :: processed config next rest

/-- A run of the collector for one market alone: what it holds, what happens, what it
holds then and which rows it emits, those of a tick marked. -/
inductive Track (symbol : ℤ) :
    Option MarketBook → List MarketEvent → Option MarketBook → List (Bool × OrderbookMessageRow) → Prop where
  | nil (held : Option MarketBook) : Track symbol held [] held []
  | message {held last : Option MarketBook} {message : OrderBookWsMessage} {next : MarketBook}
      {events : List MarketEvent} {rows : List (Bool × OrderbookMessageRow)}
      (haccepts : Accepts held message next) (hrest : Track symbol (some next) events last rows) :
      Track symbol held (.message message :: events) last
        ((false, messageRow symbol message next.sourceTime) :: rows)
  | tick {market : MarketBook} {last : Option MarketBook} {events : List MarketEvent}
      {rows : List (Bool × OrderbookMessageRow)} (hrest : Track symbol (some market) events last rows) :
      Track symbol (some market) (.tick :: events) last
        ((true, bookSnapshotRow symbol market) :: rows)
  | silent {last : Option MarketBook} {events : List MarketEvent}
      {rows : List (Bool × OrderbookMessageRow)} (hrest : Track symbol none events last rows) :
      Track symbol none (.tick :: events) last rows

theorem Track.append {symbol : ℤ} {held mid last : Option MarketBook}
    {events later : List MarketEvent} {rows more : List (Bool × OrderbookMessageRow)}
    (h : Track symbol held events mid rows) (hmore : Track symbol mid later last more) :
    Track symbol held (events ++ later) last (rows ++ more) := by
  induction h with
  | nil held => exact hmore
  | message haccepts _ ih => exact .message haccepts (ih hmore)
  | tick _ ih => exact .tick (ih hmore)
  | silent _ ih => exact .silent (ih hmore)

theorem Track.unique {symbol : ℤ} {held last last' : Option MarketBook}
    {events : List MarketEvent} {rows rows' : List (Bool × OrderbookMessageRow)}
    (h : Track symbol held events last rows) (h' : Track symbol held events last' rows') :
    last = last' ∧ rows = rows' := by
  induction h generalizing last' rows' with
  | nil held =>
    cases h'
    exact ⟨rfl, rfl⟩
  | message haccepts _ ih =>
    cases h' with
    | message haccepts' hrest' =>
      obtain rfl := haccepts.unique haccepts'
      obtain ⟨rfl, rfl⟩ := ih hrest'
      exact ⟨rfl, rfl⟩
  | tick _ ih =>
    cases h' with
    | tick hrest' =>
      obtain ⟨rfl, rfl⟩ := ih hrest'
      exact ⟨rfl, rfl⟩
  | silent _ ih =>
    cases h' with
    | silent hrest' => exact ih hrest'

theorem rowsOf_append (symbol : ℤ) (a b : List (Bool × WriteMsg)) :
    rowsOf symbol (a ++ b) = rowsOf symbol a ++ rowsOf symbol b := List.filterMap_append

theorem symbolRows_append (symbol : ℤ) (a b : List WriteMsg) :
    symbolRows symbol (a ++ b) = symbolRows symbol a ++ symbolRows symbol b := List.filterMap_append

theorem rowsOf_mark (symbol : ℤ) (mark : Bool) (sent : List WriteMsg) :
    rowsOf symbol (sent.map (mark, ·)) = (symbolRows symbol sent).map (mark, ·) := by
  rw [rowsOf, symbolRows, List.filterMap_map, List.map_filterMap]
  congr 1
  funext msg
  cases msg with
  | orderbook row =>
    simp only [Function.comp_apply]
    split_ifs <;> rfl
  | trade row => rfl

theorem rowsOf_snd (symbol : ℤ) (log : List (Bool × WriteMsg)) :
    (rowsOf symbol log).map Prod.snd = symbolRows symbol (log.map Prod.snd) := by
  rw [rowsOf, symbolRows, List.filterMap_map, List.map_filterMap]
  congr 1
  funext entry
  obtain ⟨mark, msg⟩ := entry
  cases msg with
  | orderbook row =>
    simp only [Function.comp_apply]
    split_ifs <;> rfl
  | trade row => rfl

theorem symbolRows_trades (symbol : ℤ) (rows : List TradeRow) :
    symbolRows symbol (rows.map WriteMsg.trade) = [] := by
  rw [symbolRows, List.filterMap_map]
  exact List.filterMap_eq_nil_iff.mpr fun _ _ => rfl

end LighterIngestor
