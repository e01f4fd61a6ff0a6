import LighterIngestor.MarketProjection
import LighterIngestor.SymbolTable
import LighterIngestor.Timestamptz
import LighterIngestor.TradeTable

namespace LighterIngestor

/-- The values that the check on `orderbook_messages.message_type` allows. -/
def messageTypes : List String := ["snapshot", "delta"]

/-- The foreign key to `symbols.id`. -/
def References (table : SymbolTable) (symbol : ℤ) : Prop := ∃ row ∈ table.rows, (row.id : ℤ) = symbol

structure StorableMessage (table : SymbolTable) (row : OrderbookMessageRow) : Prop where
  symbol : References table row.symbol
  messageType : row.messageType ∈ messageTypes
  time : Timestamptz row.time

theorem loadSymbolCache_references {table : SymbolTable} {marketId symbol : ℤ}
    (h : (loadSymbolCache table).map.lookup marketId = some symbol) : References table symbol := by
  obtain ⟨row, hrow, heq⟩ := List.mem_map.mp (AList.mem_lookup_iff.mp h)
  obtain ⟨-, hid⟩ := Sigma.mk.inj_iff.mp heq
  exact ⟨row, hrow, eq_of_heq hid⟩

theorem messageRow_type (symbol : ℤ) (message : OrderBookWsMessage) (time : DateTime) :
    (messageRow symbol message time).messageType ∈ messageTypes := by
  cases message <;> simp [messageRow, messageTypes]

theorem before_pgEnd (t : DateTime) : t.secs < pgEndSecs := by
  obtain ⟨-, hmax, -⟩ := t.valid
  simp only [pgEndSecs, maxSecs] at *
  omega

structure MessageMeets (table : SymbolTable) (message : OrderBookWsMessage) (row : OrderbookMessageRow) :
    Prop where
  symbol : References table row.symbol
  messageType : row.messageType ∈ messageTypes
  beforeEnd : row.time.secs < pgEndSecs
  storable : StorableMessage table row ↔ pgMinSecs * 1000000 ≤ message.lastUpdatedAt

theorem messageRow_meets {table : SymbolTable} {symbol : ℤ} {message : OrderBookWsMessage} {time : DateTime}
    (hsymbol : References table symbol)
    (htime : DateTime.fromTimestampMicros message.lastUpdatedAt = some time) :
    MessageMeets table message (messageRow symbol message time) := by
  have htype := messageRow_type symbol message time
  refine ⟨hsymbol, htype, before_pgEnd _, ?_⟩
  rw [← fromTimestampMicros_timestamptz htime]
  exact ⟨fun hrow => hrow.time, fun htime => ⟨hsymbol, htype, htime⟩⟩

section

variable [NumberTypes]

structure StorableTrade (table : SymbolTable) (row : TradeRow) : Prop where
  symbol : References table row.symbol
  tradeType : row.tradeType ∈ tradeTypes
  time : Timestamptz row.time

structure TradeMeets (table : SymbolTable) (trade : Trade) (row : TradeRow) : Prop where
  symbol : References table row.symbol
  beforeEnd : row.time.secs < pgEndSecs
  storable : StorableTrade table row ↔ trade.tradeType ∈ tradeTypes ∧ pgMinSecs * 1000 ≤ trade.timestamp

theorem tradeRow_meets {table : SymbolTable} {trade : Trade} {symbol : ℤ} {row : TradeRow}
    (hsymbol : References table symbol) (h : tradeRow trade symbol = .ok row) : TradeMeets table trade row := by
  obtain ⟨htime, rfl, -, -, -, -, htype⟩ := tradeRow_ok.mp h
  refine ⟨hsymbol, before_pgEnd _, ?_⟩
  rw [← fromTimestampMillis_timestamptz htime, ← htype]
  exact ⟨fun hrow => ⟨hrow.tradeType, hrow.time⟩, fun ⟨htype, htime⟩ => ⟨hsymbol, htype, htime⟩⟩

/-- What the handlers emit refers to stored symbols, with a message type that the table knows,
and is stored but for a trade of another type or a time before PostgreSQL's first. -/
theorem emitted_rows_storable_iff (table : SymbolTable) :
    (∀ value tx tx', handleTradeFrame value (loadSymbolCache table) tx = (tx', .ok ()) →
      tx' = tx ∨ ∃ parsed rows, value.trade = .ok parsed ∧
        tx'.sent = tx.sent ++ rows.map WriteMsg.trade ∧
        List.Forall₂ (TradeMeets table) (parsed.trades ++ parsed.liquidationTrades) rows) ∧
    (∀ value s s', handleOrderbookFrame value (loadSymbolCache table) s = (s', .ok ()) →
      s' = s ∨ ∃ parsed row, value.orderBook = .ok parsed ∧
        s'.tx.sent = s.tx.sent ++ [.orderbook row] ∧ MessageMeets table parsed row) := by
  constructor
  · intro value tx tx' h
    unfold handleTradeFrame at h
    split at h
    · cases h
    · rename_i parsed hparsed
      split at h
      · cases h
      · split at h
        · cases h
          exact Or.inl rfl
        · rename_i symbol hsymbol
          obtain ⟨rows, hsent, hrows⟩ := sendTrades_sent h
          refine Or.inr ⟨parsed, rows, hparsed, hsent, ?_⟩
          exact (hrows rfl).imp fun _ _ => tradeRow_meets (loadSymbolCache_references hsymbol)
  · intro value s s' h
    obtain ⟨parsed, marketId, hparsed, -, hhandled⟩ := handleOrderbookFrame_ok.mp h
    rcases hhandled with ⟨-, rfl⟩ | ⟨symbol, market, tx, hsymbol, haccepts, htx, rfl⟩
    · exact Or.inl rfl
    · exact Or.inr ⟨parsed, _, hparsed, Channel.send_some htx,
        messageRow_meets (loadSymbolCache_references hsymbol) haccepts.time⟩

end

def sampleTable : SymbolTable where
  rows := [⟨3, "ETH", 7, "perp"⟩]
  nextId := 4
  idUnique := by decide
  marketUnique := by decide
  typeNameUnique := by decide
  idDrawn := by decide

def sampleTradeFrame (trade : Trade) : FrameValue where
  ty := "update/trade"
  hasError := false
  orderBook := .error "unknown variant"
  trade := .ok (.update "trade:7" 1 [trade] [])

def settledTrade : Trade := ⟨555, "market-settlement", "46", "217", true, 1790015233367⟩

def adjustedTrade : Trade := ⟨556, "adjustment", "46", "217", true, 1790015233367⟩

theorem sample_rows_storable : letI := wholeNumbers;
    ∃ tx row, handleTradeFrame (sampleTradeFrame settledTrade) (loadSymbolCache sampleTable) (.start none) =
        (tx, .ok ()) ∧ tx.sent = [.trade row] ∧ StorableTrade sampleTable row := by
  let := wholeNumbers
  have hframe : handleTradeFrame (sampleTradeFrame settledTrade) (loadSymbolCache sampleTable) (.start none) =
      (_, .ok ()) := rfl
  obtain hsame | ⟨parsed, rows, hparsed, hsent, hrows⟩ :=
    (@emitted_rows_storable_iff wholeNumbers sampleTable).1 _ _ _ hframe
  · exact absurd (congrArg (·.sent.length) hsame) (by decide)
  · cases hparsed
    obtain ⟨row, _, hrow, hnil, rfl⟩ := List.forall₂_cons_left_iff.mp hrows
    cases hnil
    exact ⟨_, row, hframe, hsent, hrow.storable.mpr ⟨by decide, by decide⟩⟩

/-- A millisecond before PostgreSQL's first. -/
def ancientTrade : Trade := ⟨557, "trade", "46", "217", true, -210866803200001⟩

def ancientSnapshot : OrderBookWsMessage := .subscribed "order_book:7" (-210866803200000001) ⟨0, 1, 1, [], []⟩

theorem unstorable_rows_emitted : letI := wholeNumbers;
    (¬ ∀ (table : SymbolTable) (value : FrameValue) (tx tx' : Channel WriteMsg),
      handleTradeFrame value (loadSymbolCache table) tx = (tx', .ok ()) →
        ∀ row, WriteMsg.trade row ∈ tx'.sent.drop tx.sent.length → row.tradeType ∈ tradeTypes) ∧
    (¬ ∀ (table : SymbolTable) (value : FrameValue) (tx tx' : Channel WriteMsg),
      handleTradeFrame value (loadSymbolCache table) tx = (tx', .ok ()) →
        ∀ row, WriteMsg.trade row ∈ tx'.sent.drop tx.sent.length → Timestamptz row.time) ∧
    ¬ ∀ (table : SymbolTable) (value : FrameValue) (s s' : Session),
      handleOrderbookFrame value (loadSymbolCache table) s = (s', .ok ()) →
        ∀ row, WriteMsg.orderbook row ∈ s'.tx.sent.drop s.tx.sent.length → Timestamptz row.time := by
  let := wholeNumbers
  refine ⟨fun hall => ?_, fun hall => ?_, fun hall => ?_⟩
  · have hrow := hall sampleTable (sampleTradeFrame adjustedTrade) (.start none) _ rfl _ List.mem_cons_self
    exact absurd hrow (by decide)
  · have hrow := hall sampleTable (sampleTradeFrame ancientTrade) (.start none) _ rfl _ List.mem_cons_self
    exact absurd hrow (by decide)
  · have hrow := hall sampleTable (orderbookFrame ancientSnapshot) ⟨∅, .start none, .start none⟩ _ rfl _
      List.mem_cons_self
    exact absurd hrow (by decide)

end LighterIngestor
