import LighterIngestor.Base.Channel
import LighterIngestor.WsMessages
import Mathlib.Data.List.AList

namespace LighterIngestor

/-- `load_symbol_cache`'s map from Lighter's market ids to `symbols.id`; each market has its own. -/
structure SymbolCache where
  map : AList (fun _ : ℤ => ℤ)
  injective : ∀ {a b symbol : ℤ}, map.lookup a = some symbol → map.lookup b = some symbol → a = b

def SymbolCache.single (marketId symbol : ℤ) : SymbolCache where
  map := AList.singleton marketId symbol
  injective := by
    have hmem : ∀ {c s : ℤ}, (AList.singleton marketId symbol : AList fun _ : ℤ => ℤ).lookup c = some s →
        c = marketId := by
      intro c s hc
      have hin : c ∈ (AList.singleton marketId symbol : AList fun _ : ℤ => ℤ) :=
        AList.lookup_isSome.mp (by rw [hc]; rfl)
      simpa using AList.mem_keys.mp hin
    intro a b s ha hb
    rw [hmem ha, hmem hb]

/-- What serde makes of the text of a frame: the members the loop looks at, and the
outcome of decoding it as either kind of message. -/
structure FrameValue where
  ty : String
  hasError : Bool
  orderBook : Except String OrderBookWsMessage
  trade : Except String TradeWsMessage

variable [NumberTypes]

def tradeRow (trade : Trade) (symbol : ℤ) : Except WsError TradeRow :=
  match millisToDatetime trade.timestamp with
  | .error e => .error e
  | .ok time =>
    match NumberTypes.parseF64 trade.price with
    | .error e => .error (.tradePrice trade.price e)
    | .ok price =>
      match NumberTypes.parseF64 trade.size with
      | .error e => .error (.tradeSize trade.size e)
      | .ok size => .ok {
          time
          symbol
          lighterTradeId := trade.tradeId
          price
          size
          isMakerAsk := trade.isMakerAsk
          tradeType := trade.tradeType }

/-- The loop of `handle_trade_frame` over the trades of a message. -/
def sendTrades (symbol : ℤ) :
    List Trade → Channel WriteMsg → Channel WriteMsg × Except WsError Unit
  | [], tx => (tx, .ok ())
  | trade :: rest, tx =>
    match tradeRow trade symbol with
    | .error e => (tx, .error e)
    | .ok row =>
      match tx.send (.trade row) with
      | none => (tx, .error .writerClosed)
      | some tx => sendTrades symbol rest tx

def handleTradeFrame (value : FrameValue) (symbolCache : SymbolCache) (tx : Channel WriteMsg) :
    Channel WriteMsg × Except WsError Unit :=
  match value.trade with
  | .error e => (tx, .error (.deserializing "trade" e))
  | .ok parsed =>
    match parsed.marketId with
    | none => (tx, .error (.missingMarketId "trade"))
    | some marketId =>
      match symbolCache.map.lookup marketId with
      | none => (tx, .ok ())
      | some symbol => sendTrades symbol (parsed.trades ++ parsed.liquidationTrades) tx

theorem tradeRow_ok {trade : Trade} {symbol : ℤ} {row : TradeRow} :
    tradeRow trade symbol = .ok row ↔
      DateTime.fromTimestampMillis trade.timestamp = some row.time ∧ row.symbol = symbol ∧
        row.lighterTradeId = trade.tradeId ∧ NumberTypes.parseF64 trade.price = .ok row.price ∧
        NumberTypes.parseF64 trade.size = .ok row.size ∧ row.isMakerAsk = trade.isMakerAsk ∧
        row.tradeType = trade.tradeType := by
  obtain ⟨time, rowSymbol, tradeId, price, size, isMakerAsk, tradeType⟩ := row
  unfold tradeRow
  rw [← millisToDatetime_ok]
  cases millisToDatetime trade.timestamp with
  | error e => simp
  | ok t =>
    cases NumberTypes.parseF64 trade.price with
    | error e => simp
    | ok p =>
      cases NumberTypes.parseF64 trade.size with
      | error e => simp
      | ok s => simp only [Except.ok.injEq, TradeRow.mk.injEq]; grind

theorem sendTrades_sent {symbol : ℤ} {trades : List Trade} {tx tx' : Channel WriteMsg}
    {result : Except WsError Unit} (h : sendTrades symbol trades tx = (tx', result)) :
    ∃ rows : List TradeRow, tx'.sent = tx.sent ++ rows.map WriteMsg.trade ∧
      (result = .ok () → List.Forall₂ (fun t r => tradeRow t symbol = .ok r) trades rows) := by
  induction trades generalizing tx with
  | nil =>
    cases h
    exact ⟨[], by simp, fun _ => .nil⟩
  | cons trade rest ih =>
    rw [sendTrades] at h
    split at h
    · cases h
      exact ⟨[], by simp, by simp⟩
    · rename_i row hrow
      split at h
      · cases h
        exact ⟨[], by simp, by simp⟩
      · rename_i mid hmid
        obtain ⟨rows, hsent, hrows⟩ := ih h
        refine ⟨row :: rows, ?_, fun hok => .cons hrow (hrows hok)⟩
        rw [hsent, Channel.send_some hmid, List.map_cons, List.append_assoc]
        rfl

end LighterIngestor
