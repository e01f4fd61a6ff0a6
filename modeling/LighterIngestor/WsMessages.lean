import LighterIngestor.DateTime
import LighterIngestor.PriceBook

namespace LighterIngestor

structure OrderBookSideLevels where
  offset : ℤ
  nonce : ℤ
  beginNonce : ℤ
  asks : List PriceLevel
  bids : List PriceLevel
  deriving DecidableEq

inductive OrderBookWsMessage where
  | subscribed (channel : String) (lastUpdatedAt : ℤ) (orderBook : OrderBookSideLevels)
  | update (channel : String) (lastUpdatedAt : ℤ) (orderBook : OrderBookSideLevels)
  deriving DecidableEq

/-- A record of `trade/{market_id}`. Of its fields these reach a `trades` row. -/
structure Trade where
  tradeId : ℤ
  tradeType : String
  size : String
  price : String
  isMakerAsk : Bool
  timestamp : ℤ
  deriving DecidableEq

inductive TradeWsMessage where
  | subscribed (channel : String) (nonce : ℤ) (trades liquidationTrades : List Trade)
  | update (channel : String) (nonce : ℤ) (trades liquidationTrades : List Trade)
  deriving DecidableEq

/-- The number of a run of ASCII digits; `none` when it is empty or holds anything else. -/
def parseDigits (digits : List Char) : Option ℕ :=
  if digits ≠ [] ∧ digits.all Char.isDigit then
    some (digits.foldl (fun n c => n * 10 + (c.toNat - '0'.toNat)) 0)
  else none

/-- Decimals and doubles cut down to digits: enough for runs on fixed inputs. -/
@[reducible] def wholeNumbers : NumberTypes where
  BigDecimal := ℕ
  fromStr text := (parseDigits text.toList).elim (.error "invalid digit") .ok
  value n := n
  F64 := ℕ
  parseF64 text := (parseDigits text.toList).elim (.error "invalid float literal") .ok

theorem wholeNumbers_fromStr {text : String} {n : ℕ} (h : parseDigits text.toList = some n) :
    wholeNumbers.fromStr text = .ok n := by
  change (parseDigits text.toList).elim _ _ = _
  rw [h]
  rfl

/-- `str::parse::<i32>`. -/
def parseI32 (text : List Char) : Option ℤ :=
  let signed : Option ℤ :=
    match text with
    | '-' :: digits => (parseDigits digits).map (fun n => -(n : ℤ))
    | '+' :: digits => (parseDigits digits).map (fun n => (n : ℤ))
    | digits => (parseDigits digits).map (fun n => (n : ℤ))
  signed.filter (fun n => -2147483648 ≤ n ∧ n ≤ 2147483647)

/-- `channel.split(':').nth(1)?.parse().ok()`. -/
def channelMarketId (channel : String) : Option ℤ :=
  match channel.toList.dropWhile (· ≠ ':') with
  | [] => none
  | _ :: rest => parseI32 (rest.takeWhile (· ≠ ':'))

namespace OrderBookWsMessage

def channel : OrderBookWsMessage → String
  | subscribed channel _ _ => channel
  | update channel _ _ => channel

def lastUpdatedAt : OrderBookWsMessage → ℤ
  | subscribed _ micros _ => micros
  | update _ micros _ => micros

def orderBook : OrderBookWsMessage → OrderBookSideLevels
  | subscribed _ _ levels => levels
  | update _ _ levels => levels

def marketId (message : OrderBookWsMessage) : Option ℤ := channelMarketId message.channel

end OrderBookWsMessage

namespace TradeWsMessage

def channel : TradeWsMessage → String
  | subscribed channel _ _ _ => channel
  | update channel _ _ _ => channel

def trades : TradeWsMessage → List Trade
  | subscribed _ _ trades _ => trades
  | update _ _ trades _ => trades

def liquidationTrades : TradeWsMessage → List Trade
  | subscribed _ _ _ trades => trades
  | update _ _ _ trades => trades

def marketId (message : TradeWsMessage) : Option ℤ := channelMarketId message.channel

end TradeWsMessage

/-- The columns of `orderbook_messages` but its serial id. The JSON columns hold level lists. -/
structure OrderbookMessageRow where
  time : DateTime
  symbol : ℤ
  messageType : String
  sequence : Option ℤ
  bids : List PriceLevel
  asks : List PriceLevel
  beginNonce : Option ℤ
  deriving DecidableEq

/-- The columns of `trades` but its serial id. -/
structure TradeRow [NumberTypes] where
  time : DateTime
  symbol : ℤ
  lighterTradeId : ℤ
  price : F64
  size : F64
  isMakerAsk : Bool
  tradeType : String

inductive WriteMsg [NumberTypes] where
  | trade (row : TradeRow)
  | orderbook (row : OrderbookMessageRow)

inductive ClientMessage where
  | subscribe (channel : String)
  | unsubscribe (channel : String)
  | pong
  | ping
  deriving DecidableEq

/-- Every error that ends a connection; the arguments are what its text shows. -/
inductive WsError where
  | streamEnded
  | readError (cause : String)
  | closedByServer (reason : String)
  | parsingFrame (text : String)
  | deserializing (kind cause : String)
  | missingMarketId (kind : String)
  | writerClosed
  | sending (message : ClientMessage)
  | unknownBook (marketId : ℤ)
  | buildingBook (marketId : ℤ) (cause : BookError)
  | deltaBeforeSnapshot (marketId : ℤ)
  | gap (marketId beginNonce lastNonce : ℤ)
  | timeBackwards (marketId : ℤ)
  | applyingDelta (marketId : ℤ) (cause : BookError)
  | invalidMicros (micros : ℤ)
  | invalidMillis (millis : ℤ)
  | tradePrice (text cause : String)
  | tradeSize (text cause : String)
  deriving DecidableEq

def microsToDatetime (micros : ℤ) : Except WsError DateTime :=
  match DateTime.fromTimestampMicros micros with
  | some time => .ok time
  | none => .error (.invalidMicros micros)

def millisToDatetime (millis : ℤ) : Except WsError DateTime :=
  match DateTime.fromTimestampMillis millis with
  | some time => .ok time
  | none => .error (.invalidMillis millis)

theorem microsToDatetime_ok {micros : ℤ} {time : DateTime} :
    microsToDatetime micros = .ok time ↔ DateTime.fromTimestampMicros micros = some time := by
  unfold microsToDatetime
  cases DateTime.fromTimestampMicros micros <;> simp

theorem millisToDatetime_ok {millis : ℤ} {time : DateTime} :
    millisToDatetime millis = .ok time ↔ DateTime.fromTimestampMillis millis = some time := by
  unfold millisToDatetime
  cases DateTime.fromTimestampMillis millis <;> simp

end LighterIngestor
