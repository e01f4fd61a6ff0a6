import LighterIngestor.BookLevels
import LighterIngestor.WsMessages
import Mathlib.Data.List.AList

namespace LighterIngestor

def orderbookRow (symbol : ℤ) (messageType : String) (beginNonce : Option ℤ)
    (lastUpdatedAt : ℤ) (orderBook : OrderBookSideLevels) : Except WsError OrderbookMessageRow :=
  match microsToDatetime lastUpdatedAt with
  | .error e => .error e
  | .ok time => .ok {
      time
      symbol
      messageType
      sequence := some orderBook.nonce
      bids := orderBook.bids
      asks := orderBook.asks
      beginNonce }

theorem orderbookRow_ok {symbol micros : ℤ} {messageType : String} {beginNonce : Option ℤ}
    {levels : OrderBookSideLevels} {time : DateTime}
    (h : DateTime.fromTimestampMicros micros = some time) :
    orderbookRow symbol messageType beginNonce micros levels =
      .ok ⟨time, symbol, messageType, some levels.nonce, levels.bids, levels.asks, beginNonce⟩ := by
  unfold orderbookRow
  rw [microsToDatetime_ok.mpr h]

variable [NumberTypes]

/-- The book, nonce and source timestamp of one market in the current connection. -/
structure MarketBook where
  nonce : ℤ
  sourceTime : DateTime
  book : Book

abbrev Markets := AList (fun _ : ℤ => MarketBook)

def bookSnapshotRow (symbol : ℤ) (market : MarketBook) : OrderbookMessageRow where
  time := market.sourceTime
  symbol := symbol
  messageType := "snapshot"
  sequence := some market.nonce
  bids := market.book.bids
  asks := market.book.asks
  beginNonce := none

/-- Applies one order_book message to the market's book and returns the row to store.
The map comes back also on an error: a failing delta has changed it up to its bad level. -/
def applyOrderbookMessage (symbol marketId : ℤ) (message : OrderBookWsMessage)
    (markets : Markets) : Markets × Except WsError OrderbookMessageRow :=
  match message with
  | .subscribed _ lastUpdatedAt orderBook =>
    match microsToDatetime lastUpdatedAt with
    | .error e => (markets, .error e)
    | .ok sourceTime =>
      match Book.fromSnapshot orderBook.bids orderBook.asks with
      | .error e => (markets, .error (.buildingBook marketId e))
      | .ok book =>
        (markets.insert marketId { nonce := orderBook.nonce, sourceTime, book },
          orderbookRow symbol "snapshot" none lastUpdatedAt orderBook)
  | .update _ lastUpdatedAt orderBook =>
    match markets.lookup marketId with
    | none => (markets, .error (.deltaBeforeSnapshot marketId))
    | some market =>
      if orderBook.beginNonce ≠ market.nonce then
        (markets, .error (.gap marketId orderBook.beginNonce market.nonce))
      else
        match microsToDatetime lastUpdatedAt with
        | .error e => (markets, .error e)
        | .ok sourceTime =>
          if sourceTime < market.sourceTime then
            (markets, .error (.timeBackwards marketId))
          else
            match market.book.applyDelta orderBook.bids orderBook.asks with
            | (book, .error e) =>
              (markets.insert marketId { market with book }, .error (.applyingDelta marketId e))
            | (book, .ok ()) =>
              (markets.insert marketId { nonce := orderBook.nonce, sourceTime, book },
                orderbookRow symbol "delta" (some orderBook.beginNonce) lastUpdatedAt orderBook)

def messageRow (symbol : ℤ) (message : OrderBookWsMessage) (time : DateTime) :
    OrderbookMessageRow where
  time := time
  symbol := symbol
  messageType := match message with
    | .subscribed .. => "snapshot"
    | .update .. => "delta"
  sequence := some message.orderBook.nonce
  bids := message.orderBook.bids
  asks := message.orderBook.asks
  beginNonce := match message with
    | .subscribed .. => none
    | .update _ _ orderBook => some orderBook.beginNonce

/-- A message is accepted on what the connection holds for its market, and makes this of it. -/
inductive Accepts : Option MarketBook → OrderBookWsMessage → MarketBook → Prop where
  | snapshot {held : Option MarketBook} {channel : String} {micros : ℤ}
      {levels : OrderBookSideLevels} {time : DateTime} {book : Book}
      (htime : DateTime.fromTimestampMicros micros = some time)
      (hbook : Book.fromSnapshot levels.bids levels.asks = .ok book) :
      Accepts held (.subscribed channel micros levels) ⟨levels.nonce, time, book⟩
  | delta {market : MarketBook} {channel : String} {micros : ℤ}
      {levels : OrderBookSideLevels} {time : DateTime} {book : Book}
      (hnonce : levels.beginNonce = market.nonce)
      (htime : DateTime.fromTimestampMicros micros = some time)
      (hlate : market.sourceTime ≤ time)
      (hbook : market.book.applyDelta levels.bids levels.asks = (book, .ok ())) :
      Accepts (some market) (.update channel micros levels) ⟨levels.nonce, time, book⟩

theorem Accepts.unique {held : Option MarketBook} {message : OrderBookWsMessage}
    {a b : MarketBook} (ha : Accepts held message a) (hb : Accepts held message b) : a = b := by
  cases ha with
  | snapshot htime hbook =>
    cases hb with
    | snapshot htime' hbook' =>
      cases htime.symm.trans htime'
      cases hbook.symm.trans hbook'
      rfl
  | delta hnonce htime hlate hbook =>
    cases hb with
    | delta hnonce' htime' hlate' hbook' =>
      cases htime.symm.trans htime'
      cases hbook.symm.trans hbook'
      rfl

theorem Accepts.nonce {held : Option MarketBook} {message : OrderBookWsMessage}
    {next : MarketBook} (h : Accepts held message next) : next.nonce = message.orderBook.nonce := by
  cases h <;> rfl

theorem Accepts.time {held : Option MarketBook} {message : OrderBookWsMessage}
    {next : MarketBook} (h : Accepts held message next) :
    DateTime.fromTimestampMicros message.lastUpdatedAt = some next.sourceTime := by
  cases h <;> assumption

theorem applyOrderbookMessage_ok {symbol marketId : ℤ} {message : OrderBookWsMessage}
    {markets next : Markets} {row : OrderbookMessageRow} :
    applyOrderbookMessage symbol marketId message markets = (next, .ok row) ↔
      ∃ market, Accepts (markets.lookup marketId) message market ∧
        next = markets.insert marketId market ∧ row = messageRow symbol message market.sourceTime := by
  constructor
  · intro h
    cases message with
    | subscribed channel micros levels =>
      simp only [applyOrderbookMessage] at h
      split at h
      · simp at h
      · rename_i time htime
        rw [microsToDatetime_ok] at htime
        split at h
        · simp at h
        · rename_i book hbook
          rw [orderbookRow_ok htime] at h
          obtain ⟨rfl, hrow⟩ := Prod.mk.inj h
          exact ⟨_, .snapshot htime hbook, rfl, (Except.ok.inj hrow).symm⟩
    | update channel micros levels =>
      simp only [applyOrderbookMessage] at h
      split at h
      · simp at h
      · rename_i market hmarket
        split_ifs at h with hgap
        · simp at h
        · split at h
          · simp at h
          · rename_i time htime
            rw [microsToDatetime_ok] at htime
            split_ifs at h with hlate
            · simp at h
            · split at h
              · simp at h
              · rename_i book hbook
                rw [orderbookRow_ok htime] at h
                obtain ⟨rfl, hrow⟩ := Prod.mk.inj h
                refine ⟨⟨levels.nonce, time, book⟩, ?_, rfl, (Except.ok.inj hrow).symm⟩
                rw [hmarket]
                exact .delta (not_not.mp hgap) htime (not_lt.mp hlate) hbook
  · rintro ⟨market, haccepts, rfl, rfl⟩
    generalize hheld : markets.lookup marketId = held at haccepts
    cases haccepts with
    | snapshot htime hbook =>
      simp only [applyOrderbookMessage, microsToDatetime_ok.mpr htime, hbook,
        orderbookRow_ok htime, messageRow, OrderBookWsMessage.orderBook]
    | delta hnonce htime hlate hbook =>
      simp only [applyOrderbookMessage, hheld, hnonce, ne_eq, not_true_eq_false, if_false,
        microsToDatetime_ok.mpr htime, not_lt.mpr hlate, hbook, orderbookRow_ok htime, messageRow,
        OrderBookWsMessage.orderBook]

theorem applyOrderbookMessage_other (symbol marketId : ℤ) (message : OrderBookWsMessage)
    (markets : Markets) {other : ℤ} (h : other ≠ marketId) :
    (applyOrderbookMessage symbol marketId message markets).1.lookup other = markets.lookup other := by
  unfold applyOrderbookMessage
  repeat' split
  all_goals first | rfl | exact AList.lookup_insert_ne h

end LighterIngestor
