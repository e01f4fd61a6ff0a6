import LighterIngestor.MarketAlone
import LighterIngestor.Replay
import LighterIngestor.ServerHistory

namespace LighterIngestor

section

variable [NumberTypes]

/-- The market stands where the server stood after `i` deltas. -/
structure MarketBook.Mirrors (market : MarketBook) (h : ServerHistory) (i : ℕ) : Prop where
  nonce : market.nonce = h.nonce i
  bids : market.book.bidSide.Mirrors (h.bidsAt i)
  asks : market.book.askSide.Mirrors (h.asksAt i)

/-- The begin nonce of a delta names the one state of the server that it continues. -/
theorem Accepts.mirrors_delta {h : ServerHistory} {i j : ℕ} {market next : MarketBook}
    {message : OrderBookWsMessage} (haccepts : Accepts (some market) message next)
    (hdelta : h.IsDelta j message) (hheld : market.Mirrors h i) :
    j = i ∧ next.Mirrors h (i + 1) := by
  cases haccepts with
  | snapshot => exact absurd hdelta id
  | delta hnonce htime hlate hbook =>
    obtain ⟨hbegin, hnext, hbids, hasks⟩ := hdelta
    obtain rfl : j = i :=
      h.nonce_injective (hbegin.symm.trans (hnonce.trans hheld.nonce))
    obtain ⟨hbidSide, haskSide⟩ := applyDelta_ok.mp hbook
    exact ⟨rfl, hnext, applySide_mirrors hheld.bids hbids hbidSide,
      applySide_mirrors hheld.asks hasks haskSide⟩

theorem Accepts.mirrors_snapshot {h : ServerHistory} {i : ℕ} {held : Option MarketBook}
    {next : MarketBook} {message : OrderBookWsMessage} (haccepts : Accepts held message next)
    (hsnapshot : h.IsSnapshot i message) : next.Mirrors h i := by
  cases haccepts with
  | delta => exact absurd hsnapshot id
  | snapshot htime hbook =>
    obtain ⟨hnonce, hbids, hasks⟩ := hsnapshot
    obtain ⟨hbidSide, haskSide⟩ := fromSnapshot_ok.mp hbook
    obtain ⟨side, hside, hbids⟩ := sideFromSnapshot_mirrors hbids
    obtain ⟨side', hside', hasks⟩ := sideFromSnapshot_mirrors hasks
    cases hside.symm.trans hbidSide
    cases hside'.symm.trans haskSide
    exact ⟨hnonce, hbids, hasks⟩

theorem Accepts.mirrors {h : ServerHistory} {held : Option MarketBook} {next : MarketBook}
    {message : OrderBookWsMessage} (haccepts : Accepts held message next) (hdrawn : h.Drawn message)
    (hheld : ∀ market ∈ held, ∃ i, market.Mirrors h i) : ∃ i, next.Mirrors h i := by
  obtain ⟨j, hsnapshot | hdelta⟩ := hdrawn
  · exact ⟨j, haccepts.mirrors_snapshot hsnapshot⟩
  · cases held with
    | none =>
      cases haccepts
      exact absurd hdelta id
    | some market =>
      obtain ⟨i, hmarket⟩ := hheld market rfl
      exact ⟨i + 1, (haccepts.mirrors_delta hdelta hmarket).2⟩

/-- Whatever is lost, repeated or late, what is held is some state of the server. -/
theorem Track.mirrors {h : ServerHistory} {symbol : ℤ} {held last : Option MarketBook}
    {events : List MarketEvent} {rows : List (Bool × OrderbookMessageRow)}
    (htrack : Track symbol held events last rows) (hdrawn : ∀ message ∈ messagesOf events, h.Drawn message)
    (hheld : ∀ market ∈ held, ∃ i, market.Mirrors h i) :
    ∀ market ∈ last, ∃ i, market.Mirrors h i := by
  induction htrack with
  | nil => exact hheld
  | message haccepts hrest ih =>
    obtain ⟨hhead, htail⟩ := List.forall_mem_cons.mp hdrawn
    have hnext := haccepts.mirrors hhead hheld
    exact ih htail (by simpa using hnext)
  | tick hrest ih => exact ih hdrawn hheld
  | silent hrest ih => exact ih hdrawn hheld

/-- A row that lists the server's book after `i` deltas under its nonce. -/
structure OrderbookMessageRow.Mirrors (row : OrderbookMessageRow) (h : ServerHistory) (i : ℕ) : Prop where
  sequence : row.sequence = some (h.nonce i)
  bids : Lists row.bids (h.bidsAt i)
  asks : Lists row.asks (h.asksAt i)

theorem MarketBook.Mirrors.row {h : ServerHistory} {i : ℕ} {market : MarketBook}
    (hmarket : market.Mirrors h i) (symbol : ℤ) : (bookSnapshotRow symbol market).Mirrors h i where
  sequence := congrArg some hmarket.nonce
  bids := hmarket.bids.lists.reverse
  asks := hmarket.asks.lists

theorem accepts_snapshot {h : ServerHistory} {i : ℕ} {message : OrderBookWsMessage}
    (hsnapshot : h.IsSnapshot i message)
    (htime : (DateTime.fromTimestampMicros message.lastUpdatedAt).isSome) (held : Option MarketBook) :
    ∃ next, Accepts held message next := by
  obtain ⟨time, htime⟩ := Option.isSome_iff_exists.mp htime
  cases message with
  | update => exact absurd hsnapshot id
  | subscribed channel micros levels =>
    obtain ⟨-, hbids, hasks⟩ := hsnapshot
    obtain ⟨bidSide, hbidSide, -⟩ := sideFromSnapshot_mirrors hbids
    obtain ⟨askSide, haskSide, -⟩ := sideFromSnapshot_mirrors hasks
    have hbook : Book.fromSnapshot levels.bids levels.asks = .ok ⟨bidSide, askSide⟩ :=
      fromSnapshot_ok.mpr ⟨hbidSide, haskSide⟩
    exact ⟨_, .snapshot htime hbook⟩

theorem accepts_delta {h : ServerHistory} {i : ℕ} {message previous : OrderBookWsMessage}
    (hdelta : h.IsDelta i message) {market : MarketBook} (hmarket : market.Mirrors h i)
    (hprevious : DateTime.fromTimestampMicros previous.lastUpdatedAt = some market.sourceTime)
    (htime : (DateTime.fromTimestampMicros message.lastUpdatedAt).isSome)
    (hlate : previous.lastUpdatedAt ≤ message.lastUpdatedAt) :
    ∃ next, Accepts (some market) message next := by
  obtain ⟨time, htime⟩ := Option.isSome_iff_exists.mp htime
  cases message with
  | subscribed => exact absurd hdelta id
  | update channel micros levels =>
    obtain ⟨hbegin, -, hbids, hasks⟩ := hdelta
    obtain ⟨bidSide, hbidSide⟩ := applySide_total market.book.bidSide hbids
    obtain ⟨askSide, haskSide⟩ := applySide_total market.book.askSide hasks
    have hbook : market.book.applyDelta levels.bids levels.asks = (⟨bidSide, askSide⟩, .ok ()) :=
      applyDelta_ok.mpr ⟨hbidSide, haskSide⟩
    have hlate : market.sourceTime ≤ time := (DateTime.fromTimestampMicros_le hprevious htime).mpr hlate
    exact ⟨_, .delta (hbegin.trans hmarket.nonce.symm) htime hlate hbook⟩

theorem step_accepts {config : Config} {m symbol : ℤ} (hm : config.symbolCache.map.lookup m = some symbol)
    {s : Session} (hopen : s.tx.lifetime = none) {message : OrderBookWsMessage}
    (hid : message.marketId = some m) {next : MarketBook}
    (haccepts : Accepts (s.markets.lookup m) message next) :
    ∃ s', step config s (.orderbook message) = (s', .ok ()) ∧ s'.tx.lifetime = none ∧
      s'.markets.lookup m = some next := by
  have hroom : s.tx.Room 1 := by simp [Channel.Room, hopen]
  have htype : endsWith (orderbookFrame message).ty "order_book" = true := by
    cases message with
    | subscribed => exact (by decide : endsWith "subscribed/order_book" "order_book" = true)
    | update => exact (by decide : endsWith "update/order_book" "order_book" = true)
  have hstep : step config s (.orderbook message) =
      handleOrderbookFrame (orderbookFrame message) config.symbolCache s := if_pos htype
  refine ⟨_, hstep.trans (handleOrderbookFrame_ok.mpr ⟨message, m, rfl, hid, .inr ⟨symbol, next, _, hm,
    haccepts, Channel.send_eq_some.mpr ⟨hroom, rfl⟩, rfl⟩⟩), hopen, AList.lookup_insert _⟩

theorem deltas_run {config : Config} {m symbol : ℤ} (hm : config.symbolCache.map.lookup m = some symbol)
    {h : ServerHistory} {i : ℕ} {deltas : List OrderBookWsMessage} (hdeltas : h.DeltasFrom i deltas)
    {previous : OrderBookWsMessage}
    (hmessages : ∀ message ∈ deltas, message.marketId = some m ∧
      (DateTime.fromTimestampMicros message.lastUpdatedAt).isSome)
    (htimes : (previous :: deltas).IsChain fun a b => a.lastUpdatedAt ≤ b.lastUpdatedAt)
    {s : Session} (hopen : s.tx.lifetime = none) {market : MarketBook}
    (hheld : s.markets.lookup m = some market) (hmarket : market.Mirrors h i)
    (hprevious : DateTime.fromTimestampMicros previous.lastUpdatedAt = some market.sourceTime) :
    ∃ s' last, runEvents config s (deltas.map Event.orderbook) = (s', .ok ()) ∧
      s'.markets.lookup m = some last ∧ last.Mirrors h (i + deltas.length) := by
  induction deltas generalizing i s market previous with
  | nil => exact ⟨s, market, rfl, hheld, hmarket⟩
  | cons message rest ih =>
    obtain ⟨hdelta, hrest⟩ := hdeltas
    obtain ⟨⟨hid, htime⟩, hmessages⟩ := List.forall_mem_cons.mp hmessages
    obtain ⟨hlate, htimes⟩ := List.isChain_cons_cons.mp htimes
    obtain ⟨next, haccepts⟩ := accepts_delta hdelta hmarket hprevious htime hlate
    obtain ⟨mid, hstep, hopen, hnext⟩ := step_accepts hm hopen hid (hheld ▸ haccepts)
    obtain ⟨s', last, hrun, hlast, hmirrors⟩ := ih hrest hmessages htimes hopen hnext
      (haccepts.mirrors_delta hdelta hmarket).2 haccepts.time
    refine ⟨s', last, ?_, hlast, ?_⟩
    · rw [List.map_cons, runEvents, hstep]
      exact hrun
    · rw [List.length_cons, Nat.add_comm rest.length 1, ← Nat.add_assoc]
      exact hmirrors

theorem gap_detection_sound_complete (config : Config) {m symbol : ℤ}
    (hm : config.symbolCache.map.lookup m = some symbol) (h : ServerHistory) :
    (∀ start s events, start.markets = ∅ → runEvents config start events = (s, .ok ()) →
      (∀ message ∈ messagesOf (events.filterMap (Event.project m)), h.Drawn message) →
      ∀ market ∈ s.markets.lookup m, ∃ i, market.Mirrors h i ∧ ∀ order, ∀ row ∈ symbolRows symbol
        ((step config s (.snapshotTick order)).1.tx.sent.drop s.tx.sent.length), row.Mirrors h i) ∧
    (∀ i snapshot deltas, ∀ start : Session, start.tx.lifetime = none →
      h.IsSnapshot i snapshot → h.DeltasFrom i deltas →
      (∀ message ∈ snapshot :: deltas, message.marketId = some m ∧
        (DateTime.fromTimestampMicros message.lastUpdatedAt).isSome) →
      ((snapshot :: deltas).IsChain fun a b => a.lastUpdatedAt ≤ b.lastUpdatedAt) →
      ∃ s market, runEvents config start ((snapshot :: deltas).map Event.orderbook) = (s, .ok ()) ∧
        s.markets.lookup m = some market ∧ market.Mirrors h (i + deltas.length)) := by
  constructor
  · intro start s events hfresh hrun hdrawn market hmarket
    obtain ⟨-, track, held, htrack, -, hend⟩ := run_tracks hm hrun
    obtain ⟨rfl, rfl⟩ := hend rfl
    rw [hfresh] at htrack
    obtain ⟨i, hmirrors⟩ := htrack.mirrors hdrawn (by simp) market hmarket
    refine ⟨i, hmirrors, fun order row hrow => ?_⟩
    rw [tick_rows hm s hmarket order row hrow]
    exact hmirrors.row symbol
  · intro i snapshot deltas start hopen hsnapshot hdeltas hmessages htimes
    obtain ⟨⟨hid, htime⟩, hmessages⟩ := List.forall_mem_cons.mp hmessages
    obtain ⟨first, haccepts⟩ := accepts_snapshot hsnapshot htime (start.markets.lookup m)
    obtain ⟨mid, hstep, hopen, hfirst⟩ := step_accepts hm hopen hid haccepts
    obtain ⟨s, market, hrun, hlast, hmirrors⟩ := deltas_run hm hdeltas hmessages htimes hopen hfirst
      (haccepts.mirrors_snapshot hsnapshot) haccepts.time
    refine ⟨s, market, ?_, hlast, hmirrors⟩
    rw [List.map_cons, runEvents, hstep]
    exact hrun

end

def sampleHistory : ServerHistory where
  nonce i := 10 + 5 * i
  increasing i j hij := by omega
  bids := .single 217 (q := 1) (by decide)
  asks := .single 218 (q := 2) (by decide)
  bidChanges _ := [(216, 46)]
  askChanges _ := [(218, 0)]

theorem wholeNumbers_spells {level : PriceLevel} {price size : ℕ}
    (hprice : parseDigits level.price.toList = some price)
    (hsize : parseDigits level.size.toList = some size) :
    @LevelSpells wholeNumbers level (price, size) :=
  ⟨@Quote.mk wholeNumbers level price size (wholeNumbers_fromStr hprice) (wholeNumbers_fromStr hsize),
    rfl, rfl⟩

theorem sampleSnapshot_isSnapshot : @ServerHistory.IsSnapshot wholeNumbers sampleHistory 0 sampleSnapshot := by
  refine ⟨rfl, ⟨_, .cons ?_ .nil, Ladder.single_listedBy 217 one_ne_zero⟩,
    ⟨_, .cons ?_ .nil, Ladder.single_listedBy 218 two_ne_zero⟩⟩
  · exact_mod_cast @wholeNumbers_spells ⟨"217", "1"⟩ 217 1 rfl rfl
  · exact_mod_cast @wholeNumbers_spells ⟨"218", "2"⟩ 218 2 rfl rfl

theorem sampleDelta_isDelta : @ServerHistory.IsDelta wholeNumbers sampleHistory 0 sampleDelta := by
  refine ⟨rfl, rfl, .cons ?_ .nil, .cons ?_ .nil⟩
  · exact_mod_cast @wholeNumbers_spells ⟨"216", "46"⟩ 216 46 rfl rfl
  · exact_mod_cast @wholeNumbers_spells ⟨"218", "0"⟩ 218 0 rfl rfl

theorem sample_gap_detection : letI := wholeNumbers;
    ∃ (s : Session) (market : MarketBook),
      runEvents sampleConfig ⟨∅, .start none, .start none⟩
        [.orderbook sampleSnapshot, .orderbook sampleDelta] = (s, .ok ()) ∧
      s.markets.lookup 7 = some market ∧ market.Mirrors sampleHistory 1 :=
  (@gap_detection_sound_complete wholeNumbers sampleConfig 7 3 rfl sampleHistory).2 0 sampleSnapshot
    [sampleDelta] _ rfl sampleSnapshot_isSnapshot ⟨sampleDelta_isDelta, trivial⟩ (by decide) (by decide)

end LighterIngestor
