import LighterIngestor.MarketRuns
import LighterIngestor.TradeTable
import LighterIngestor.WriterRuns

namespace LighterIngestor

variable [NumberTypes]

/-- The frame of an event that the loop hands to `handle_trade_frame`. -/
def Event.tradeFrame : Event → Option FrameValue
  | .read (some (.ok (.text (.ok value)))) =>
    if value.hasError then none
    else if endsWith value.ty "order_book" then none
    else if endsWith value.ty "trade" then some value
    else none
  | _ => none

/-- The records of a frame of a known market, in both arrays, each with the market's symbol. -/
def knownTrades (symbolCache : SymbolCache) (value : FrameValue) : List (ℤ × Trade) :=
  match value.trade with
  | .error _ => []
  | .ok parsed =>
    match parsed.marketId.bind symbolCache.map.lookup with
    | none => []
    | some symbol => (parsed.trades ++ parsed.liquidationTrades).map (symbol, ·)

def Event.trades (symbolCache : SymbolCache) (event : Event) : List (ℤ × Trade) :=
  match event.tradeFrame with
  | none => []
  | some value => knownTrades symbolCache value

def RowFor (record : ℤ × Trade) (row : TradeRow) : Prop := tradeRow record.2 record.1 = .ok row

theorem tradeRows_trades (rows : List TradeRow) : tradeRows (rows.map WriteMsg.trade) = rows := by
  rw [tradeRows, List.filterMap_map]
  exact List.filterMap_some

theorem snapshotRows_trades (symbolCache : SymbolCache) (entries : List (Σ _ : ℤ, MarketBook)) :
    tradeRows (snapshotRows symbolCache entries) = [] := by
  rw [tradeRows, snapshotRows, List.filterMap_filterMap]
  refine List.filterMap_eq_nil_iff.mpr fun e _ => ?_
  cases symbolCache.map.lookup e.1 <;> rfl

theorem handleOrderbookFrame_trades (value : FrameValue) (symbolCache : SymbolCache) (s : Session) :
    tradeRows (handleOrderbookFrame value symbolCache s).1.tx.sent = tradeRows s.tx.sent := by
  unfold handleOrderbookFrame
  repeat' split
  all_goals first
    | rfl
    | rename_i tx htx
      rw [Channel.send_some htx, tradeRows_append]
      exact List.append_nil _

theorem handleTradeFrame_ok {value : FrameValue} {symbolCache : SymbolCache} {tx tx' : Channel WriteMsg}
    (h : handleTradeFrame value symbolCache tx = (tx', .ok ())) :
    ∃ rows, tradeRows tx'.sent = tradeRows tx.sent ++ rows ∧
      List.Forall₂ RowFor (knownTrades symbolCache value) rows := by
  unfold handleTradeFrame at h
  split at h
  · cases h
  · rename_i parsed hparsed
    split at h
    · cases h
    · rename_i marketId hid
      split at h
      · rename_i hunknown
        cases h
        refine ⟨[], by simp, ?_⟩
        simp only [knownTrades, hparsed, hid, Option.bind_some, hunknown]
        exact .nil
      · rename_i symbol hsymbol
        obtain ⟨rows, hsent, hrows⟩ := sendTrades_sent h
        refine ⟨rows, by rw [hsent, tradeRows_append, tradeRows_trades], ?_⟩
        simp only [knownTrades, hparsed, hid, Option.bind_some, hsymbol]
        exact List.forall₂_map_left_iff.mpr (hrows rfl)

theorem step_no_trades (config : Config) {event : Event} (h : event.tradeFrame = none) (s : Session) :
    tradeRows (step config s event).1.tx.sent = tradeRows s.tx.sent := by
  match event, h with
  | .read none, _ => rfl
  | .read (some (.error e)), _ => rfl
  | .read (some (.ok (.close reason))), _ => rfl
  | .read (some (.ok .other)), _ => rfl
  | .read (some (.ok (.text (.error e)))), _ => rfl
  | .read (some (.ok (.text (.ok value)))), h =>
    simp only [step, handleText]
    split_ifs with herror hbook htrade hping
    · rfl
    · exact handleOrderbookFrame_trades value config.symbolCache s
    · simp [Event.tradeFrame, herror, hbook, htrade] at h
    · rw [(sendClient_frame s .pong).2]
    · rfl
  | .snapshotTick order, _ =>
    rcases hw : writePeriodicSnapshots config.symbolCache (order.arrange s.markets.entries) s.tx
      with ⟨tx, r⟩
    obtain ⟨done, rest, -, hsent, -⟩ := writePeriodicSnapshots_sent hw
    simp only [step, hw]
    rw [hsent, tradeRows_append, snapshotRows_trades, List.append_nil]
  | .keepaliveTick, _ => rw [step, (sendClient_frame s .ping).2]
  | .bookCheckTick, _ => rw [step, (sendClients_frame s _).2]

theorem step_tradeFrame {config : Config} {event : Event} {value : FrameValue}
    (h : event.tradeFrame = some value) (s : Session) :
    step config s event =
      ({ s with tx := (handleTradeFrame value config.symbolCache s.tx).1 },
        (handleTradeFrame value config.symbolCache s.tx).2) := by
  match event, h with
  | .read (some (.ok (.text (.ok value')))), h =>
    simp only [Event.tradeFrame] at h
    split_ifs at h with herror hbook htrade
    cases h
    simp only [step, handleText, herror, hbook, htrade, Bool.false_eq_true, if_false, if_true]

theorem step_trades {config : Config} {s s' : Session} {event : Event}
    (h : step config s event = (s', .ok ())) :
    ∃ rows, tradeRows s'.tx.sent = tradeRows s.tx.sent ++ rows ∧
      List.Forall₂ RowFor (event.trades config.symbolCache) rows := by
  unfold Event.trades
  cases hframe : event.tradeFrame with
  | none =>
    have hsent := step_no_trades config hframe s
    rw [h] at hsent
    exact ⟨[], by rw [hsent, List.append_nil], .nil⟩
  | some value =>
    rw [step_tradeFrame hframe] at h
    obtain ⟨rfl, hresult⟩ := Prod.mk.inj h
    exact handleTradeFrame_ok (Prod.ext rfl hresult)

/-- The event that ends a run of the loop with an error. -/
def failedAt (config : Config) : Session → List Event → Option Event
  | _, [] => none
  | s, event :: rest =>
    match step config s event with
    | (_, .error _) => some event
    | (next, .ok ()) => failedAt config next rest

theorem run_trades {config : Config} {s s' : Session} {events : List Event}
    {result : Except WsError Unit} (h : runEvents config s events = (s', result))
    (hclean : ∀ event ∈ failedAt config s events, event.tradeFrame = none) :
    ∃ rows, tradeRows s'.tx.sent = tradeRows s.tx.sent ++ rows ∧
      List.Forall₂ RowFor
        ((processed config s events).flatMap (Event.trades config.symbolCache)) rows := by
  induction events generalizing s with
  | nil =>
    cases h
    exact ⟨[], by simp, .nil⟩
  | cons event rest ih =>
    rcases hstep : step config s event with ⟨mid, e | u⟩
    · simp only [runEvents, failedAt, processed, hstep] at h hclean ⊢
      cases h
      have hsent := step_no_trades config (hclean event rfl) s
      rw [hstep] at hsent
      exact ⟨[], by rw [hsent, List.append_nil], .nil⟩
    · simp only [runEvents, failedAt, processed, hstep] at h hclean ⊢
      obtain ⟨first, hfirst, hfirstrows⟩ := step_trades hstep
      obtain ⟨more, hmore, hmorerows⟩ := ih h hclean
      refine ⟨first ++ more, by rw [hmore, hfirst, List.append_assoc], ?_⟩
      exact List.rel_append hfirstrows hmorerows

/-- The event that ends a connection with an error, unless its subscriptions do. -/
def connectionFailure (config : Config) (tx : Channel WriteMsg) (connection : Connection) : Option Event :=
  match sendClients ⟨∅, tx, .start connection.writeLifetime⟩ (subscriptions config) with
  | (_, .error _) => none
  | (s, .ok ()) => failedAt config s connection.events

theorem connection_trades {config : Config} {tx : Channel WriteMsg} {s : Session}
    {connection : Connection} {result : Except WsError Unit}
    (h : runWsIngestion config tx connection = (s, result))
    (hclean : ∀ event ∈ connectionFailure config tx connection, event.tradeFrame = none) :
    ∃ rows, tradeRows s.tx.sent = tradeRows tx.sent ++ rows ∧
      List.Forall₂ RowFor
        ((connectionEvents config tx connection).flatMap (Event.trades config.symbolCache)) rows := by
  unfold runWsIngestion at h
  unfold connectionFailure at hclean
  unfold connectionEvents
  rcases subscribed_cases config tx connection with ⟨start, e, hsub, htx⟩ | ⟨start, hsub, -, htx⟩
  · rw [hsub] at h ⊢
    cases h
    exact ⟨[], by rw [htx, List.append_nil], .nil⟩
  · rw [hsub] at h hclean ⊢
    have hrun := run_trades h hclean
    rwa [htx] at hrun

/-- The records of known markets that the connections handle, in order. -/
def deliveredTrades (config : Config) : Channel WriteMsg → List Connection → List (ℤ × Trade)
  | _, [] => []
  | tx, connection :: rest =>
    (connectionEvents config tx connection).flatMap (Event.trades config.symbolCache) ++
      deliveredTrades config (runWsIngestion config tx connection).1.tx rest

/-- No connection ends in the handler of a trade frame. -/
def TradesHandled (config : Config) : Channel WriteMsg → List Connection → Prop
  | _, [] => True
  | tx, connection :: rest =>
    (∀ event ∈ connectionFailure config tx connection, event.tradeFrame = none) ∧
      TradesHandled config (runWsIngestion config tx connection).1.tx rest

theorem collect_trades {config : Config} {tx : Channel WriteMsg} {connections : List Connection}
    (hclean : TradesHandled config tx connections) :
    ∃ rows, tradeRows (collect config tx connections).sent = tradeRows tx.sent ++ rows ∧
      List.Forall₂ RowFor (deliveredTrades config tx connections) rows := by
  induction connections generalizing tx with
  | nil => exact ⟨[], by simp [collect], .nil⟩
  | cons connection rest ih =>
    obtain ⟨hfirst, hrest⟩ := hclean
    obtain ⟨first, hsent, hfirstrows⟩ :=
      connection_trades (Prod.mk.eta (p := runWsIngestion config tx connection)).symm hfirst
    obtain ⟨more, hmore, hmorerows⟩ := ih hrest
    refine ⟨first ++ more, ?_, List.rel_append hfirstrows hmorerows⟩
    rw [← List.append_assoc, ← hsent]
    exact hmore

end LighterIngestor
