import LighterIngestor.MarketProjection

namespace LighterIngestor

variable [NumberTypes]

def WriteMsg.symbol : WriteMsg → ℤ
  | trade row => row.symbol
  | orderbook row => row.symbol

def SymbolCache.Knows (symbolCache : SymbolCache) (message : WriteMsg) : Prop :=
  ∃ marketId, symbolCache.map.lookup marketId = some message.symbol

/-- From one state of the channel to the other, only messages of known symbols were sent. -/
def Emits (symbolCache : SymbolCache) (c d : Channel WriteMsg) : Prop :=
  ∃ new, d.sent = c.sent ++ new ∧ ∀ message ∈ new, symbolCache.Knows message

namespace Emits

variable {symbolCache : SymbolCache} {c d e : Channel WriteMsg}

theorem refl (c : Channel WriteMsg) : Emits symbolCache c c := ⟨[], by simp, by simp⟩

theorem of_eq (h : d = c) : Emits symbolCache c d := h ▸ refl d

theorem trans (hcd : Emits symbolCache c d) (hde : Emits symbolCache d e) : Emits symbolCache c e := by
  obtain ⟨first, hd, hfirst⟩ := hcd
  obtain ⟨second, he, hsecond⟩ := hde
  refine ⟨first ++ second, by rw [he, hd, List.append_assoc], fun message hmessage => ?_⟩
  exact (List.mem_append.mp hmessage).elim (hfirst message) (hsecond message)

theorem of_send {message : WriteMsg} (h : c.send message = some d)
    (hknown : symbolCache.Knows message) : Emits symbolCache c d :=
  ⟨[message], Channel.send_some h, by simpa using hknown⟩

end Emits

theorem sendTrades_emits {symbolCache : SymbolCache} {marketId symbol : ℤ}
    (hsymbol : symbolCache.map.lookup marketId = some symbol) (trades : List Trade)
    (tx : Channel WriteMsg) : Emits symbolCache tx (sendTrades symbol trades tx).1 := by
  induction trades generalizing tx with
  | nil => exact .refl tx
  | cons trade rest ih =>
    rw [sendTrades]
    split
    · exact .refl tx
    · rename_i row hrow
      split
      · exact .refl tx
      · rename_i next hnext
        obtain ⟨-, heq, -⟩ := tradeRow_ok.mp hrow
        have hknown : symbolCache.Knows (.trade row) := ⟨marketId, hsymbol.trans (congrArg some heq.symm)⟩
        exact (Emits.of_send hnext hknown).trans (ih next)

theorem handleTradeFrame_emits (value : FrameValue) (symbolCache : SymbolCache) (tx : Channel WriteMsg) :
    Emits symbolCache tx (handleTradeFrame value symbolCache tx).1 := by
  unfold handleTradeFrame
  split
  · exact .refl tx
  · split
    · exact .refl tx
    · split
      · exact .refl tx
      · rename_i symbol hsymbol
        exact sendTrades_emits hsymbol _ tx

theorem handleOrderbookFrame_emits (value : FrameValue) (symbolCache : SymbolCache) (s : Session) :
    Emits symbolCache s.tx (handleOrderbookFrame value symbolCache s).1.tx := by
  rcases h : handleOrderbookFrame value symbolCache s with ⟨s', e | u⟩
  · exact .of_eq (handleOrderbookFrame_error h)
  · obtain ⟨parsed, marketId, -, -, ⟨-, rfl⟩ | ⟨symbol, market, tx, hsymbol, -, htx, rfl⟩⟩ :=
      handleOrderbookFrame_ok.mp h
    · exact .refl s'.tx
    · exact .of_send htx ⟨marketId, hsymbol⟩

theorem writePeriodicSnapshots_emits (symbolCache : SymbolCache) (entries : List (Σ _ : ℤ, MarketBook))
    (tx : Channel WriteMsg) : Emits symbolCache tx (writePeriodicSnapshots symbolCache entries tx).1 := by
  induction entries generalizing tx with
  | nil => exact .refl tx
  | cons entry rest ih =>
    obtain ⟨marketId, market⟩ := entry
    rw [writePeriodicSnapshots]
    split
    · exact .refl tx
    · rename_i symbol hsymbol
      split
      · exact .refl tx
      · rename_i next hnext
        have hknown : symbolCache.Knows (.orderbook (bookSnapshotRow symbol market)) := ⟨marketId, hsymbol⟩
        exact (Emits.of_send hnext hknown).trans (ih next)

theorem step_emits (config : Config) (s : Session) (event : Event) :
    Emits config.symbolCache s.tx (step config s event).1.tx := by
  match event with
  | .read none => exact .refl s.tx
  | .read (some (.error e)) => exact .refl s.tx
  | .read (some (.ok (.close reason))) => exact .refl s.tx
  | .read (some (.ok .other)) => exact .refl s.tx
  | .read (some (.ok (.text (.error e)))) => exact .refl s.tx
  | .read (some (.ok (.text (.ok value)))) =>
    simp only [step, handleText]
    split_ifs
    · exact .refl s.tx
    · exact handleOrderbookFrame_emits value config.symbolCache s
    · exact handleTradeFrame_emits value config.symbolCache s.tx
    · exact .of_eq (sendClient_frame s .pong).2
    · exact .refl s.tx
  | .snapshotTick order => exact writePeriodicSnapshots_emits config.symbolCache _ s.tx
  | .keepaliveTick => exact .of_eq (sendClient_frame s .ping).2
  | .bookCheckTick => exact .of_eq (sendClients_frame s _).2

theorem runEvents_emits (config : Config) (s : Session) (events : List Event) :
    Emits config.symbolCache s.tx (runEvents config s events).1.tx := by
  induction events generalizing s with
  | nil => exact .refl s.tx
  | cons event rest ih =>
    have hstep := step_emits config s event
    rw [runEvents]
    split
    · rename_i next e heq
      rwa [heq] at hstep
    · rename_i next heq
      rw [heq] at hstep
      exact hstep.trans (ih next)

theorem runWsIngestion_emits (config : Config) (tx : Channel WriteMsg) (connection : Connection) :
    Emits config.symbolCache tx (runWsIngestion config tx connection).1.tx := by
  have hframe := sendClients_frame ⟨∅, tx, .start connection.writeLifetime⟩ (subscriptions config)
  unfold runWsIngestion
  split
  · rename_i s e heq
    rw [heq] at hframe
    exact .of_eq hframe.2
  · rename_i s heq
    rw [heq] at hframe
    exact (Emits.of_eq hframe.2).trans (runEvents_emits config s connection.events)

theorem collect_emits (config : Config) (tx : Channel WriteMsg) (connections : List Connection) :
    Emits config.symbolCache tx (collect config tx connections) := by
  induction connections generalizing tx with
  | nil => exact .refl tx
  | cons connection rest ih => exact (runWsIngestion_emits config tx connection).trans (ih _)

end LighterIngestor
