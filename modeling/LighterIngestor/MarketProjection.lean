import LighterIngestor.MarketTrack

namespace LighterIngestor

variable [NumberTypes]

def snapshotRows (symbolCache : SymbolCache) (entries : List (Σ _ : ℤ, MarketBook)) : List WriteMsg :=
  entries.filterMap fun e =>
    (symbolCache.map.lookup e.1).map fun symbol => .orderbook (bookSnapshotRow symbol e.2)

theorem writePeriodicSnapshots_sent {symbolCache : SymbolCache}
    {entries : List (Σ _ : ℤ, MarketBook)} {tx tx' : Channel WriteMsg} {result : Except WsError Unit}
    (h : writePeriodicSnapshots symbolCache entries tx = (tx', result)) :
    ∃ done rest, entries = done ++ rest ∧ tx'.sent = tx.sent ++ snapshotRows symbolCache done ∧
      (result = .ok () → rest = []) := by
  induction entries generalizing tx with
  | nil =>
    cases h
    exact ⟨[], [], rfl, by simp [snapshotRows], fun _ => rfl⟩
  | cons e entries ih =>
    rw [writePeriodicSnapshots] at h
    split at h
    · cases h
      exact ⟨[], e :: entries, rfl, by simp [snapshotRows], by simp⟩
    · rename_i symbol hsymbol
      split at h
      · cases h
        exact ⟨[], e :: entries, rfl, by simp [snapshotRows], by simp⟩
      · rename_i mid hmid
        obtain ⟨done, rest, rfl, hsent, hok⟩ := ih h
        refine ⟨e :: done, rest, rfl, ?_, hok⟩
        rw [hsent, Channel.send_some hmid, List.append_assoc]
        simp [snapshotRows, hsymbol]

theorem symbolRows_snapshotRows {symbolCache : SymbolCache} {m symbol : ℤ}
    (hm : symbolCache.map.lookup m = some symbol) {entries : List (Σ _ : ℤ, MarketBook)}
    (hnodup : entries.NodupKeys) :
    symbolRows symbol (snapshotRows symbolCache entries) =
      ((entries.dlookup m).map (bookSnapshotRow symbol)).toList := by
  induction entries with
  | nil => rfl
  | cons e rest ih =>
    obtain ⟨id, market⟩ := e
    obtain ⟨hid, hrest⟩ := List.nodupKeys_cons.mp hnodup
    have hstep : snapshotRows symbolCache (⟨id, market⟩ :: rest) =
        ((symbolCache.map.lookup id).map fun symbol =>
          WriteMsg.orderbook (bookSnapshotRow symbol market)).toList ++ snapshotRows symbolCache rest := by
      simp only [snapshotRows, List.filterMap_cons]
      cases symbolCache.map.lookup id <;> rfl
    by_cases hmid : id = m
    · subst hmid
      have hnone : rest.dlookup id = none := List.dlookup_eq_none.mpr hid
      rw [hstep, hm, List.dlookup_cons_eq, symbolRows_append, ih hrest, hnone]
      simp [symbolRows, bookSnapshotRow]
    · have hne : ∀ other, symbolCache.map.lookup id = some other → other ≠ symbol := by
        rintro other hother rfl
        exact hmid (symbolCache.injective hother hm)
      rw [hstep, List.dlookup_cons_ne _ _ (Ne.symm hmid), symbolRows_append, ih hrest]
      cases hother : symbolCache.map.lookup id with
      | none => rfl
      | some other => simp [symbolRows, bookSnapshotRow, hne other hother]

theorem sendClient_frame (s : Session) (message : ClientMessage) :
    (sendClient s message).1.markets = s.markets ∧ (sendClient s message).1.tx = s.tx := by
  unfold sendClient
  split <;> exact ⟨rfl, rfl⟩

theorem sendClients_frame (s : Session) (messages : List ClientMessage) :
    (sendClients s messages).1.markets = s.markets ∧ (sendClients s messages).1.tx = s.tx := by
  induction messages generalizing s with
  | nil => exact ⟨rfl, rfl⟩
  | cons message rest ih =>
    have hframe := sendClient_frame s message
    rw [sendClients]
    split
    · rename_i next e heq
      rw [heq] at hframe
      exact hframe
    · rename_i next heq
      rw [heq] at hframe
      exact ⟨(ih next).1.trans hframe.1, (ih next).2.trans hframe.2⟩

/-- What one turn of the loop does, seen from a market: its rows are those of a track over
the market's part of the event, or over a part of that when the turn fails. -/
def StepTracks (m symbol : ℤ) (s s' : Session) (event : Event) (result : Except WsError Unit) : Prop :=
  ∃ new, s'.tx.sent = s.tx.sent ++ new ∧ ∃ events held,
    Track symbol (s.markets.lookup m) events held ((symbolRows symbol new).map (event.isTick, ·)) ∧
      (result = .ok () → events = (event.project m).toList ∧ held = s'.markets.lookup m) ∧
      (result ≠ .ok () → messagesOf events = [])

theorem StepTracks.quiet {m symbol : ℤ} {s s' : Session} {event : Event}
    {result : Except WsError Unit} (new : List WriteMsg) (hsent : s'.tx.sent = s.tx.sent ++ new)
    (hrows : symbolRows symbol new = [])
    (hok : result = .ok () → event.project m = none ∧ s'.markets.lookup m = s.markets.lookup m) :
    StepTracks m symbol s s' event result := by
  refine ⟨new, hsent, [], s.markets.lookup m, ?_, fun h => ?_, fun _ => rfl⟩
  · rw [hrows]
    exact .nil _
  · obtain ⟨hnone, hheld⟩ := hok h
    rw [hnone, hheld]
    exact ⟨rfl, rfl⟩

theorem StepTracks.still {m symbol : ℤ} {s s' : Session} {event : Event}
    {result : Except WsError Unit} (hmarkets : s'.markets = s.markets) (htx : s'.tx = s.tx)
    (hnone : event.project m = none) : StepTracks m symbol s s' event result :=
  .quiet [] (by rw [htx, List.append_nil]) rfl fun _ => ⟨hnone, by rw [hmarkets]⟩

theorem StepTracks.failed {m symbol : ℤ} {s s' : Session} {event : Event} {e : WsError}
    (htx : s'.tx = s.tx) : StepTracks m symbol s s' event (.error e) :=
  .quiet [] (by rw [htx, List.append_nil]) rfl (by simp)

theorem step_snapshotTick {config : Config} {s s' : Session} {order : IterationOrder}
    {result : Except WsError Unit} (h : step config s (.snapshotTick order) = (s', result)) :
    ∃ tx, writePeriodicSnapshots config.symbolCache (order.arrange s.markets.entries) s.tx = (tx, result) ∧
      s' = { s with tx } := by
  simp only [step] at h
  cases h
  exact ⟨_, rfl, rfl⟩

theorem tick_tracks {config : Config} {m symbol : ℤ}
    (hm : config.symbolCache.map.lookup m = some symbol) {s s' : Session} {order : IterationOrder}
    {result : Except WsError Unit} (h : step config s (.snapshotTick order) = (s', result)) :
    StepTracks m symbol s s' (.snapshotTick order) result := by
  obtain ⟨tx, hw, rfl⟩ := step_snapshotTick h
  obtain ⟨done, rest, harrange, hsent, hok⟩ := writePeriodicSnapshots_sent hw
  have hperm : (done ++ rest).Perm s.markets.entries := harrange ▸ order.perm s.markets.entries
  have hkeys : (done ++ rest).NodupKeys := (List.perm_nodupKeys hperm).mpr s.markets.nodupKeys
  have hdone : done.NodupKeys := hkeys.sublist (List.sublist_append_left done rest)
  have hlook : (done ++ rest).dlookup m = s.markets.lookup m :=
    List.perm_dlookup m hkeys hperm
  refine ⟨snapshotRows config.symbolCache done, hsent, ?_⟩
  rw [symbolRows_snapshotRows hm hdone]
  cases hd : done.dlookup m with
  | none =>
    refine ⟨(if result = .ok () then [.tick] else []), s.markets.lookup m, ?_, fun hr => ?_, fun hr => ?_⟩
    · split_ifs with hr
      · obtain rfl := hok hr
        rw [List.append_nil, hd] at hlook
        rw [← hlook]
        exact .silent (.nil none)
      · exact .nil _
    · rw [if_pos hr]
      exact ⟨rfl, rfl⟩
    · rw [if_neg hr]
      rfl
  | some market =>
    have hheld : s.markets.lookup m = some market := by
      rw [← hlook]
      exact (List.mem_dlookup_iff hkeys).mpr
        (List.mem_append_left _ ((List.mem_dlookup_iff hdone).mp hd))
    refine ⟨[.tick], s.markets.lookup m, ?_, fun _ => ⟨rfl, rfl⟩, fun _ => rfl⟩
    rw [hheld]
    exact .tick (.nil _)

theorem handleOrderbookFrame_ok {value : FrameValue} {symbolCache : SymbolCache} {s s' : Session} :
    handleOrderbookFrame value symbolCache s = (s', .ok ()) ↔
      ∃ parsed marketId, value.orderBook = .ok parsed ∧ parsed.marketId = some marketId ∧
        ((symbolCache.map.lookup marketId = none ∧ s' = s) ∨
          ∃ symbol market tx, symbolCache.map.lookup marketId = some symbol ∧
            Accepts (s.markets.lookup marketId) parsed market ∧
            s.tx.send (.orderbook (messageRow symbol parsed market.sourceTime)) = some tx ∧
            s' = { s with markets := s.markets.insert marketId market, tx }) := by
  constructor
  · intro h
    unfold handleOrderbookFrame at h
    split at h
    · cases h
    · rename_i parsed hparsed
      split at h
      · cases h
      · rename_i marketId hid
        refine ⟨parsed, marketId, hparsed, hid, ?_⟩
        split at h
        · rename_i hunknown
          cases h
          exact Or.inl ⟨hunknown, rfl⟩
        · rename_i symbol hsymbol
          split at h
          · cases h
          · rename_i markets row happly
            obtain ⟨market, haccepts, rfl, rfl⟩ := applyOrderbookMessage_ok.mp happly
            split at h
            · cases h
            · rename_i tx htx
              cases h
              exact Or.inr ⟨symbol, market, tx, hsymbol, haccepts, htx, rfl⟩
  · rintro ⟨parsed, marketId, hparsed, hid, ⟨hunknown, rfl⟩ |
      ⟨symbol, market, tx, hsymbol, haccepts, htx, rfl⟩⟩
    · simp only [handleOrderbookFrame, hparsed, hid, hunknown]
    · have happly : applyOrderbookMessage symbol marketId parsed s.markets =
          (s.markets.insert marketId market, .ok (messageRow symbol parsed market.sourceTime)) :=
        applyOrderbookMessage_ok.mpr ⟨market, haccepts, rfl, rfl⟩
      simp only [handleOrderbookFrame, hparsed, hid, hsymbol, happly, htx]

theorem handleOrderbookFrame_error {value : FrameValue} {symbolCache : SymbolCache} {s s' : Session}
    {e : WsError} (h : handleOrderbookFrame value symbolCache s = (s', .error e)) : s'.tx = s.tx := by
  unfold handleOrderbookFrame at h
  split at h
  · cases h
    rfl
  · split at h
    · cases h
      rfl
    · split at h
      · cases h
      · split at h
        · cases h
          rfl
        · split at h <;> cases h
          rfl

theorem orderbook_tracks {config : Config} {m symbol : ℤ}
    (hm : config.symbolCache.map.lookup m = some symbol) {s s' : Session} {value : FrameValue}
    {result : Except WsError Unit} (herror : value.hasError = false)
    (hty : endsWith value.ty "order_book" = true)
    (h : handleOrderbookFrame value config.symbolCache s = (s', result)) :
    StepTracks m symbol s s' (.read (some (.ok (.text (.ok value))))) result := by
  cases result with
  | error e => exact .failed (handleOrderbookFrame_error h)
  | ok u =>
    obtain ⟨parsed, marketId, hparsed, hid, hhandled⟩ := handleOrderbookFrame_ok.mp h
    have hproject : (Event.read (some (.ok (.text (.ok value))))).project m =
        if marketId = m then some (.message parsed) else none := by
      simp [Event.project, herror, hty, hparsed, hid]
    rcases hhandled with ⟨hunknown, rfl⟩ | ⟨other, market, tx, hother, haccepts, htx, rfl⟩
    · refine .still rfl rfl (hproject.trans (if_neg ?_))
      rintro rfl
      exact absurd (hunknown.symm.trans hm) (by simp)
    · by_cases hmid : marketId = m
      · subst hmid
        obtain rfl := Option.some.inj (hother.symm.trans hm)
        refine ⟨[_], Channel.send_some htx, [.message parsed], some market, ?_, fun _ => ?_, by simp⟩
        · simp only [symbolRows, List.filterMap_cons, messageRow, if_true, List.filterMap_nil,
            List.map_cons, List.map_nil]
          exact .message haccepts (.nil _)
        · rw [hproject, if_pos rfl]
          exact ⟨rfl, (AList.lookup_insert s.markets).symm⟩
      · refine .quiet [_] (Channel.send_some htx) ?_ fun _ => ⟨?_, ?_⟩
        · have hne : other ≠ symbol := by
            rintro rfl
            exact hmid (config.symbolCache.injective hother hm)
          simp [symbolRows, messageRow, hne]
        · rw [hproject, if_neg hmid]
        · exact AList.lookup_insert_ne (Ne.symm hmid)

theorem trade_sent {value : FrameValue} {symbolCache : SymbolCache} {tx tx' : Channel WriteMsg}
    {result : Except WsError Unit} (h : handleTradeFrame value symbolCache tx = (tx', result)) :
    ∃ rows : List TradeRow, tx'.sent = tx.sent ++ rows.map WriteMsg.trade := by
  unfold handleTradeFrame at h
  split at h
  · cases h
    exact ⟨[], by simp⟩
  · split at h
    · cases h
      exact ⟨[], by simp⟩
    · split at h
      · cases h
        exact ⟨[], by simp⟩
      · obtain ⟨rows, hsent, -⟩ := sendTrades_sent h
        exact ⟨rows, hsent⟩

theorem step_tracks {config : Config} {m symbol : ℤ}
    (hm : config.symbolCache.map.lookup m = some symbol) {s s' : Session} {event : Event}
    {result : Except WsError Unit} (h : step config s event = (s', result)) :
    StepTracks m symbol s s' event result := by
  match event, h with
  | .read none, h => cases h; exact .failed rfl
  | .read (some (.error e)), h => cases h; exact .failed rfl
  | .read (some (.ok (.close reason))), h => cases h; exact .failed rfl
  | .read (some (.ok .other)), h => cases h; exact .still rfl rfl rfl
  | .read (some (.ok (.text (.error e)))), h => cases h; exact .failed rfl
  | .read (some (.ok (.text (.ok value)))), h =>
    simp only [step, handleText] at h
    split_ifs at h with herror hbook htrade hping
    · cases h
      exact .still rfl rfl (by simp [Event.project, herror])
    · exact orderbook_tracks hm (by simpa using herror) hbook h
    · rcases htx : handleTradeFrame value config.symbolCache s.tx with ⟨tx, r⟩
      rw [htx] at h
      cases h
      obtain ⟨rows, hsent⟩ := trade_sent htx
      exact .quiet _ hsent (symbolRows_trades symbol rows)
        fun _ => ⟨by simp [Event.project, hbook], rfl⟩
    · have hframe := sendClient_frame s .pong
      rw [h] at hframe
      exact .still hframe.1 hframe.2 (by simp [Event.project, hbook])
    · cases h
      exact .still rfl rfl (by simp [Event.project, hbook])
  | .snapshotTick order, h => exact tick_tracks hm h
  | .keepaliveTick, h =>
    have hframe := sendClient_frame s .ping
    rw [step] at h
    rw [h] at hframe
    exact .still hframe.1 hframe.2 rfl
  | .bookCheckTick, h =>
    rw [step] at h
    have hframe := sendClients_frame s ((missingBooks config.marketIds s.markets).flatMap
      fun marketId => [.unsubscribe (orderbookChannel marketId), .subscribe (orderbookChannel marketId)])
    rw [h] at hframe
    exact .still hframe.1 hframe.2 rfl

end LighterIngestor
