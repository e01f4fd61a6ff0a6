import LighterIngestor.MarketRuns

namespace LighterIngestor

variable [NumberTypes]

theorem writePeriodicSnapshots_ok {symbolCache : SymbolCache}
    {entries : List (Σ _ : ℤ, MarketBook)} {tx tx' : Channel WriteMsg} :
    writePeriodicSnapshots symbolCache entries tx = (tx', .ok ()) ↔
      (∀ e ∈ entries, e.1 ∈ symbolCache.map) ∧ tx.Room entries.length ∧
        tx' = { tx with sent := tx.sent ++ snapshotRows symbolCache entries } := by
  induction entries generalizing tx with
  | nil => simp [writePeriodicSnapshots, Channel.Room, snapshotRows, eq_comm]
  | cons e rest ih =>
    cases hsymbol : symbolCache.map.lookup e.1 with
    | none =>
      have hunknown : e.1 ∉ symbolCache.map := AList.lookup_eq_none.mp hsymbol
      simp [writePeriodicSnapshots, hsymbol, hunknown]
    | some symbol =>
      have hknown : e.1 ∈ symbolCache.map := AList.lookup_isSome.mp (Option.isSome_of_eq_some hsymbol)
      have hrows : snapshotRows symbolCache (e :: rest) =
          .orderbook (bookSnapshotRow symbol e.2) :: snapshotRows symbolCache rest := by
        simp [snapshotRows, hsymbol]
      rw [writePeriodicSnapshots, hsymbol, hrows]
      cases hsend : tx.send (.orderbook (bookSnapshotRow symbol e.2)) with
      | none =>
        have hfull : ¬ tx.Room (rest.length + 1) := by
          intro hroom
          have hsome := (Channel.send_eq_some (x := .orderbook (bookSnapshotRow symbol e.2))).mpr
            ⟨hroom.mono rfl le_rfl (by omega), rfl⟩
          rw [hsend] at hsome
          cases hsome
        simp [hsend, hfull]
      | some mid =>
        obtain ⟨hone, rfl⟩ := Channel.send_eq_some.mp hsend
        have hroom : Channel.Room { tx with sent := tx.sent ++ [WriteMsg.orderbook (bookSnapshotRow symbol e.2)] }
            rest.length ↔ tx.Room (e :: rest).length := by
          refine forall₂_congr fun n hn => ?_
          have := hone n hn
          simp only [List.length_append, List.length_cons, List.length_nil]
          omega
        simp only [hsend, ih, hroom, List.forall_mem_cons, hknown, true_and, List.append_assoc,
          List.cons_append, List.nil_append]

theorem snapshotRows_length {symbolCache : SymbolCache} {entries : List (Σ _ : ℤ, MarketBook)}
    (h : ∀ e ∈ entries, e.1 ∈ symbolCache.map) :
    (snapshotRows symbolCache entries).length = entries.length := by
  induction entries with
  | nil => rfl
  | cons e rest ih =>
    obtain ⟨he, hrest⟩ := List.forall_mem_cons.mp h
    obtain ⟨symbol, hsymbol⟩ := Option.isSome_iff_exists.mp (AList.lookup_isSome.mpr he)
    have hih := ih hrest
    simp only [snapshotRows] at hih
    simp only [snapshotRows, List.filterMap_cons, hsymbol, Option.map_some, List.length_cons, hih]

theorem handleOrderbookFrame_unknown {value : FrameValue} {symbolCache : SymbolCache} {m : ℤ}
    (hm : m ∉ symbolCache.map) (s : Session) :
    (handleOrderbookFrame value symbolCache s).1.markets.lookup m = s.markets.lookup m := by
  unfold handleOrderbookFrame
  split
  · rfl
  · rename_i parsed _
    split
    · rfl
    · rename_i marketId _
      split
      · rfl
      · rename_i symbol hsymbol
        have hne : m ≠ marketId := by
          rintro rfl
          exact hm (AList.lookup_isSome.mp (Option.isSome_of_eq_some hsymbol))
        have hother := applyOrderbookMessage_other symbol marketId parsed s.markets hne
        split
        · rename_i happly
          rw [happly] at hother
          exact hother
        · rename_i happly
          rw [happly] at hother
          split <;> exact hother

theorem step_unknown {config : Config} {m : ℤ} (hm : m ∉ config.symbolCache.map) (s : Session)
    (event : Event) : (step config s event).1.markets.lookup m = s.markets.lookup m := by
  match event with
  | .read none => rfl
  | .read (some (.error e)) => rfl
  | .read (some (.ok (.close reason))) => rfl
  | .read (some (.ok .other)) => rfl
  | .read (some (.ok (.text (.error e)))) => rfl
  | .read (some (.ok (.text (.ok value)))) =>
    simp only [step, handleText]
    split_ifs
    · rfl
    · exact handleOrderbookFrame_unknown hm s
    · rfl
    · rw [(sendClient_frame s .pong).1]
    · rfl
  | .snapshotTick order => rfl
  | .keepaliveTick => rw [step, (sendClient_frame s .ping).1]
  | .bookCheckTick => rw [step, (sendClients_frame s _).1]

theorem sendTrades_grew {symbol : ℤ} {trades : List Trade} {tx tx' : Channel WriteMsg}
    {result : Except WsError Unit} (h : sendTrades symbol trades tx = (tx', result)) :
    Channel.Grew tx tx' := by
  induction trades generalizing tx with
  | nil =>
    cases h
    exact .refl _
  | cons trade rest ih =>
    rw [sendTrades] at h
    split at h
    · cases h
      exact .refl _
    · split at h
      · cases h
        exact .refl _
      · rename_i mid hmid
        exact (Channel.send_grew hmid).trans (ih h)

theorem handleTradeFrame_grew {value : FrameValue} {symbolCache : SymbolCache} {tx tx' : Channel WriteMsg}
    (h : handleTradeFrame value symbolCache tx = (tx', .ok ())) : Channel.Grew tx tx' := by
  unfold handleTradeFrame at h
  split at h
  · cases h
  · split at h
    · cases h
    · split at h
      · cases h
        exact .refl _
      · exact sendTrades_grew h

theorem step_grew {config : Config} {s s' : Session} {event : Event}
    (h : step config s event = (s', .ok ())) : Channel.Grew s.tx s'.tx := by
  match event, h with
  | .read (some (.ok .other)), h => cases h; exact .refl _
  | .read (some (.ok (.text (.ok value)))), h =>
    simp only [step, handleText] at h
    split_ifs at h with herror hbook htrade hping
    · cases h
      exact .refl _
    · obtain ⟨parsed, marketId, -, -, ⟨-, rfl⟩ | ⟨symbol, market, tx, -, -, htx, rfl⟩⟩ :=
        handleOrderbookFrame_ok.mp h
      · exact .refl _
      · exact Channel.send_grew htx
    · rcases htx : handleTradeFrame value config.symbolCache s.tx with ⟨tx, r⟩
      rw [htx] at h
      cases h
      exact handleTradeFrame_grew htx
    · have hframe := sendClient_frame s .pong
      rw [h] at hframe
      rw [hframe.2]
      exact .refl _
    · cases h
      exact .refl _
  | .snapshotTick order, h =>
    obtain ⟨tx, hw, rfl⟩ := step_snapshotTick h
    obtain ⟨-, -, rfl⟩ := writePeriodicSnapshots_ok.mp hw
    exact ⟨rfl, by simp⟩
  | .keepaliveTick, h =>
    have hframe := sendClient_frame s .ping
    rw [step] at h
    rw [h] at hframe
    rw [hframe.2]
    exact .refl _
  | .bookCheckTick, h =>
    have hframe := sendClients_frame s ((missingBooks config.marketIds s.markets).flatMap
      fun marketId => [.unsubscribe (orderbookChannel marketId), .subscribe (orderbookChannel marketId)])
    rw [step] at h
    rw [h] at hframe
    rw [hframe.2]
    exact .refl _

/-- The market's own frames and the ticks. -/
def ownEvents (m : ℤ) (events : List Event) : List Event :=
  events.filter fun event => (event.project m).isSome

/-- `t` is what `s` would be if it had only seen the market `m`. -/
structure Alone (m : ℤ) (s t : Session) : Prop where
  held : t.markets.lookup m = s.markets.lookup m
  only : ∀ k ∈ t.markets, k = m
  lifetime : t.tx.lifetime = s.tx.lifetime
  sent : t.tx.sent.length ≤ s.tx.sent.length

theorem step_others {config : Config} {m : ℤ} {s s' : Session} {event : Event}
    (h : step config s event = (s', .ok ())) (hnone : event.project m = none) :
    s'.markets.lookup m = s.markets.lookup m := by
  cases hm : config.symbolCache.map.lookup m with
  | none =>
    have hheld := step_unknown (AList.lookup_eq_none.mp hm) s event
    rwa [h] at hheld
  | some symbol =>
    obtain ⟨new, -, events, held, htrack, hok, -⟩ := step_tracks hm h
    obtain ⟨rfl, rfl⟩ := hok rfl
    rw [hnone] at htrack
    exact (htrack.unique (.nil _)).1

theorem Alone.skip {config : Config} {m : ℤ} {s s' t : Session} {event : Event} (h : Alone m s t)
    (hstep : step config s event = (s', .ok ())) (hnone : event.project m = none) :
    Alone m s' t where
  held := h.held.trans (step_others hstep hnone).symm
  only := h.only
  lifetime := h.lifetime.trans (step_grew hstep).lifetime.symm
  sent := h.sent.trans (step_grew hstep).sent

theorem Alone.keys {m : ℤ} {s t : Session} (h : Alone m s t) {k : ℤ} (hk : k ∈ t.markets) :
    k ∈ s.markets := by
  obtain rfl := h.only k hk
  rw [← AList.lookup_isSome, ← h.held, AList.lookup_isSome]
  exact hk

theorem Alone.tick {config : Config} {m : ℤ} {s s' t : Session} {order : IterationOrder}
    (h : Alone m s t) (hstep : step config s (.snapshotTick order) = (s', .ok ())) :
    ∃ t', step config t (.snapshotTick order) = (t', .ok ()) ∧ Alone m s' t' := by
  obtain ⟨tx, hw, rfl⟩ := step_snapshotTick hstep
  obtain ⟨hknown, hroom, rfl⟩ := writePeriodicSnapshots_ok.mp hw
  have hlength : (order.arrange t.markets.entries).length ≤ (order.arrange s.markets.entries).length := by
    have hkeys := (List.subperm_of_subset t.markets.keys_nodup fun k hk => h.keys hk).length_le
    simpa [AList.keys, List.keys, (order.perm _).length_eq] using hkeys
  have hall : ∀ e ∈ order.arrange t.markets.entries, e.1 ∈ config.symbolCache.map := by
    intro e he
    have hmem : e.1 ∈ s.markets := h.keys (List.mem_keys_of_mem ((order.perm _).mem_iff.mp he))
    obtain ⟨b, hb⟩ := List.exists_of_mem_keys (AList.mem_keys.mp hmem)
    exact hknown ⟨e.1, b⟩ ((order.perm _).mem_iff.mpr hb)
  have hstep' : step config t (.snapshotTick order) = ({ t with tx := { t.tx with
      sent := t.tx.sent ++ snapshotRows config.symbolCache (order.arrange t.markets.entries) } },
      .ok ()) := by
    simp only [step, writePeriodicSnapshots_ok.mpr
      ⟨hall, hroom.mono h.lifetime h.sent hlength, rfl⟩]
  refine ⟨_, hstep', h.held, h.only, h.lifetime, ?_⟩
  simp only [List.length_append, snapshotRows_length hall, snapshotRows_length hknown]
  exact Nat.add_le_add h.sent hlength

theorem Alone.own {config : Config} {m : ℤ} {s s' t : Session} {event : Event} (h : Alone m s t)
    (hstep : step config s event = (s', .ok ())) (hown : event.project m ≠ none) :
    ∃ t', step config t event = (t', .ok ()) ∧ Alone m s' t' := by
  match event, hstep with
  | .snapshotTick order, hstep => exact h.tick hstep
  | .read (some (.ok (.text (.ok value)))), hstep =>
    have herror : value.hasError = false := by
      by_contra hne
      exact hown (by simp [Event.project, hne])
    have hbook : endsWith value.ty "order_book" = true := by
      by_contra hne
      exact hown (by simp [Event.project, hne])
    simp only [step, handleText, herror, hbook, Bool.false_eq_true, if_false, if_true] at hstep ⊢
    obtain ⟨parsed, marketId, hparsed, hid, hcase⟩ := handleOrderbookFrame_ok.mp hstep
    obtain rfl : marketId = m := by
      by_contra hne
      exact hown (by simp [Event.project, herror, hbook, hparsed, hid, hne])
    rcases hcase with ⟨hunknown, rfl⟩ | ⟨symbol, market, tx, hsymbol, haccepts, htx, rfl⟩
    · exact ⟨t, handleOrderbookFrame_ok.mpr ⟨parsed, marketId, hparsed, hid, .inl ⟨hunknown, rfl⟩⟩, h⟩
    · obtain ⟨hroom, rfl⟩ := Channel.send_eq_some.mp htx
      refine ⟨_, handleOrderbookFrame_ok.mpr ⟨parsed, marketId, hparsed, hid, .inr
        ⟨symbol, market, _, hsymbol, h.held ▸ haccepts,
          Channel.send_eq_some.mpr ⟨hroom.mono h.lifetime h.sent le_rfl, rfl⟩, rfl⟩⟩, ?_, ?_, h.lifetime, ?_⟩
      · simp only [AList.lookup_insert]
      · intro k hk
        rcases (AList.mem_insert _).mp hk with rfl | hk
        · rfl
        · exact h.only k hk
      · simpa using h.sent

theorem Alone.run {config : Config} {m : ℤ} {s s' t : Session} {events : List Event}
    (h : Alone m s t) (hrun : runEvents config s events = (s', .ok ())) :
    ∃ t', runEvents config t (ownEvents m events) = (t', .ok ()) ∧ Alone m s' t' := by
  induction events generalizing s t with
  | nil =>
    cases hrun
    exact ⟨t, rfl, h⟩
  | cons event rest ih =>
    rcases hstep : step config s event with ⟨mid, e | u⟩
    · rw [runEvents, hstep] at hrun
      cases hrun
    · rw [runEvents, hstep] at hrun
      cases hproject : event.project m with
      | none =>
        rw [ownEvents, List.filter_cons_of_neg (by simp [hproject])]
        exact ih (h.skip hstep hproject) hrun
      | some own =>
        obtain ⟨t', ht', halone⟩ := h.own hstep (by simp [hproject])
        rw [ownEvents, List.filter_cons_of_pos (by simp [hproject]), runEvents, ht']
        exact ih halone hrun

theorem ownEvents_project (m : ℤ) (events : List Event) :
    (ownEvents m events).filterMap (Event.project m) = events.filterMap (Event.project m) := by
  rw [ownEvents, List.filterMap_filter]
  refine List.filterMap_congr fun event _ => ?_
  cases event.project m <;> rfl

theorem run_unknown {config : Config} {m : ℤ} (hm : m ∉ config.symbolCache.map) {s s' : Session}
    {events : List Event} (h : runEvents config s events = (s', .ok ())) :
    s'.markets.lookup m = s.markets.lookup m := by
  induction events generalizing s with
  | nil =>
    cases h
    rfl
  | cons event rest ih =>
    have hheld := step_unknown hm s event
    rw [runEvents] at h
    split at h
    · cases h
    · rename_i mid hmid
      rw [hmid] at hheld
      exact (ih h).trans hheld

end LighterIngestor
