import LighterIngestor.ChannelNames
import LighterIngestor.Lives
import Mathlib.Data.Finset.Basic
import Mathlib.Data.Finset.Lattice.Lemmas

namespace LighterIngestor

/-- What a message does to the channels that the server has subscribed for the connection. -/
def ClientMessage.apply (channels : Finset String) : ClientMessage → Finset String
  | subscribe channel => insert channel channels
  | unsubscribe channel => channels.erase channel
  | pong => channels
  | ping => channels

def subscribed (sent : List ClientMessage) : Finset String := sent.foldl ClientMessage.apply ∅

def Config.channels (config : Config) : Finset String :=
  (config.marketIds.map orderbookChannel).toFinset ∪ (config.marketIds.map tradeChannel).toFinset

def resubscriptions (marketIds : List ℤ) : List ClientMessage :=
  marketIds.flatMap fun marketId =>
    [.unsubscribe (orderbookChannel marketId), .subscribe (orderbookChannel marketId)]

theorem subscribed_append (a b : List ClientMessage) :
    subscribed (a ++ b) = b.foldl ClientMessage.apply (subscribed a) := List.foldl_append

theorem Config.orderbook_mem {config : Config} {marketId : ℤ} (h : marketId ∈ config.marketIds) :
    orderbookChannel marketId ∈ config.channels :=
  Finset.mem_union_left _ (List.mem_toFinset.mpr (List.mem_map_of_mem h))

theorem Config.trade_mem {config : Config} {marketId : ℤ} (h : marketId ∈ config.marketIds) :
    tradeChannel marketId ∈ config.channels :=
  Finset.mem_union_right _ (List.mem_toFinset.mpr (List.mem_map_of_mem h))

theorem subscribed_subscriptions (config : Config) : subscribed (subscriptions config) = config.channels := by
  have hfold : ∀ (marketIds : List ℤ) (channels : Finset String),
      (marketIds.flatMap fun marketId =>
        [ClientMessage.subscribe (orderbookChannel marketId), .subscribe (tradeChannel marketId)]).foldl
          ClientMessage.apply channels =
        channels ∪ ((marketIds.map orderbookChannel).toFinset ∪ (marketIds.map tradeChannel).toFinset) := by
    intro marketIds
    induction marketIds with
    | nil => simp
    | cons marketId rest ih =>
      intro channels
      rw [List.flatMap_cons, List.foldl_append, ih]
      ext channel
      simp only [List.foldl_cons, List.foldl_nil, ClientMessage.apply, Finset.mem_union, Finset.mem_insert,
        List.map_cons, List.toFinset_cons]
      tauto
  rw [subscribed, subscriptions, hfold, Finset.empty_union, Config.channels]

theorem resubscriptions_fold {marketIds : List ℤ} {channels : Finset String}
    (h : ∀ marketId ∈ marketIds, orderbookChannel marketId ∈ channels) :
    (resubscriptions marketIds).foldl ClientMessage.apply channels = channels := by
  induction marketIds with
  | nil => rfl
  | cons marketId rest ih =>
    obtain ⟨hmem, hrest⟩ := List.forall_mem_cons.mp h
    rw [resubscriptions, List.flatMap_cons, List.foldl_append, List.foldl_cons, List.foldl_cons,
      List.foldl_nil, ClientMessage.apply, ClientMessage.apply, Finset.insert_erase hmem]
    exact ih hrest

theorem resubscriptions_prefix {marketIds : List ℤ} {channels : Finset String} {part : List ClientMessage}
    (h : ∀ marketId ∈ marketIds, orderbookChannel marketId ∈ channels)
    (hpart : part <+: resubscriptions marketIds) :
    part.foldl ClientMessage.apply channels = channels ∨
      ∃ marketId ∈ marketIds, part.foldl ClientMessage.apply channels =
        channels.erase (orderbookChannel marketId) := by
  induction marketIds generalizing part with
  | nil =>
    rw [List.prefix_nil.mp hpart]
    exact Or.inl rfl
  | cons marketId rest ih =>
    obtain ⟨hmem, hrest⟩ := List.forall_mem_cons.mp h
    have hall : resubscriptions (marketId :: rest) = .unsubscribe (orderbookChannel marketId) ::
        .subscribe (orderbookChannel marketId) :: resubscriptions rest := rfl
    rw [hall] at hpart
    rcases List.prefix_cons_iff.mp hpart with rfl | ⟨part, rfl, hmore⟩
    · exact Or.inl rfl
    rcases List.prefix_cons_iff.mp hmore with rfl | ⟨part, rfl, hlast⟩
    · exact Or.inr ⟨marketId, List.mem_cons_self, rfl⟩
    rw [List.foldl_cons, List.foldl_cons, ClientMessage.apply, ClientMessage.apply,
      Finset.insert_erase hmem]
    rcases ih hrest hlast with hsame | ⟨other, hother, hgone⟩
    · exact Or.inl hsame
    · exact Or.inr ⟨other, List.mem_cons_of_mem _ hother, hgone⟩

def Keepalive (messages : List ClientMessage) : Prop :=
  ∀ message ∈ messages, message = .pong ∨ message = .ping

theorem Keepalive.fold {messages part : List ClientMessage} (h : Keepalive messages)
    (hpart : part <+: messages) (channels : Finset String) :
    part.foldl ClientMessage.apply channels = channels := by
  have hall : Keepalive part := fun message hmessage => h message (hpart.subset hmessage)
  clear hpart h
  induction part with
  | nil => rfl
  | cons message rest ih =>
    obtain ⟨hmessage, hrest⟩ := List.forall_mem_cons.mp hall
    rcases hmessage with rfl | rfl <;> exact ih hrest

section

variable [NumberTypes]

theorem sendClients_sent {s s' : Session} {messages : List ClientMessage} {result : Except WsError Unit}
    (h : sendClients s messages = (s', result)) :
    ∃ part, s'.write.sent = s.write.sent ++ part ∧ part <+: messages ∧
      (result = .ok () ↔ part = messages) := by
  induction messages generalizing s with
  | nil =>
    cases h
    exact ⟨[], by simp, List.prefix_refl _, by simp⟩
  | cons message rest ih =>
    rw [sendClients, sendClient] at h
    cases hsend : s.write.send message with
    | none =>
      rw [hsend] at h
      cases h
      exact ⟨[], by simp, List.nil_prefix, by simp⟩
    | some write =>
      rw [hsend] at h
      obtain ⟨part, hsent, hpart, hok⟩ := ih h
      refine ⟨message :: part, ?_, (List.prefix_cons_inj message).mpr hpart, by simp [hok]⟩
      rw [hsent, Channel.send_some hsend, List.append_assoc]
      rfl

def Says (config : Config) (s s' : Session) (event : Event) (result : Except WsError Unit) : Prop :=
  ∃ new, s'.write.sent = s.write.sent ++ new ∧
    (Keepalive new ∨ event = .bookCheckTick ∧
      new <+: resubscriptions (missingBooks config.marketIds s.markets) ∧
      (result = .ok () → new = resubscriptions (missingBooks config.marketIds s.markets)))

theorem Says.nothing {config : Config} {s s' : Session} {event : Event} {result : Except WsError Unit}
    (h : s'.write = s.write) : Says config s s' event result :=
  ⟨[], by rw [h, List.append_nil], Or.inl (by simp [Keepalive])⟩

theorem Says.client {config : Config} {s s' : Session} {event : Event} {result : Except WsError Unit}
    {message : ClientMessage} (hmessage : message = .pong ∨ message = .ping)
    (h : sendClient s message = (s', result)) : Says config s s' event result := by
  unfold sendClient at h
  split at h
  · cases h
    exact .nothing rfl
  · rename_i write hsend
    cases h
    exact ⟨[message], Channel.send_some hsend, Or.inl (by simpa [Keepalive] using hmessage)⟩

theorem handleOrderbookFrame_write (value : FrameValue) (symbolCache : SymbolCache) (s : Session) :
    (handleOrderbookFrame value symbolCache s).1.write = s.write := by
  unfold handleOrderbookFrame
  repeat' split
  all_goals rfl

theorem step_says {config : Config} {s s' : Session} {event : Event} {result : Except WsError Unit}
    (h : step config s event = (s', result)) : Says config s s' event result := by
  match event, h with
  | .read none, h => cases h; exact .nothing rfl
  | .read (some (.error e)), h => cases h; exact .nothing rfl
  | .read (some (.ok (.close reason))), h => cases h; exact .nothing rfl
  | .read (some (.ok .other)), h => cases h; exact .nothing rfl
  | .read (some (.ok (.text (.error e)))), h => cases h; exact .nothing rfl
  | .read (some (.ok (.text (.ok value)))), h =>
    simp only [step, handleText] at h
    split_ifs at h
    · cases h
      exact .nothing rfl
    · have hwrite := handleOrderbookFrame_write value config.symbolCache s
      rw [h] at hwrite
      exact .nothing hwrite
    · cases h
      exact .nothing rfl
    · exact .client (Or.inl rfl) h
    · cases h
      exact .nothing rfl
  | .snapshotTick order, h =>
    obtain ⟨tx, -, rfl⟩ := step_snapshotTick h
    exact .nothing rfl
  | .keepaliveTick, h => exact .client (Or.inr rfl) h
  | .bookCheckTick, h =>
    obtain ⟨part, hsent, hpart, hok⟩ := sendClients_sent h
    exact ⟨part, hsent, Or.inr ⟨rfl, hpart, hok.mp⟩⟩

/-- A market that has no book at a book check of a run. -/
def LacksBook (config : Config) (s : Session) (events : List Event) (marketId : ℤ) : Prop :=
  ∃ before mid, before ++ [.bookCheckTick] <+: events ∧ runEvents config s before = (mid, .ok ()) ∧
    marketId ∉ mid.markets

/-- What the server has subscribed at any time of a run. -/
structure Serves (config : Config) (s : Session) (events : List Event) (sent : List ClientMessage) : Prop where
  subset : subscribed sent ⊆ config.channels
  trades : ∀ marketId ∈ config.marketIds, tradeChannel marketId ∈ subscribed sent
  books : ∀ marketId ∈ config.marketIds, orderbookChannel marketId ∈ subscribed sent ∨
    LacksBook config s events marketId

theorem Serves.all {config : Config} {s : Session} {events : List Event} {sent : List ClientMessage}
    (h : subscribed sent = config.channels) : Serves config s events sent where
  subset := h.subset
  trades _ hid := h ▸ config.trade_mem hid
  books _ hid := Or.inl (h ▸ config.orderbook_mem hid)

theorem Serves.cons {config : Config} {s next : Session} {event : Event} {events : List Event}
    {sent : List ClientMessage} (hstep : step config s event = (next, .ok ()))
    (h : Serves config next events sent) : Serves config s (event :: events) sent := by
  refine ⟨h.subset, h.trades, fun marketId hid => (h.books marketId hid).imp_right ?_⟩
  rintro ⟨before, mid, hbefore, hrun, hlacks⟩
  exact ⟨event :: before, mid, (List.prefix_cons_inj event).mpr hbefore, by rw [runEvents, hstep]; exact hrun, hlacks⟩

theorem Says.serves {config : Config} {s s' : Session} {event : Event} {result : Except WsError Unit}
    (h : Says config s s' event result) (hall : subscribed s.write.sent = config.channels) :
    (result = .ok () → subscribed s'.write.sent = config.channels) ∧
      ∀ sent events, s.write.sent <+: sent → sent <+: s'.write.sent →
        Serves config s (event :: events) sent := by
  obtain ⟨new, hsent, hnew⟩ := h
  have hsplit : ∀ sent, s.write.sent <+: sent → sent <+: s'.write.sent →
      ∃ part, part <+: new ∧ subscribed sent = part.foldl ClientMessage.apply config.channels := by
    rintro sent ⟨part, rfl⟩ hpart
    rw [hsent, List.prefix_append_right_inj] at hpart
    exact ⟨part, hpart, by rw [subscribed_append, hall]⟩
  have hlisted : ∀ marketId ∈ missingBooks config.marketIds s.markets,
      orderbookChannel marketId ∈ config.channels := fun marketId hid =>
    config.orderbook_mem (List.mem_filter.mp hid).1
  rcases hnew with hkeep | ⟨rfl, hpart, hok⟩
  · refine ⟨fun _ => ?_, fun sent events hfrom hto => ?_⟩
    · rw [hsent, subscribed_append, hkeep.fold (List.prefix_refl _), hall]
    · obtain ⟨part, hpart, heq⟩ := hsplit sent hfrom hto
      exact .all (heq.trans (hkeep.fold hpart _))
  · refine ⟨fun hresult => ?_, fun sent events hfrom hto => ?_⟩
    · rw [hsent, subscribed_append, hok hresult, hall, resubscriptions_fold hlisted]
    · obtain ⟨part, hpart', heq⟩ := hsplit sent hfrom hto
      rcases resubscriptions_prefix hlisted (hpart'.trans hpart) with hsame | ⟨missing, hmissing, hgone⟩
      · exact .all (heq.trans hsame)
      · rw [hgone] at heq
        refine ⟨heq ▸ Finset.erase_subset _ _, fun marketId hid => ?_, fun marketId hid => ?_⟩
        · rw [heq]
          exact Finset.mem_erase.mpr ⟨(orderbookChannel_ne_tradeChannel _ _).symm, config.trade_mem hid⟩
        · by_cases hsame : marketId = missing
          · subst hsame
            have hnone : marketId ∉ s.markets := by simpa using (List.mem_filter.mp hmissing).2
            exact Or.inr ⟨[], s, ⟨events, rfl⟩, rfl, hnone⟩
          · rw [heq]
            exact Or.inl (Finset.mem_erase.mpr
              ⟨fun hname => hsame (orderbookChannel_injective hname), config.orderbook_mem hid⟩)

theorem run_serves {config : Config} {s s' : Session} {events : List Event} {result : Except WsError Unit}
    (hall : subscribed s.write.sent = config.channels) (h : runEvents config s events = (s', result)) :
    s.write.sent <+: s'.write.sent ∧ (result = .ok () → subscribed s'.write.sent = config.channels) ∧
      ∀ sent, s.write.sent <+: sent → sent <+: s'.write.sent → Serves config s events sent := by
  induction events generalizing s with
  | nil =>
    cases h
    refine ⟨List.prefix_refl _, fun _ => hall, fun sent hfrom hto => .all ?_⟩
    rwa [hto.eq_of_length (Nat.le_antisymm hto.length_le hfrom.length_le)]
  | cons event rest ih =>
    rcases hstep : step config s event with ⟨next, r⟩
    obtain ⟨hok, hserves⟩ := ( step_says hstep).serves hall
    obtain ⟨new, hnew, -⟩ := step_says hstep
    have hfirst : s.write.sent <+: next.write.sent := ⟨new, hnew.symm⟩
    rw [runEvents, hstep] at h
    cases r with
    | error e =>
      cases h
      exact ⟨hfirst, by simp, fun sent => hserves sent rest⟩
    | ok u =>
      obtain ⟨hmore, hend, hrest⟩ := ih (hok rfl) h
      refine ⟨hfirst.trans hmore, hend, fun sent hfrom hto => ?_⟩
      rcases List.prefix_or_prefix_of_prefix hto hmore with hearly | hlate
      · exact hserves sent rest hfrom hearly
      · exact .cons hstep (hrest sent hlate hto)

/-- From the first subscriptions of a connection to its end, whatever arrives, the server
serves the trades of every market, and the order book of every market that has a book here;
only a market without one at a book check is subscribed anew. -/
theorem subscriptions_kept {config : Config} {tx : Channel WriteMsg} {connection : Connection}
    {start s : Session} {result : Except WsError Unit}
    (hstart : sendClients ⟨∅, tx, .start connection.writeLifetime⟩ (subscriptions config) = (start, .ok ()))
    (hrun : runWsIngestion config tx connection = (s, result)) :
    (result = .ok () → subscribed s.write.sent = config.channels) ∧
      ∀ sent, subscriptions config <+: sent → sent <+: s.write.sent →
        Serves config start connection.events sent := by
  obtain ⟨part, hsent, -, hok⟩ := sendClients_sent hstart
  have hall : start.write.sent = subscriptions config := by
    rw [hsent, hok.mp rfl]
    rfl
  rw [runWsIngestion, hstart] at hrun
  obtain ⟨-, hend, hserves⟩ := run_serves (by rw [hall, subscribed_subscriptions]) hrun
  exact ⟨hend, fun sent hfrom hto => hserves sent (hall ▸ hfrom) hto⟩

end

def lateBook [NumberTypes] : Connection :=
  ⟨none, [.bookCheckTick, .keepaliveTick, .orderbook sampleSnapshot, .bookCheckTick]⟩

theorem sample_subscriptions_kept : letI := wholeNumbers;
    ∃ s, runWsIngestion sampleConfig (.start none) lateBook = (s, .ok ()) ∧ s.write.sent.length = 5 ∧
      subscribed s.write.sent = sampleConfig.channels := by
  let := wholeNumbers
  exact ⟨_, rfl, rfl, (@subscriptions_kept wholeNumbers sampleConfig (.start none) lateBook _ _ _ rfl rfl).1 rfl⟩

end LighterIngestor
