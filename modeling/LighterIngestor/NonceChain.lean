import LighterIngestor.MarketRuns

namespace LighterIngestor

/-- How a stored row relates to the row of its symbol directly before it; the mark of a row
says that a tick wrote it. -/
structure Follows (previous row : Bool × OrderbookMessageRow) : Prop where
  delta : row.2.messageType = "delta" →
    ∃ nonce, row.2.beginNonce = some nonce ∧ previous.2.sequence = some nonce
  periodic : row.1 = true → row.2.sequence = previous.2.sequence ∧ row.2.time = previous.2.time

/-- The rows of one symbol in one connection form an unbroken chain of nonces. -/
structure NonceChain (rows : List (Bool × OrderbookMessageRow)) : Prop where
  first : ∀ row ∈ rows.head?, row.1 = false ∧ row.2.messageType = "snapshot"
  kinds : ∀ row ∈ rows, row.2.messageType = "delta" ∨
    (row.2.messageType = "snapshot" ∧ row.2.beginNonce = none)
  periodic : ∀ row ∈ rows, row.1 = true → row.2.messageType = "snapshot"
  chain : rows.IsChain Follows

theorem snapshot_ne_delta : "snapshot" ≠ "delta" := by decide

section

variable [NumberTypes]

theorem Track.kinds {symbol : ℤ} {held last : Option MarketBook} {events : List MarketEvent}
    {rows : List (Bool × OrderbookMessageRow)} (h : Track symbol held events last rows) :
    ∀ row ∈ rows, row.2.messageType = "delta" ∨
      (row.2.messageType = "snapshot" ∧ row.2.beginNonce = none) := by
  induction h with
  | nil => simp
  | @message held last message next events rows haccepts hrest ih =>
    intro row hrow
    rcases List.mem_cons.mp hrow with rfl | hrow
    · cases message with
      | subscribed => exact Or.inr ⟨rfl, rfl⟩
      | update => exact Or.inl rfl
    · exact ih row hrow
  | tick hrest ih =>
    intro row hrow
    rcases List.mem_cons.mp hrow with rfl | hrow
    · exact Or.inr ⟨rfl, rfl⟩
    · exact ih row hrow
  | silent hrest ih => exact ih

theorem Track.periodic {symbol : ℤ} {held last : Option MarketBook} {events : List MarketEvent}
    {rows : List (Bool × OrderbookMessageRow)} (h : Track symbol held events last rows) :
    ∀ row ∈ rows, row.1 = true → row.2.messageType = "snapshot" := by
  induction h with
  | nil => simp
  | message haccepts hrest ih =>
    intro row hrow hmark
    rcases List.mem_cons.mp hrow with rfl | hrow
    · cases hmark
    · exact ih row hrow hmark
  | tick hrest ih =>
    intro row hrow hmark
    rcases List.mem_cons.mp hrow with rfl | hrow
    · rfl
    · exact ih row hrow hmark
  | silent hrest ih => exact ih

/-- The row before carries the nonce and the time of the book that is held. -/
theorem Track.chain_from {symbol : ℤ} {held last : Option MarketBook} {events : List MarketEvent}
    {rows : List (Bool × OrderbookMessageRow)} (h : Track symbol held events last rows)
    {market : MarketBook} (hheld : held = some market) {previous : Bool × OrderbookMessageRow}
    (hsequence : previous.2.sequence = some market.nonce)
    (htime : previous.2.time = market.sourceTime) : (previous :: rows).IsChain Follows := by
  induction h generalizing market previous with
  | nil => exact .singleton _
  | @message held last message next events rows haccepts hrest ih =>
    refine List.isChain_cons_cons.mpr ⟨⟨fun hdelta => ?_, by simp⟩, ih rfl ?_ rfl⟩
    · cases haccepts with
      | snapshot => exact absurd hdelta snapshot_ne_delta
      | delta hnonce =>
        cases hheld
        exact ⟨_, rfl, hsequence.trans (congrArg some hnonce.symm)⟩
    · exact congrArg some haccepts.nonce.symm
  | @tick market' last events rows hrest ih =>
    cases hheld
    refine List.isChain_cons_cons.mpr ⟨⟨fun hdelta => ?_, fun _ => ?_⟩, ih rfl rfl rfl⟩
    · exact absurd hdelta snapshot_ne_delta
    · exact ⟨hsequence.symm, htime.symm⟩
  | silent => cases hheld

theorem Track.nonceChain {symbol : ℤ} {held last : Option MarketBook} {events : List MarketEvent}
    {rows : List (Bool × OrderbookMessageRow)} (h : Track symbol held events last rows)
    (hheld : held = none) : NonceChain rows := by
  refine ⟨?_, h.kinds, h.periodic, ?_⟩
  · induction h with
    | nil => simp
    | message haccepts hrest ih =>
      subst hheld
      cases haccepts
      simp [messageRow]
    | tick hrest ih => cases hheld
    | silent hrest ih => exact ih rfl
  · induction h with
    | nil => exact .nil
    | message haccepts hrest ih =>
      exact hrest.chain_from rfl (congrArg some haccepts.nonce.symm) rfl
    | tick hrest ih => cases hheld
    | silent hrest ih => exact ih rfl

/-- The rows that a connection sends of a symbol, those of ticks marked, form a chain. -/
theorem stored_nonce_chain (config : Config) {m symbol : ℤ}
    (hm : config.symbolCache.map.lookup m = some symbol) (tx : Channel WriteMsg)
    (connection : Connection) :
    (runWsIngestion config tx connection).1.tx.sent =
        tx.sent ++ (connectionLog config tx connection).map Prod.snd ∧
      symbolRows symbol (runWsIngestion config tx connection).1.tx.sent =
        symbolRows symbol tx.sent ++ (rowsOf symbol (connectionLog config tx connection)).map Prod.snd ∧
      NonceChain (rowsOf symbol (connectionLog config tx connection)) := by
  obtain ⟨hsent, track, held, htrack, -⟩ :=
    connection_tracks hm (Prod.mk.eta (p := runWsIngestion config tx connection)).symm
  refine ⟨hsent, ?_, htrack.nonceChain rfl⟩
  rw [hsent, symbolRows_append, rowsOf_snd]

end

theorem sample_nonce_chain : letI := wholeNumbers;
    (symbolRows 3 (runWsIngestion sampleConfig (.start none) sampleConnection).1.tx.sent).map
        (fun row => (row.messageType, row.beginNonce, row.sequence)) =
      [("snapshot", none, some 10), ("snapshot", none, some 10), ("delta", some 10, some 15),
        ("snapshot", none, some 15)] ∧
      (rowsOf 3 (connectionLog sampleConfig (.start none) sampleConnection)).map Prod.fst =
        [false, true, false, true] ∧
      NonceChain (rowsOf 3 (connectionLog sampleConfig (.start none) sampleConnection)) := by
  let := wholeNumbers
  have hchain := @stored_nonce_chain wholeNumbers sampleConfig 7 3 rfl (.start none) sampleConnection
  exact ⟨rfl, rfl, hchain.2.2⟩

end LighterIngestor
