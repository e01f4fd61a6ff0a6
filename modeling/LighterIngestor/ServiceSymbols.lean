import LighterIngestor.ServiceStorage

namespace LighterIngestor

section

variable [NumberTypes]

theorem Service.step_symbols {σ σ' : Service} {event : ServiceEvent} (hstep : σ.step event = some σ') :
    σ.db.symbols.Extends σ'.db.symbols := by
  have hwrite : ∀ p writerEvent, σ.write p writerEvent = some σ' → σ'.db.symbols = σ.db.symbols := by
    intro p writerEvent h
    unfold write at h
    split at h
    · cases h
    · split at h
      · cases h
      · rename_i db hdb
        cases h
        exact (Tables.executeAll_some hdb).1
  unfold step at hstep
  split at hstep
  · cases hstep
    exact .refl _
  · unfold start at hstep
    split at hstep
    · cases hstep
      exact .refl _
    · rename_i symbols hsync
      split_ifs at hstep
      cases hstep
      exact syncSymbols_extends hsync
  · obtain ⟨-, -, rfl⟩ := Option.map_eq_some_iff.mp hstep
    exact .refl _
  · obtain ⟨-, -, rfl⟩ := Option.map_eq_some_iff.mp hstep
    exact .refl _
  · obtain ⟨-, -, rfl⟩ := Option.map_eq_some_iff.mp hstep
    exact .refl _
  · exact hwrite _ _ hstep ▸ .refl _
  · exact hwrite _ _ hstep ▸ .refl _
  · cases hstep
    exact .refl _
  · cases hstep

/-- Once a market has a symbol it keeps it for good, and no other market ever gets it,
whatever the server lists at later startups. -/
theorem symbols_permanent {σ σ' : Service} {events : List ServiceEvent} (hrun : σ.run events = some σ') :
    ∀ old ∈ σ.db.symbols.rows,
      (∃ row ∈ σ'.db.symbols.rows, row.lighterMarketId = old.lighterMarketId ∧ row.id = old.id) ∧
      ∀ row ∈ σ'.db.symbols.rows, row.id = old.id ↔ row.lighterMarketId = old.lighterMarketId := by
  have hextends : σ.db.symbols.Extends σ'.db.symbols :=
    Loops.foldlM_keeps (p := fun τ : Service => σ.db.symbols.Extends τ.db.symbols)
      (fun _ _ _ h hstep => h.trans (Service.step_symbols hstep)) (.refl _) hrun
  exact fun old hold => ⟨hextends old hold, fun row hrow => hextends.id_eq_iff hold hrow⟩

theorem Stored.knows {db : Tables} {lives : List Life} (h : Stored db lives) {life : Life}
    (hlife : life ∈ lives) {message : WriteMsg} (hmessage : message ∈ life.emitted.sent) :
    (loadSymbolCache db.symbols).Knows message := by
  obtain ⟨new, hsent, hnew⟩ := collect_emits life.config (.start none) life.connections
  rw [Life.emitted, hsent] at hmessage
  obtain ⟨m, hm⟩ := hnew message (by simpa [Channel.start] using hmessage)
  exact ⟨m, h.symbols life hlife m _ hm⟩

theorem SymbolCache.Knows.references {table : SymbolTable} {message : WriteMsg}
    (h : (loadSymbolCache table).Knows message) : References table message.symbol := by
  obtain ⟨m, hm⟩ := h
  exact loadSymbolCache_references hm

theorem Process.Inv.inFlight_subset {p : Process} (h : p.Inv) : p.inFlight ⊆ p.link.tx.sent := by
  intro message hmessage
  rw [← h.handed, Writer.sent, h.writer.received]
  simp only [inFlight, List.mem_append] at hmessage ⊢
  tauto

/-- Rows stored by any process and rows in flight refer to symbols that exist, so that no
flush can fail on a foreign key. -/
theorem rows_reference_symbols {events : List ServiceEvent} {σ : Service}
    (hrun : Service.initial.run events = some σ) :
    (∀ row ∈ σ.db.messages, References σ.db.symbols row.symbol) ∧
      (∀ row ∈ σ.db.trades.rows, References σ.db.symbols row.symbol) ∧
      ∀ p ∈ σ.process, ∀ message ∈ p.inFlight, References σ.db.symbols message.symbol := by
  obtain ⟨-, hheld, -⟩ := Service.run_inserted hrun
  obtain ⟨lives, h, -⟩ := Service.run_inv hrun
  refine ⟨fun row hrow => ?_, fun row hrow => ?_, fun p hp message hmessage => ?_⟩
  · have hinserted : row ∈ lives.flatMap Life.messages := h.stored.messages ▸ hheld.remains.sublist.subset hrow
    obtain ⟨life, hlife, hstored⟩ := List.mem_flatMap.mp hinserted
    obtain ⟨message, hsent, heq⟩ := List.mem_filterMap.mp (life.messagesSent.subset hstored)
    cases message with
    | trade => cases heq
    | orderbook other =>
      cases heq
      exact (h.stored.knows hlife hsent).references
  · have htrades : row ∈ (UniqueTable.empty.insert (lives.flatMap Life.trades)).rows := h.stored.trades ▸ hrow
    obtain ⟨life, hlife, hstored⟩ :=
      List.mem_flatMap.mp ((UniqueTable.mem_insert htrades).resolve_left List.not_mem_nil)
    obtain ⟨message, hsent, heq⟩ := List.mem_filterMap.mp (life.tradesSent.subset hstored)
    cases message with
    | orderbook => cases heq
    | trade other =>
      cases heq
      exact (h.stored.knows hlife hsent).references
  · obtain ⟨hinv, earlier, life, rfl, hlives⟩ := h.serving p hp
    have hsent : message ∈ life.emitted.sent := hlives.emitted ▸ hinv.inFlight_subset hmessage
    exact (h.stored.knows (by simp) hsent).references

end

def renamedMarkets : OrderBooksResponse := ⟨200, [⟨"BTC", 1, "perp"⟩, ⟨"ETHER", 7, "perp"⟩]⟩

def sampleRename [NumberTypes] : List ServiceEvent := [.stop, .start renamedMarkets [1, 7] 0]

theorem sample_symbols_permanent : letI := wholeNumbers;
    ∃ σ σ', Service.initial.run sampleRestart = some σ ∧ σ.run sampleRename = some σ' ∧
      σ'.db.symbols.rows.length = 2 ∧
      ∀ old ∈ σ.db.symbols.rows, ∃ row ∈ σ'.db.symbols.rows,
        row.lighterMarketId = old.lighterMarketId ∧ row.id = old.id := by
  let := wholeNumbers
  refine ⟨_, _, rfl, rfl, rfl, fun old hold => ?_⟩
  exact (@symbols_permanent wholeNumbers _ _ sampleRename rfl old hold).1

theorem sample_rows_reference : letI := wholeNumbers;
    ∃ σ, Service.initial.run sampleRestart = some σ ∧ σ.db.messages.length = 2 ∧
      ∀ row ∈ σ.db.messages, References σ.db.symbols row.symbol := by
  let := wholeNumbers
  exact ⟨_, rfl, rfl, (@rows_reference_symbols wholeNumbers sampleRestart _ rfl).1⟩

end LighterIngestor
