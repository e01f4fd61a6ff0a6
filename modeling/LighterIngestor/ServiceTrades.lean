import LighterIngestor.ServiceStorage
import LighterIngestor.TradeIngestion

namespace LighterIngestor

section

variable [NumberTypes]

/-- Among the trade rows that are new in a channel are those of the records, in their order.
The handler of a frame that fails may have sent some more. -/
def Delivers (c d : Channel WriteMsg) (records : List (ℤ × Trade)) : Prop :=
  ∃ new rows, tradeRows d.sent = tradeRows c.sent ++ new ∧ rows.Sublist new ∧
    List.Forall₂ RowFor records rows

theorem Delivers.refl (c : Channel WriteMsg) : Delivers c c [] :=
  ⟨[], [], (List.append_nil _).symm, List.nil_sublist _, .nil⟩

theorem Delivers.of_emits {symbolCache : SymbolCache} {c d : Channel WriteMsg} (h : Emits symbolCache c d) :
    Delivers c d [] := by
  obtain ⟨new, hsent, -⟩ := h
  exact ⟨tradeRows new, [], by rw [hsent, tradeRows_append], List.nil_sublist _, .nil⟩

theorem Delivers.trans {c d e : Channel WriteMsg} {first second : List (ℤ × Trade)}
    (hcd : Delivers c d first) (hde : Delivers d e second) : Delivers c e (first ++ second) := by
  obtain ⟨new, rows, hsent, hrows, hfirst⟩ := hcd
  obtain ⟨new', rows', hsent', hrows', hsecond⟩ := hde
  exact ⟨new ++ new', rows ++ rows', by rw [hsent', hsent, List.append_assoc], hrows.append hrows',
    List.rel_append hfirst hsecond⟩

theorem runEvents_delivers (config : Config) (s : Session) (events : List Event) :
    Delivers s.tx (runEvents config s events).1.tx
      ((processed config s events).flatMap (Event.trades config.symbolCache)) := by
  induction events generalizing s with
  | nil => exact .refl s.tx
  | cons event rest ih =>
    rcases hstep : step config s event with ⟨next, e | u⟩
    · simp only [runEvents, processed, hstep, List.flatMap_nil]
      have hemits := step_emits config s event
      rw [hstep] at hemits
      exact .of_emits hemits
    · simp only [runEvents, processed, hstep, List.flatMap_cons]
      obtain ⟨rows, hsent, hrows⟩ := step_trades hstep
      have hfirst : Delivers s.tx next.tx (event.trades config.symbolCache) :=
        ⟨rows, rows, hsent, List.Sublist.refl rows, hrows⟩
      exact hfirst.trans (ih next)

theorem runWsIngestion_delivers (config : Config) (tx : Channel WriteMsg) (connection : Connection) :
    Delivers tx (runWsIngestion config tx connection).1.tx
      ((connectionEvents config tx connection).flatMap (Event.trades config.symbolCache)) := by
  unfold runWsIngestion connectionEvents
  rcases subscribed_cases config tx connection with ⟨start, e, hsub, htx⟩ | ⟨start, hsub, -, htx⟩
  · simp only [hsub, htx, List.flatMap_nil]
    exact .refl tx
  · have hrun := runEvents_delivers config start connection.events
    rw [htx] at hrun
    simp only [hsub]
    exact hrun

theorem collect_delivers (config : Config) (tx : Channel WriteMsg) (connections : List Connection) :
    Delivers tx (collect config tx connections) (deliveredTrades config tx connections) := by
  induction connections generalizing tx with
  | nil => exact .refl tx
  | cons connection rest ih => exact (runWsIngestion_delivers config tx connection).trans (ih _)

/-- The records of known markets that the connections of a process have handled. -/
def Life.delivered (life : Life) : List (ℤ × Trade) :=
  deliveredTrades life.config (.start none) life.connections

theorem Life.delivered_row {life : Life} {record : ℤ × Trade} (hrecord : record ∈ life.delivered) :
    ∃ row ∈ tradeRows life.emitted.sent, RowFor record row := by
  obtain ⟨new, rows, hsent, hsublist, hrows⟩ :=
    collect_delivers life.config (.start none) life.connections
  obtain ⟨row, hrow, hfor⟩ := rowFor_mem_left hrows hrecord
  refine ⟨row, ?_, hfor⟩
  rw [emitted, hsent]
  exact List.mem_append_right _ (hsublist.subset hrow)

theorem Stored.key_mem {db : Tables} {lives : List Life} (h : Stored db lives) {life : Life}
    (hlife : life ∈ lives) {row : TradeRow} (hrow : row ∈ life.trades) :
    tradeKey row ∈ db.trades.rows.map tradeKey := by
  rw [h.trades]
  apply (UniqueTable.key_insert _ _ _).mpr
  exact Or.inr (List.mem_map_of_mem (List.mem_flatMap.mpr ⟨life, hlife, hrow⟩))

/-- A record that was handled is stored, unless its row is one of those that are missing. -/
theorem Stored.delivered {db : Tables} {lives : List Life} (h : Stored db lives) {life : Life}
    (hlife : life ∈ lives) {missing : List TradeRow}
    (hall : life.trades ++ missing = tradeRows life.emitted.sent) {record : ℤ × Trade}
    (hrecord : record ∈ life.delivered) :
    (∃! row, row ∈ db.trades.rows ∧ row.Records record) ∨ ∃ row ∈ missing, RowFor record row := by
  obtain ⟨row, hrow, hfor⟩ := Life.delivered_row hrecord
  rw [← hall] at hrow
  rcases List.mem_append.mp hrow with hrow | hrow
  · exact Or.inl (existsUnique_of_key (h.key_mem hlife hrow) hfor.records)
  · exact Or.inr ⟨row, hrow, hfor⟩

end

end LighterIngestor
