import LighterIngestor.TradeDelivery

namespace LighterIngestor

def stamp (record : ℤ × Trade) : ℤ × ℤ × ℤ := (record.2.timestamp, record.1, record.2.tradeId)

section

variable [NumberTypes]

structure TradeRow.Records (row : TradeRow) (record : ℤ × Trade) : Prop where
  time : DateTime.fromTimestampMillis record.2.timestamp = some row.time
  symbol : row.symbol = record.1
  tradeId : row.lighterTradeId = record.2.tradeId

theorem RowFor.records {record : ℤ × Trade} {row : TradeRow} (h : RowFor record row) :
    row.Records record := by
  obtain ⟨htime, hsymbol, hid, -⟩ := tradeRow_ok.mp h
  exact ⟨htime, hsymbol, hid⟩

/-- The unique index tells rows apart as the stamps of their records do. -/
theorem TradeRow.Records.key_eq_iff {row row' : TradeRow} {record record' : ℤ × Trade}
    (h : row.Records record) (h' : row'.Records record') :
    tradeKey row = tradeKey row' ↔ stamp record = stamp record' := by
  simp only [tradeKey, stamp, Prod.mk.injEq, h.symbol, h'.symbol, h.tradeId, h'.tradeId]
  refine and_congr_left fun _ => ⟨fun htime => ?_, fun htime => ?_⟩
  · exact DateTime.fromTimestampMillis_inj h.time (htime ▸ h'.time)
  · exact Option.some.inj (h.time.symm.trans (htime ▸ h'.time))

theorem rowFor_mem_left {records : List (ℤ × Trade)} {rows : List TradeRow}
    (h : List.Forall₂ RowFor records rows) {record : ℤ × Trade} (hrecord : record ∈ records) :
    ∃ row ∈ rows, RowFor record row := by
  induction h with
  | nil => simp at hrecord
  | cons hhead _ ih =>
    rcases List.mem_cons.mp hrecord with rfl | hrecord
    · exact ⟨_, by simp, hhead⟩
    · exact (ih hrecord).imp fun row hrow => ⟨List.mem_cons_of_mem _ hrow.1, hrow.2⟩

theorem rowFor_mem_right {records : List (ℤ × Trade)} {rows : List TradeRow}
    (h : List.Forall₂ RowFor records rows) {row : TradeRow} (hrow : row ∈ rows) :
    ∃ record ∈ records, RowFor record row := by
  induction h with
  | nil => simp at hrow
  | cons hhead _ ih =>
    rcases List.mem_cons.mp hrow with rfl | hrow
    · exact ⟨_, by simp, hhead⟩
    · exact (ih hrow).imp fun record hrecord => ⟨List.mem_cons_of_mem _ hrecord.1, hrecord.2⟩

/-- Records of one trade that agree on what is stored. -/
def Agree (records : List (ℤ × Trade)) : Prop :=
  ∀ a ∈ records, ∀ b ∈ records, stamp a = stamp b → tradeRow a.2 a.1 = tradeRow b.2 b.1

theorem existsUnique_of_key {table : TradesTable} {record : ℤ × Trade} {row : TradeRow}
    (hkey : tradeKey row ∈ table.rows.map tradeKey) (hrecords : row.Records record) :
    ∃! row, row ∈ table.rows ∧ row.Records record := by
  obtain ⟨stored, hstored, heq⟩ := List.mem_map.mp hkey
  simp only [tradeKey, Prod.mk.injEq] at heq
  have hstoredrecords : stored.Records record :=
    ⟨heq.1 ▸ hrecords.time, heq.2.1.trans hrecords.symbol, heq.2.2.trans hrecords.tradeId⟩
  refine ⟨stored, ⟨hstored, hstoredrecords⟩, fun other hother => ?_⟩
  exact UniqueTable.row_unique _ hother.1 hstored ((hother.2.key_eq_iff hstoredrecords).mpr rfl)

/-- Each record has its row, whichever of the records of its trade came first. -/
theorem existsUnique_row {records : List (ℤ × Trade)} {rows : List TradeRow}
    (h : List.Forall₂ RowFor records rows) {record : ℤ × Trade} (hrecord : record ∈ records) :
    ∃! row, row ∈ (UniqueTable.empty.insert rows : TradesTable).rows ∧ row.Records record := by
  obtain ⟨row, hrow, hfor⟩ := rowFor_mem_left h hrecord
  refine existsUnique_of_key ?_ hfor.records
  exact (UniqueTable.key_insert _ _ _).mpr (Or.inr (List.mem_map_of_mem hrow))

theorem mem_table_of_agree {records : List (ℤ × Trade)} {rows : List TradeRow}
    (h : List.Forall₂ RowFor records rows) (hagree : Agree records) (row : TradeRow) :
    row ∈ (UniqueTable.empty.insert rows : TradesTable).rows ↔ ∃ record ∈ records, RowFor record row := by
  constructor
  · intro hrow
    rcases UniqueTable.mem_insert hrow with hrow | hrow
    · simp [UniqueTable.empty] at hrow
    · exact rowFor_mem_right h hrow
  · rintro ⟨record, hrecord, hfor⟩
    obtain ⟨row', hrow', hfor'⟩ := rowFor_mem_left h hrecord
    obtain rfl : row = row' := Except.ok.inj (hfor.symm.trans hfor')
    refine UniqueTable.mem_insert_of_agree hrow' fun other hother hkey => ?_
    rcases UniqueTable.mem_insert hother with hother | hother
    · simp [UniqueTable.empty] at hother
    · obtain ⟨record', hrecord', hfor'⟩ := rowFor_mem_right h hother
      have hstamp := (hfor'.records.key_eq_iff hfor.records).mp hkey
      exact Except.ok.inj (hfor'.symm.trans ((hagree _ hrecord' _ hrecord hstamp).trans hfor))

/-- One row for each trade delivered, whatever the order, the repetitions and the statements. -/
theorem trade_ingestion_idempotent (config : Config) (lifetime : Option ℕ) (connections : List Connection)
    (hclean : TradesHandled config (.start lifetime) connections)
    {log : List (Statement × Bool)} {table : TradesTable}
    (hlog : writtenTrades log = tradeRows (collect config (.start lifetime) connections).sent)
    (htable : runStatements .empty log = some table) :
    let delivered := deliveredTrades config (.start lifetime) connections
    (∀ record ∈ delivered, ∃! row, row ∈ table.rows ∧ row.Records record) ∧
    (∀ row ∈ table.rows, ∃ record ∈ delivered, RowFor record row) ∧
    (∀ record ∈ delivered, ∀ record' ∈ delivered, ∀ row : TradeRow, row.Records record → row.Records record' →
      stamp record = stamp record') ∧
    ∀ marketIds lifetime' connections' log' table',
      let config' : Config := ⟨marketIds, config.symbolCache⟩
      let delivered' := deliveredTrades config' (.start lifetime') connections'
      TradesHandled config' (.start lifetime') connections' →
      writtenTrades log' = tradeRows (collect config' (.start lifetime') connections').sent →
      runStatements .empty log' = some table' →
      (∀ record, record ∈ delivered' ↔ record ∈ delivered) → Agree delivered →
      ∀ row, row ∈ table'.rows ↔ row ∈ table.rows := by
  intro delivered
  obtain ⟨rows, hsent, hrows⟩ := collect_trades hclean
  obtain rfl : table = UniqueTable.empty.insert rows := by
    rw [runStatements_some htable, hlog, hsent]
    rfl
  refine ⟨fun record hrecord => ?_, fun row hrow => ?_, fun record _ record' _ row hr hr' => ?_, ?_⟩
  · exact existsUnique_row hrows hrecord
  · rcases UniqueTable.mem_insert hrow with hrow | hrow
    · simp [UniqueTable.empty] at hrow
    · exact rowFor_mem_right hrows hrow
  · exact (hr.key_eq_iff hr').mp rfl
  · intro marketIds lifetime' connections' log' table' config' delivered' hclean' hlog' htable' hsame
      hagree row
    obtain ⟨rows', hsent', hrows'⟩ := collect_trades hclean'
    obtain rfl : table' = UniqueTable.empty.insert rows' := by
      rw [runStatements_some htable', hlog', hsent']
      rfl
    have hagree' : Agree delivered' := fun a ha b hb => hagree a ((hsame a).mp ha) b ((hsame b).mp hb)
    rw [mem_table_of_agree hrows hagree, mem_table_of_agree hrows' hagree']
    exact exists_congr fun record => and_congr_left fun _ => hsame record

def sampleTrades (trade : Trade) : List Connection :=
  [⟨none, [.read (some (.ok (.text (.ok {
    ty := "update/trade"
    hasError := false
    orderBook := .error "unknown variant"
    trade := .ok (.update "trade:7" 1 [trade] [trade]) }))))]⟩]

end

def sampleTrade : Trade := ⟨555, "trade", "46", "217", true, 1790015233367⟩

theorem sample_trade_ingestion : letI := wholeNumbers;
    ∃ table : TradesTable,
      runStatements .empty [(.insertTrades (tradeRows
        (collect sampleConfig (.start none) (sampleTrades sampleTrade)).sent), true)] = some table ∧
      ∃! row, row ∈ table.rows ∧ row.Records (3, sampleTrade) := by
  let := wholeNumbers
  have hclean : TradesHandled sampleConfig (.start none) (sampleTrades sampleTrade) := by
    refine ⟨fun event hevent => ?_, trivial⟩
    have hnone : none = some event := hevent
    cases hnone
  have hrun : runStatements .empty [(.insertTrades (tradeRows
      (collect sampleConfig (.start none) (sampleTrades sampleTrade)).sent), true)] = some _ := rfl
  exact ⟨_, hrun, (@trade_ingestion_idempotent wholeNumbers sampleConfig none (sampleTrades sampleTrade)
    hclean _ _ (List.append_nil _) hrun).1 (3, sampleTrade) (List.mem_cons_self ..)⟩

end LighterIngestor
