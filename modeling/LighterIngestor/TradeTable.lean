import LighterIngestor.Base.UniqueTable
import LighterIngestor.Writer

namespace LighterIngestor

/-- The values that the check on `trades.trade_type` allows. -/
def tradeTypes : List String := ["trade", "liquidation", "deleverage", "market-settlement"]

variable [NumberTypes]

/-- The columns of the index `trades_dedup_uniq`. -/
def tradeKey (row : TradeRow) : DateTime × ℤ × ℤ := (row.time, row.symbol, row.lighterTradeId)

abbrev TradesTable := UniqueTable tradeKey

/-- A statement that breaks a check changes nothing. -/
def insertTrades (rows : List TradeRow) (table : TradesTable) : Option TradesTable :=
  if ∀ row ∈ rows, row.tradeType ∈ tradeTypes then some (table.insert rows) else none

/-- The trades table after the statements of a log; `none` where a statement that is said
to have succeeded breaks a check. -/
def runStatements (table : TradesTable) : List (Statement × Bool) → Option TradesTable
  | [] => some table
  | (.insertTrades rows, true) :: rest =>
    match insertTrades rows table with
    | none => none
    | some table => runStatements table rest
  | _ :: rest => runStatements table rest

/-- However the rows are cut into statements, they are inserted one after another. -/
theorem runStatements_some {table table' : TradesTable} {log : List (Statement × Bool)}
    (h : runStatements table log = some table') : table' = table.insert (writtenTrades log) := by
  induction log generalizing table with
  | nil =>
    cases h
    rfl
  | cons entry rest ih =>
    obtain ⟨statement, ok⟩ := entry
    cases statement with
    | insertOrderbookMessages rows => exact ih h
    | insertTrades rows =>
      cases ok with
      | false => exact ih h
      | true =>
        rw [runStatements] at h
        split at h
        · cases h
        · rename_i next hnext
          unfold insertTrades at hnext
          split_ifs at hnext
          cases hnext
          rw [ih h, ← UniqueTable.insert_append]
          rfl

end LighterIngestor
