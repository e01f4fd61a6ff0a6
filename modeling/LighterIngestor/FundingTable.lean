import LighterIngestor.Base.UniqueTable
import LighterIngestor.Base.Growing
import LighterIngestor.FundingPage

namespace LighterIngestor

structure PerpMarket where
  symbolId : ℤ
  name : String
  lighterMarketId : ℤ
  deriving DecidableEq

variable [NumberTypes]

structure FundingRateRow where
  time : DateTime
  symbol : ℤ
  rate : BigDecimal
  direction : String

/-- The primary key of `funding_rates`. -/
def fundingKey (row : FundingRateRow) : ℤ × DateTime := (row.symbol, row.time)

abbrev FundingTable := UniqueTable fundingKey

def fundingRows (market : PerpMarket) (rows : List SettledFunding) : List FundingRateRow :=
  rows.map fun row =>
    { time := row.time, symbol := market.symbolId, rate := row.rate, direction := row.direction }

/-- `insert_funding_rates`, with the number of rows that the statement reports. -/
def insertFundingRates (rows : List FundingRateRow) (table : FundingTable) : FundingTable × ℕ :=
  (table.insert rows, (table.insert rows).rows.length - table.rows.length)

def timesOf (symbol : ℤ) (table : FundingTable) : List DateTime :=
  (table.rows.filter (fun row => row.symbol = symbol)).map FundingRateRow.time

def newestFundingTime (symbolId : ℤ) (table : FundingTable) : Option DateTime :=
  (timesOf symbolId table).max?

theorem mem_timesOf {symbol : ℤ} {table : FundingTable} {t : DateTime} :
    t ∈ timesOf symbol table ↔ (symbol, t) ∈ table.rows.map fundingKey := by
  simp [timesOf, fundingKey, and_assoc]

theorem fundingRows_times (market : PerpMarket) (rows : List SettledFunding) :
    (fundingRows market rows).map FundingRateRow.time = rows.map SettledFunding.time := by
  rw [fundingRows, List.map_map]
  rfl

theorem newestFundingTime_none {symbol : ℤ} {table : FundingTable} :
    newestFundingTime symbol table = none ↔ timesOf symbol table = [] :=
  List.max?_eq_none_iff

theorem newestFundingTime_some {symbol : ℤ} {table : FundingTable} {newest : DateTime} :
    newestFundingTime symbol table = some newest ↔
      newest ∈ timesOf symbol table ∧ ∀ t ∈ timesOf symbol table, t ≤ newest :=
  List.max?_eq_some_iff

theorem insertFundingRates_fresh {market : PerpMarket} {rows : List SettledFunding} {table : FundingTable}
    (hnodup : (rows.map SettledFunding.time).Nodup)
    (hnew : ∀ row ∈ rows, row.time ∉ timesOf market.symbolId table) :
    (insertFundingRates (fundingRows market rows) table).1.rows = table.rows ++ fundingRows market rows ∧
      (insertFundingRates (fundingRows market rows) table).2 = rows.length := by
  have hkeys : (fundingRows market rows).map fundingKey =
      (rows.map SettledFunding.time).map (fun t => (market.symbolId, t)) := by
    rw [fundingRows, List.map_map, List.map_map]
    rfl
  have hrows : (table.insert (fundingRows market rows)).rows = table.rows ++ fundingRows market rows := by
    apply UniqueTable.insert_fresh
    · rw [hkeys]
      exact hnodup.map fun a b h => (Prod.mk.inj h).2
    · intro row hrow hkey
      obtain ⟨settled, hsettled, rfl⟩ := List.mem_map.mp hrow
      exact hnew settled hsettled (mem_timesOf.mpr hkey)
  refine ⟨hrows, ?_⟩
  rw [insertFundingRates, hrows, List.length_append, Nat.add_sub_cancel_left, fundingRows, List.length_map]

theorem timesOf_append (symbol : ℤ) {market : PerpMarket} {rows : List SettledFunding}
    {table table' : FundingTable} (h : table'.rows = table.rows ++ fundingRows market rows) :
    timesOf symbol table' =
      timesOf symbol table ++ if market.symbolId = symbol then rows.map SettledFunding.time else [] := by
  have hsymbols : ∀ row ∈ fundingRows market rows, row.symbol = market.symbolId := by
    intro row hrow
    obtain ⟨settled, -, rfl⟩ := List.mem_map.mp hrow
    rfl
  rw [timesOf, h, List.filter_append, List.map_append, ← timesOf]
  congr 1
  split_ifs with hsymbol
  · rw [← fundingRows_times market rows, List.filter_eq_self.mpr]
    intro row hrow
    simpa [hsymbols row hrow] using hsymbol
  · rw [List.map_eq_nil_iff, List.filter_eq_nil_iff]
    intro row hrow
    simpa [hsymbols row hrow] using hsymbol

end LighterIngestor
