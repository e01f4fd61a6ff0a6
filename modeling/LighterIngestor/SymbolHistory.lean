import LighterIngestor.SymbolSync

namespace LighterIngestor

/-- Each market of a table is in the other one, under the same id. -/
def SymbolTable.Extends (table next : SymbolTable) : Prop :=
  ∀ old ∈ table.rows, ∃ row ∈ next.rows,
    row.lighterMarketId = old.lighterMarketId ∧ row.id = old.id

/-- The table after `n` ids have been drawn for rows that were rolled back. -/
def SymbolTable.skip (table : SymbolTable) (n : ℕ) : SymbolTable where
  rows := table.rows
  nextId := table.nextId + n
  idUnique := table.idUnique
  marketUnique := table.marketUnique
  typeNameUnique := table.typeNameUnique
  idDrawn row hrow := Nat.lt_of_lt_of_le (table.idDrawn row hrow) (Nat.le_add_right _ _)

namespace SymbolTable.Extends

variable {a b c : SymbolTable}

theorem refl (a : SymbolTable) : a.Extends a := fun old hold => ⟨old, hold, rfl, rfl⟩

theorem trans (hab : a.Extends b) (hbc : b.Extends c) : a.Extends c := by
  intro old hold
  obtain ⟨mid, hmid, hmarket, hid⟩ := hab old hold
  obtain ⟨row, hrow, hmarket', hid'⟩ := hbc mid hmid
  exact ⟨row, hrow, hmarket'.trans hmarket, hid'.trans hid⟩

theorem of_upserted {name marketType : String} {marketId : ℤ}
    (h : Upserted a b name marketType marketId) : a.Extends b := by
  intro old hold
  by_cases hm : old.lighterMarketId = marketId
  · obtain ⟨row, hrow, hmarket, hid⟩ := h.kept old hold hm
    exact ⟨row, hrow, hmarket.trans hm.symm, hid⟩
  · exact ⟨old, (h.others old hm).mpr hold, rfl, rfl⟩

theorem id_eq_iff (h : a.Extends b) {old row : SymbolRow} (hold : old ∈ a.rows) (hrow : row ∈ b.rows) :
    row.id = old.id ↔ row.lighterMarketId = old.lighterMarketId := by
  obtain ⟨kept, hkept, hmarket, hid⟩ := h old hold
  constructor
  · intro heq
    rw [List.inj_on_of_nodup_map b.idUnique hrow hkept (heq.trans hid.symm), hmarket]
  · intro heq
    rw [b.row_unique hrow hkept (heq.trans hmarket.symm), hid]

end SymbolTable.Extends

theorem upsertSymbol_extends {table next : SymbolTable} {name marketType : String} {marketId : ℤ} {id : ℕ}
    (h : upsertSymbol name marketType marketId table = .ok (next, id)) : table.Extends next := by
  unfold upsertSymbol at h
  split at h
  · cases h
  · rename_i stored hstored
    split_ifs at h with htype hfree
    split at h
    · rename_i row hrow
      cases h
      exact .of_upserted (update_upserted table hfree (List.mem_of_find?_eq_some hrow) (by
        simpa using List.find?_some hrow))
    · cases h
      exact .of_upserted (add_upserted table hfree _)

theorem syncMarket_extends {table next : SymbolTable} {market : OrderBookInfo}
    (h : syncMarket table market = .ok next) : table.Extends next := by
  unfold syncMarket at h
  split at h
  · cases h
  · rename_i hupsert
    cases h
    exact upsertSymbol_extends hupsert

theorem syncSymbols_extends {resp : OrderBooksResponse} {table next : SymbolTable}
    (h : syncSymbols resp table = .ok next) : table.Extends next := by
  have hloop : ∀ markets : List OrderBookInfo, ∀ table, markets.foldlM syncMarket table = .ok next →
      table.Extends next := by
    intro markets
    induction markets with
    | nil =>
      intro table hnil
      cases hnil
      exact .refl _
    | cons market rest ih =>
      intro table hcons
      obtain ⟨mid, hmid, hrest⟩ := Loops.foldlM_cons_ok.mp hcons
      exact (syncMarket_extends hmid).trans (ih mid hrest)
  unfold syncSymbols at h
  split_ifs at h
  split at h
  · cases h
  · exact hloop _ _ h

theorem mem_loadSymbolCache {table : SymbolTable} {marketId symbol : ℤ} :
    (loadSymbolCache table).map.lookup marketId = some symbol ↔
      ∃ row ∈ table.rows, row.lighterMarketId = marketId ∧ (row.id : ℤ) = symbol := by
  rw [← Option.mem_def, AList.mem_lookup_iff]
  simp [loadSymbolCache]

theorem loadSymbolCache_extends {a b : SymbolTable} (h : a.Extends b) {marketId symbol : ℤ}
    (hlookup : (loadSymbolCache a).map.lookup marketId = some symbol) :
    (loadSymbolCache b).map.lookup marketId = some symbol := by
  obtain ⟨old, hold, rfl, rfl⟩ := mem_loadSymbolCache.mp hlookup
  obtain ⟨row, hrow, hmarket, hid⟩ := h old hold
  exact mem_loadSymbolCache.mpr ⟨row, hrow, hmarket, by rw [hid]⟩

end LighterIngestor
