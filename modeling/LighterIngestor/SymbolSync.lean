import LighterIngestor.Base.Loops
import LighterIngestor.SymbolTable

namespace LighterIngestor

/-- A market of `/api/v1/orderBooks`. Of its fields these reach the table. -/
structure OrderBookInfo where
  symbol : String
  marketId : ℤ
  marketType : String
  deriving DecidableEq

structure OrderBooksResponse where
  code : ℤ
  orderBooks : List OrderBookInfo

def syncMarket (table : SymbolTable) (market : OrderBookInfo) : Except SyncError SymbolTable :=
  match upsertSymbol market.symbol market.marketType market.marketId table with
  | .error e => .error e
  | .ok (next, _) => .ok next

/-- `sync_symbols` on a decoded response; on an error the table stays as it was. -/
def syncSymbols (resp : OrderBooksResponse) (table : SymbolTable) : Except SyncError SymbolTable :=
  if resp.code ≠ 200 then .error (.code resp.code)
  else if resp.orderBooks.isEmpty then .error .noMarkets
  else
    match resp.orderBooks.find? (fun market => market.marketType ∉ marketTypes) with
    | some market => .error (.unsupportedType market.marketType market.marketId)
    | none => resp.orderBooks.foldlM syncMarket table

/-- What a response must be for the sync to be expected to go through. -/
structure Consistent (resp : OrderBooksResponse) : Prop where
  code : resp.code = 200
  nonempty : resp.orderBooks ≠ []
  types : ∀ market ∈ resp.orderBooks, market.marketType ∈ marketTypes
  marketIds : (resp.orderBooks.map OrderBookInfo.marketId).Nodup
  typeNames : (resp.orderBooks.map fun market => (market.marketType, market.symbol)).Nodup
  short : ∀ market ∈ resp.orderBooks, market.symbol.length ≤ 255

/-- The table after a sync: each listed market has one row, with its name and type, and each
market that had a row keeps its id. -/
structure Synced (table : SymbolTable) (markets : List OrderBookInfo) (result : SymbolTable) : Prop where
  listed : ∀ market ∈ markets, ∃ row ∈ result.rows, row.lighterMarketId = market.marketId ∧
    row.name = market.symbol ∧ row.marketType = market.marketType ∧
    ∀ other ∈ result.rows, other.lighterMarketId = market.marketId → other = row
  kept : ∀ old ∈ table.rows, ∃ row ∈ result.rows,
    row.lighterMarketId = old.lighterMarketId ∧ row.id = old.id
  others : ∀ row, row.lighterMarketId ∉ markets.map OrderBookInfo.marketId →
    (row ∈ result.rows ↔ row ∈ table.rows)

/-- Two results of a sync that differ at most in the ids drawn for markets new to the table. -/
def SameSymbols (table a b : SymbolTable) : Prop :=
  ∀ row ∈ a.rows, ∃ row' ∈ b.rows, row'.lighterMarketId = row.lighterMarketId ∧
    row'.name = row.name ∧ row'.marketType = row.marketType ∧
    (row.lighterMarketId ∈ table.rows.map SymbolRow.lighterMarketId → row'.id = row.id)

/-- The sync goes through, whatever the order of the markets, with one result. -/
def SyncsInAnyOrder (table : SymbolTable) (resp : OrderBooksResponse) : Prop :=
  ∃ result, syncSymbols resp table = .ok result ∧ Synced table resp.orderBooks result ∧
    ∀ orderBooks, orderBooks.Perm resp.orderBooks →
      ∃ other, syncSymbols { resp with orderBooks } table = .ok other ∧
        SameSymbols table result other ∧ SameSymbols table other result

theorem syncSymbols_eq {resp : OrderBooksResponse} (h : Consistent resp) (table : SymbolTable) :
    syncSymbols resp table = resp.orderBooks.foldlM syncMarket table := by
  have hempty : resp.orderBooks.isEmpty = false := by
    simpa using h.nonempty
  have hfind : resp.orderBooks.find? (fun market => market.marketType ∉ marketTypes) = none := by
    simpa using h.types
  simp only [syncSymbols, h.code, hempty, hfind, ne_eq, not_true_eq_false, if_false, Bool.false_eq_true]

theorem Consistent.perm {resp : OrderBooksResponse} (h : Consistent resp)
    {orderBooks : List OrderBookInfo} (hperm : orderBooks.Perm resp.orderBooks) :
    Consistent { resp with orderBooks } where
  code := h.code
  nonempty hnil := by
    obtain rfl : orderBooks = [] := hnil
    exact h.nonempty (List.nil_perm.mp hperm)
  types market hmarket := h.types market (hperm.mem_iff.mp hmarket)
  marketIds := (hperm.map _).nodup_iff.mpr h.marketIds
  typeNames := (hperm.map _).nodup_iff.mpr h.typeNames
  short market hmarket := h.short market (hperm.mem_iff.mp hmarket)

theorem syncMarket_upserted {table next : SymbolTable} {market : OrderBookInfo}
    (hshort : market.symbol.length ≤ 255) (htype : market.marketType ∈ marketTypes)
    (h : syncMarket table market = .ok next) :
    '\x00' ∉ market.symbol.toList ∧
      table.Free (market.marketType, market.symbol) market.marketId ∧
      Upserted table next market.symbol market.marketType market.marketId := by
  unfold syncMarket at h
  split at h
  · cases h
  · rename_i mid id hupsert
    cases h
    obtain ⟨hnul, hfree⟩ := (upsertSymbol_ok_iff hshort htype).mp ⟨_, _, hupsert⟩
    exact ⟨hnul, hfree, upsertSymbol_upserted hshort htype hupsert⟩

theorem syncMarket_total {table : SymbolTable} {market : OrderBookInfo}
    (hshort : market.symbol.length ≤ 255) (htype : market.marketType ∈ marketTypes)
    (hnul : '\x00' ∉ market.symbol.toList)
    (hfree : table.Free (market.marketType, market.symbol) market.marketId) :
    ∃ next, syncMarket table market = .ok next := by
  obtain ⟨next, id, hupsert⟩ := (upsertSymbol_ok_iff hshort htype).mpr ⟨hnul, hfree⟩
  exact ⟨next, by rw [syncMarket, hupsert]⟩

theorem foldlM_synced {markets : List OrderBookInfo} {table result : SymbolTable}
    (hids : (markets.map OrderBookInfo.marketId).Nodup)
    (htypes : ∀ market ∈ markets, market.marketType ∈ marketTypes)
    (hshort : ∀ market ∈ markets, market.symbol.length ≤ 255)
    (h : markets.foldlM syncMarket table = .ok result) : Synced table markets result := by
  induction markets generalizing table with
  | nil =>
    cases h
    exact ⟨by simp, fun old hold => ⟨old, hold, rfl, rfl⟩, fun row _ => Iff.rfl⟩
  | cons market rest ih =>
    obtain ⟨mid, hmid, hrest⟩ := Loops.foldlM_cons_ok.mp h
    obtain ⟨hnot, hids⟩ := List.nodup_cons.mp hids
    obtain ⟨htype, htypes⟩ := List.forall_mem_cons.mp htypes
    obtain ⟨hshortm, hshort⟩ := List.forall_mem_cons.mp hshort
    obtain ⟨-, -, hupserted⟩ := syncMarket_upserted hshortm htype hmid
    have hsynced := ih hids htypes hshort hrest
    refine ⟨?_, ?_, ?_⟩
    · intro listed hlisted
      rcases List.mem_cons.mp hlisted with rfl | hlisted
      · obtain ⟨row, hrow, hid, hname, htype⟩ := hupserted.listed
        have hresult := (hsynced.others row (hid ▸ hnot)).mpr hrow
        exact ⟨row, hresult, hid, hname, htype, fun other hother hm =>
          result.row_unique hother hresult (hm.trans hid.symm)⟩
      · exact hsynced.listed listed hlisted
    · intro old hold
      by_cases hm : old.lighterMarketId = market.marketId
      · obtain ⟨row, hrow, hid, hsame⟩ := hupserted.kept old hold hm
        obtain ⟨row', hrow', hid', hsame'⟩ := hsynced.kept row hrow
        exact ⟨row', hrow', hid'.trans (hid.trans hm.symm), hsame'.trans hsame⟩
      · exact hsynced.kept old ((hupserted.others old hm).mpr hold)
    · intro row hrow
      rw [List.map_cons, List.mem_cons, not_or] at hrow
      exact (hsynced.others row hrow.2).trans (hupserted.others row hrow.1)

/-- No row of another market holds a listed name, and every listed name can be stored. -/
def NamesFree (table : SymbolTable) (markets : List OrderBookInfo) : Prop :=
  ∀ market ∈ markets, '\x00' ∉ market.symbol.toList ∧
    table.Free (market.marketType, market.symbol) market.marketId

instance (table : SymbolTable) (markets : List OrderBookInfo) : Decidable (NamesFree table markets) :=
  inferInstanceAs (Decidable (∀ market ∈ markets, _ ∧ _))

theorem foldlM_total_of_free {markets : List OrderBookInfo} {table : SymbolTable}
    (hnames : (markets.map fun market => (market.marketType, market.symbol)).Nodup)
    (htypes : ∀ market ∈ markets, market.marketType ∈ marketTypes)
    (hshort : ∀ market ∈ markets, market.symbol.length ≤ 255) (hfree : NamesFree table markets) :
    ∃ result, markets.foldlM syncMarket table = .ok result := by
  induction markets generalizing table with
  | nil => exact ⟨table, rfl⟩
  | cons market rest ih =>
    obtain ⟨hnot, hnames⟩ := List.nodup_cons.mp hnames
    obtain ⟨htype, htypes⟩ := List.forall_mem_cons.mp htypes
    obtain ⟨hshortm, hshort⟩ := List.forall_mem_cons.mp hshort
    obtain ⟨⟨hnul, hfreem⟩, hfree⟩ := List.forall_mem_cons.mp hfree
    obtain ⟨mid, hmid⟩ := syncMarket_total hshortm htype hnul hfreem
    obtain ⟨-, -, hupserted⟩ := syncMarket_upserted hshortm htype hmid
    have hmidfree : NamesFree mid rest := by
      intro other hother
      refine ⟨(hfree other hother).1, fun row hrow heq => ?_⟩
      by_cases hm : row.lighterMarketId = market.marketId
      · -- the row of the market just synced carries that market's name, not this one's
        obtain ⟨listed, hlisted, hid, hname, htype⟩ := hupserted.listed
        obtain rfl := mid.row_unique hrow hlisted (hm.trans hid.symm)
        refine absurd (List.mem_map.mpr ⟨other, hother, ?_⟩) hnot
        rw [← heq, SymbolRow.typeName, hname, htype]
      · exact (hfree other hother).2 row ((hupserted.others row hm).mp hrow) heq
    obtain ⟨result, hresult⟩ := ih hnames htypes hshort hmidfree
    exact ⟨result, Loops.foldlM_cons_ok.mpr ⟨mid, hmid, hresult⟩⟩

theorem Synced.same {table a b : SymbolTable} {markets orderBooks : List OrderBookInfo}
    (ha : Synced table markets a) (hb : Synced table orderBooks b)
    (hmem : ∀ market, market ∈ markets ↔ market ∈ orderBooks) : SameSymbols table a b := by
  intro row hrow
  by_cases hlisted : row.lighterMarketId ∈ markets.map OrderBookInfo.marketId
  · obtain ⟨market, hmarket, hid⟩ := List.mem_map.mp hlisted
    obtain ⟨r, -, -, hname, htype, honly⟩ := ha.listed market hmarket
    obtain ⟨r', hr', hid', hname', htype', honly'⟩ := hb.listed market ((hmem market).mp hmarket)
    obtain rfl := honly row hrow hid.symm
    refine ⟨r', hr', hid'.trans hid, hname'.trans hname.symm, htype'.trans htype.symm, fun hold => ?_⟩
    obtain ⟨old, hold, holdid⟩ := List.mem_map.mp hold
    obtain ⟨ra, hra, hraid, hasame⟩ := ha.kept old hold
    obtain ⟨rb, hrb, hrbid, hbsame⟩ := hb.kept old hold
    rw [a.row_unique hrow hra (holdid.symm.trans hraid.symm),
      b.row_unique hr' hrb (hid'.trans (hid.trans (holdid.symm.trans hrbid.symm))), hasame, hbsame]
  · have hunlisted : row.lighterMarketId ∉ orderBooks.map OrderBookInfo.marketId := by
      intro hmarket
      obtain ⟨market, hmarket, hid⟩ := List.mem_map.mp hmarket
      exact hlisted (List.mem_map.mpr ⟨market, (hmem market).mpr hmarket, hid⟩)
    have hb' := (hb.others row hunlisted).mpr ((ha.others row hlisted).mp hrow)
    exact ⟨row, hb', rfl, rfl, rfl, fun _ => rfl⟩

/-- A consistent list of markets goes through in every order exactly when no row of another
market holds one of its names, and no name holds a NUL. -/
theorem sync_accepts_iff (table : SymbolTable) {resp : OrderBooksResponse} (h : Consistent resp) :
    SyncsInAnyOrder table resp ↔ NamesFree table resp.orderBooks := by
  constructor
  · rintro ⟨result, -, -, horders⟩ market hmarket
    -- with the market in front, its upsert meets the table as it was
    have hperm := (List.perm_cons_erase hmarket).symm
    obtain ⟨other, hother, -⟩ := horders _ hperm
    rw [syncSymbols_eq (h.perm hperm)] at hother
    obtain ⟨mid, hmid, -⟩ := Loops.foldlM_cons_ok.mp hother
    obtain ⟨hnul, hfree, -⟩ := syncMarket_upserted (h.short market hmarket) (h.types market hmarket) hmid
    exact ⟨hnul, hfree⟩
  · intro hfree
    have hsync : ∀ orderBooks, orderBooks.Perm resp.orderBooks →
        ∃ result, syncSymbols { resp with orderBooks } table = .ok result ∧
          Synced table orderBooks result := by
      intro orderBooks hperm
      have hc := h.perm hperm
      obtain ⟨result, hresult⟩ := foldlM_total_of_free hc.typeNames hc.types hc.short
        fun market hmarket => hfree market (hperm.mem_iff.mp hmarket)
      exact ⟨result, (syncSymbols_eq hc table).trans hresult,
        foldlM_synced hc.marketIds hc.types hc.short hresult⟩
    obtain ⟨result, hresult, hsynced⟩ := hsync resp.orderBooks (List.Perm.refl _)
    refine ⟨result, hresult, hsynced, fun orderBooks hperm => ?_⟩
    obtain ⟨other, hother, hsynced'⟩ := hsync orderBooks hperm
    exact ⟨other, hother, hsynced.same hsynced' fun market => hperm.mem_iff.symm,
      hsynced'.same hsynced fun market => hperm.mem_iff⟩

def sampleSymbols : SymbolTable where
  rows := [⟨1, "AAA", 1, "perp"⟩, ⟨2, "BBB", 2, "perp"⟩]
  nextId := 3
  idUnique := by decide
  marketUnique := by decide
  typeNameUnique := by decide
  idDrawn := by decide

theorem sync_rejects_swap :
    ¬ SyncsInAnyOrder sampleSymbols ⟨200, [⟨"BBB", 1, "perp"⟩, ⟨"AAA", 2, "perp"⟩]⟩ := by
  rintro ⟨result, hresult, -⟩
  have herror : syncSymbols ⟨200, [⟨"BBB", 1, "perp"⟩, ⟨"AAA", 2, "perp"⟩]⟩ sampleSymbols =
      .error (.uniqueViolation "perp" "BBB") := rfl
  rw [herror] at hresult
  cases hresult

theorem sync_accepts_rename :
    SyncsInAnyOrder sampleSymbols ⟨200, [⟨"CCC", 1, "perp"⟩, ⟨"AAA", 3, "spot"⟩]⟩ :=
  (sync_accepts_iff sampleSymbols
    ⟨rfl, by decide, by decide, by decide, by decide, by decide⟩).mpr (by decide)

end LighterIngestor
