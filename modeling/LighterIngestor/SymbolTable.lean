import LighterIngestor.Trades

namespace LighterIngestor

structure SymbolRow where
  id : ℕ
  name : String
  lighterMarketId : ℤ
  marketType : String
  deriving DecidableEq

/-- The columns of the index `symbols_market_type_name_uniq`. -/
def SymbolRow.typeName (row : SymbolRow) : String × String := (row.marketType, row.name)

/-- The `symbols` table with its keys, and its sequence, which every id has come from. -/
structure SymbolTable where
  rows : List SymbolRow
  nextId : ℕ
  idUnique : (rows.map SymbolRow.id).Nodup
  marketUnique : (rows.map SymbolRow.lighterMarketId).Nodup
  typeNameUnique : (rows.map SymbolRow.typeName).Nodup
  idDrawn : ∀ row ∈ rows, row.id < nextId

inductive SyncError where
  | code (code : ℤ)
  | noMarkets
  | unsupportedType (marketType : String) (marketId : ℤ)
  | valueTooLong
  | invalidText
  | checkViolation
  | uniqueViolation (marketType name : String)
  deriving DecidableEq

def marketTypes : List String := ["perp", "spot"]

/-- A text stored as `VARCHAR(255)`: only spaces are cut off, and no text holds a NUL. -/
def varchar255 (text : String) : Except SyncError String :=
  if '\x00' ∈ text.toList then .error .invalidText
  else if text.length ≤ 255 then .ok text
  else if (text.toList.drop 255).all (· = ' ') then .ok (String.ofList (text.toList.take 255))
  else .error .valueTooLong

theorem varchar255_short {text : String} (h : text.length ≤ 255) :
    varchar255 text = if '\x00' ∈ text.toList then .error .invalidText else .ok text := by
  rw [varchar255, if_pos h]

namespace SymbolTable

variable (table : SymbolTable)

/-- No row of another market holds the type and name. -/
def Free (typeName : String × String) (marketId : ℤ) : Prop :=
  ∀ row ∈ table.rows, row.typeName = typeName → row.lighterMarketId = marketId

instance (typeName : String × String) (marketId : ℤ) : Decidable (table.Free typeName marketId) :=
  inferInstanceAs (Decidable (∀ row ∈ table.rows, _))

/-- What `DO UPDATE` makes of a row. -/
def updated (name marketType : String) (marketId : ℤ) (row : SymbolRow) : SymbolRow :=
  if row.lighterMarketId = marketId then { row with name, marketType } else row

theorem id_updated (name marketType : String) (marketId : ℤ) :
    SymbolRow.id ∘ updated name marketType marketId = SymbolRow.id := by
  funext row
  simp only [Function.comp_apply, updated]
  split_ifs <;> rfl

theorem marketId_updated (name marketType : String) (marketId : ℤ) :
    SymbolRow.lighterMarketId ∘ updated name marketType marketId = SymbolRow.lighterMarketId := by
  funext row
  simp only [Function.comp_apply, updated]
  split_ifs <;> rfl

theorem row_unique {a b : SymbolRow} (ha : a ∈ table.rows) (hb : b ∈ table.rows)
    (h : a.lighterMarketId = b.lighterMarketId) : a = b :=
  List.inj_on_of_nodup_map table.marketUnique ha hb h

/-- The `DO UPDATE` arm. The insertion that was tried first has drawn an id all the same. -/
def update (name marketType : String) (marketId : ℤ) (h : table.Free (marketType, name) marketId) :
    SymbolTable where
  rows := table.rows.map (updated name marketType marketId)
  nextId := table.nextId + 1
  idUnique := by
    rw [List.map_map, id_updated]
    exact table.idUnique
  marketUnique := by
    rw [List.map_map, marketId_updated]
    exact table.marketUnique
  typeNameUnique := by
    rw [List.map_map]
    refine List.Nodup.map_on ?_ (List.Nodup.of_map _ table.idUnique)
    intro a ha b hb heq
    simp only [Function.comp_apply, updated] at heq
    split_ifs at heq with hma hmb hmb
    · exact table.row_unique ha hb (hma.trans hmb.symm)
    · exact absurd (h b hb heq.symm) hmb
    · exact absurd (h a ha heq) hma
    · exact List.inj_on_of_nodup_map table.typeNameUnique ha hb heq
  idDrawn := by
    intro row hrow
    obtain ⟨old, hold, rfl⟩ := List.mem_map.mp hrow
    have hid : (updated name marketType marketId old).id = old.id :=
      congrFun (id_updated name marketType marketId) old
    rw [hid]
    exact Nat.lt_succ_of_lt (table.idDrawn old hold)

def add (name marketType : String) (marketId : ℤ) (h : table.Free (marketType, name) marketId)
    (hnew : ∀ row ∈ table.rows, row.lighterMarketId ≠ marketId) : SymbolTable where
  rows := table.rows ++ [⟨table.nextId, name, marketId, marketType⟩]
  nextId := table.nextId + 1
  idUnique := by
    rw [List.map_append]
    refine table.idUnique.append (List.nodup_singleton _) ?_
    simpa using fun row hrow => ne_of_lt (table.idDrawn row hrow)
  marketUnique := by
    rw [List.map_append]
    refine table.marketUnique.append (List.nodup_singleton _) ?_
    simpa using hnew
  typeNameUnique := by
    rw [List.map_append]
    refine table.typeNameUnique.append (List.nodup_singleton _) ?_
    simp only [List.map_cons, List.map_nil, List.disjoint_singleton, List.mem_map, not_exists, not_and]
    exact fun row hrow heq => hnew row hrow (h row hrow heq)
  idDrawn := by
    intro row hrow
    rcases List.mem_append.mp hrow with hrow | hrow
    · exact Nat.lt_succ_of_lt (table.idDrawn row hrow)
    · rw [List.mem_singleton.mp hrow]
      exact Nat.lt_succ_self _

end SymbolTable

/-- `INSERT ... ON CONFLICT (lighter_market_id) DO UPDATE`. A conflict on the other unique
index is an error. -/
def upsertSymbol (symbolName marketType : String) (marketId : ℤ) (table : SymbolTable) :
    Except SyncError (SymbolTable × ℕ) :=
  match varchar255 symbolName with
  | .error e => .error e
  | .ok name =>
    if marketType ∉ marketTypes then .error .checkViolation
    else if h : table.Free (marketType, name) marketId then
      match hrow : table.rows.find? (fun row => row.lighterMarketId = marketId) with
      | some row => .ok (table.update name marketType marketId h, row.id)
      | none => .ok (table.add name marketType marketId h (by simpa using hrow), table.nextId)
    else .error (.uniqueViolation marketType name)

structure Upserted (table next : SymbolTable) (name marketType : String) (marketId : ℤ) : Prop where
  listed : ∃ row ∈ next.rows, row.lighterMarketId = marketId ∧ row.name = name ∧
    row.marketType = marketType
  others : ∀ row, row.lighterMarketId ≠ marketId → (row ∈ next.rows ↔ row ∈ table.rows)
  kept : ∀ old ∈ table.rows, old.lighterMarketId = marketId →
    ∃ row ∈ next.rows, row.lighterMarketId = marketId ∧ row.id = old.id

theorem update_upserted (table : SymbolTable) {name marketType : String} {marketId : ℤ}
    (h : table.Free (marketType, name) marketId) {old : SymbolRow} (hold : old ∈ table.rows)
    (hid : old.lighterMarketId = marketId) :
    Upserted table (table.update name marketType marketId h) name marketType marketId where
  listed := by
    refine ⟨_, List.mem_map_of_mem hold, ?_⟩
    rw [SymbolTable.updated, if_pos hid]
    exact ⟨hid, rfl, rfl⟩
  others := by
    intro row hrow
    constructor
    · intro hmem
      obtain ⟨other, hother, rfl⟩ := List.mem_map.mp hmem
      unfold SymbolTable.updated at hrow ⊢
      split_ifs at hrow ⊢ with hm
      · exact absurd hm hrow
      · exact hother
    · intro hmem
      refine List.mem_map.mpr ⟨row, hmem, ?_⟩
      rw [SymbolTable.updated, if_neg hrow]
  kept := by
    intro row hrow hm
    refine ⟨_, List.mem_map_of_mem hrow, ?_⟩
    rw [SymbolTable.updated, if_pos hm]
    exact ⟨hm, rfl⟩

theorem add_upserted (table : SymbolTable) {name marketType : String} {marketId : ℤ}
    (h : table.Free (marketType, name) marketId)
    (hnew : ∀ row ∈ table.rows, row.lighterMarketId ≠ marketId) :
    Upserted table (table.add name marketType marketId h hnew) name marketType marketId where
  listed := ⟨_, List.mem_append_right _ (List.mem_singleton_self _), rfl, rfl, rfl⟩
  others := by
    intro row hrow
    refine ⟨fun hmem => ?_, fun hmem => List.mem_append_left _ hmem⟩
    rcases List.mem_append.mp hmem with hmem | hmem
    · exact hmem
    · rw [List.mem_singleton.mp hmem] at hrow
      exact absurd rfl hrow
  kept := fun row hrow hm => absurd hm (hnew row hrow)

/-- For a name that fits the column, an upsert fails on a NUL and on the second unique index only. -/
theorem upsertSymbol_ok_iff {table : SymbolTable} {name marketType : String} {marketId : ℤ}
    (hshort : name.length ≤ 255) (htype : marketType ∈ marketTypes) :
    (∃ next id, upsertSymbol name marketType marketId table = .ok (next, id)) ↔
      '\x00' ∉ name.toList ∧ table.Free (marketType, name) marketId := by
  simp only [upsertSymbol, varchar255_short hshort]
  by_cases hnul : '\x00' ∈ name.toList
  · simp [hnul]
  · by_cases hfree : table.Free (marketType, name) marketId
    · refine ⟨fun _ => ⟨hnul, hfree⟩, fun _ => ?_⟩
      simp only [hnul, htype, hfree, if_false, not_true_eq_false, dif_pos]
      split
      · exact ⟨_, _, rfl⟩
      · exact ⟨_, _, rfl⟩
    · simp [hnul, htype, hfree]

theorem upsertSymbol_upserted {table next : SymbolTable} {name marketType : String} {marketId : ℤ}
    {id : ℕ} (hshort : name.length ≤ 255) (htype : marketType ∈ marketTypes)
    (h : upsertSymbol name marketType marketId table = .ok (next, id)) :
    Upserted table next name marketType marketId := by
  obtain ⟨hnul, hfree⟩ := (upsertSymbol_ok_iff hshort htype).mp ⟨next, id, h⟩
  simp only [upsertSymbol, varchar255_short hshort, hnul, htype, hfree, if_false, not_true_eq_false,
    dif_pos] at h
  split at h
  · rename_i row hrow
    cases h
    exact update_upserted table hfree (List.mem_of_find?_eq_some hrow) (by
      simpa using List.find?_some hrow)
  · cases h
    exact add_upserted table hfree _

/-- The cache of a table maps different markets to different symbols. -/
def loadSymbolCache (table : SymbolTable) : SymbolCache where
  map := ⟨table.rows.map fun row => ⟨row.lighterMarketId, row.id⟩, by
    rw [List.NodupKeys, List.keys, List.map_map]
    exact table.marketUnique⟩
  injective := by
    intro a b symbol ha hb
    obtain ⟨row, hrow, heq⟩ := List.mem_map.mp (AList.mem_lookup_iff.mp ha)
    obtain ⟨row', hrow', heq'⟩ := List.mem_map.mp (AList.mem_lookup_iff.mp hb)
    obtain ⟨rfl, hid⟩ := Sigma.mk.inj_iff.mp heq
    obtain ⟨rfl, hid'⟩ := Sigma.mk.inj_iff.mp heq'
    have hids : row.id = row'.id := by
      exact_mod_cast (eq_of_heq hid).trans (eq_of_heq hid').symm
    rw [List.inj_on_of_nodup_map table.idUnique hrow hrow' hids]

end LighterIngestor
