import LighterIngestor.Base.TimedLog
import LighterIngestor.ExportBatches
import LighterIngestor.Timestamptz

namespace LighterIngestor

/-- A hypertable with the primary key `(time, id)` whose rows refer to the symbols table. -/
structure Hypertable {α : Type} (time : α → DateTime) (symbol : α → ℤ) (symbols : SymbolTable) where
  entries : List (ℕ × α)
  keyUnique : (entries.map fun entry => (time entry.2, entry.1)).Nodup
  references : ∀ entry ∈ entries, ∃ row ∈ symbols.rows, (row.id : ℤ) = symbol entry.2

/-- `time >= now() - interval 'N hours'`. -/
def InWindow (now : DateTime) (hours : Option ℕ) (t : DateTime) : Prop :=
  ∀ n ∈ hours, now.secs - 3600 * n < t.secs ∨ (now.secs - 3600 * n = t.secs ∧ now.nanos ≤ t.nanos)

instance (now : DateTime) (hours : Option ℕ) (t : DateTime) : Decidable (InWindow now hours t) :=
  inferInstanceAs (Decidable (∀ n ∈ hours, _))

/-- `s.name IN (...)`; an empty list selects every symbol. -/
def NameSelected (names : List String) (row : SymbolRow) : Prop := names = [] ∨ row.name ∈ names

instance (names : List String) (row : SymbolRow) : Decidable (NameSelected names row) :=
  inferInstanceAs (Decidable (_ ∨ _))

namespace Hypertable

variable {α : Type} {time : α → DateTime} {symbol : α → ℤ} {symbols : SymbolTable}

/-- `JOIN symbols s ON s.id = t.symbol`. -/
def joined (table : Hypertable time symbol symbols) : List (ℕ × (SymbolRow × α)) :=
  table.entries.flatMap fun entry =>
    (symbols.rows.filter (fun row => (row.id : ℤ) = symbol entry.2)).map fun row => (entry.1, row, entry.2)

/-- The query of an export, in `ORDER BY time, id`. -/
def query (table : Hypertable time symbol symbols) (names : List String) (hours : Option ℕ) (now : DateTime) :
    List (ℕ × (SymbolRow × α)) :=
  (table.joined.filter fun entry =>
    NameSelected names entry.2.1 ∧ InWindow now hours (time entry.2.2)).mergeSort
      (TimedLog.readOrder fun pair => time pair.2)

/-- The query of an export after the check of the names. A window that begins before
PostgreSQL's range is an error of the statement. -/
def exportSelection (table : Hypertable time symbol symbols) (names : List String) (hours : Option ℕ)
    (now : DateTime) : Except ExportError (List (ℕ × (SymbolRow × α))) :=
  match symbolCondition symbols names with
  | .error e => .error e
  | .ok _ =>
    if hours.any fun n => now.secs - 3600 * n < pgMinSecs then .error .timeOutOfRange
    else .ok (table.query names hours now)

/-- What the table holds of one market in the window, in `(time, id)` order. -/
def marketRows (table : Hypertable time symbol symbols) (market : SymbolRow) (hours : Option ℕ)
    (now : DateTime) : List (ℕ × α) :=
  (table.entries.filter fun entry => symbol entry.2 = market.id ∧ InWindow now hours (time entry.2)).mergeSort
    (TimedLog.readOrder time)

theorem exportSelection_ok {table : Hypertable time symbol symbols} {names : List String}
    {hours : Option ℕ} {now : DateTime} {selection : List (ℕ × (SymbolRow × α))}
    (h : table.exportSelection names hours now = .ok selection) : selection = table.query names hours now := by
  unfold exportSelection at h
  split at h
  · cases h
  · split_ifs at h
    cases h
    rfl

theorem exportSelection_known {table : Hypertable time symbol symbols} {names : List String}
    {hours : Option ℕ} {now : DateTime} (hknown : ∀ name ∈ names, ∃ row ∈ symbols.rows, row.name = name)
    (hrange : ∀ n ∈ hours, pgMinSecs ≤ now.secs - 3600 * n) :
    table.exportSelection names hours now = .ok (table.query names hours now) := by
  have hcondition : ∃ condition, symbolCondition symbols names = .ok condition := by
    by_cases hempty : names = []
    · rw [hempty]
      exact ⟨"", rfl⟩
    · exact ⟨_, symbolCondition_known hempty hknown⟩
  obtain ⟨condition, hcondition⟩ := hcondition
  have hwindow : (hours.any fun n => now.secs - 3600 * n < pgMinSecs) = false := by
    cases hours with
    | none => rfl
    | some n => simpa using hrange n rfl
  simp only [exportSelection, hcondition, hwindow, Bool.false_eq_true, if_false]

theorem mem_joined {table : Hypertable time symbol symbols} {entry : ℕ × (SymbolRow × α)} :
    entry ∈ table.joined ↔
      (entry.1, entry.2.2) ∈ table.entries ∧ entry.2.1 ∈ symbols.rows ∧
        (entry.2.1.id : ℤ) = symbol entry.2.2 := by
  obtain ⟨id, row, x⟩ := entry
  simp only [joined, List.mem_flatMap, List.mem_map, List.mem_filter, decide_eq_true_eq, Prod.mk.injEq]
  constructor
  · rintro ⟨⟨id', x'⟩, hentry, row', ⟨hrow, hid⟩, rfl, rfl, rfl⟩
    exact ⟨hentry, hrow, hid⟩
  · rintro ⟨hentry, hrow, hid⟩
    exact ⟨(id, x), hentry, row, ⟨hrow, hid⟩, rfl, rfl, rfl⟩

theorem mem_query {table : Hypertable time symbol symbols} {names : List String} {hours : Option ℕ}
    {now : DateTime} {entry : ℕ × (SymbolRow × α)} :
    entry ∈ table.query names hours now ↔
      entry ∈ table.joined ∧ NameSelected names entry.2.1 ∧ InWindow now hours (time entry.2.2) := by
  rw [query, List.mem_mergeSort, List.mem_filter, decide_eq_true_eq]

theorem mem_marketRows {table : Hypertable time symbol symbols} {market : SymbolRow} {hours : Option ℕ}
    {now : DateTime} {entry : ℕ × α} :
    entry ∈ table.marketRows market hours now ↔
      entry ∈ table.entries ∧ symbol entry.2 = market.id ∧ InWindow now hours (time entry.2) := by
  rw [marketRows, List.mem_mergeSort, List.mem_filter, decide_eq_true_eq]

theorem query_marketRows {table : Hypertable time symbol symbols} {names : List String} {hours : Option ℕ}
    {now : DateTime} {market : SymbolRow} (hmarket : market ∈ symbols.rows)
    (hname : NameSelected names market) (id : ℕ) (x : α) :
    (id, market, x) ∈ table.query names hours now ↔ (id, x) ∈ table.marketRows market hours now := by
  rw [mem_query, mem_joined, mem_marketRows]
  constructor
  · rintro ⟨⟨hentry, -, hid⟩, -, hwindow⟩
    exact ⟨hentry, hid.symm, hwindow⟩
  · rintro ⟨hentry, hid, hwindow⟩
    exact ⟨⟨hentry, hmarket, hid.symm⟩, hname, hwindow⟩

theorem filter_id {row : SymbolRow} (hrow : row ∈ symbols.rows) :
    symbols.rows.filter (fun other => (other.id : ℤ) = row.id) = [row] := by
  have hnodup : symbols.rows.Nodup := List.Nodup.of_map _ symbols.idUnique
  have hrows : symbols.rows.filter (fun other => (other.id : ℤ) = row.id) =
      symbols.rows.filter (fun other => other = row) := by
    refine List.filter_congr fun other hother => decide_eq_decide.mpr ⟨fun hid => ?_, ?_⟩
    · exact List.inj_on_of_nodup_map symbols.idUnique hother hrow (Int.ofNat_inj.mp hid)
    · rintro rfl
      rfl
  rw [hrows, List.filter_eq, List.count_eq_one_of_mem hnodup hrow]
  rfl

theorem filter_market {market : SymbolRow} (hmarket : market ∈ symbols.rows) (n : ℤ) :
    (symbols.rows.filter (fun row => (row.id : ℤ) = n)).filter (fun row => row = market) =
      if n = market.id then [market] else [] := by
  split_ifs with hid
  · rw [hid, filter_id hmarket]
    simp
  · rw [List.filter_eq_nil_iff]
    intro row hrow heq
    rw [List.mem_filter, decide_eq_true_eq] at hrow
    exact hid (hrow.2.symm.trans (by rw [of_decide_eq_true heq]))

theorem joined_entries (table : Hypertable time symbol symbols) :
    table.joined.map (fun entry => (entry.1, entry.2.2)) = table.entries := by
  have hone : ∀ entry ∈ table.entries,
      ((symbols.rows.filter (fun row => (row.id : ℤ) = symbol entry.2)).map
        fun row => (entry.1, row, entry.2)).map (fun entry => (entry.1, entry.2.2)) = [entry] := by
    intro entry hentry
    obtain ⟨row, hrow, hid⟩ := table.references entry hentry
    rw [← hid, filter_id hrow]
    rfl
  rw [joined, List.map_flatMap, List.flatMap_congr hone]
  exact List.flatMap_singleton' _

theorem joined_market {table : Hypertable time symbol symbols} {market : SymbolRow}
    (hmarket : market ∈ symbols.rows) :
    table.joined.filter (fun entry => entry.2.1 = market) =
      (table.entries.filter (fun entry => symbol entry.2 = market.id)).map
        fun entry => (entry.1, market, entry.2) := by
  unfold joined
  induction table.entries with
  | nil => rfl
  | cons entry rest ih =>
    have hfirst : ((symbols.rows.filter (fun row => (row.id : ℤ) = symbol entry.2)).map
        fun row => (entry.1, row, entry.2)).filter (fun entry => entry.2.1 = market) =
          if symbol entry.2 = market.id then [(entry.1, market, entry.2)] else [] := by
      rw [List.filter_map]
      change ((symbols.rows.filter _).filter (fun row => row = market)).map _ = _
      rw [filter_market hmarket]
      split_ifs <;> rfl
    rw [List.flatMap_cons, List.filter_append, ih, hfirst, List.filter_cons]
    by_cases hid : symbol entry.2 = market.id
    · simp [hid]
    · simp [hid]

/-- The rows of a market in the file are its rows in the window, in their order. -/
theorem query_market {table : Hypertable time symbol symbols} {names : List String} {hours : Option ℕ}
    {now : DateTime} {market : SymbolRow} (hmarket : market ∈ symbols.rows)
    (hname : NameSelected names market) :
    (table.query names hours now).filter (fun entry => entry.2.1 = market) =
      (table.marketRows market hours now).map fun entry => (entry.1, market, entry.2) := by
  have hkeys : ((table.joined.filter fun entry =>
      NameSelected names entry.2.1 ∧ InWindow now hours (time entry.2.2)).map
        fun entry => (time entry.2.2, entry.1)).Nodup := by
    have hall : (table.joined.map fun entry => (time entry.2.2, entry.1)).Nodup := by
      have hunique := table.keyUnique
      rw [← table.joined_entries, List.map_map] at hunique
      exact hunique
    exact hall.sublist (List.filter_sublist.map _)
  have hfilter : (table.joined.filter fun entry =>
      NameSelected names entry.2.1 ∧ InWindow now hours (time entry.2.2)).filter
        (fun entry => entry.2.1 = market) =
      (table.entries.filter fun entry => symbol entry.2 = market.id ∧ InWindow now hours (time entry.2)).map
        fun entry => (entry.1, market, entry.2) := by
    rw [List.filter_comm, joined_market hmarket, List.filter_map, List.filter_filter]
    refine congrArg _ (List.filter_congr fun entry _ => ?_)
    simp [hname, and_comm]
  rw [query, TimedLog.filter_mergeSort _ hkeys, hfilter, marketRows]
  symm
  exact List.map_mergeSort fun _ _ _ _ => rfl

end Hypertable

end LighterIngestor
