import LighterIngestor.Base.SqlText
import LighterIngestor.SymbolTable

namespace LighterIngestor

/-- The errors of an export; the arguments are what their texts show. -/
inductive ExportError where
  | unknownSymbols (names : List String)
  | timeOutOfRange
  | serializing (cause : String)
  | columnLengths
  | writing
  deriving DecidableEq

/-- `format!("'{}'", name.replace('\'', "''"))`. -/
def quotedName (name : String) : String :=
  "\x27" ++ String.ofList (name.toList.flatMap fun c => if c = '\x27' then ['\x27', '\x27'] else [c]) ++ "\x27"

def symbolCondition (table : SymbolTable) (symbols : List String) : Except ExportError String :=
  if symbols.isEmpty then .ok ""
  else
    let known := (table.rows.map SymbolRow.name).filter (fun name => name ∈ symbols)
    let unknown := symbols.filter (fun name => name ∉ known)
    if unknown ≠ [] then .error (.unknownSymbols unknown)
    else
      let names := ", ".intercalate (symbols.map quotedName)
      .ok ("s.name IN (" ++ names ++ ")")

def timeCondition (timeColumn : String) (hours : ℕ) : String :=
  timeColumn ++ " >= now() - interval \x27" ++ toString hours ++ " hours\x27"

/-- Joins the symbol and time conditions into one `WHERE` clause. -/
def whereClause (symbolCondition : String) (hours : Option ℕ) (timeColumn : String) : String :=
  let conditions := (if symbolCondition.isEmpty then [] else [symbolCondition]) ++
    (hours.map (timeCondition timeColumn)).toList
  if conditions.isEmpty then "" else " WHERE " ++ " AND ".intercalate conditions

/-- The literals of the `IN` list, each with the code before it. -/
def nameSegments : List String → List (List Char × List Char)
  | [] => []
  | first :: rest =>
    (" WHERE s.name IN (".toList, first.toList) :: rest.map (fun name => (", ".toList, name.toList))

/-- The clause as its reader takes it: the names, and the time condition if there is one. -/
def filterText (symbols : List String) (hours : Option ℕ) (timeColumn : String) : SqlText.Text :=
  match hours with
  | none => ⟨nameSegments symbols, ")".toList⟩
  | some hours =>
    ⟨nameSegments symbols ++
      [((") AND " ++ timeColumn ++ " >= now() - interval ").toList, (toString hours ++ " hours").toList)], []⟩

theorem quotedName_toList (name : String) : (quotedName name).toList = SqlText.literal name.toList := by
  simp only [quotedName, String.toList_append, String.toList_ofList]
  rfl

theorem doubled_eq_self {text : List Char} (h : SqlText.quote ∉ text) : SqlText.doubled text = text := by
  induction text with
  | nil => rfl
  | cons c rest ih =>
    rw [List.mem_cons, not_or] at h
    rw [SqlText.doubled, List.flatMap_cons, if_neg (Ne.symm h.1), ← SqlText.doubled, ih h.2]
    rfl

theorem hours_no_quote (hours : ℕ) : SqlText.quote ∉ (toString hours ++ " hours").toList := by
  rw [String.toList_append, List.mem_append, not_or]
  constructor
  · intro hmem
    rw [Nat.toString_eq_repr, Nat.toList_repr] at hmem
    exact absurd (Nat.isDigit_of_mem_toDigits (by decide) (by decide) hmem) (by decide)
  · decide

theorem intercalate_quoted (first : String) (rest : List String) :
    (", ".intercalate ((first :: rest).map quotedName)).toList =
      SqlText.literal first.toList ++
        SqlText.renderSegments (rest.map fun name => (", ".toList, name.toList)) := by
  induction rest generalizing first with
  | nil => simp [quotedName_toList, SqlText.renderSegments]
  | cons second rest ih =>
    rw [List.map_cons, List.map_cons, String.intercalate_cons_cons, ← List.map_cons,
      String.toList_append, String.toList_append, ih, quotedName_toList]
    simp [SqlText.renderSegments]

theorem symbolCondition_known {table : SymbolTable} {symbols : List String} (hne : symbols ≠ [])
    (hknown : ∀ name ∈ symbols, ∃ row ∈ table.rows, row.name = name) :
    symbolCondition table symbols =
      .ok ("s.name IN (" ++ ", ".intercalate (symbols.map quotedName) ++ ")") := by
  have hempty : symbols.isEmpty = false := by simpa using hne
  have hunknown : symbols.filter (fun name =>
      name ∉ (table.rows.map SymbolRow.name).filter (fun name => name ∈ symbols)) = [] := by
    rw [List.filter_eq_nil_iff]
    intro name hname
    simpa [hname] using hknown name hname
  simp only [symbolCondition, hempty, hunknown, Bool.false_eq_true, if_false, ne_eq, not_true_eq_false]

theorem whereClause_toList {condition : String} (hne : condition.isEmpty = false) (hours : Option ℕ)
    (timeColumn : String) :
    (whereClause condition hours timeColumn).toList =
      " WHERE ".toList ++ condition.toList ++
        match hours with
        | none => []
        | some hours => " AND ".toList ++ (timeCondition timeColumn hours).toList := by
  cases hours <;> simp [whereClause, hne]

theorem filterText_wellFormed {symbols : List String} (hne : symbols ≠ []) (hours : Option ℕ)
    {timeColumn : String} (hcolumn : timeColumn = "t.time" ∨ timeColumn = "o.time") :
    SqlText.WellFormed (filterText symbols hours timeColumn) := by
  obtain ⟨first, rest, rfl⟩ := List.exists_cons_of_ne_nil hne
  have hnames : ∀ segment ∈ nameSegments (first :: rest), SqlText.quote ∉ segment.1 ∧ segment.1 ≠ [] := by
    intro segment hsegment
    rcases List.mem_cons.mp hsegment with rfl | hsegment
    · exact (by decide : SqlText.quote ∉ " WHERE s.name IN (".toList ∧ " WHERE s.name IN (".toList ≠ [])
    · obtain ⟨name, -, rfl⟩ := List.mem_map.mp hsegment
      exact (by decide : SqlText.quote ∉ ", ".toList ∧ ", ".toList ≠ [])
  have htime : ∀ text : List Char, ∀ segment ∈ nameSegments (first :: rest) ++
      [((") AND " ++ timeColumn ++ " >= now() - interval ").toList, text)],
        SqlText.quote ∉ segment.1 ∧ segment.1 ≠ [] := by
    intro text segment hsegment
    rcases List.mem_append.mp hsegment with hsegment | hsegment
    · exact hnames segment hsegment
    · rw [List.mem_singleton.mp hsegment]
      dsimp only
      rcases hcolumn with rfl | rfl
      · decide
      · decide
  cases hours with
  | none =>
    have htail : SqlText.quote ∉ ")".toList := by decide
    exact ⟨fun segment hmem => (hnames segment hmem).1, htail,
      fun segment hmem => (hnames segment (List.mem_of_mem_tail hmem)).2⟩
  | some hours =>
    exact ⟨fun segment hmem => (htime _ segment hmem).1, List.not_mem_nil,
      fun segment hmem => (htime _ segment (List.mem_of_mem_tail hmem)).2⟩

theorem filterText_render {symbols : List String} (hne : symbols ≠ []) (hours : Option ℕ)
    (timeColumn : String) :
    (whereClause ("s.name IN (" ++ ", ".intercalate (symbols.map quotedName) ++ ")") hours timeColumn).toList =
      SqlText.render (filterText symbols hours timeColumn) := by
  obtain ⟨first, rest, rfl⟩ := List.exists_cons_of_ne_nil hne
  rw [whereClause_toList (by simp)]
  simp only [String.toList_append, intercalate_quoted]
  cases hours with
  | none => simp [filterText, nameSegments, SqlText.render, SqlText.renderSegments]
  | some hours =>
    have hliteral : SqlText.literal (toString hours ++ " hours").toList =
        "\x27".toList ++ (toString hours ++ " hours").toList ++ "\x27".toList := by
      rw [SqlText.literal, doubled_eq_self (hours_no_quote hours)]
      rfl
    simpa [filterText, nameSegments, SqlText.render, SqlText.renderSegments, timeCondition] using hliteral.symm

theorem nameSegments_names (symbols : List String) :
    (nameSegments symbols).map (fun segment => String.ofList segment.2) = symbols := by
  cases symbols with
  | nil => rfl
  | cons first rest => simp [nameSegments, Function.comp_def]

/-- No name changes the query: its reader finds the code of the clause, the names in order as
the literals of the `IN` list, and the time condition. -/
theorem names_stay_literals {table : SymbolTable} {symbols : List String} (hne : symbols ≠ [])
    (hknown : ∀ name ∈ symbols, ∃ row ∈ table.rows, row.name = name) (hours : Option ℕ)
    {timeColumn : String} (hcolumn : timeColumn = "t.time" ∨ timeColumn = "o.time") :
    ∃ condition, symbolCondition table symbols = .ok condition ∧
      SqlText.lex (whereClause condition hours timeColumn).toList =
        some (filterText symbols hours timeColumn) ∧
      (nameSegments symbols).map (fun segment => String.ofList segment.2) = symbols := by
  refine ⟨_, symbolCondition_known hne hknown, ?_, nameSegments_names symbols⟩
  rw [filterText_render hne, SqlText.lex_render (filterText_wellFormed hne hours hcolumn)]

def quotedSymbols : SymbolTable where
  rows := [⟨1, "O\x27Neil", 4, "perp"⟩, ⟨2, "\x27, \x27) --", 5, "spot"⟩]
  nextId := 3
  idUnique := by decide
  marketUnique := by decide
  typeNameUnique := by decide
  idDrawn := by decide

theorem sample_names_stay : ∃ condition,
    symbolCondition quotedSymbols ["\x27, \x27) --", "O\x27Neil"] = .ok condition ∧
      SqlText.lex (whereClause condition (some 24) "o.time").toList =
        some (filterText ["\x27, \x27) --", "O\x27Neil"] (some 24) "o.time") := by
  obtain ⟨condition, hcondition, hlex, -⟩ :=
    @names_stay_literals quotedSymbols ["\x27, \x27) --", "O\x27Neil"] (by decide) (by decide) (some 24)
      "o.time" (Or.inr rfl)
  exact ⟨condition, hcondition, hlex⟩

end LighterIngestor
