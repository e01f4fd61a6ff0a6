import Mathlib.Data.List.Basic

/-!
JSON as a serializer writes it without spaces, and a reader of such text: the
literals of strings, and arrays of anything that can be read back.
-/

namespace JsonText

def quote : Char := '\x22'

def backslash : Char := '\x5c'

def digit (n : ℕ) : Char := n.digitChar

def digitValue (c : Char) : Option ℕ := (List.range 16).find? fun n => digit n = c

/-- Quotes, backslashes and control characters are escaped, the rest stands for itself. -/
def escaped (c : Char) : List Char :=
  if c = quote then [backslash, quote]
  else if c = backslash then [backslash, backslash]
  else if c = '\x08' then [backslash, 'b']
  else if c = '\t' then [backslash, 't']
  else if c = '\n' then [backslash, 'n']
  else if c = '\x0c' then [backslash, 'f']
  else if c = '\r' then [backslash, 'r']
  else if c.toNat < 32 then [backslash, 'u', '0', '0', digit (c.toNat / 16), digit (c.toNat % 16)]
  else [c]

def literal (text : List Char) : List Char := quote :: (text.flatMap escaped ++ [quote])

/-- The character that an escape stands for, from behind its backslash on. -/
def unescape : List Char → Option (Char × List Char)
  | 'b' :: rest => some ('\x08', rest)
  | 't' :: rest => some ('\t', rest)
  | 'n' :: rest => some ('\n', rest)
  | 'f' :: rest => some ('\x0c', rest)
  | 'r' :: rest => some ('\r', rest)
  | 'u' :: '0' :: '0' :: high :: low :: rest =>
    match digitValue high, digitValue low with
    | some a, some b => some (Char.ofNat (16 * a + b), rest)
    | _, _ => none
  | 'u' :: _ => none
  | c :: rest => some (c, rest)
  | [] => none

/-- A literal from behind its first quote on, with what follows it. -/
def scan : ℕ → List Char → Option (List Char × List Char)
  | 0, _ => none
  | _, [] => none
  | fuel + 1, c :: rest =>
    if c = quote then some ([], rest)
    else if c = backslash then
      match unescape rest with
      | none => none
      | some (c, rest) => (scan fuel rest).map fun (text, rest) => (c :: text, rest)
    else (scan fuel rest).map fun (text, rest) => (c :: text, rest)

def readLiteral : List Char → Option (List Char × List Char)
  | [] => none
  | c :: rest => if c = quote then scan rest.length rest else none

/-- What follows a fixed text. -/
def skip (text input : List Char) : Option (List Char) := text.isPrefixOf? input

section Arrays

variable {α : Type*} (render : α → List Char) (read : List Char → Option (α × List Char))

def items : List α → List Char
  | [] => [']']
  | x :: xs => ',' :: (render x ++ items xs)

def array : List α → List Char
  | [] => ['[', ']']
  | x :: xs => '[' :: (render x ++ items render xs)

def readItems : ℕ → List Char → Option (List α × List Char)
  | 0, _ => none
  | fuel + 1, text =>
    match text with
    | ']' :: rest => some ([], rest)
    | ',' :: rest =>
      match read rest with
      | none => none
      | some (x, rest) => (readItems fuel rest).map fun (xs, rest) => (x :: xs, rest)
    | _ => none

def readArray (text : List Char) : Option (List α × List Char) :=
  match text with
  | '[' :: ']' :: rest => some ([], rest)
  | '[' :: rest =>
    match read rest with
    | none => none
    | some (x, rest) => (readItems read rest.length rest).map fun (xs, rest) => (x :: xs, rest)
  | _ => none

end Arrays

theorem digitValue_digit : ∀ n < 16, digitValue (digit n) = some n := by decide

theorem unescape_unicode {c : Char} (hc : c.toNat < 32) (rest : List Char) :
    unescape ('u' :: '0' :: '0' :: digit (c.toNat / 16) :: digit (c.toNat % 16) :: rest) = some (c, rest) := by
  have hhigh := digitValue_digit (c.toNat / 16) (by omega)
  have hlow := digitValue_digit (c.toNat % 16) (by omega)
  simp only [unescape, hhigh, hlow]
  rw [Nat.div_add_mod, Char.ofNat_toNat]

theorem scan_escape (fuel : ℕ) (escape : List Char) {rest : List Char} {c : Char}
    (h : unescape (escape ++ rest) = some (c, rest)) :
    scan (fuel + 1) (backslash :: (escape ++ rest)) =
      (scan fuel rest).map fun (text, rest) => (c :: text, rest) := by
  rw [scan, if_neg (by decide), if_pos rfl, h]

theorem scan_escaped (fuel : ℕ) (c : Char) (rest : List Char) :
    scan (fuel + 1) (escaped c ++ rest) = (scan fuel rest).map fun (text, rest) => (c :: text, rest) := by
  unfold escaped
  split_ifs with hquote hbackslash hb ht hn hf hr hcontrol
  · exact scan_escape fuel [quote] (by rw [hquote]; rfl)
  · exact scan_escape fuel [backslash] (by rw [hbackslash]; rfl)
  · exact scan_escape fuel ['b'] (by rw [hb]; rfl)
  · exact scan_escape fuel ['t'] (by rw [ht]; rfl)
  · exact scan_escape fuel ['n'] (by rw [hn]; rfl)
  · exact scan_escape fuel ['f'] (by rw [hf]; rfl)
  · exact scan_escape fuel ['r'] (by rw [hr]; rfl)
  · exact scan_escape fuel ['u', '0', '0', digit (c.toNat / 16), digit (c.toNat % 16)]
      (unescape_unicode hcontrol rest)
  · rw [List.singleton_append, scan, if_neg hquote, if_neg hbackslash]

theorem scan_text (text rest : List Char) (fuel : ℕ) (hfuel : text.length < fuel) :
    scan fuel (text.flatMap escaped ++ quote :: rest) = some (text, rest) := by
  induction text generalizing fuel with
  | nil =>
    obtain ⟨n, rfl⟩ := Nat.exists_eq_add_of_lt hfuel
    rfl
  | cons c text ih =>
    rw [List.length_cons] at hfuel
    obtain ⟨n, rfl⟩ : ∃ n, fuel = n + 1 := ⟨fuel - 1, by omega⟩
    rw [List.flatMap_cons, List.append_assoc, scan_escaped, ih n (by omega)]
    rfl

theorem escaped_pos (c : Char) : 1 ≤ (escaped c).length := by
  unfold escaped
  split_ifs <;> simp

theorem length_escaped (text : List Char) : text.length ≤ (text.flatMap escaped).length := by
  induction text with
  | nil => exact Nat.le_refl _
  | cons c text ih =>
    have hc := escaped_pos c
    rw [List.flatMap_cons, List.length_append, List.length_cons]
    omega

theorem readLiteral_literal (text rest : List Char) : readLiteral (literal text ++ rest) = some (text, rest) := by
  have hlength := length_escaped text
  have hlist : literal text ++ rest = quote :: (text.flatMap escaped ++ quote :: rest) := by
    simp [literal]
  rw [hlist, readLiteral, if_pos rfl]
  apply scan_text
  rw [List.length_append, List.length_cons]
  omega

theorem skip_append (text rest : List Char) : skip text (text ++ rest) = some rest := by
  induction text with
  | nil => rfl
  | cons c text ih =>
    rw [skip] at ih ⊢
    simp [List.isPrefixOf?, ih]

section

variable {α : Type*} {render : α → List Char} {read : List Char → Option (α × List Char)}

theorem readItems_items (hread : ∀ x rest, read (render x ++ rest) = some (x, rest)) (xs : List α)
    (rest : List Char) (fuel : ℕ) (hfuel : xs.length < fuel) :
    readItems read fuel (items render xs ++ rest) = some (xs, rest) := by
  induction xs generalizing fuel with
  | nil =>
    obtain ⟨n, rfl⟩ := Nat.exists_eq_add_of_lt hfuel
    rfl
  | cons x xs ih =>
    rw [List.length_cons] at hfuel
    obtain ⟨n, rfl⟩ : ∃ n, fuel = n + 1 := ⟨fuel - 1, by omega⟩
    rw [items, List.cons_append, List.append_assoc, readItems, hread]
    dsimp only
    rw [ih n (by omega)]
    rfl

theorem length_items (render : α → List Char) (xs : List α) : xs.length < (items render xs).length := by
  induction xs with
  | nil => exact Nat.one_pos
  | cons x xs ih =>
    rw [items, List.length_cons, List.length_cons, List.length_append]
    omega

/-- An array is read back if its elements are, and none of them looks like the end. -/
theorem readArray_array (hread : ∀ x rest, read (render x ++ rest) = some (x, rest))
    (hopen : ∀ x, ∃ c more, render x = c :: more ∧ c ≠ ']') (xs : List α) (rest : List Char) :
    readArray read (array render xs ++ rest) = some (xs, rest) := by
  cases xs with
  | nil => rfl
  | cons x xs =>
    obtain ⟨c, more, hx, hc⟩ := hopen x
    have hfirst := hread x (items render xs ++ rest)
    have hlength := length_items render xs
    rw [hx] at hfirst
    rw [array, List.cons_append, List.append_assoc, hx, List.cons_append, readArray]
    · rw [← List.cons_append, hfirst]
      dsimp only
      rw [readItems_items hread]
      · rfl
      · rw [List.length_append]
        omega
    · rintro _ heq
      exact hc (List.cons.inj heq).1

end

end JsonText
