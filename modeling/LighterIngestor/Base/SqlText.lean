import Mathlib.Data.List.Basic

/-!
The string literals of an SQL text with `standard_conforming_strings` on: a literal ends at
the first quote that no other quote follows, and a doubled quote in it stands for one.
-/

namespace SqlText

def quote : Char := '\x27'

/-- A text cut into its literals, each with the code before it, and the code at its end. -/
structure Text where
  segments : List (List Char × List Char)
  tail : List Char
  deriving DecidableEq

/-- `closing` comes after a quote in a literal that ends it unless another quote follows. -/
inductive Mode where
  | code
  | literal
  | closing
  deriving DecidableEq

structure Scanner where
  mode : Mode
  segments : List (List Char × List Char)
  code : List Char
  text : List Char

namespace Scanner

def start (segments : List (List Char × List Char)) : Scanner := ⟨.code, segments, [], []⟩

def step (s : Scanner) (c : Char) : Scanner :=
  match s.mode with
  | .code => if c = quote then { s with mode := .literal } else { s with code := s.code ++ [c] }
  | .literal => if c = quote then { s with mode := .closing } else { s with text := s.text ++ [c] }
  | .closing =>
    if c = quote then { s with mode := .literal, text := s.text ++ [quote] }
    else ⟨.code, s.segments ++ [(s.code, s.text)], [c], []⟩

/-- A literal that is not closed is an error. -/
def finish (s : Scanner) : Option Text :=
  match s.mode with
  | .code => some ⟨s.segments, s.code⟩
  | .literal => none
  | .closing => some ⟨s.segments ++ [(s.code, s.text)], []⟩

end Scanner

def lex (text : List Char) : Option Text := (text.foldl Scanner.step (Scanner.start [])).finish

def doubled (text : List Char) : List Char := text.flatMap fun c => if c = quote then [quote, quote] else [c]

def literal (text : List Char) : List Char := quote :: (doubled text ++ [quote])

def renderSegments (segments : List (List Char × List Char)) : List Char :=
  segments.flatMap fun segment => segment.1 ++ literal segment.2

def render (text : Text) : List Char := renderSegments text.segments ++ text.tail

/-- Code holds no quote, and two literals have some code between them. -/
def WellFormed (text : Text) : Prop :=
  (∀ segment ∈ text.segments, quote ∉ segment.1) ∧ quote ∉ text.tail ∧
    ∀ segment ∈ text.segments.tail, segment.1 ≠ []

theorem scan_code {code : List Char} (h : quote ∉ code) (segments : List (List Char × List Char))
    (before : List Char) :
    code.foldl Scanner.step ⟨.code, segments, before, []⟩ = ⟨.code, segments, before ++ code, []⟩ := by
  induction code generalizing before with
  | nil => simp
  | cons c rest ih =>
    rw [List.mem_cons, not_or] at h
    rw [List.foldl_cons, Scanner.step, if_neg (Ne.symm h.1), ih h.2]
    simp

theorem scan_doubled (text : List Char) (segments : List (List Char × List Char)) (code before : List Char) :
    (doubled text).foldl Scanner.step ⟨.literal, segments, code, before⟩ =
      ⟨.literal, segments, code, before ++ text⟩ := by
  induction text generalizing before with
  | nil => simp [doubled]
  | cons c rest ih =>
    rw [doubled, List.flatMap_cons, List.foldl_append, ← doubled]
    have hfirst : (if c = quote then [quote, quote] else [c]).foldl Scanner.step
        ⟨.literal, segments, code, before⟩ = ⟨.literal, segments, code, before ++ [c]⟩ := by
      split_ifs with hc
      · simp [Scanner.step, hc]
      · simp [Scanner.step, hc]
    rw [hfirst, ih]
    simp

theorem scan_segment {code : List Char} (h : quote ∉ code) (text : List Char)
    (segments : List (List Char × List Char)) :
    (code ++ literal text).foldl Scanner.step (Scanner.start segments) = ⟨.closing, segments, code, text⟩ := by
  rw [List.foldl_append, Scanner.start, scan_code h, List.nil_append, literal, List.foldl_cons,
    Scanner.step, if_pos rfl, List.foldl_append, scan_doubled]
  simp [Scanner.step]

theorem scan_closed {rest : List Char} (hne : rest ≠ []) (hhead : rest.head hne ≠ quote)
    (segments : List (List Char × List Char)) (code text : List Char) :
    rest.foldl Scanner.step ⟨.closing, segments, code, text⟩ =
      rest.foldl Scanner.step (Scanner.start (segments ++ [(code, text)])) := by
  cases rest with
  | nil => exact absurd rfl hne
  | cons c rest =>
    rw [List.head_cons] at hhead
    simp only [List.foldl_cons, Scanner.step, Scanner.start, if_neg hhead, List.nil_append]

theorem head_ne_quote {code : List Char} (hne : code ≠ []) (hquote : quote ∉ code) (rest : List Char)
    (hall : code ++ rest ≠ []) : (code ++ rest).head hall ≠ quote := by
  cases code with
  | nil => exact absurd rfl hne
  | cons c more => exact fun heq => hquote (heq ▸ List.mem_cons_self)

theorem scan_rest {segments : List (List Char × List Char)} {tail : List Char}
    (hcode : ∀ segment ∈ segments, quote ∉ segment.1 ∧ segment.1 ≠ []) (htail : quote ∉ tail)
    (done : List (List Char × List Char)) (code text : List Char) :
    ((renderSegments segments ++ tail).foldl Scanner.step ⟨.closing, done, code, text⟩).finish =
      some ⟨done ++ (code, text) :: segments, tail⟩ := by
  induction segments generalizing done code text with
  | nil =>
    by_cases hnil : tail = []
    · rw [hnil]
      rfl
    · have hhead : tail.head hnil ≠ quote := fun heq => htail (heq ▸ List.head_mem hnil)
      rw [renderSegments, List.flatMap_nil, List.nil_append, scan_closed hnil hhead, Scanner.start,
        scan_code htail]
      rfl
  | cons segment rest ih =>
    obtain ⟨c, t⟩ := segment
    obtain ⟨⟨hquote, hne⟩, hrest⟩ := List.forall_mem_cons.mp hcode
    have hrender : renderSegments ((c, t) :: rest) ++ tail =
        (c ++ literal t) ++ (renderSegments rest ++ tail) := by
      rw [renderSegments, List.flatMap_cons, List.append_assoc, ← renderSegments]
    have hall : c ++ (literal t ++ (renderSegments rest ++ tail)) ≠ [] := by simp [literal]
    rw [hrender, List.append_assoc, scan_closed hall (head_ne_quote hne hquote _ hall), ← List.append_assoc,
      List.foldl_append, scan_segment hquote, ih hrest]
    simp

/-- Whatever the literals hold, the lexer finds them and the code between them as they were put in. -/
theorem lex_render {text : Text} (h : WellFormed text) : lex (render text) = some text := by
  obtain ⟨segments, tail⟩ := text
  obtain ⟨hcode, htail, hbetween⟩ := h
  cases segments with
  | nil =>
    rw [lex, render, renderSegments, List.flatMap_nil, List.nil_append, Scanner.start, scan_code htail]
    rfl
  | cons segment rest =>
    obtain ⟨c, t⟩ := segment
    obtain ⟨hquote, hrest⟩ := List.forall_mem_cons.mp hcode
    have hrender : render ⟨(c, t) :: rest, tail⟩ = (c ++ literal t) ++ (renderSegments rest ++ tail) := by
      rw [render, renderSegments, List.flatMap_cons, List.append_assoc, ← renderSegments]
    rw [hrender, lex, List.foldl_append, scan_segment hquote,
      scan_rest (fun segment hmem => ⟨hrest segment hmem, hbetween segment hmem⟩) htail]
    rfl

end SqlText
