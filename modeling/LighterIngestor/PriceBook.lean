import LighterIngestor.Base.SortedMap
import Mathlib.Algebra.Order.Ring.Rat

namespace LighterIngestor

/-- The number types of the collector that its own source does not define.
`BigDecimal` is compared, ordered and tested for zero by the number it stands for. -/
class NumberTypes where
  BigDecimal : Type
  fromStr : String → Except String BigDecimal
  value : BigDecimal → ℚ
  F64 : Type
  parseF64 : String → Except String F64

export NumberTypes (BigDecimal F64 value)

structure PriceLevel where
  price : String
  size : String
  deriving DecidableEq, Repr

inductive BookError where
  | price (text cause : String)
  | size (text cause : String)
  | zeroSize (price : String)
  deriving DecidableEq, Repr

variable [NumberTypes]

structure Quote (level : PriceLevel) where
  price : BigDecimal
  size : BigDecimal
  price_eq : NumberTypes.fromStr level.price = .ok price
  size_eq : NumberTypes.fromStr level.size = .ok size

def parse (level : PriceLevel) : Except BookError (Quote level) :=
  match hp : NumberTypes.fromStr level.price with
  | .error e => .error (.price level.price e)
  | .ok price =>
    match hs : NumberTypes.fromStr level.size with
    | .error e => .error (.size level.size e)
    | .ok size => .ok ⟨price, size, hp, hs⟩

theorem parse_quote {level : PriceLevel} (q : Quote level) : parse level = .ok q := by
  obtain ⟨price, size, hp, hs⟩ := q
  unfold parse
  split
  · rename_i e he
    exact absurd (he.symm.trans hp) (by simp)
  · rename_i p hp'
    obtain rfl : p = price := Except.ok.inj (hp'.symm.trans hp)
    split
    · rename_i e he
      exact absurd (he.symm.trans hs) (by simp)
    · rename_i s hs'
      obtain rfl : s = size := Except.ok.inj (hs'.symm.trans hs)
      rfl

/-- One side of a book, a `BTreeMap<BigDecimal, PriceLevel>`. Every level in it has
parsed, stands at its own price and is not empty. -/
structure Side where
  levels : SortedMap value PriceLevel
  quoted : ∀ e ∈ levels.entries, ∃ q : Quote e.2, value q.price = value e.1 ∧ value q.size ≠ 0

namespace Side

def empty : Side := ⟨SortedMap.empty, by simp [SortedMap.empty]⟩

def insert (side : Side) {level : PriceLevel} (quote : Quote level)
    (h : value quote.size ≠ 0) : Side where
  levels := side.levels.insert quote.price level
  quoted := by
    intro e he
    rcases SortedMap.mem_insertEntry he with he | ⟨hk, rfl⟩
    · exact side.quoted e he
    · exact ⟨quote, hk.symm, h⟩

def remove (side : Side) (price : BigDecimal) : Side where
  levels := side.levels.remove price
  quoted := fun e he => side.quoted e (List.mem_of_mem_filter he)

end Side

/-- The body of the loop of `side_from_snapshot`. -/
def snapshotLevel (side : Side) (level : PriceLevel) : Except BookError Side :=
  match parse level with
  | .error e => .error e
  | .ok quote =>
    if h : value quote.size = 0 then .error (.zeroSize level.price)
    else .ok (side.insert quote h)

def sideFromSnapshot (levels : List PriceLevel) : Except BookError Side :=
  levels.foldlM snapshotLevel Side.empty

/-- The body of the loop of `apply_side`. -/
def applyLevel (side : Side) (level : PriceLevel) : Except BookError Side :=
  match parse level with
  | .error e => .error e
  | .ok quote =>
    if h : value quote.size = 0 then .ok (side.remove quote.price)
    else .ok (side.insert quote h)

/-- `apply_side` works in place: an error leaves the levels before it applied. -/
def applySide (side : Side) : List PriceLevel → Side × Except BookError Unit
  | [] => (side, .ok ())
  | level :: rest =>
    match applyLevel side level with
    | .error e => (side, .error e)
    | .ok next => applySide next rest

structure Book where
  bidSide : Side
  askSide : Side

namespace Book

def default : Book := ⟨Side.empty, Side.empty⟩

def fromSnapshot (bids asks : List PriceLevel) : Except BookError Book :=
  match sideFromSnapshot bids with
  | .error e => .error e
  | .ok bidSide =>
    match sideFromSnapshot asks with
    | .error e => .error e
    | .ok askSide => .ok ⟨bidSide, askSide⟩

def applyDelta (book : Book) (bids asks : List PriceLevel) : Book × Except BookError Unit :=
  match applySide book.bidSide bids with
  | (bidSide, .error e) => (⟨bidSide, book.askSide⟩, .error e)
  | (bidSide, .ok ()) =>
    let (askSide, result) := applySide book.askSide asks
    (⟨bidSide, askSide⟩, result)

/-- Bids from the highest price down. -/
def bids (book : Book) : List PriceLevel := book.bidSide.levels.values.reverse

/-- Asks from the lowest price up. -/
def asks (book : Book) : List PriceLevel := book.askSide.levels.values

end Book

theorem applySide_ok {side next : Side} {levels : List PriceLevel} :
    applySide side levels = (next, .ok ()) ↔ levels.foldlM applyLevel side = .ok next := by
  induction levels generalizing side with
  | nil => simp [applySide, pure, Except.pure]
  | cons level rest ih =>
    rw [applySide, List.foldlM_cons]
    cases applyLevel side level with
    | error e => simp [bind, Except.bind]
    | ok mid => exact ih

theorem fromSnapshot_ok {bids asks : List PriceLevel} {book : Book} :
    Book.fromSnapshot bids asks = .ok book ↔
      sideFromSnapshot bids = .ok book.bidSide ∧ sideFromSnapshot asks = .ok book.askSide := by
  obtain ⟨bidSide, askSide⟩ := book
  unfold Book.fromSnapshot
  cases sideFromSnapshot bids with
  | error e => simp
  | ok b =>
    cases sideFromSnapshot asks with
    | error e => simp
    | ok a => simp

theorem applyDelta_ok {book next : Book} {bids asks : List PriceLevel} :
    book.applyDelta bids asks = (next, .ok ()) ↔
      applySide book.bidSide bids = (next.bidSide, .ok ()) ∧
        applySide book.askSide asks = (next.askSide, .ok ()) := by
  obtain ⟨bidSide, askSide⟩ := next
  unfold Book.applyDelta
  rcases applySide book.bidSide bids with ⟨b, e | u⟩
  · simp
  · rcases applySide book.askSide asks with ⟨a, r⟩
    simp [and_assoc]

end LighterIngestor
