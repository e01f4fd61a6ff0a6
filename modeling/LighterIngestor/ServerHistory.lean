import LighterIngestor.Base.Ladder
import LighterIngestor.MarketBooks

namespace LighterIngestor

/-- What the server does to the book of one market: its book at the first nonce and the
changes of every delta after that. -/
structure ServerHistory where
  nonce : ℕ → ℤ
  increasing : ∀ i j, i < j → nonce i < nonce j
  bids : Ladder ℚ ℚ
  asks : Ladder ℚ ℚ
  bidChanges : ℕ → List (ℚ × ℚ)
  askChanges : ℕ → List (ℚ × ℚ)

namespace ServerHistory

variable (h : ServerHistory)

theorem nonce_injective : Function.Injective h.nonce := by
  intro i j heq
  rcases lt_trichotomy i j with hlt | heq' | hlt
  · exact absurd heq (h.increasing i j hlt).ne
  · exact heq'
  · exact absurd heq (h.increasing j i hlt).ne'

def bidsAt : ℕ → Ladder ℚ ℚ
  | 0 => h.bids
  | i + 1 => (bidsAt i).act (h.bidChanges i)

def asksAt : ℕ → Ladder ℚ ℚ
  | 0 => h.asks
  | i + 1 => (asksAt i).act (h.askChanges i)

end ServerHistory

variable [NumberTypes]

/-- A level of a message that stands for a price and a size. -/
def LevelSpells (level : PriceLevel) (entry : ℚ × ℚ) : Prop :=
  ∃ q : Quote level, value q.price = entry.1 ∧ value q.size = entry.2

def Spells (levels : List PriceLevel) (entries : List (ℚ × ℚ)) : Prop :=
  List.Forall₂ LevelSpells levels entries

/-- The levels list a ladder, each price once and in any order. -/
def Lists (levels : List PriceLevel) (ladder : Ladder ℚ ℚ) : Prop :=
  ∃ entries, Spells levels entries ∧ ladder.ListedBy entries

namespace ServerHistory

variable (h : ServerHistory)

def IsSnapshot (i : ℕ) : OrderBookWsMessage → Prop
  | .subscribed _ _ levels =>
    levels.nonce = h.nonce i ∧ Lists levels.bids (h.bidsAt i) ∧ Lists levels.asks (h.asksAt i)
  | .update .. => False

def IsDelta (i : ℕ) : OrderBookWsMessage → Prop
  | .subscribed .. => False
  | .update _ _ levels =>
    levels.beginNonce = h.nonce i ∧ levels.nonce = h.nonce (i + 1) ∧
      Spells levels.bids (h.bidChanges i) ∧ Spells levels.asks (h.askChanges i)

def Drawn (message : OrderBookWsMessage) : Prop := ∃ i, h.IsSnapshot i message ∨ h.IsDelta i message

def DeltasFrom : ℕ → List OrderBookWsMessage → Prop
  | _, [] => True
  | i, message :: rest => h.IsDelta i message ∧ DeltasFrom (i + 1) rest

end ServerHistory

def levelSize (level : PriceLevel) : Option ℚ :=
  match parse level with
  | .error _ => none
  | .ok quote => some (value quote.size)

theorem levelSize_quote {level : PriceLevel} (q : Quote level) : levelSize level = some (value q.size) := by
  rw [levelSize, parse_quote q]

def Side.sizeAt (side : Side) (r : ℚ) : Option ℚ := (side.levels.lookup r).bind levelSize

/-- A side that holds, as a map from prices to sizes, exactly the ladder. -/
def Side.Mirrors (side : Side) (ladder : Ladder ℚ ℚ) : Prop := ∀ r, side.sizeAt r = ladder.size r

theorem mention_size {r : ℚ} {held : Option PriceLevel} {level : PriceLevel} {entry : ℚ × ℚ}
    (h : LevelSpells level entry) : (mention r held level).bind levelSize =
      if r = entry.1 then (if entry.2 = 0 then none else some entry.2) else held.bind levelSize := by
  obtain ⟨q, hprice, hsize⟩ := h
  rw [mention_quote q, hprice, hsize]
  split_ifs
  · rfl
  · exact (levelSize_quote q).trans (congrArg some hsize)
  · rfl

theorem applyLevel_total (side : Side) {level : PriceLevel} (q : Quote level) :
    ∃ next, applyLevel side level = .ok next := by
  unfold applyLevel
  rw [parse_quote q]
  by_cases hzero : value q.size = 0
  · exact ⟨_, dif_pos hzero⟩
  · exact ⟨_, dif_neg hzero⟩

theorem Spells.quote {levels : List PriceLevel} {entries : List (ℚ × ℚ)} (h : Spells levels entries)
    {level : PriceLevel} (hlevel : level ∈ levels) : ∃ entry ∈ entries, LevelSpells level entry := by
  induction h with
  | nil => simp at hlevel
  | cons hhead _ ih =>
    rcases List.mem_cons.mp hlevel with rfl | hlevel
    · exact ⟨_, by simp, hhead⟩
    · obtain ⟨entry, hentry, hspells⟩ := ih hlevel
      exact ⟨entry, List.mem_cons_of_mem _ hentry, hspells⟩

theorem applySide_total (side : Side) {levels : List PriceLevel} {entries : List (ℚ × ℚ)}
    (h : Spells levels entries) : ∃ next, applySide side levels = (next, .ok ()) := by
  have htotal : ∃ next, levels.foldlM applyLevel side = .ok next := by
    apply Loops.foldlM_total
    intro s level hlevel
    obtain ⟨entry, -, q, -⟩ := h.quote hlevel
    exact applyLevel_total s q
  exact htotal.imp fun next hnext => applySide_ok.mpr hnext

theorem applySide_mirrors {side next : Side} {ladder : Ladder ℚ ℚ} (hside : side.Mirrors ladder)
    {levels : List PriceLevel} {changes : List (ℚ × ℚ)} (h : Spells levels changes)
    (happly : applySide side levels = (next, .ok ())) : next.Mirrors (ladder.act changes) := by
  intro r
  rw [Side.sizeAt, applyLevels_lookup (applySide_ok.mp happly)]
  exact Ladder.foldl_eq_act LevelSpells (fun held _ _ => mention_size) (hside r) h

theorem Spells.level {levels : List PriceLevel} {entries : List (ℚ × ℚ)} (h : Spells levels entries)
    {entry : ℚ × ℚ} (hentry : entry ∈ entries) : ∃ level ∈ levels, LevelSpells level entry := by
  induction h with
  | nil => simp at hentry
  | cons hhead _ ih =>
    rcases List.mem_cons.mp hentry with rfl | hentry
    · exact ⟨_, by simp, hhead⟩
    · obtain ⟨level, hlevel, hspells⟩ := ih hentry
      exact ⟨level, List.mem_cons_of_mem _ hlevel, hspells⟩

theorem sideFromSnapshot_mirrors {levels : List PriceLevel} {ladder : Ladder ℚ ℚ}
    (h : Lists levels ladder) : ∃ side, sideFromSnapshot levels = .ok side ∧ side.Mirrors ladder := by
  obtain ⟨entries, hspells, hlisted⟩ := h
  have hstands : ∀ level ∈ levels, ∃ p, StandsAt p level := by
    intro level hlevel
    obtain ⟨entry, hentry, q, -, hsize⟩ := hspells.quote hlevel
    exact ⟨_, q, rfl, hsize ▸ hlisted.ne_zero hentry⟩
  obtain ⟨side, hside⟩ := sideFromSnapshot_total hstands
  refine ⟨side, hside, fun r => ?_⟩
  rw [Side.sizeAt, sideFromSnapshot_lookup hside]
  rcases foldl_mention hstands r none with ⟨level, hlevel, hr, heq⟩ | ⟨hno, heq⟩
  · obtain ⟨entry, hentry, q, hprice, hsize⟩ := hspells.quote hlevel
    obtain rfl : entry.1 = r :=
      StandsAt.unique ⟨q, hprice, hsize ▸ hlisted.ne_zero hentry⟩ hr
    rw [heq, (hlisted.mem_iff entry.1 entry.2).mp hentry, ← hsize]
    exact levelSize_quote q
  · rw [heq]
    cases hsize : ladder.size r with
    | none => rfl
    | some s =>
      have hentry := (hlisted.mem_iff r s).mpr hsize
      obtain ⟨level, hlevel, q, hprice, hsize⟩ := hspells.level hentry
      exact absurd ⟨q, hprice, hsize ▸ hlisted.ne_zero hentry⟩ (hno level hlevel)

theorem Side.Mirrors.lists {side : Side} {ladder : Ladder ℚ ℚ} (h : side.Mirrors ladder) :
    Lists side.levels.values ladder := by
  have hsize : ∀ e ∈ side.levels.ranked, ∃ s, levelSize e.2 = some s := by
    rintro ⟨r, level⟩ he
    obtain ⟨q, -, -⟩ := side.standsAt he
    exact ⟨_, levelSize_quote q⟩
  refine ⟨side.levels.ranked.map fun e => (e.1, (levelSize e.2).getD 0), ?_, ?_, fun r s => ?_⟩
  · rw [← SortedMap.ranked_values, Spells, List.forall₂_map_left_iff, List.forall₂_map_right_iff,
      List.forall₂_same]
    rintro ⟨r, level⟩ he
    obtain ⟨q, hprice, -⟩ := side.standsAt he
    refine ⟨q, hprice, ?_⟩
    simp [levelSize_quote q]
  · rw [List.map_map]
    exact side.levels.ranked_nodup
  · rw [← h r, Side.sizeAt, Option.bind_eq_some_iff]
    constructor
    · intro hmem
      obtain ⟨⟨p, level⟩, he, heq⟩ := List.mem_map.mp hmem
      obtain ⟨rfl, hs⟩ := Prod.mk.inj heq
      obtain ⟨t, ht⟩ := hsize _ he
      refine ⟨level, (SortedMap.lookup_eq_some_iff _ _ _).mpr he, ?_⟩
      simp only [ht, Option.getD_some] at hs
      rw [ht, hs]
    · rintro ⟨level, hlook, hlevel⟩
      refine List.mem_map.mpr ⟨(r, level), (SortedMap.lookup_eq_some_iff _ _ _).mp hlook, ?_⟩
      simp [hlevel]

theorem Lists.reverse {levels : List PriceLevel} {ladder : Ladder ℚ ℚ} (h : Lists levels ladder) :
    Lists levels.reverse ladder := by
  obtain ⟨entries, hspells, hlisted⟩ := h
  exact ⟨entries.reverse, List.forall₂_reverse_iff.mpr hspells, hlisted.reverse⟩

end LighterIngestor
