import LighterIngestor.Session
import Mathlib.Data.List.TakeWhile

namespace LighterIngestor

theorem digits_isDigit {n : ℕ} {c : Char} (hc : c ∈ n.repr.toList) : c.isDigit = true := by
  rw [Nat.toList_repr] at hc
  exact Nat.isDigit_of_mem_toDigits (by decide) (by decide) hc

theorem parseDigits_repr (n : ℕ) : parseDigits n.repr.toList = some n := by
  have hne : n.repr.toList ≠ [] := by
    rw [Nat.toList_repr]
    exact Nat.toDigits_ne_nil
  have hall : n.repr.toList.all Char.isDigit = true := List.all_eq_true.mpr fun c => digits_isDigit
  have hvalue : n.repr.toList.foldl (fun n c => n * 10 + (c.toNat - '0'.toNat)) 0 = n := by
    rw [Nat.toList_repr]
    have hdigits := @Nat.ofDigitChars_ten_toDigits n
    simpa only [Nat.ofDigitChars_eq_foldl, Nat.mul_comm] using hdigits
  rw [parseDigits, if_pos ⟨hne, hall⟩, hvalue]

theorem toString_toList (i : ℤ) : (toString i).toList =
    if 0 ≤ i then i.toNat.repr.toList else '-' :: (-i).toNat.repr.toList := by
  change i.repr.toList = _
  rw [Int.repr_eq_if]
  split_ifs
  · rfl
  · rw [String.toList_append]
    rfl

theorem digits_head (n : ℕ) : ∃ c rest, n.repr.toList = c :: rest ∧ c.isDigit = true := by
  cases h : n.repr.toList with
  | nil =>
    rw [Nat.toList_repr] at h
    exact absurd h Nat.toDigits_ne_nil
  | cons c rest => exact ⟨c, rest, rfl, digits_isDigit (h ▸ List.mem_cons_self)⟩

def InI32 (i : ℤ) : Prop := -2147483648 ≤ i ∧ i ≤ 2147483647

instance (i : ℤ) : Decidable (InI32 i) := inferInstanceAs (Decidable (_ ∧ _))

/-- What is printed is read back, if it fits. -/
theorem parseI32_toString (i : ℤ) : parseI32 (toString i).toList = if InI32 i then some i else none := by
  have hsigned : parseI32 (toString i).toList =
      (some i).filter (fun n => -2147483648 ≤ n ∧ n ≤ 2147483647) := by
    rw [toString_toList]
    split_ifs with hpos
    · obtain ⟨c, rest, hdigits, hc⟩ := digits_head i.toNat
      have hparse := parseDigits_repr i.toNat
      rw [hdigits] at hparse ⊢
      unfold parseI32
      split
      · rename_i heq
        cases heq
        cases hc
      · rename_i heq
        cases heq
        cases hc
      · rw [hparse]
        change Option.filter _ (some (i.toNat : ℤ)) = _
        rw [Int.toNat_of_nonneg hpos]
    · simp only [parseI32, parseDigits_repr]
      change Option.filter _ (some (-((-i).toNat : ℤ))) = _
      rw [Int.toNat_of_nonneg (by omega), Int.neg_neg]
  rw [hsigned, Option.filter_some]
  exact if_congr decide_eq_true_iff rfl rfl

theorem colon_not_in_toString (i : ℤ) : ':' ∉ (toString i).toList := by
  have hdigits : ∀ n : ℕ, ':' ∉ n.repr.toList := fun n h => absurd (digits_isDigit h) (by decide)
  rw [toString_toList]
  split_ifs
  · exact hdigits _
  · rw [List.mem_cons, not_or]
    exact ⟨by decide, hdigits _⟩

theorem toString_injective {a b : ℤ} (h : toString a = toString b) : a = b := by
  have hlist := congrArg String.toList h
  rw [toString_toList, toString_toList] at hlist
  have hnat : ∀ m n : ℕ, m.repr.toList = n.repr.toList → m = n := by
    intro m n hmn
    have hm := parseDigits_repr m
    rw [hmn, parseDigits_repr] at hm
    exact (Option.some.inj hm).symm
  have hsign : ∀ m n : ℕ, m.repr.toList ≠ '-' :: n.repr.toList := by
    intro m n hmn
    exact absurd (digits_isDigit (hmn ▸ List.mem_cons_self)) (by decide)
  split_ifs at hlist with ha hb hb
  · have := hnat _ _ hlist
    omega
  · exact absurd hlist (hsign _ _)
  · exact absurd hlist.symm (hsign _ _)
  · have := hnat _ _ (List.cons.inj hlist).2
    omega

/-- A channel as the server names it in its messages. -/
def servedChannel (kind : String) (marketId : ℤ) : String := kind ++ ":" ++ toString marketId

/-- The market of a message is the one that the server has put into its channel, and a number
that is no `i32` is no market. -/
theorem channelMarketId_served {kind : String} (hkind : ':' ∉ kind.toList) (marketId : ℤ) :
    channelMarketId (servedChannel kind marketId) = if InI32 marketId then some marketId else none := by
  have hlist : (servedChannel kind marketId).toList = kind.toList ++ ':' :: (toString marketId).toList := by
    simp [servedChannel, String.toList_append]
  have hdrop : (kind.toList ++ ':' :: (toString marketId).toList).dropWhile (· ≠ ':') =
      ':' :: (toString marketId).toList := by
    rw [List.dropWhile_append_of_pos]
    · rfl
    · intro c hc
      simpa using fun heq : c = ':' => hkind (heq ▸ hc)
  have htake : (toString marketId).toList.takeWhile (· ≠ ':') = (toString marketId).toList := by
    rw [List.takeWhile_eq_self_iff]
    intro c hc
    simpa using fun heq : c = ':' => colon_not_in_toString marketId (heq ▸ hc)
  rw [channelMarketId, hlist, hdrop]
  dsimp only
  rw [htake, parseI32_toString]

theorem sample_served : channelMarketId (servedChannel "order_book" 4095) = some 4095 ∧
    channelMarketId (servedChannel "trade" 2147483648) = none :=
  ⟨channelMarketId_served (by decide) 4095, channelMarketId_served (by decide) 2147483648⟩

theorem orderbookChannel_injective {a b : ℤ} (h : orderbookChannel a = orderbookChannel b) : a = b := by
  have htext : toString a = toString b := (String.append_right_inj _).mp h
  exact toString_injective htext

theorem orderbookChannel_ne_tradeChannel (a b : ℤ) : orderbookChannel a ≠ tradeChannel b := by
  intro h
  change "order_book/" ++ toString a = "trade/" ++ toString b at h
  have hhead := congrArg (fun s : String => s.toList.head?) h
  simp [String.toList_append] at hhead

end LighterIngestor
