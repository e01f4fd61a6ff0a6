import LighterIngestor.MarketBooks

namespace LighterIngestor

theorem microsToDatetime_error {micros : ℤ} {error : WsError}
    (h : microsToDatetime micros = .error error) : error = .invalidMicros micros := by
  unfold microsToDatetime at h
  split at h <;> cases h
  rfl

section

variable [NumberTypes]

/-- The bids and asks of a delta that come before its first level that does not parse. -/
def CutBefore (cause : BookError) (bids asks bids' asks' : List PriceLevel) : Prop :=
  (∃ bad after, bids = bids' ++ bad :: after ∧ asks' = [] ∧ parse bad = .error cause) ∨
    (bids = bids' ∧ ∃ bad after, asks = asks' ++ bad :: after ∧ parse bad = .error cause)

theorem applyLevel_error {side : Side} {level : PriceLevel} {cause : BookError}
    (h : applyLevel side level = .error cause) : parse level = .error cause := by
  unfold applyLevel at h
  split at h
  · rename_i e he
    rw [he, Except.error.inj h]
  · split_ifs at h

theorem applySide_error {side next : Side} {levels : List PriceLevel} {cause : BookError}
    (h : applySide side levels = (next, .error cause)) :
    ∃ before bad after, levels = before ++ bad :: after ∧ parse bad = .error cause ∧
      applySide side before = (next, .ok ()) := by
  induction levels generalizing side with
  | nil => cases h
  | cons level rest ih =>
    rw [applySide] at h
    cases hlevel : applyLevel side level with
    | error e =>
      rw [hlevel] at h
      obtain ⟨rfl, he⟩ := Prod.mk.inj h
      cases he
      exact ⟨[], level, rest, rfl, applyLevel_error hlevel, rfl⟩
    | ok mid =>
      rw [hlevel] at h
      obtain ⟨before, bad, after, rfl, hbad, hbefore⟩ := ih h
      refine ⟨level :: before, bad, after, rfl, hbad, ?_⟩
      rw [applySide, hlevel]
      exact hbefore

theorem applyDelta_error {book next : Book} {bids asks : List PriceLevel} {cause : BookError}
    (h : book.applyDelta bids asks = (next, .error cause)) :
    ∃ bids' asks', CutBefore cause bids asks bids' asks' ∧ book.applyDelta bids' asks' = (next, .ok ()) := by
  unfold Book.applyDelta at h
  rcases hbids : applySide book.bidSide bids with ⟨bidSide, e | u⟩
  · rw [hbids] at h
    obtain ⟨rfl, he⟩ := Prod.mk.inj h
    cases he
    obtain ⟨before, bad, after, hcut, hbad, hbefore⟩ := applySide_error hbids
    exact ⟨before, [], Or.inl ⟨bad, after, hcut, rfl, hbad⟩, applyDelta_ok.mpr ⟨hbefore, rfl⟩⟩
  · rw [hbids] at h
    rcases hasks : applySide book.askSide asks with ⟨askSide, e | u⟩
    · simp only [hasks, Prod.mk.injEq, Except.error.injEq] at h
      obtain ⟨rfl, rfl⟩ := h
      obtain ⟨before, bad, after, hcut, hbad, hbefore⟩ := applySide_error hasks
      exact ⟨bids, before, Or.inr ⟨rfl, bad, after, hcut, hbad⟩, applyDelta_ok.mpr ⟨hbids, hbefore⟩⟩
    · simp [hasks] at h

/-- Every way a message is rejected leaves the map as it was, but for a delta with a bad level. -/
theorem applyOrderbookMessage_error {symbol marketId : ℤ} {message : OrderBookWsMessage}
    {markets next : Markets} {error : WsError}
    (h : applyOrderbookMessage symbol marketId message markets = (next, .error error)) :
    ((∀ cause, error ≠ .applyingDelta marketId cause) ∧ next = markets) ∨
      ∃ channel micros levels market book cause, message = .update channel micros levels ∧
        error = .applyingDelta marketId cause ∧ markets.lookup marketId = some market ∧
        market.book.applyDelta levels.bids levels.asks = (book, .error cause) ∧
        next = markets.insert marketId { market with book } := by
  cases message with
  | subscribed channel micros levels =>
    simp only [applyOrderbookMessage] at h
    split at h
    · rename_i e he
      cases h
      rw [microsToDatetime_error he]
      exact Or.inl ⟨by simp, rfl⟩
    · rename_i time htime
      split at h
      · cases h
        exact Or.inl ⟨by simp, rfl⟩
      · rw [orderbookRow_ok (microsToDatetime_ok.mp htime)] at h
        simp at h
  | update channel micros levels =>
    simp only [applyOrderbookMessage] at h
    split at h
    · cases h
      exact Or.inl ⟨by simp, rfl⟩
    · rename_i market hmarket
      split_ifs at h with hgap
      · cases h
        exact Or.inl ⟨by simp, rfl⟩
      · split at h
        · rename_i e he
          cases h
          rw [microsToDatetime_error he]
          exact Or.inl ⟨by simp, rfl⟩
        · rename_i time htime
          split_ifs at h with hlate
          · cases h
            exact Or.inl ⟨by simp, rfl⟩
          · split at h
            · rename_i book cause hbook
              cases h
              exact Or.inr ⟨channel, micros, levels, market, book, cause, rfl, rfl, hmarket, hbook, rfl⟩
            · rw [orderbookRow_ok (microsToDatetime_ok.mp htime)] at h
              simp at h

/-- What a rejected message changes. The nonce and the source time of every market stay, and
so do the levels, unless a level of a delta does not parse: then its market holds the levels
before that one. -/
theorem rejected_message_changes {symbol marketId : ℤ} {message : OrderBookWsMessage}
    {markets next : Markets} {error : WsError}
    (h : applyOrderbookMessage symbol marketId message markets = (next, .error error)) :
    (∀ id, (next.lookup id).map (fun market => (market.nonce, market.sourceTime)) =
        (markets.lookup id).map (fun market => (market.nonce, market.sourceTime))) ∧
      (∀ id, id ≠ marketId → next.lookup id = markets.lookup id) ∧
      ((∀ cause, error ≠ .applyingDelta marketId cause) → next = markets) ∧
      ∀ cause, error = .applyingDelta marketId cause →
        ∃ channel micros levels market book bids' asks', message = .update channel micros levels ∧
          markets.lookup marketId = some market ∧ next.lookup marketId = some { market with book } ∧
          CutBefore cause levels.bids levels.asks bids' asks' ∧
          market.book.applyDelta bids' asks' = (book, .ok ()) := by
  have hother : ∀ id, id ≠ marketId → next.lookup id = markets.lookup id := by
    intro id hid
    have hlookup := applyOrderbookMessage_other symbol marketId message markets hid
    rwa [h] at hlookup
  rcases applyOrderbookMessage_error h with
    ⟨hcause, rfl⟩ | ⟨channel, micros, levels, market, book, cause, rfl, rfl, hmarket, hbook, rfl⟩
  · exact ⟨fun _ => rfl, hother, fun _ => rfl, fun cause he => absurd he (hcause cause)⟩
  · refine ⟨fun id => ?_, hother, fun hno => absurd rfl (hno cause), ?_⟩
    · by_cases hid : id = marketId
      · rw [hid, AList.lookup_insert, hmarket]
        rfl
      · rw [hother id hid]
    · rintro cause' hcause
      cases hcause
      obtain ⟨bids', asks', hcut, hbefore⟩ := applyDelta_error hbook
      exact ⟨channel, micros, levels, market, book, bids', asks', rfl, hmarket, AList.lookup_insert _, hcut,
        hbefore⟩

end

def sampleMarkets [NumberTypes] : Markets :=
  (∅ : Markets).insert 7 ⟨10, ⟨0, 0, by decide⟩, Book.default⟩

def sampleBadDelta : OrderBookWsMessage :=
  .update "order_book:7" 5 ⟨0, 15, 10, [], [⟨"6", "4"⟩, ⟨"x", "1"⟩]⟩

theorem sample_partial_delta : letI := wholeNumbers;
    ∃ next, applyOrderbookMessage 3 7 sampleBadDelta sampleMarkets =
        (next, .error (.applyingDelta 7 (.price "x" "invalid digit"))) ∧
      (next.lookup 7).map (fun market => market.book.bids) = some [⟨"6", "4"⟩] ∧
      (next.lookup 7).map (fun market => (market.nonce, market.sourceTime)) =
        (sampleMarkets.lookup 7).map (fun market => (market.nonce, market.sourceTime)) := by
  let := wholeNumbers
  have hrejected : applyOrderbookMessage 3 7 sampleBadDelta sampleMarkets =
    (_, .error (.applyingDelta 7 (.price "x" "invalid digit"))) := rfl
  exact ⟨_, hrejected, rfl, (@rejected_message_changes wholeNumbers _ _ _ _ _ _ hrejected).1 7⟩

theorem partial_delta_stays : letI := wholeNumbers;
    ¬ ∀ (symbol marketId : ℤ) (message : OrderBookWsMessage) (markets next : Markets) (error : WsError),
      applyOrderbookMessage symbol marketId message markets = (next, .error error) →
        ∀ id, (next.lookup id).map (fun market =>
            (market.nonce, market.sourceTime, market.book.bids, market.book.asks)) =
          (markets.lookup id).map (fun market =>
            (market.nonce, market.sourceTime, market.book.bids, market.book.asks)) := by
  let := wholeNumbers
  intro hall
  have hsame := hall 3 7 sampleBadDelta sampleMarkets _ (.applyingDelta 7 (.price "x" "invalid digit")) rfl 7
  have hbids := congrArg (Option.map fun market => market.2.2.1) hsame
  exact absurd hbids (by decide)

end LighterIngestor
