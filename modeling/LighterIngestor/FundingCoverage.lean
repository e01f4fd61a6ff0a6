import LighterIngestor.FundingAppend
import LighterIngestor.FundingCollection

namespace LighterIngestor

section

variable [NumberTypes]

theorem Poller.Starts.wholeHour {p : Poller} {market : PerpMarket} {start : DateTime}
    (h : p.Starts market start) : WholeHour start := by
  unfold Starts nextRequestStart at h
  split at h
  · obtain ⟨u, -, hceil⟩ := Option.bind_eq_some_iff.mp h
    exact ceilHour_wholeHour hceil
  · exact ceilHour_wholeHour h

namespace Collection

def PageSound (symbol : ℤ) (settled : List DateTime) : PollState → Prop
  | .requested _ start request => request.startTimestamp = start.timestamp
  | .fetched market start rows =>
    market.symbolId = symbol → rows.map SettledFunding.time <+: settled.filter (fun t => start ≤ t)
  | .validated market start _ rows =>
    market.symbolId = symbol → rows.map SettledFunding.time <+: settled.filter (fun t => start ≤ t)
  | _ => True

/-- The stored times are an initial segment of the settlements from the origin on. -/
def Segment (settled times : List DateTime) : Option DateTime → Prop
  | none => times = []
  | some origin => times ≠ [] ∧ times <+: settled.filter (fun t => origin ≤ t)

structure Covered (symbol : ℤ) (c : Collection) : Prop where
  sound : c.poller.AppendOnly
  growing : c.settled.Pairwise (· < ·)
  whole : ∀ t ∈ c.settled, WholeHour t
  stored : Segment c.settled (timesOf symbol c.poller.table) c.origin
  page : PageSound symbol c.settled c.poller.state

theorem PageSound.settle {symbol : ℤ} {settled : List DateTime} {state : PollState}
    (h : PageSound symbol settled state) (t : DateTime) : PageSound symbol (settled ++ [t]) state := by
  have hgrown : ∀ start : DateTime,
      settled.filter (fun u => start ≤ u) <+: (settled ++ [t]).filter (fun u => start ≤ u) := by
    intro start
    rw [List.filter_append]
    exact List.prefix_append _ _
  cases state with
  | fetched market start rows => exact fun hsymbol => (h hsymbol).trans (hgrown start)
  | validated market start now rows => exact fun hsymbol => (h hsymbol).trans (hgrown start)
  | _ => exact h

theorem Covered.settle {symbol : ℤ} {c : Collection} (h : c.Covered symbol) {t : DateTime}
    (hgrid : WholeHour t) (hlater : ∀ u ∈ c.settled, u < t) :
    Covered symbol { c with settled := c.settled ++ [t] } := by
  refine ⟨h.sound, ?_, ?_, ?_, h.page.settle t⟩
  · rw [List.pairwise_append]
    exact ⟨h.growing, List.pairwise_singleton _ _, by simpa using hlater⟩
  · intro u hu
    rcases List.mem_append.mp hu with hu | hu
    · exact h.whole u hu
    · exact List.mem_singleton.mp hu ▸ hgrid
  · have hstored := h.stored
    cases horigin : c.origin with
    | none =>
      rw [horigin] at hstored
      exact hstored
    | some origin =>
      rw [horigin] at hstored
      refine ⟨hstored.1, ?_⟩
      rw [List.filter_append]
      exact hstored.2.trans (List.prefix_append _ _)

/-- What is settled from the next start on is what follows the stored segment. -/
theorem Covered.rest_from_start {symbol : ℤ} {c : Collection} (h : c.Covered symbol) {market : PerpMarket}
    {start origin : DateTime} {rest : List DateTime} (hstart : c.poller.Starts market start)
    (hsymbol : market.symbolId = symbol) (hstored : timesOf symbol c.poller.table ≠ [])
    (hrest : c.settled.filter (fun t => origin ≤ t) = timesOf symbol c.poller.table ++ rest) :
    c.settled.filter (fun t => start ≤ t) = rest := by
  subst hsymbol
  have hbefore : ∀ t ∈ timesOf market.symbolId c.poller.table, t < start := fun t => hstart.stored_lt
  have hmem : ∀ t ∈ timesOf market.symbolId c.poller.table ++ rest, t ∈ c.settled ∧ origin ≤ t := by
    intro t ht
    rw [← hrest, List.mem_filter] at ht
    exact ⟨ht.1, of_decide_eq_true ht.2⟩
  obtain ⟨newest, hnewest⟩ : ∃ newest, newestFundingTime market.symbolId c.poller.table = some newest :=
    Option.ne_none_iff_exists'.mp (fun hnone => hstored (newestFundingTime_none.mp hnone))
  have hin := (newestFundingTime_some.mp hnewest).1
  have hafter : ∀ t ∈ rest, start ≤ t := by
    intro t ht
    have hsorted : (timesOf market.symbolId c.poller.table ++ rest).Pairwise (· < ·) :=
      hrest ▸ h.growing.filter _
    have hlt : newest < t := (List.pairwise_append.mp hsorted).2.2 newest hin t ht
    rw [Poller.Starts, hnewest] at hstart
    exact nextRequestStart_least hstart (h.sound.whole _ newest hin)
      (h.whole t (hmem t (List.mem_append_right _ ht)).1) hlt
  have horigin : origin < start := (hmem newest (List.mem_append_left _ hin)).2.trans_lt (hbefore newest hin)
  have hfilter : c.settled.filter (fun t => start ≤ t) =
      (c.settled.filter (fun t => origin ≤ t)).filter (fun t => start ≤ t) := by
    rw [List.filter_filter]
    refine List.filter_congr fun t _ => ?_
    simpa using fun hle => horigin.le.trans hle
  rw [hfilter, hrest, Growing.filter_append_from hbefore hafter]

theorem next_origin_same {symbol : ℤ} {c : Collection} {p : Poller}
    (h : timesOf symbol p.table = timesOf symbol c.poller.table) :
    (c.next symbol p).origin = c.origin := by
  rw [next, h]
  exact if_neg fun hboth => hboth.2 hboth.1

theorem Covered.first_page {symbol : ℤ} {c : Collection} (h : c.Covered symbol) {market : PerpMarket}
    {start : DateTime} (hstart : c.poller.Starts market start) (hsymbol : market.symbolId = symbol)
    {p : Poller} {page : List DateTime} (horigin : c.origin = none)
    (htimes : timesOf symbol p.table = timesOf symbol c.poller.table ++ page)
    (hcut : page <+: c.settled.filter (fun t => start ≤ t)) :
    Segment c.settled (timesOf symbol p.table) (c.next symbol p).origin := by
  have hnone := h.stored
  rw [horigin] at hnone
  change timesOf symbol c.poller.table = [] at hnone
  rw [hnone, List.nil_append] at htimes
  by_cases hpage : page = []
  · rw [hpage] at htimes
    rw [next_origin_same (htimes.trans hnone.symm), horigin]
    exact htimes
  · have hfirst : ceilHour c.poller.backfillStart = some start := by
      rw [Poller.Starts, hsymbol, newestFundingTime_none.mpr hnone] at hstart
      exact hstart
    rw [next, if_pos ⟨hnone, htimes ▸ hpage⟩, hfirst, htimes]
    exact ⟨hpage, hcut⟩

theorem Covered.later_page {symbol : ℤ} {c : Collection} (h : c.Covered symbol) {market : PerpMarket}
    {start origin : DateTime} (hstart : c.poller.Starts market start) (hsymbol : market.symbolId = symbol)
    {p : Poller} {page : List DateTime} (horigin : c.origin = some origin)
    (htimes : timesOf symbol p.table = timesOf symbol c.poller.table ++ page)
    (hcut : page <+: c.settled.filter (fun t => start ≤ t)) :
    Segment c.settled (timesOf symbol p.table) (c.next symbol p).origin := by
  have hstored := h.stored
  rw [horigin] at hstored
  obtain ⟨hne, rest, hrest⟩ := hstored
  rw [h.rest_from_start hstart hsymbol hne hrest.symm] at hcut
  rw [next, if_neg fun hboth => hne hboth.1, horigin, htimes]
  refine ⟨fun hnil => hne (List.append_eq_nil_iff.mp hnil).1, ?_⟩
  rw [← hrest]
  exact (List.prefix_append_right_inj _).mpr hcut

theorem Covered.stored_insert {symbol : ℤ} {c : Collection} (h : c.Covered symbol) {market : PerpMarket}
    {start now : DateTime} {rows : List SettledFunding}
    (hat : c.poller.state = .validated market start now rows) :
    Segment c.settled (timesOf symbol (c.poller.insertPage market rows).table)
      (c.next symbol (c.poller.insertPage market rows)).origin := by
  have hpage := h.page
  rw [hat] at hpage
  have hsound := h.sound.in_state hat
  have htimes := timesOf_append symbol (h.sound.insert hat).1
  by_cases hsymbol : market.symbolId = symbol
  · rw [if_pos hsymbol] at htimes
    cases horigin : c.origin with
    | none => exact h.first_page hsound.1 hsymbol horigin htimes (hpage hsymbol)
    | some origin => exact h.later_page hsound.1 hsymbol horigin htimes (hpage hsymbol)
  · rw [if_neg hsymbol, List.append_nil] at htimes
    rw [next_origin_same htimes, htimes]
    exact h.stored

theorem Covered.page_poller {symbol : ℤ} {c : Collection} (h : c.Covered symbol) {event : PollEvent}
    {p : Poller} (hhonest : c.Honest symbol event) (hstep : c.poller.step event = some p) :
    PageSound symbol c.settled p.state := by
  have hpage := h.page
  have hloop : ∀ market start, PageSound symbol c.settled (loopFrom market start) := by
    intro market start
    cases start <;> exact trivial
  cases Poller.step_does hstep with
  | advance hnow => exact hpage
  | restart backfillStart => exact trivial
  | fail => exact trivial
  | poll market => exact hloop _ _
  | checkHour hat =>
    dsimp only
    split_ifs <;> exact trivial
  | request hat => exact rfl
  | response hat =>
    rename_i market start request body
    rw [hat] at hpage
    cases hparse : parseFundingsResponse body with
    | error e => exact trivial
    | ok rows =>
      intro hsymbol
      exact (hhonest market start request body hat rfl hsymbol rows hparse).trans
        (FundingRequest.window_prefix h.growing h.whole (Poller.Starts.wholeHour (h.sound.in_state hat)) hpage)
  | validate hat =>
    rename_i market start rows
    rw [hat] at hpage
    cases hvalid : validatePage start c.poller.clock rows with
    | error e => exact trivial
    | ok checked => exact hpage
  | insert hat =>
    unfold Poller.insertPage
    split <;> exact trivial
  | next hat =>
    dsimp only
    split_ifs
    · exact trivial
    · exact hloop _ _

theorem Covered.poller {symbol : ℤ} {c : Collection} (h : c.Covered symbol) {event : PollEvent}
    {p : Poller} (hhonest : c.Honest symbol event) (hstep : c.poller.step event = some p) :
    (c.next symbol p).Covered symbol := by
  refine ⟨h.sound.step hstep, h.growing, h.whole, ?_, h.page_poller hhonest hstep⟩
  rcases Poller.step_table hstep with htable | ⟨market, start, now, rows, hat, rfl⟩
  · have htimes : timesOf symbol p.table = timesOf symbol c.poller.table := by rw [htable]
    change Segment c.settled (timesOf symbol p.table) (c.next symbol p).origin
    rw [next_origin_same htimes, htimes]
    exact h.stored
  · exact h.stored_insert hat

theorem Reachable.silent {symbol : ℤ} {c : Collection} (h : Reachable symbol c) (event : PollEvent)
    (hsilent : ∀ body, event ≠ .response body) {p : Poller} (hstep : c.poller.step event = some p) :
    Reachable symbol (c.next symbol p) :=
  h.step (.poller (fun _ _ _ body _ hevent => absurd hevent (hsilent body)) hstep)

theorem Reachable.answered {symbol : ℤ} {c : Collection} (h : Reachable symbol c)
    (body : Except String FundingsResponse) (hhonest : c.Honest symbol (.response body)) {p : Poller}
    (hstep : c.poller.step (.response body) = some p) : Reachable symbol (c.next symbol p) :=
  h.step (.poller hhonest hstep)

theorem Reachable.covered {symbol : ℤ} {c : Collection} (h : Reachable symbol c) : c.Covered symbol := by
  induction h with
  | start clock backfillStart =>
    exact ⟨Poller.start_appendOnly clock backfillStart, List.Pairwise.nil,
      fun _ ht => absurd ht List.not_mem_nil, rfl, trivial⟩
  | step _ hstep ih =>
    cases hstep with
    | settle hgrid hlater => exact ih.settle hgrid hlater
    | poller hhonest hstep => exact ih.poller hhonest hstep

end Collection

/-- Funding collection leaves no gap: whatever crashes, restarts and page lengths, the times
stored for a market are an initial segment of its settlements from its origin on. -/
theorem funding_without_gaps {symbol : ℤ} {c : Collection} (h : Collection.Reachable symbol c) :
    (c.poller.table.rows.map fundingKey).Nodup ∧
      match c.origin with
      | none => timesOf symbol c.poller.table = []
      | some origin =>
        timesOf symbol c.poller.table <+: c.settled.filter (fun t => origin ≤ t) ∧
          ∀ t ∈ timesOf symbol c.poller.table, ∀ u ∈ c.settled, origin ≤ u → u ≤ t →
            u ∈ timesOf symbol c.poller.table := by
  have hc := h.covered
  have hstored := hc.stored
  refine ⟨c.poller.table.unique, ?_⟩
  cases horigin : c.origin with
  | none =>
    rw [horigin] at hstored
    exact hstored
  | some origin =>
    rw [horigin] at hstored
    obtain ⟨-, rest, hrest⟩ := hstored
    refine ⟨⟨rest, hrest⟩, ?_⟩
    intro t ht u hu hfrom hle
    have hmem : u ∈ timesOf symbol c.poller.table ++ rest := by
      rw [hrest, List.mem_filter]
      exact ⟨hu, decide_eq_true hfrom⟩
    rcases List.mem_append.mp hmem with hmem | hmem
    · exact hmem
    · have hsorted : (timesOf symbol c.poller.table ++ rest).Pairwise (· < ·) :=
        hrest ▸ hc.growing.filter _
      exact absurd ((List.pairwise_append.mp hsorted).2.2 t ht u hmem) (not_lt.mpr hle)

end

def sampleNextHour : DateTime := ⟨1790420400, 0, by decide⟩

def samplePage : FundingsResponse := ⟨200, "1h", [⟨1790416800, "4", "long"⟩]⟩

theorem sample_without_gaps : letI := wholeNumbers;
    ∃ c : Collection, c.settled = [sampleHour, sampleNextHour] ∧ c.origin = some sampleHour ∧
      timesOf 3 c.poller.table = [sampleHour] ∧
      timesOf 3 c.poller.table <+: c.settled.filter (fun t => sampleHour ≤ t) := by
  let := wholeNumbers
  have hstart : Collection.Reachable 3 _ := .start sampleHour sampleHour
  have hhour := hstart.step (.settle (t := sampleHour) (by decide) (by simp [Collection.start]))
  have hnext := hhour.step (.settle (t := sampleNextHour) (by decide) (by decide))
  have hclock := hnext.silent (.advance sampleClock) (by simp) rfl
  have hpoll := hclock.silent (.poll sampleMarket) (by simp) rfl
  have hcheck := hpoll.silent .checkHour (by simp) rfl
  have hrequest := hcheck.silent .request (by simp) rfl
  have hresponse := hrequest.answered (.ok samplePage) (by
    intro market start request body hstate hbody _ rows hrows
    cases hstate
    cases hbody
    cases hrows
    exact ⟨[sampleNextHour], rfl⟩) rfl
  have hvalid := hresponse.silent .validate (by simp) rfl
  have hinsert := hvalid.silent .insert (by simp) rfl
  exact ⟨_, rfl, rfl, rfl, (funding_without_gaps hinsert).2.1⟩

end LighterIngestor
