import Mathlib.Data.List.Sort
import Astralane.Api

/-!
# Requests beside the programs

A handler opens a connection and runs its queries one by one, each on the
database as it is committed at that moment. `get_tokens` and `get_ohlcv` have one
query. Rows are never lost, so what they showed once they show in any later state
(`reads_monotone`).

`get_contention` has three queries and no transaction around them, and a summary
that is stored between two of them tears the response: its blocks, accounts and
programs are then of different reports, though each part is of one
(`contention_parts`).
-/

namespace Astralane

variable {json : StringListJson} {ints : IntListJson} {s s' : SystemState}

/-! ## The three queries of `get_contention` -/

variable (ints) in
/-- Each query on the database it finds; the count is of the blocks. -/
def contentionQueries (ord : ContentionOrder) (atBlocks atAccounts atPrograms : Db)
    (q : ContentionQuery) : ContentionResponse where
  blockCount := (getContention ints ord atBlocks q).blockCount
  blocks := (getContention ints ord atBlocks q).blocks
  topAccounts := (getContention ints ord atAccounts q).topAccounts
  topPrograms := (getContention ints ord atPrograms q).topPrograms

theorem contentionQueries_self (ord : ContentionOrder) (db : Db) (q : ContentionQuery) :
    contentionQueries ints ord db db db q = getContention ints ord db q := rfl

/-- A request, with the states its queries find and what the programs do between
them. -/
structure ContentionRequest (json : StringListJson) (ints : IntListJson) where
  atBlocks : SystemState
  atAccounts : SystemState
  atPrograms : SystemState
  beforeAccounts : List SystemAction
  beforePrograms : List SystemAction
  reachable : SystemReachable json ints atBlocks
  toAccounts : Transition.runActions (systemStep json ints) beforeAccounts atBlocks
    = some atAccounts
  toPrograms : Transition.runActions (systemStep json ints) beforePrograms atAccounts
    = some atPrograms

def SystemAction.storesSummary : SystemAction → Bool
  | .summaryStore _ _ _ => true
  | _ => false

/-- The summary tables have not changed. -/
structure Db.SameSummary (db db' : Db) : Prop where
  blocks : db'.contentionBlocks = db.contentionBlocks
  accounts : db'.contentionAccounts = db.contentionAccounts
  programs : db'.contentionPrograms = db.contentionPrograms

namespace Db.SameSummary

theorem refl (db : Db) : db.SameSummary db := ⟨rfl, rfl, rfl⟩

theorem trans {a b c : Db} (hab : a.SameSummary b) (hbc : b.SameSummary c) : a.SameSummary c :=
  ⟨hbc.blocks.trans hab.blocks, hbc.accounts.trans hab.accounts, hbc.programs.trans hab.programs⟩

theorem backfillBlock (answer : UInt64 → BlockFetchOutcome) (db : Db) (slot : Int) :
    db.SameSummary (backfillBlock answer db slot) := by
  rw [backfillBlock_eq]
  exact ⟨rfl, rfl, rfl⟩

/-- A step that is not the store of a summary leaves it. -/
theorem of_step {a : SystemAction} (hstores : a.storesSummary = false)
    (h : systemStep json ints a s = some s') : s.db.SameSummary s'.db := by
  cases a with
  | write block =>
      obtain rfl := Option.some.inj h
      rw [runBlocking_eq]
      exact ⟨rfl, rfl, rfl⟩
  | backfillStart | summaryStart =>
      obtain rfl := Option.some.inj h
      exact .refl s.db
  | backfillBlock i answer =>
      simp only [systemStep, backfillStep] at h
      split at h
      · obtain rfl := Option.some.inj h
        exact .backfillBlock (fun _ => answer) s.db _
      · cases h
  | summaryTransactions i ord =>
      simp only [systemStep, transactionsStep] at h
      split at h
      · obtain rfl := Option.some.inj h
        exact .refl s.db
      · cases h
  | summaryLocks i ord =>
      simp only [systemStep, locksStep] at h
      split at h
      · obtain rfl := Option.some.inj h
        exact .refl s.db
      · cases h
  | summaryStore i accounts programs => cases hstores
  | candlesBuild ord =>
      simp only [systemStep, candlesBuildStep] at h
      split at h
      · obtain rfl := Option.some.inj h
        exact .refl s.db
      · cases h
  | candlesStore i =>
      simp only [systemStep, candlesStoreStep] at h
      split at h
      · obtain rfl := Option.some.inj h
        exact ⟨rfl, rfl, rfl⟩
      · cases h

theorem of_run {as : List SystemAction} (hstores : ∀ a ∈ as, a.storesSummary = false)
    (hrun : Transition.runActions (systemStep json ints) as s = some s') :
    s.db.SameSummary s'.db := by
  induction as generalizing s with
  | nil =>
      obtain rfl := Option.some.inj hrun
      exact .refl s.db
  | cons a as ih =>
      obtain ⟨t, ht, hrest⟩ := Option.bind_eq_some_iff.mp hrun
      have hstep := of_step (hstores a List.mem_cons_self) ht
      exact hstep.trans (ih (fun b hb => hstores b (List.mem_cons_of_mem a hb)) hrest)

end Db.SameSummary

namespace ContentionRequest

variable (r : ContentionRequest json ints)

def response (ord : ContentionOrder) (q : ContentionQuery) : ContentionResponse :=
  contentionQueries ints ord r.atBlocks.db r.atAccounts.db r.atPrograms.db q

/-- The reports that were the last stored at each of the queries. -/
def reports : List RangeReport :=
  [r.atBlocks.summary, r.atAccounts.summary, r.atPrograms.summary]

/-- Of each of them, the part that was asked for. -/
def seen : RangeReport where
  blocks := r.atBlocks.summary.blocks
  accounts := r.atAccounts.summary.accounts
  programs := r.atPrograms.summary.programs

/-- No summary is stored while the request runs. -/
def Undisturbed : Prop :=
  ∀ a ∈ r.beforeAccounts ++ r.beforePrograms, a.storesSummary = false

theorem reachable_atAccounts : SystemReachable json ints r.atAccounts :=
  r.reachable.run r.toAccounts

theorem reachable_atPrograms : SystemReachable json ints r.atPrograms :=
  r.reachable_atAccounts.run r.toPrograms

theorem grows : r.atBlocks.db.Grows r.atPrograms.db :=
  .of_reachable ((Transition.Reachable.start.run r.toAccounts).run r.toPrograms)

theorem response_undisturbed (hundisturbed : r.Undisturbed) (ord : ContentionOrder)
    (q : ContentionQuery) : r.response ord q = getContention ints ord r.atBlocks.db q := by
  obtain ⟨hbefore, hafter⟩ := List.forall_mem_append.mp hundisturbed
  have haccounts := Db.SameSummary.of_run hbefore r.toAccounts
  have hprograms := haccounts.trans (Db.SameSummary.of_run hafter r.toPrograms)
  rw [← contentionQueries_self, response, contentionQueries, contentionQueries]
  simp only [getContention, haccounts.accounts, hprograms.programs]

end ContentionRequest

/-- Whatever the programs do during a request, each part of the response is of the
one report that was stored last when its query ran, and each block listed is stored
and not skipped even when the request ends. A request during which no summary is
stored is answered as if it had one query. -/
theorem contention_parts (r : ContentionRequest json ints) (ord : ContentionOrder)
    (q : ContentionQuery) (hbounded : ∀ report ∈ r.reports, report.Bounded)
    (hround : ∀ report ∈ r.reports, ∀ b ∈ report.blocks, ints.RoundTrips b.stepWidths) :
    (r.response ord q).Answers r.seen q
      ∧ r.atPrograms.db.Reportable ((r.response ord q).blocks.map (·.slot))
      ∧ (r.Undisturbed → (r.response ord q).Answers r.atBlocks.summary q) := by
  have hanswers : ∀ s, SystemReachable json ints s → s.summary ∈ r.reports →
      (getContention ints ord s.db q).Answers s.summary q := by
    intro s hreach hreport
    have htable := (summaryInv_of_reachable hreach).table
    exact getContention_answers ints (htable.storedIn (hbounded _ hreport)) (hround _ hreport) ord q
  have hblocks := hanswers r.atBlocks r.reachable (by simp [ContentionRequest.reports])
  have haccounts :=
    hanswers r.atAccounts r.reachable_atAccounts (by simp [ContentionRequest.reports])
  have hprograms :=
    hanswers r.atPrograms r.reachable_atPrograms (by simp [ContentionRequest.reports])
  refine ⟨?_, ?_, fun hundisturbed => ?_⟩
  · exact ⟨hblocks.blocks, hblocks.ascending, hblocks.blockCount, haccounts.accounts,
      haccounts.accounts_nodup, hprograms.programs, hprograms.programs_nodup⟩
  · have hslots := (summaryInv_of_reachable r.reachable).table.slots.grows r.grows
    refine ⟨List.pairwise_map.mpr hblocks.ascending, fun slot hslot => hslots.recorded slot ?_⟩
    obtain ⟨b, hb, rfl⟩ := List.mem_map.mp hslot
    obtain ⟨c, hc, rfl⟩ := List.mem_map.mp (hblocks.blocks.mem_iff.mp hb)
    exact List.mem_map_of_mem (List.mem_filter.mp hc).1
  · rw [r.response_undisturbed hundisturbed]
    exact hblocks

/-- A block whose second transaction waits for the first, scanned but not stored. -/
def scanActions : List SystemAction :=
  [.write parsedBlock, .summaryStart, .summaryTransactions 0 .stored, .summaryLocks 0 .stored]

theorem scanActions_isSome :
    (Transition.runActions (systemStep .escapeFree .unsigned) scanActions .init).isSome := by
  decide +kernel

def scannedState : SystemState :=
  (Transition.runActions (systemStep .escapeFree .unsigned) scanActions .init).get
    scanActions_isSome

theorem scannedState_stores :
    (Transition.runActions (systemStep .escapeFree .unsigned) [.summaryStore 0 .stored .stored]
      scannedState).isSome := by
  decide +kernel

def summarisedState : SystemState :=
  (Transition.runActions (systemStep .escapeFree .unsigned) [.summaryStore 0 .stored .stored]
    scannedState).get scannedState_stores

/-- The first summary is stored after the first query. -/
def tornRequest : ContentionRequest .escapeFree .unsigned where
  atBlocks := scannedState
  atAccounts := summarisedState
  atPrograms := summarisedState
  beforeAccounts := [.summaryStore 0 .stored .stored]
  beforePrograms := []
  reachable := Transition.Reachable.run .start (Option.some_get scanActions_isSome).symm
  toAccounts := (Option.some_get scannedState_stores).symm
  toPrograms := rfl

def scannedReport : RangeReport where
  blocks := [⟨5, 2, [1, 1]⟩]
  accounts := [⟨"A", 0, 1⟩]
  programs := [⟨"P", 0, 1⟩]

theorem tornRequest_reports :
    tornRequest.reports = [⟨[], [], []⟩, scannedReport, scannedReport] := by
  decide +kernel

/-- No block, and yet an account and a program with a conflict. -/
theorem contention_parts_torn :
    tornRequest.response .stored ⟨none, none⟩ = ⟨0, [], [⟨"A", 0, 1⟩], [⟨"P", 0, 1⟩]⟩
      ∧ (tornRequest.response .stored ⟨none, none⟩).Answers tornRequest.seen ⟨none, none⟩ := by
  refine ⟨by decide +kernel, (contention_parts tornRequest .stored ⟨none, none⟩ ?_ ?_).1⟩
  · rw [tornRequest_reports]
    have hempty : RangeReport.Bounded ⟨[], [], []⟩ := ⟨nofun, nofun, nofun⟩
    have hscanned : scannedReport.Bounded := by
      constructor <;> simp [scannedReport]
    simp [hempty, hscanned]
  · rw [tornRequest_reports]
    unfold IntListJson.RoundTrips
    decide +kernel

/-! ## Reads that stay true -/

/-- The bars of a chart are those under its keys, in ascending order. -/
theorem getOhlcv_starts (db : Db) (mint : String) (interval : Interval) :
    ∃ bars, getOhlcv db mint interval.text = .ok bars
      ∧ (bars.map (·.bucketStart)).Pairwise (· < ·)
      ∧ ∀ start, start ∈ bars.map (·.bucketStart)
        ↔ (mint, interval, start) ∈ db.ohlcvCandles.rows.map OhlcvCandlesRow.key := by
  refine ⟨_, getOhlcv_text db mint interval, ?_, fun start => ?_⟩
  · rw [List.map_map]
    exact List.pairwise_map.mpr (candlesOf_ascending db mint interval)
  · rw [List.map_map, List.mem_map, List.mem_map]
    constructor
    · rintro ⟨r, hr, rfl⟩
      obtain ⟨hstored, rfl, rfl⟩ := mem_candlesOf.mp (mem_sortByKey.mp hr)
      exact ⟨r, hstored, rfl⟩
    · rintro ⟨r, hr, hkey⟩
      obtain ⟨hmint, hrest⟩ := Prod.mk.inj hkey
      obtain ⟨hinterval, hstart⟩ := Prod.mk.inj hrest
      exact ⟨r, mem_sortByKey.mpr (mem_candlesOf.mpr ⟨hr, hmint, hinterval⟩), hstart⟩

theorem getOhlcv_kept {db db' : Db} (hgrows : db.Grows db') (mint : String)
    (interval : Interval) :
    ∃ bars bars', getOhlcv db mint interval.text = .ok bars
      ∧ getOhlcv db' mint interval.text = .ok bars'
      ∧ (bars.map (·.bucketStart)).Sublist (bars'.map (·.bucketStart)) := by
  obtain ⟨bars, hbars, hsorted, hstarts⟩ := getOhlcv_starts db mint interval
  obtain ⟨bars', hbars', hsorted', hstarts'⟩ := getOhlcv_starts db' mint interval
  refine ⟨bars, bars', hbars, hbars', ?_⟩
  have hsubset : bars.map (·.bucketStart) ⊆ bars'.map (·.bucketStart) := fun start hstart =>
    (hstarts' start).mpr (hgrows.ohlcvCandles _ ((hstarts start).mp hstart))
  exact List.sublist_of_subperm_of_pairwise
    (List.subperm_of_subset (hsorted.imp ne_of_lt) hsubset) hsorted hsorted'

/-- The number of balances of a mint can only go up. -/
theorem activity_kept {db db' : Db} (hgrows : db.Grows db') (mint : String) :
    (db.tokenBalances.rows.filter fun tb => tb.mint = mint).length
      ≤ (db'.tokenBalances.rows.filter fun tb => tb.mint = mint).length := by
  have hnd : db.tokenBalances.rows.Nodup := .of_map _ db.tokenBalances.nodup
  refine (List.subperm_of_subset (hnd.filter _) fun tb htb => ?_).length_le
  obtain ⟨hstored, hmint⟩ := List.mem_filter.mp htb
  exact List.mem_filter.mpr ⟨hgrows.tokenBalances tb hstored, hmint⟩

/-- A token that was listed is listed later, with no fewer balances; if it had candles
it has a chart that shows something in both intervals; and the bars of any chart are
among the later ones. -/
theorem reads_monotone (s s' : SystemState) (hreach : SystemReachable json ints s)
    (h : Transition.Reachable (systemStep json ints) s s') (ord ord' : IterOrder TokenRow) :
    (∀ t ∈ getTokens ord s.db, ∃ t' ∈ getTokens ord' s'.db,
        t'.mint = t.mint ∧ t.activityCount ≤ t'.activityCount
          ∧ (t.hasCandles = true → t'.hasCandles = true
            ∧ ∀ interval : Interval, ∃ bars, Charted s'.db t.mint interval.text bars))
      ∧ ∀ mint (interval : Interval), ∃ bars bars',
          getOhlcv s.db mint interval.text = .ok bars
            ∧ getOhlcv s'.db mint interval.text = .ok bars'
            ∧ (bars.map (·.bucketStart)).Sublist (bars'.map (·.bucketStart)) := by
  have hgrows := Db.Grows.of_reachable h
  have hsound := (candlesInv_of_reachable (hreach.trans h)).table
  have hlisting := tokenListing_getTokens ord s.db
  have hlisting' := tokenListing_getTokens ord' s'.db
  refine ⟨fun t ht => ?_, getOhlcv_kept hgrows⟩
  obtain ⟨tb, htb, hmint⟩ := (hlisting.listed t.mint).mp (List.mem_map_of_mem ht)
  have hlisted := (hlisting'.listed t.mint).mpr ⟨tb, hgrows.tokenBalances tb htb, hmint⟩
  obtain ⟨t', ht', hsame⟩ := List.mem_map.mp hlisted
  obtain ⟨hcount, hcandles⟩ := hlisting.counted t ht
  obtain ⟨hcount', hcandles'⟩ := hlisting'.counted t' ht'
  refine ⟨t', ht', hsame, ?_, fun hhas => ?_⟩
  · rw [hcount, hcount', hsame]
    exact activity_kept hgrows t.mint
  · obtain ⟨oc, hoc, hocmint⟩ := hcandles.mp hhas
    obtain ⟨oc', hoc', hkey⟩ := List.mem_map.mp (hgrows.ohlcvCandles _ (List.mem_map_of_mem hoc))
    have hsame' : oc'.mint = t.mint := (Prod.mk.inj hkey).1.trans hocmint
    refine ⟨hcandles'.mpr ⟨oc', hoc', hsame'.trans hsame.symm⟩, fun interval => ?_⟩
    exact hsame' ▸ charted_of_candle hsound hoc' interval

/-- The token again, in a block of another minute. -/
def laterSwapBlock : ParsedBlock :=
  ⟨6, some "h6", some 1100, false,
    [⟨"s6", 0, true, 5000, ["P"], [⟨"A", true⟩],
      [⟨0, "TOKEN", "0", "100000000", 6⟩, ⟨1, wsolMint, "2000000000", "1000000000", 9⟩]⟩]⟩

theorem laterSwap_isSome :
    (Transition.runActions (systemStep .escapeFree .unsigned)
      [.write laterSwapBlock, .candlesBuild .stored, .candlesStore 0] overlappedState).isSome := by
  decide +kernel

theorem reads_monotone_overlapped :
    ∃ s', Transition.runActions (systemStep .escapeFree .unsigned)
        [.write laterSwapBlock, .candlesBuild .stored, .candlesStore 0] overlappedState = some s'
      ∧ ∃ bars bars', getOhlcv overlappedState.db "TOKEN" "1m" = .ok bars
        ∧ getOhlcv s'.db "TOKEN" "1m" = .ok bars'
        ∧ (bars.map (·.bucketStart)).Sublist (bars'.map (·.bucketStart)) := by
  obtain ⟨s', hs'⟩ := Option.isSome_iff_exists.mp laterSwap_isSome
  have hrun := Transition.Reachable.run .start hs'
  exact ⟨s', hs', (reads_monotone overlappedState s' overlappedState_reachable hrun .stored
    .stored).2 "TOKEN" .oneMin⟩

end Astralane
