import Mathlib.Data.List.Dedup
import Astralane.Lifecycle

/-!
# The read API

`api.rs`: the list of tokens, and the two handlers of the starvation experiment.
`get_contention` and `get_ohlcv` stand with the tables they read.

The dashboard opens on the first token of the list. Tokens with candles come
first, and a candle is of a listed token and comes with one of the other
interval, so that chart is never empty as long as there is a candle at all
(`default_token_charted`).
-/

namespace Astralane

/-! ## Handlers -/

structure TokenRow where
  mint : String
  activityCount : Nat
  hasCandles : Bool
deriving DecidableEq, Repr

/-- One group of `GROUP BY tb.mint`. -/
def Db.tokenRow (db : Db) (mint : String) : TokenRow where
  mint := mint
  activityCount := db.tokenBalances.rows.countP fun tb => tb.mint = mint
  hasCandles := db.ohlcvCandles.rows.any fun oc => oc.mint = mint

/-- `ORDER BY has_candles DESC, activity_count DESC`. -/
def TokenRow.rank (t : TokenRow) : (Nat ×ₗ Nat)ᵒᵈ :=
  OrderDual.toDual (toLex (t.hasCandles.toNat, t.activityCount))

/-- `get_tokens`; SQLite chooses the order among rows of one rank. -/
def getTokens (ord : IterOrder TokenRow) (db : Db) : List TokenRow :=
  sortByKey TokenRow.rank
    (ord.arrange ((db.tokenBalances.rows.map (·.mint)).dedup.map db.tokenRow))

/-- Both handlers of the experiment compute this; the one blocks the runtime. -/
def getContentionNaive (json : StringListJson) (ord : ReportOrder) (db : Db)
    (limit : Option Nat) : Nat :=
  (buildRangeReportLimited json ord db limit).blocks.length

def getContentionViaSpawnBlocking (json : StringListJson) (ord : ReportOrder) (db : Db)
    (limit : Option Nat) : Nat :=
  (buildRangeReportLimited json ord db limit).blocks.length

/-- Under any orders, the number of non-skipped blocks, cut at the limit. -/
theorem getContentionNaive_eq (json : StringListJson) (ord ord' : ReportOrder) (db : Db)
    (limit : Option Nat) :
    getContentionNaive json ord db limit = getContentionViaSpawnBlocking json ord' db limit
      ∧ getContentionNaive json ord db limit = (reportSlots db limit).length := by
  have hlen : ∀ ord, (buildRangeReportLimited json ord db limit).blocks.length
      = (reportSlots db limit).length := by
    intro ord
    rw [buildRangeReportLimited_eq]
    exact List.length_map _
  exact ⟨(hlen ord).trans (hlen ord').symm, hlen ord⟩

/-! ## The list of tokens -/

section Tokens

variable (ord : IterOrder TokenRow) (db : Db)

theorem getTokens_perm :
    (getTokens ord db).Perm ((db.tokenBalances.rows.map (·.mint)).dedup.map db.tokenRow) :=
  (sortByKey_perm _ _).trans (ord.perm _)

theorem getTokens_mints :
    ((getTokens ord db).map (·.mint)).Perm (db.tokenBalances.rows.map (·.mint)).dedup := by
  refine ((getTokens_perm ord db).map _).trans (List.Perm.of_eq ?_)
  rw [List.map_map]
  exact List.map_id _

variable {ord db}

theorem mem_getTokens {t : TokenRow} :
    t ∈ getTokens ord db
      ↔ t = db.tokenRow t.mint ∧ ∃ tb ∈ db.tokenBalances.rows, tb.mint = t.mint := by
  rw [(getTokens_perm ord db).mem_iff, List.mem_map]
  constructor
  · rintro ⟨mint, hmint, rfl⟩
    exact ⟨rfl, List.mem_map.mp (List.mem_dedup.mp hmint)⟩
  · rintro ⟨heq, htb⟩
    exact ⟨t.mint, List.mem_dedup.mpr (List.mem_map.mpr htb), heq.symm⟩

theorem hasCandles_iff {mint : String} :
    (db.tokenRow mint).hasCandles = true ↔ ∃ oc ∈ db.ohlcvCandles.rows, oc.mint = mint := by
  simp only [Db.tokenRow, List.any_eq_true, decide_eq_true_eq]

/-- What `rank` puts first. -/
theorem rank_le_iff {t u : TokenRow} :
    t.rank ≤ u.rank ↔ u.hasCandles.toNat < t.hasCandles.toNat
      ∨ u.hasCandles = t.hasCandles ∧ u.activityCount ≤ t.activityCount := by
  rw [TokenRow.rank, TokenRow.rank, OrderDual.toDual_le_toDual, Prod.Lex.toLex_le_toLex]
  refine or_congr Iff.rfl (and_congr ?_ Iff.rfl)
  cases u.hasCandles <;> cases t.hasCandles <;> simp

end Tokens

/-- The mints with balances, listed once each with their number of rows and whether
they have candles: those with candles before those without, and of either the more
active ones first. -/
structure TokenListing (db : Db) (tokens : List TokenRow) : Prop where
  once : (tokens.map (·.mint)).Nodup
  listed : ∀ mint, mint ∈ tokens.map (·.mint) ↔ ∃ tb ∈ db.tokenBalances.rows, tb.mint = mint
  counted : ∀ t ∈ tokens,
    t.activityCount = (db.tokenBalances.rows.filter fun tb => tb.mint = t.mint).length
      ∧ (t.hasCandles = true ↔ ∃ oc ∈ db.ohlcvCandles.rows, oc.mint = t.mint)
  total : (tokens.map (·.activityCount)).sum = db.tokenBalances.rows.length
  ordered : tokens.Pairwise fun t u =>
    (u.hasCandles = true → t.hasCandles = true)
      ∧ (t.hasCandles = u.hasCandles → u.activityCount ≤ t.activityCount)

theorem tokenListing_getTokens (ord : IterOrder TokenRow) (db : Db) :
    TokenListing db (getTokens ord db) := by
  have hmints := getTokens_mints ord db
  constructor
  · exact hmints.nodup_iff.mpr (List.nodup_dedup _)
  · intro mint
    rw [hmints.mem_iff, List.mem_dedup, List.mem_map]
  · intro t ht
    obtain ⟨heq, -⟩ := mem_getTokens.mp ht
    rw [heq]
    exact ⟨List.countP_eq_length_filter, hasCandles_iff⟩
  · have hcount : ∀ mint, (db.tokenRow mint).activityCount
        = (db.tokenBalances.rows.map (·.mint)).count mint := by
      intro mint
      rw [List.count_eq_countP, List.countP_map]
      exact List.countP_congr fun tb _ => by simp
    rw [((getTokens_perm ord db).map _).sum_eq, List.map_map]
    have hsum := List.sum_map_count_dedup_eq_length (db.tokenBalances.rows.map (·.mint))
    rw [List.length_map] at hsum
    rw [← hsum]
    exact congrArg List.sum (List.map_congr_left fun mint _ => hcount mint)
  · refine (sortByKey_sorted TokenRow.rank _).imp fun {t u} hle => ?_
    rw [rank_le_iff] at hle
    rcases hle with hlt | ⟨heq, hcount⟩
    · cases ht : t.hasCandles with
      | false =>
          rw [ht] at hlt
          exact absurd hlt (Nat.not_lt_zero _)
      | true =>
          refine ⟨fun _ => rfl, fun hsame => ?_⟩
          rw [ht, ← hsame] at hlt
          exact absurd hlt (Nat.lt_irrefl _)
    · exact ⟨fun hu => heq.symm.trans hu, fun _ => hcount⟩

/-- The list is exact for every database, and two lists differ at most in the order
of tokens of equal rank. -/
theorem getTokens_exact (db : Db) :
    (∀ ord, TokenListing db (getTokens ord db))
      ∧ ∀ ord ord', (getTokens ord db).Perm (getTokens ord' db)
        ∧ (getTokens ord db).map (·.rank) = (getTokens ord' db).map (·.rank) := by
  refine ⟨fun ord => tokenListing_getTokens ord db, fun ord ord' => ?_⟩
  have hperm := (getTokens_perm ord db).trans (getTokens_perm ord' db).symm
  have hranked : ∀ ord, ((getTokens ord db).map (·.rank)).Pairwise (· ≤ ·) :=
    fun ord => List.pairwise_map.mpr (sortByKey_sorted TokenRow.rank _)
  refine ⟨hperm, List.Perm.eq_of_pairwise ?_ (hranked ord) (hranked ord') (hperm.map _)⟩
  exact fun _ _ _ _ hle hge => le_antisymm hle hge

/-! ## The default token -/

/-- A chart that shows something: bars in ascending order of time, each well formed. -/
structure Charted (db : Db) (mint interval : String) (candles : List CandleRow) : Prop where
  served : getOhlcv db mint interval = .ok candles
  nonempty : candles ≠ []
  ascending : candles.Pairwise fun c d => c.bucketStart < d.bucketStart
  wellFormed : ∀ c ∈ candles, 0 < c.low ∧ c.low ≤ c.opening ∧ c.opening ≤ c.high
    ∧ c.low ≤ c.close ∧ c.close ≤ c.high ∧ 0 < c.volume

theorem charted_of_mem {db : Db} (hsound : CandlesSound db db.ohlcvCandles.rows) {mint : String}
    {interval : Interval} {r : OhlcvCandlesRow} (hr : r ∈ db.ohlcvCandles.rows)
    (hmint : r.mint = mint) (hinterval : r.interval = interval) :
    ∃ candles, Charted db mint interval.text candles := by
  have hselected : r ∈ db.candlesOf mint interval := mem_candlesOf.mpr ⟨hr, hmint, hinterval⟩
  refine ⟨_, getOhlcv_text db mint interval, ?_, ?_, ?_⟩
  · exact List.ne_nil_of_mem (List.mem_map_of_mem (mem_sortByKey.mpr hselected))
  · exact List.pairwise_map.mpr (candlesOf_ascending db mint interval)
  · intro c hc
    obtain ⟨s, hs, rfl⟩ := List.mem_map.mp hc
    have hwell := hsound.wellFormed s (mem_candlesOf.mp (mem_sortByKey.mp hs)).1
    exact ⟨hwell.low_pos, hwell.low_opening, hwell.opening_high, hwell.low_close,
      hwell.close_high, hwell.volume_pos⟩

/-- A candle comes with a chart of its mint in either interval. -/
theorem charted_of_candle {db : Db} (hsound : CandlesSound db db.ohlcvCandles.rows)
    {oc : OhlcvCandlesRow} (hoc : oc ∈ db.ohlcvCandles.rows) (interval : Interval) :
    ∃ candles, Charted db oc.mint interval.text candles := by
  obtain ⟨time, -, -, hpaired⟩ := hsound.backed oc hoc
  obtain ⟨r, hr, hkey⟩ := List.mem_map.mp (hpaired interval)
  obtain ⟨hmint, hinterval⟩ := Prod.mk.inj hkey
  exact charted_of_mem hsound hr hmint (Prod.mk.inj hinterval).1

/-- In every state of the programs in which there is a candle at all, the list of
tokens begins with one that has candles, not WSOL, and its chart shows something
in both intervals. -/
theorem default_token_charted {json : StringListJson} {ints : IntListJson} (s : SystemState)
    (hreach : SystemReachable json ints s) (ord : IterOrder TokenRow)
    (hcandle : s.db.ohlcvCandles.rows ≠ []) :
    ∃ token rest, getTokens ord s.db = token :: rest ∧ token.hasCandles = true
      ∧ token.mint ≠ wsolMint
      ∧ ∀ interval : Interval, ∃ candles, Charted s.db token.mint interval.text candles := by
  have hsound := candlesInv_of_reachable hreach |>.table
  have hlisting := tokenListing_getTokens ord s.db
  -- the mint of any candle is listed, since its balance is still stored
  have hlisted : ∀ r ∈ s.db.ohlcvCandles.rows,
      r.mint ∈ (getTokens ord s.db).map (·.mint) := by
    intro r hr
    obtain ⟨time, ⟨tb, htb, hmint, -⟩, -⟩ := hsound.backed r hr
    exact (hlisting.listed r.mint).mpr ⟨tb, htb, hmint⟩
  obtain ⟨r, hr⟩ := List.exists_mem_of_ne_nil _ hcandle
  obtain ⟨charted, hcharted, hmint⟩ := List.mem_map.mp (hlisted r hr)
  have hhas : charted.hasCandles = true :=
    ((hlisting.counted charted hcharted).2).mpr ⟨r, hr, hmint.symm⟩
  cases htokens : getTokens ord s.db with
  | nil =>
      rw [htokens] at hcharted
      nomatch hcharted
  | cons token rest =>
      have hfirst : token.hasCandles = true := by
        rw [htokens] at hcharted
        rcases List.mem_cons.mp hcharted with rfl | hrest
        · exact hhas
        · have hordered := hlisting.ordered
          rw [htokens] at hordered
          exact ((List.pairwise_cons.mp hordered).1 charted hrest).1 hhas
      have htoken : token ∈ getTokens ord s.db := htokens ▸ List.mem_cons_self
      obtain ⟨oc, hoc, hocmint⟩ := ((hlisting.counted token htoken).2).mp hfirst
      refine ⟨token, rest, rfl, hfirst, hocmint ▸ hsound.not_wsol oc hoc, fun interval => ?_⟩
      exact hocmint ▸ charted_of_candle hsound hoc interval

theorem default_token_charted_overlapped :
    ∃ token rest, getTokens .stored overlappedState.db = token :: rest
      ∧ token.hasCandles = true ∧ token.mint ≠ wsolMint
      ∧ ∀ interval : Interval, ∃ candles,
          Charted overlappedState.db token.mint interval.text candles :=
  default_token_charted overlappedState overlappedState_reachable .stored (by decide +kernel)

end Astralane
