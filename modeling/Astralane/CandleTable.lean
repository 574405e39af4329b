import Astralane.Candles

/-!
# The candle table

`build_and_store_candles` and its reader. The build upserts the candles of the
current trades by their key and deletes nothing, unlike `store_range_report`,
which empties its tables first. So the table is exactly the candles of the
current trades when, and only when, each row it held before is overwritten
(`buildAndStoreCandles_exact_iff`).
-/

namespace Astralane

/-! ## Store and serve -/

def Candle.row (c : Candle) : OhlcvCandlesRow where
  mint := c.mint
  interval := c.interval
  bucketStart := c.bucketStart
  opening := c.opening
  high := c.high
  low := c.low
  close := c.close
  volume := c.volume

/-- The unspecified orders of one build. -/
structure BuildOrder where
  trades : TradeOrder
  oneMin : IterOrder ((String × Int) × List Trade)
  fiveMin : IterOrder ((String × Int) × List Trade)

def BuildOrder.stored : BuildOrder where
  trades := .stored
  oneMin := .stored
  fiveMin := .stored

def buildAndStoreCandles (ord : BuildOrder) (db : Db) : Except Panic (Db × Nat) := do
  let trades ← extractTrades ord.trades db
  let oneMin ← buildCandles ord.oneMin trades .oneMin 60
  let fiveMin ← buildCandles ord.fiveMin trades .fiveMin 300
  let total := oneMin.length + fiveMin.length
  .ok
    ({ db with
        ohlcvCandles := db.ohlcvCandles.replaceAll ((oneMin ++ fiveMin).map Candle.row) },
      total)

structure CandleRow where
  bucketStart : Int
  opening : Rat
  high : Rat
  low : Rat
  close : Rat
  volume : Rat
deriving DecidableEq, Repr

def OhlcvCandlesRow.candleRow (r : OhlcvCandlesRow) : CandleRow where
  bucketStart := r.bucketStart
  opening := r.opening
  high := r.high
  low := r.low
  close := r.close
  volume := r.volume

/-- `get_ohlcv`: the candles served for a mint and an interval, or the text of
the rejection. -/
def getOhlcv (db : Db) (mint interval : String) : Except String (List CandleRow) :=
  if interval ≠ "1m" ∧ interval ≠ "5m" then .error "interval must be 1m or 5m"
  else
    .ok ((sortByKey OhlcvCandlesRow.bucketStart
      (db.ohlcvCandles.rows.filter fun r => r.mint = mint && r.interval.text = interval)).map
        (·.candleRow))

/-! ## Exactness -/

/-- The bucket size a candle of the interval is built with. -/
def Interval.seconds : Interval → Int
  | .oneMin => 60
  | .fiveMin => 300

/-- The table holds `candles` and nothing else, `total` is their number, and
whatever is served is one of them. -/
structure ExactTable (candles : List Candle) (db : Db) (total : Nat) : Prop where
  rows : db.ohlcvCandles.rows.Perm (candles.map Candle.row)
  total_eq : total = db.ohlcvCandles.rows.length
  served : ∀ mint interval rows, getOhlcv db mint interval = .ok rows →
    ∀ r ∈ rows, ∃ c ∈ candles,
      c.mint = mint ∧ c.interval.text = interval ∧ c.row.candleRow = r

/-- Every row of the table has a trade in its bucket. -/
def RowsBacked (trades : List Trade) (db : Db) : Prop :=
  ∀ r ∈ db.ohlcvCandles.rows, ∃ t ∈ trades,
    t.bucketKey r.interval.seconds = (r.mint, r.bucketStart)

section Keys

variable {trades : List Trade} {oneMin fiveMin : List Candle}
  (hone : CandlesOf 60 .oneMin trades oneMin) (hfive : CandlesOf 300 .fiveMin trades fiveMin)
include hone hfive

theorem interval_of_mem {c : Candle} (hc : c ∈ oneMin ++ fiveMin) :
    c ∈ oneMin ∧ c.interval = .oneMin ∨ c ∈ fiveMin ∧ c.interval = .fiveMin := by
  rcases List.mem_append.mp hc with hc | hc
  · exact Or.inl ⟨hc, hone.interval_eq c hc⟩
  · exact Or.inr ⟨hc, hfive.interval_eq c hc⟩

omit hone hfive in
theorem row_key_eq_iff {c : Candle} {r : OhlcvCandlesRow} :
    c.row.key = r.key ↔ c.bucketKey = (r.mint, r.bucketStart) ∧ c.interval = r.interval := by
  simp only [OhlcvCandlesRow.key, Candle.row, Candle.bucketKey, Prod.mk.injEq]
  exact ⟨fun ⟨hmint, hi, hstart⟩ => ⟨⟨hmint, hstart⟩, hi⟩,
    fun ⟨⟨hmint, hstart⟩, hi⟩ => ⟨hmint, hi, hstart⟩⟩

/-- The keys to be written are distinct: buckets within an interval are, and
the two builds differ in the interval. -/
theorem candleRows_nodup :
    (((oneMin ++ fiveMin).map Candle.row).map OhlcvCandlesRow.key).Nodup := by
  have hkeys : ∀ {b interval} {cs : List Candle}, CandlesOf b interval trades cs →
      (cs.map fun c => c.row.key).Nodup := by
    intro b interval cs h
    have hpair := List.pairwise_map.mp h.once
    exact List.pairwise_map.mpr (hpair.imp fun hne heq => hne (row_key_eq_iff.mp heq).1)
  rw [List.map_map, List.map_append, List.nodup_append]
  refine ⟨hkeys hone, hkeys hfive, ?_⟩
  intro k hk k' hk' heq
  obtain ⟨c, hc, rfl⟩ := List.mem_map.mp hk
  obtain ⟨d, hd, rfl⟩ := List.mem_map.mp hk'
  have hinterval : c.interval = d.interval := (row_key_eq_iff.mp heq).2
  rw [hone.interval_eq c hc, hfive.interval_eq d hd] at hinterval
  nomatch hinterval

/-- A key is written when its bucket has a trade. -/
theorem mem_candleRows_keys (r : OhlcvCandlesRow) :
    r.key ∈ ((oneMin ++ fiveMin).map Candle.row).map OhlcvCandlesRow.key
      ↔ ∃ t ∈ trades, t.bucketKey r.interval.seconds = (r.mint, r.bucketStart) := by
  rw [List.map_map, List.mem_map]
  constructor
  · rintro ⟨c, hc, heq⟩
    obtain ⟨hkey, hinterval⟩ := row_key_eq_iff.mp heq
    rw [← hinterval, ← hkey]
    rcases interval_of_mem hone hfive hc with ⟨hc, hi⟩ | ⟨hc, hi⟩
    · rw [hi]
      exact (hone.listed _).mp (List.mem_map_of_mem hc)
    · rw [hi]
      exact (hfive.listed _).mp (List.mem_map_of_mem hc)
  · intro hbacked
    cases hi : r.interval with
    | oneMin =>
        rw [hi] at hbacked
        obtain ⟨c, hc, hkey⟩ := List.mem_map.mp ((hone.listed _).mpr hbacked)
        exact ⟨c, List.mem_append_left _ hc,
          row_key_eq_iff.mpr ⟨hkey, (hone.interval_eq c hc).trans hi.symm⟩⟩
    | fiveMin =>
        rw [hi] at hbacked
        obtain ⟨c, hc, hkey⟩ := List.mem_map.mp ((hfive.listed _).mpr hbacked)
        exact ⟨c, List.mem_append_right _ hc,
          row_key_eq_iff.mpr ⟨hkey, (hfive.interval_eq c hc).trans hi.symm⟩⟩

end Keys

theorem buildAndStoreCandles_eq_ok {ord : BuildOrder} {db db' : Db} {total : Nat}
    (h : buildAndStoreCandles ord db = .ok (db', total)) :
    ∃ trades oneMin fiveMin, extractTrades ord.trades db = .ok trades
      ∧ buildCandles ord.oneMin trades .oneMin 60 = .ok oneMin
      ∧ buildCandles ord.fiveMin trades .fiveMin 300 = .ok fiveMin
      ∧ db'.ohlcvCandles
          = db.ohlcvCandles.replaceAll ((oneMin ++ fiveMin).map Candle.row)
      ∧ total = (oneMin ++ fiveMin).length := by
  obtain ⟨trades, htrades, h⟩ := Except.of_bind_eq_ok h
  obtain ⟨oneMin, hone, h⟩ := Except.of_bind_eq_ok h
  obtain ⟨fiveMin, hfive, h⟩ := Except.of_bind_eq_ok h
  obtain ⟨rfl, rfl⟩ := Prod.mk.inj (Except.ok.inj h)
  exact ⟨trades, oneMin, fiveMin, htrades, hone, hfive, rfl, List.length_append.symm⟩

/-- What is served comes from the table. -/
theorem mem_getOhlcv {db : Db} {mint interval : String} {rows : List CandleRow}
    (h : getOhlcv db mint interval = .ok rows) {r : CandleRow} (hr : r ∈ rows) :
    ∃ row ∈ db.ohlcvCandles.rows,
      row.mint = mint ∧ row.interval.text = interval ∧ row.candleRow = r := by
  unfold getOhlcv at h
  split at h
  · nomatch h
  · obtain rfl := Except.ok.inj h
    obtain ⟨row, hrow, rfl⟩ := List.mem_map.mp hr
    obtain ⟨hmem, hsel⟩ := List.mem_filter.mp (mem_sortByKey.mp hrow)
    rw [Bool.and_eq_true, decide_eq_true_eq, decide_eq_true_eq] at hsel
    exact ⟨row, hmem, hsel.1, hsel.2, rfl⟩

/-- A successful build leaves exactly the candles of the current trades if and
only if every row the table held before has a current trade in its bucket. -/
theorem buildAndStoreCandles_exact_iff (ord : BuildOrder) (db db' : Db) (total : Nat)
    (hbuild : buildAndStoreCandles ord db = .ok (db', total)) :
    ∃ trades oneMin fiveMin, extractTrades ord.trades db = .ok trades
      ∧ buildCandles ord.oneMin trades .oneMin 60 = .ok oneMin
      ∧ buildCandles ord.fiveMin trades .fiveMin 300 = .ok fiveMin
      ∧ (ExactTable (oneMin ++ fiveMin) db' total ↔ RowsBacked trades db) := by
  obtain ⟨trades, oneMin, fiveMin, htrades, hone_ok, hfive_ok, htable, htotal⟩ :=
    buildAndStoreCandles_eq_ok hbuild
  obtain ⟨_, hone_ok', hone⟩ := buildCandles_spec ord.oneMin trades .oneMin 60
  obtain ⟨_, hfive_ok', hfive⟩ := buildCandles_spec ord.fiveMin trades .fiveMin 300
  obtain rfl := Except.ok.inj (hone_ok.symm.trans hone_ok')
  obtain rfl := Except.ok.inj (hfive_ok.symm.trans hfive_ok')
  refine ⟨trades, oneMin, fiveMin, htrades, hone_ok, hfive_ok, ?_⟩
  have hperm_iff : db'.ohlcvCandles.rows.Perm ((oneMin ++ fiveMin).map Candle.row)
      ↔ RowsBacked trades db := by
    rw [htable, Keyed.replaceAll_perm_iff _ (candleRows_nodup hone hfive)]
    exact forall₂_congr fun r _ => mem_candleRows_keys hone hfive r
  rw [← hperm_iff]
  constructor
  · exact fun h => h.rows
  · intro hperm
    refine ⟨hperm, ?_, ?_⟩
    · rw [htotal, hperm.length_eq, List.length_map]
    · intro mint interval rows hserved r hr
      obtain ⟨row, hrow, hmint, hinterval, hr⟩ := mem_getOhlcv hserved hr
      obtain ⟨c, hc, rfl⟩ := List.mem_map.mp (hperm.mem_iff.mp hrow)
      exact ⟨c, hc, hmint, hinterval, hr⟩

/-- One stored swap of 100 tokens, and one of exactly a million tokens, which
the round-number rule keeps out. -/
def swapDb (tokens : String) : Db :=
  { Db.empty with
    blocks := Keyed.empty.insertOrIgnore ⟨1, some "h1", some 1000, 0⟩
    transactions := Keyed.empty.insertOrIgnore ⟨"s1", 1, 0, 1, 5000, "[]"⟩
    tokenBalances := Keyed.empty.insertAll
      [⟨"s1", 0, "TOKEN", "0", tokens, 6⟩,
       ⟨"s1", 1, wsolMint, "2000000000", "1000000000", 9⟩] }

/-- The same with a candle that was built for the transaction earlier. -/
def withCandle (db : Db) : Db :=
  { db with
    ohlcvCandles := Keyed.empty.insertOrIgnore ⟨"TOKEN", .oneMin, 960, 1, 1, 1, 1, 1⟩ }

theorem buildAndStoreCandles_exact_iff_swap :
    ∃ trades oneMin fiveMin, extractTrades .stored (withCandle (swapDb "100000000")) = .ok trades
      ∧ buildCandles .stored trades .oneMin 60 = .ok oneMin
      ∧ buildCandles .stored trades .fiveMin 300 = .ok fiveMin
      ∧ (ExactTable (oneMin ++ fiveMin)
            { withCandle (swapDb "100000000") with
              ohlcvCandles := Keyed.empty.insertAll
                [⟨"TOKEN", .oneMin, 960, 1 / 100, 1 / 100, 1 / 100, 1 / 100, 100⟩,
                 ⟨"TOKEN", .fiveMin, 900, 1 / 100, 1 / 100, 1 / 100, 1 / 100, 100⟩] } 2
          ↔ RowsBacked trades (withCandle (swapDb "100000000"))) :=
  buildAndStoreCandles_exact_iff .stored _ _ 2 (by decide +kernel)

/-- A candle built before the rule changed outlives the build: no trade is left,
no candle is written, and the old one is still there and still served. -/
theorem buildAndStoreCandles_keeps_stale :
    extractTrades .stored (withCandle (swapDb "1000000000000")) = .ok []
      ∧ buildAndStoreCandles .stored (withCandle (swapDb "1000000000000"))
          = .ok (withCandle (swapDb "1000000000000"), 0)
      ∧ (withCandle (swapDb "1000000000000")).ohlcvCandles.rows.length = 1
      ∧ getOhlcv (withCandle (swapDb "1000000000000")) "TOKEN" "1m" = .ok [⟨960, 1, 1, 1, 1, 1⟩]
      ∧ ¬ExactTable [] (withCandle (swapDb "1000000000000")) 0 := by
  refine ⟨by decide +kernel, by decide +kernel, by decide +kernel, by decide +kernel, fun h => ?_⟩
  have htotal := h.total_eq
  revert htotal
  decide +kernel

end Astralane
