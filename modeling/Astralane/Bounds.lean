import Mathlib.Data.List.ReduceOption
import Mathlib.Tactic.NormNum
import Mathlib.Tactic.Positivity
import Astralane.Aggregation
import Astralane.CandleTable
import Astralane.Grouping
import Astralane.NetDelta

/-!
# Bounds of trades and candles

No balance row can make `trade_from_group` yield a price or a volume that is not
positive, or a price at `f64::MAX`: the dust filter bounds the one leg, a nonzero
`i128` the other, and the round-number test panics on the decimals that could
push the quotient out of range. Nothing is assumed of the amounts or decimals.

So the bounds that the folds of `build_candles` start from are never what a
candle shows, and every candle built goes back to a stored balance of its mint
(`candlesSound_of_build`).
-/

namespace Astralane

/-! ## Trades -/

theorem wrap_range {w : Nat} (n : Int) : -2 ^ w ≤ wrap (w + 1) n ∧ wrap (w + 1) n < 2 ^ w := by
  have hpow : (2 ^ (w + 1) : Nat) = 2 * 2 ^ w := Nat.pow_succ'
  have hlo := Int.le_bmod (x := n) (Nat.two_pow_pos (w + 1))
  have hhi := Int.bmod_lt (x := n) (Nat.two_pow_pos (w + 1))
  unfold wrap
  rw [hpow] at hlo hhi ⊢
  push_cast at hlo hhi ⊢
  omega

theorem foldl_wrap_range (entries : List (String × Int × Int)) :
    |entries.foldl (fun w e => wrap 128 (w + e.2.1)) 0| ≤ 2 ^ 127 := by
  cases entries using List.reverseRecOn with
  | nil =>
      rw [List.foldl_nil, abs_zero]
      positivity
  | append_singleton entries e =>
      have hrange := wrap_range (w := 127)
        (entries.foldl (fun w e => wrap 128 (w + e.2.1)) 0 + e.2.1)
      rw [List.foldl_append, abs_le]
      exact ⟨hrange.1, le_of_lt hrange.2⟩

/-- An entry of `per_mint` is of a mint of the rows, and wrapped. -/
theorem perMint_range {rows : List BalanceRow} {e : String × Int × Int}
    (he : e ∈ (perMint rows).rows) : (∃ r ∈ rows, r.mint = e.1) ∧ |e.2.1| ≤ 2 ^ 127 := by
  induction rows using List.reverseRecOn with
  | nil => nomatch he
  | append_singleton rows row ih =>
      obtain ⟨mint, value⟩ := e
      rw [perMint_concat, Keyed.mem_rows_iff_get?, Keyed.get?_entry] at he
      split at he
      · rename_i hmint
        obtain rfl := Option.some.inj he
        have hrange := wrap_range (w := 127) ((((perMint rows).get? row.mint).getD
          (0, row.decimals)).1 + rawDelta row.preAmount row.postAmount)
        exact ⟨⟨row, by simp, hmint⟩, abs_le.mpr ⟨hrange.1, le_of_lt hrange.2⟩⟩
      · obtain ⟨⟨r, hr, hmint⟩, hrange⟩ := ih (Keyed.mem_rows_iff_get?.mpr he)
        exact ⟨⟨r, List.mem_append_left _ hr, hmint⟩, hrange⟩

/-- Decimals that get past the remainder are the same as `u32` and as `i32`. -/
theorem exists_decimals {d : Int} (h : roundUnit d ≠ 0) :
    ∃ k : Nat, k ≤ 121 ∧ wrap 32 d = k := by
  have hnonneg : 0 ≤ d % 2 ^ 32 := Int.emod_nonneg d (by omega)
  obtain ⟨k, hk⟩ := Int.eq_ofNat_of_zero_le hnonneg
  have hle : k ≤ 121 := by
    by_contra hgt
    refine h ?_
    unfold roundUnit
    rw [hk, Int.toNat_natCast]
    obtain ⟨n, rfl⟩ : ∃ n, k = n + 122 := ⟨k - 122, by omega⟩
    -- `10 ^ k * 10 ^ 6` is a multiple of `2 ^ 128`
    have hdvd : 2 ^ 128 ∣ 10 ^ (n + 122) * 1000000 := by
      have hten : 10 ^ (n + 122) * 1000000 = 2 ^ 128 * (10 ^ n * 5 ^ 128) := by
        rw [Nat.pow_add]
        have hsplit : 10 ^ 122 * 1000000 = 2 ^ 128 * 5 ^ 128 := by norm_num
        calc 10 ^ n * 10 ^ 122 * 1000000 = 10 ^ n * (10 ^ 122 * 1000000) := Nat.mul_assoc ..
          _ = 10 ^ n * (2 ^ 128 * 5 ^ 128) := by rw [hsplit]
          _ = 2 ^ 128 * (10 ^ n * 5 ^ 128) := Nat.mul_left_comm ..
      exact ⟨_, hten⟩
    rw [Nat.mod_mul_mod]
    exact Nat.mod_eq_zero_of_dvd hdvd
  refine ⟨k, hle, ?_⟩
  have hpow : ((2 ^ 32 : Nat) : Int) = 2 ^ 32 := by norm_num
  unfold wrap
  rw [Int.bmod_eq_emod_of_lt]
  · rw [hpow]
    exact hk
  · rw [hpow, hk]
    omega

/-- What a trade of a group is, for any rows whatever. -/
structure TradeBounds (rows : List BalanceRow) (t : Trade) : Prop where
  price_pos : 0 < t.price
  price_lt : t.price < f64Max
  volume_pos : 0 < t.volume
  mint : ∃ r ∈ rows, r.mint = t.mint
  not_wsol : t.mint ≠ wsolMint
  position : ∃ r ∈ rows, t.slot = r.slot ∧ t.txIndex = r.txIndex ∧ t.blockTime = r.blockTime

/-- The quotient of the two legs, for a WSOL leg of more than dust and at most
`2 ^ 127`, a base leg of at least one unit, and `k` decimals. -/
theorem price_bounds {w n k : Nat} (hw : 0 < w) (hw' : w ≤ 2 ^ 127) (hn : 0 < n) (hk : k ≤ 121) :
    0 < (w : Rat) / 10 ^ 9 / (n / 10 ^ k) ∧ (w : Rat) / 10 ^ 9 / (n / 10 ^ k) < f64Max := by
  have hwpos : (0 : Rat) < w := Nat.cast_pos.mpr hw
  have hnpos : (1 : Rat) ≤ n := by exact_mod_cast hn
  have hwle : (w : Rat) ≤ 2 ^ 127 := by exact_mod_cast hw'
  have hten : (10 : Rat) ^ k ≤ 10 ^ 121 := pow_le_pow_right₀ (by norm_num) hk
  have hnz : (0 : Rat) < n := by linarith
  refine ⟨by positivity, ?_⟩
  have hmax : ((2 : Rat) ^ 256) ^ 2 ≤ 2 ^ 971 := by
    rw [← pow_mul]
    exact pow_le_pow_right₀ (by norm_num) (by norm_num)
  rw [div_div_eq_mul_div]
  calc (w : Rat) / 10 ^ 9 * 10 ^ k / n ≤ (w : Rat) / 10 ^ 9 * 10 ^ k :=
        div_le_self (by positivity) hnpos
    _ ≤ 2 ^ 127 / 10 ^ 9 * 10 ^ 121 := by gcongr
    _ < ((2 : Rat) ^ 256) ^ 2 := by norm_num
    _ ≤ 2 ^ 971 := hmax
    _ ≤ f64Max := le_mul_of_one_le_left (by positivity) (by norm_num)

/-- What the loop over `per_mint` leaves, for any rows whatever. -/
theorem exists_legs (ord : IterOrder (String × Int × Int)) (rows : List BalanceRow) :
    ∃ w base multiple,
      (ord.arrange (perMint rows).rows).foldl Legs.add ⟨0, none, false⟩ = ⟨w, base, multiple⟩
        ∧ |w| ≤ 2 ^ 127
        ∧ ∀ e, base = some e →
            (∃ r ∈ rows, r.mint = e.1) ∧ e.1 ≠ wsolMint ∧ 0 < e.2.1.natAbs := by
  refine ⟨_, _, _, foldl_legs _ ⟨0, none, false⟩, foldl_wrap_range _, fun e hbase => ?_⟩
  rw [Option.none_or] at hbase
  obtain ⟨hmem, hmoved⟩ := List.mem_filter.mp (List.mem_of_mem_head? hbase)
  rw [Bool.and_eq_true, decide_eq_true_eq, decide_eq_true_eq] at hmoved
  exact ⟨(perMint_range ((ord.perm _).mem_iff.mp hmem)).1, hmoved.1,
    Int.natAbs_pos.mpr hmoved.2⟩

theorem tradeFromGroup_bounds {ord : IterOrder (String × Int × Int)} {rows : List BalanceRow}
    {t : Trade} (h : tradeFromGroup ord rows = .ok (some t)) : TradeBounds rows t := by
  obtain ⟨w, base, multiple, hlegs, hwsol, hbase⟩ := exists_legs ord rows
  rw [tradeFromGroup, hlegs] at h
  simp only at h
  -- one branch of the function yields a trade, and the tests before it are the hypotheses
  split at h
  · nomatch h
  split at h
  · nomatch h
  rename_i mint delta decimals _
  obtain ⟨hmint, hother, hn⟩ := hbase _ rfl
  split at h
  · nomatch h
  rename_i hdust
  split at h
  · nomatch h
  split at h
  · nomatch h
  rename_i hunit
  split at h
  · nomatch h
  split at h
  · nomatch h
  split at h
  · nomatch h
  rename_i first rest
  obtain rfl := Option.some.inj (Except.ok.inj h)
  obtain ⟨k, hk, hexp⟩ := exists_decimals hunit
  have hw : 0 < w.natAbs := by
    refine Int.natAbs_pos.mpr fun hzero => hdust ?_
    rw [hzero, abs_zero]
    decide
  have hw' : w.natAbs ≤ 2 ^ 127 := by
    rw [Int.abs_eq_natAbs] at hwsol
    exact_mod_cast hwsol
  have hbounds := price_bounds hw hw' hn hk
  have hvolume : (0 : Rat) < delta.natAbs / 10 ^ k :=
    div_pos (Nat.cast_pos.mpr hn) (by positivity)
  constructor
  · simp only [hexp, zpow_natCast]
    exact hbounds.1
  · simp only [hexp, zpow_natCast]
    exact hbounds.2
  · simp only [hexp, zpow_natCast]
    exact hvolume
  · exact hmint
  · exact hother
  · exact ⟨first, List.mem_cons_self, rfl, rfl, rfl⟩

/-! ## The trades of a database -/

/-- A balance of `mint` is stored, in a transaction of a block of that time
which is not skipped. -/
def Db.Traded (db : Db) (mint : String) (time : Int) : Prop :=
  ∃ tb ∈ db.tokenBalances.rows, tb.mint = mint
    ∧ ∃ t ∈ db.transactions.rows, t.signature = tb.signature
      ∧ ∃ b ∈ db.blocks.rows, b.slot = t.slot ∧ b.skipped = 0 ∧ b.blockTime = some time

theorem traded_of_balanceRow {db : Db} {row : Int × BalanceRow} (h : row ∈ db.balanceRows) :
    db.Traded row.2.mint row.2.blockTime := by
  simp only [Db.balanceRows, List.mem_flatMap, List.mem_filterMap, List.mem_filter,
    Bool.and_eq_true, decide_eq_true_eq, Option.map_eq_some_iff] at h
  obtain ⟨tb, htb, t, ⟨ht, hsig⟩, b, ⟨hb, hslot, hskip⟩, time, htime, rfl⟩ := h
  exact ⟨tb, htb, rfl, t, ht, hsig, b, hb, hslot, hskip, htime⟩

/-- A result of a loop that succeeds is the result of one of its passes. -/
theorem exists_of_mem_mapM {ε α β : Type} {f : α → Except ε β} {l : List α} {bs : List β}
    (h : l.mapM f = .ok bs) {b : β} (hb : b ∈ bs) : ∃ a ∈ l, f a = .ok b := by
  induction l generalizing bs with
  | nil =>
      obtain rfl := Except.ok.inj h
      nomatch hb
  | cons a l ih =>
      rw [List.mapM_cons] at h
      obtain ⟨b', hb', h⟩ := Except.of_bind_eq_ok h
      obtain ⟨bs', hbs', h⟩ := Except.of_bind_eq_ok h
      obtain rfl := Except.ok.inj h
      rcases List.mem_cons.mp hb with rfl | hb
      · exact ⟨a, List.mem_cons_self, hb'⟩
      · obtain ⟨a', ha', hfa'⟩ := ih hbs' hb
        exact ⟨a', List.mem_cons_of_mem a ha', hfa'⟩

structure SoundTrade (db : Db) (t : Trade) : Prop where
  price_pos : 0 < t.price
  price_lt : t.price < f64Max
  volume_pos : 0 < t.volume
  not_wsol : t.mint ≠ wsolMint
  traded : db.Traded t.mint t.blockTime

/-- The rows of a group share a signature, and so the block time. -/
theorem soundTrade_of_extractTrades {ord : TradeOrder} {db : Db} {trades : List Trade}
    (h : extractTrades ord db = .ok trades) {t : Trade} (ht : t ∈ trades) : SoundTrade db t := by
  obtain ⟨results, hresults, h⟩ := Except.of_bind_eq_ok h
  obtain rfl := Except.ok.inj h
  obtain ⟨group, hgroup, htrade⟩ :=
    exists_of_mem_mapM hresults (List.reduceOption_mem_iff.mp ht)
  rw [signatureRuns_eq (Nat.le_refl _)] at hgroup
  have hbounds := tradeFromGroup_bounds htrade
  have hrow : ∀ r ∈ group, ∃ idx, (idx, r) ∈ db.sortedBalanceRows ord := by
    intro r hr
    have hflat := List.mem_flatten.mpr ⟨group, hgroup, hr⟩
    rw [runs, List.flatten_splitBy] at hflat
    obtain ⟨⟨idx, r'⟩, hmem, rfl⟩ := List.mem_map.mp hflat
    exact ⟨idx, hmem⟩
  obtain ⟨r, hr, hmint⟩ := hbounds.mint
  obtain ⟨first, hfirst, -, -, htime⟩ := hbounds.position
  obtain ⟨idx, hidx⟩ := hrow r hr
  obtain ⟨idx', hidx'⟩ := hrow first hfirst
  have hsame := (sortedBalanceRows_queryRows ord db).joined (idx, r) hidx (idx', first) hidx'
    (key_eq_of_mem_runs hgroup r hr first hfirst)
  refine ⟨hbounds.price_pos, hbounds.price_lt, hbounds.volume_pos, hbounds.not_wsol, ?_⟩
  rw [← hmint, htime, ← hsame.2.2]
  exact traded_of_balanceRow (mem_sortedBalanceRows.mp hidx)

/-! ## Candles -/

structure OhlcvCandlesRow.WellFormed (r : OhlcvCandlesRow) : Prop where
  low_pos : 0 < r.low
  low_opening : r.low ≤ r.opening
  opening_high : r.opening ≤ r.high
  low_close : r.low ≤ r.close
  close_high : r.close ≤ r.high
  high_lt : r.high < f64Max
  volume_pos : 0 < r.volume

theorem CandleOf.wellFormed {group : List Trade} {c : Candle} (h : CandleOf group c)
    (hsound : ∀ t ∈ group, 0 < t.price ∧ t.price < f64Max ∧ 0 < t.volume) :
    c.row.WellFormed := by
  have hmax : (0 : Rat) < f64Max := by
    obtain ⟨t, ht⟩ := List.exists_mem_of_ne_nil _ h.ne_nil
    exact (hsound t ht).1.trans (hsound t ht).2.1
  obtain ⟨⟨top, htop, hhigh⟩, habove⟩ := h.high_bounds fun t ht =>
    (neg_neg_of_pos hmax).le.trans (hsound t ht).1.le
  obtain ⟨⟨bottom, hbottom, hlow⟩, hbelow⟩ := h.low_bounds fun t ht => (hsound t ht).2.1.le
  obtain ⟨first, hfirst, hopen⟩ := h.opening
  obtain ⟨last, hlast, hclose⟩ := h.close
  constructor
  · show 0 < c.low
    exact hlow ▸ (hsound bottom hbottom).1
  · show c.low ≤ c.opening
    exact hopen ▸ hbelow first hfirst.mem
  · show c.opening ≤ c.high
    exact hopen ▸ habove first hfirst.mem
  · show c.low ≤ c.close
    exact hclose ▸ hbelow last hlast.mem
  · show c.close ≤ c.high
    exact hclose ▸ habove last hlast.mem
  · show c.high < f64Max
    exact hhigh ▸ (hsound top htop).2.1
  · show 0 < c.volume
    have hpos : 0 < (group.map (·.volume)).sum := by
      refine List.sum_pos _ (fun v hv => ?_) (by simpa using h.ne_nil)
      obtain ⟨t, ht, rfl⟩ := List.mem_map.mp hv
      exact (hsound t ht).2.2
    exact h.volume ▸ hpos

/-- Candle rows in good order: well formed, none of WSOL itself, each of a mint and
a bucket with a stored balance, and the moment of that in a bucket of either
interval. -/
structure CandlesSound (db : Db) (rows : List OhlcvCandlesRow) : Prop where
  wellFormed : ∀ r ∈ rows, r.WellFormed
  not_wsol : ∀ r ∈ rows, r.mint ≠ wsolMint
  backed : ∀ r ∈ rows, ∃ time, db.Traded r.mint time
    ∧ r.bucketStart = bucketStart r.interval.seconds time
    ∧ ∀ interval, (r.mint, interval, bucketStart interval.seconds time)
        ∈ rows.map OhlcvCandlesRow.key

/-- The first half of `build_and_store_candles`, up to its transaction. -/
def builtCandles (ord : BuildOrder) (db : Db) : Except Panic (List Candle) := do
  let trades ← extractTrades ord.trades db
  let oneMin ← buildCandles ord.oneMin trades .oneMin 60
  let fiveMin ← buildCandles ord.fiveMin trades .fiveMin 300
  .ok (oneMin ++ fiveMin)

/-- The transaction of `build_and_store_candles`. -/
def storeCandles (db : Db) (candles : List Candle) : Db :=
  { db with ohlcvCandles := db.ohlcvCandles.replaceAll (candles.map Candle.row) }

theorem buildAndStoreCandles_eq (ord : BuildOrder) (db : Db) :
    buildAndStoreCandles ord db
      = (builtCandles ord db).map fun candles => (storeCandles db candles, candles.length) := by
  unfold buildAndStoreCandles builtCandles
  cases extractTrades ord.trades db with
  | error e => rfl
  | ok trades =>
      simp only [Except.ok_bind]
      cases buildCandles ord.oneMin trades .oneMin 60 with
      | error e => rfl
      | ok oneMin =>
          simp only [Except.ok_bind]
          cases buildCandles ord.fiveMin trades .fiveMin 300 with
          | error e => rfl
          | ok fiveMin =>
              simp only [Except.ok_bind, Except.map, storeCandles, List.length_append]

theorem builtCandles_eq_ok {ord : BuildOrder} {db : Db} {candles : List Candle}
    (h : builtCandles ord db = .ok candles) :
    ∃ trades oneMin fiveMin, extractTrades ord.trades db = .ok trades
      ∧ CandlesOf 60 .oneMin trades oneMin ∧ CandlesOf 300 .fiveMin trades fiveMin
      ∧ candles = oneMin ++ fiveMin := by
  obtain ⟨trades, htrades, h⟩ := Except.of_bind_eq_ok h
  obtain ⟨oneMin, hone, h⟩ := Except.of_bind_eq_ok h
  obtain ⟨fiveMin, hfive, h⟩ := Except.of_bind_eq_ok h
  obtain ⟨_, hone', hcandles⟩ := buildCandles_spec ord.oneMin trades .oneMin 60
  obtain ⟨_, hfive', hcandles'⟩ := buildCandles_spec ord.fiveMin trades .fiveMin 300
  obtain rfl := Except.ok.inj (hone.symm.trans hone')
  obtain rfl := Except.ok.inj (hfive.symm.trans hfive')
  exact ⟨trades, oneMin, fiveMin, htrades, hcandles, hcandles', (Except.ok.inj h).symm⟩

/-- A candle of the build has a trade in its bucket. -/
theorem CandlesOf.exists_trade {b : Int} {interval : Interval} {trades : List Trade}
    {cs : List Candle} (h : CandlesOf b interval trades cs) {c : Candle} (hc : c ∈ cs) :
    ∃ t ∈ trades, t.mint = c.mint ∧ c.bucketStart = bucketStart b t.blockTime := by
  obtain ⟨t, ht, hkey⟩ := (h.listed c.bucketKey).mp (List.mem_map_of_mem hc)
  obtain ⟨hmint, hstart⟩ := Prod.mk.inj hkey
  exact ⟨t, ht, hmint, hstart.symm⟩

theorem CandlesOf.wellFormed {b : Int} {interval : Interval} {trades : List Trade}
    {cs : List Candle} (h : CandlesOf b interval trades cs) {db : Db}
    (hsound : ∀ t ∈ trades, SoundTrade db t) {c : Candle} (hc : c ∈ cs) : c.row.WellFormed :=
  (h.candle c hc).wellFormed fun t ht =>
    have hmem := (mem_bucketTrades.mp ht).1
    ⟨(hsound t hmem).price_pos, (hsound t hmem).price_lt, (hsound t hmem).volume_pos⟩

theorem candlesSound_of_build {ord : BuildOrder} {db : Db} {candles : List Candle}
    (h : builtCandles ord db = .ok candles) : CandlesSound db (candles.map Candle.row) := by
  obtain ⟨trades, oneMin, fiveMin, htrades, hone, hfive, rfl⟩ := builtCandles_eq_ok h
  have hsound : ∀ t ∈ trades, SoundTrade db t :=
    fun t ht => soundTrade_of_extractTrades htrades ht
  have htrade : ∀ c ∈ oneMin ++ fiveMin, ∃ t ∈ trades, t.mint = c.mint
      ∧ c.bucketStart = bucketStart c.interval.seconds t.blockTime := by
    intro c hc
    rcases interval_of_mem hone hfive hc with ⟨hc, hi⟩ | ⟨hc, hi⟩
    · rw [hi]
      exact hone.exists_trade hc
    · rw [hi]
      exact hfive.exists_trade hc
  have hpaired : ∀ t ∈ trades, ∀ interval : Interval,
      (t.mint, interval, bucketStart interval.seconds t.blockTime)
        ∈ ((oneMin ++ fiveMin).map Candle.row).map OhlcvCandlesRow.key := by
    intro t ht interval
    exact (mem_candleRows_keys hone hfive
      ⟨t.mint, interval, bucketStart interval.seconds t.blockTime, 0, 0, 0, 0, 0⟩).mpr ⟨t, ht, rfl⟩
  constructor
  · intro r hr
    obtain ⟨c, hc, rfl⟩ := List.mem_map.mp hr
    rcases List.mem_append.mp hc with hc | hc
    · exact hone.wellFormed hsound hc
    · exact hfive.wellFormed hsound hc
  · intro r hr
    obtain ⟨c, hc, rfl⟩ := List.mem_map.mp hr
    obtain ⟨t, ht, hmint, -⟩ := htrade c hc
    show c.mint ≠ wsolMint
    exact hmint ▸ (hsound t ht).not_wsol
  · intro r hr
    obtain ⟨c, hc, rfl⟩ := List.mem_map.mp hr
    obtain ⟨t, ht, hmint, hstart⟩ := htrade c hc
    refine ⟨t.blockTime, ?_, hstart, fun interval => ?_⟩
    · show db.Traded c.mint t.blockTime
      exact hmint ▸ (hsound t ht).traded
    · show (c.mint, interval, bucketStart interval.seconds t.blockTime) ∈ _
      exact hmint ▸ hpaired t ht interval

/-- Storing candles over others keeps a table in good order. -/
theorem CandlesSound.replaceAll {db : Db} {t : Keyed OhlcvCandlesRow.key}
    {rows : List OhlcvCandlesRow} (ht : CandlesSound db t.rows) (hrows : CandlesSound db rows) :
    CandlesSound db (t.replaceAll rows).rows := by
  constructor
  · intro r hr
    rcases Keyed.mem_replaceAll hr with hr | hr
    · exact hrows.wellFormed r hr
    · exact ht.wellFormed r hr
  · intro r hr
    rcases Keyed.mem_replaceAll hr with hr | hr
    · exact hrows.not_wsol r hr
    · exact ht.not_wsol r hr
  · intro r hr
    rcases Keyed.mem_replaceAll hr with hr | hr
    · obtain ⟨time, htraded, hstart, hkeys⟩ := hrows.backed r hr
      exact ⟨time, htraded, hstart, fun interval =>
        Keyed.mem_keys_replaceAll_of_mem (Or.inr (hkeys interval))⟩
    · obtain ⟨time, htraded, hstart, hkeys⟩ := ht.backed r hr
      exact ⟨time, htraded, hstart, fun interval =>
        Keyed.mem_keys_replaceAll_of_mem (Or.inl (hkeys interval))⟩

/-! ## What is served -/

theorem Interval.text_inj {i j : Interval} (h : i.text = j.text) : i = j := by
  cases i <;> cases j <;> first | rfl | exact absurd h (by decide)

/-- The rows `get_ohlcv` selects for an interval that exists. -/
def Db.candlesOf (db : Db) (mint : String) (interval : Interval) : List OhlcvCandlesRow :=
  db.ohlcvCandles.rows.filter fun r => r.mint = mint && r.interval.text = interval.text

theorem mem_candlesOf {db : Db} {mint : String} {interval : Interval} {r : OhlcvCandlesRow} :
    r ∈ db.candlesOf mint interval
      ↔ r ∈ db.ohlcvCandles.rows ∧ r.mint = mint ∧ r.interval = interval := by
  rw [Db.candlesOf, List.mem_filter, Bool.and_eq_true, decide_eq_true_eq, decide_eq_true_eq]
  exact and_congr_right' (and_congr_right' ⟨Interval.text_inj, congrArg Interval.text⟩)

/-- Within one mint and interval the key of the table is the bucket start. -/
theorem candlesOf_ascending (db : Db) (mint : String) (interval : Interval) :
    (sortByKey OhlcvCandlesRow.bucketStart (db.candlesOf mint interval)).Pairwise
      fun r r' => r.bucketStart < r'.bucketStart := by
  refine sortByKey_strict (List.pairwise_map.mpr ?_)
  refine ((List.pairwise_map.mp db.ohlcvCandles.nodup).filter _).imp_of_mem
    fun {r r'} hr hr' hne hstart => hne ?_
  obtain ⟨-, hmint, hinterval⟩ := mem_candlesOf.mp hr
  obtain ⟨-, hmint', hinterval'⟩ := mem_candlesOf.mp hr'
  rw [OhlcvCandlesRow.key, OhlcvCandlesRow.key, hmint, hinterval, hmint', hinterval', hstart]

theorem getOhlcv_text (db : Db) (mint : String) (interval : Interval) :
    getOhlcv db mint interval.text = .ok
      ((sortByKey OhlcvCandlesRow.bucketStart (db.candlesOf mint interval)).map
        (·.candleRow)) := by
  refine if_neg ?_
  cases interval with
  | oneMin => exact fun hne => hne.1 rfl
  | fiveMin => exact fun hne => hne.2 rfl

end Astralane
