import Astralane.Candles

/-!
# Large candles from small ones

The candles of a multiple of the bucket size, compared with those of the bucket
size itself. Both builds cut the same trades, independently; that they agree
rests on three facts: small buckets nest in large ones (`floorTo_mem_bucket`),
the candle of a small bucket is that of a part of the large bucket's trades
(`bucketTrades_part`), and time does not run backwards along the chain, so the
first trade of the large bucket lies in its first part and the last one in its
last.

The nesting is one of integers: it fails where a bucket start leaves `i64` and
wraps (`rollsUp_fails_below_i64`).
-/

namespace Astralane

/-! ## The relation -/

/-- The candles of a mint that start within `[start, start + size)`. -/
def partsOf (fine : List Candle) (mint : String) (start size : Int) : List Candle :=
  fine.filter fun p => p.mint = mint && start ≤ p.bucketStart && p.bucketStart < start + size

/-- `c` summarises `parts`: opening of the earliest, close of the latest, and
the extrema and the total of all. -/
structure RollUpOf (parts : List Candle) (c : Candle) : Prop where
  opening : ∃ p ∈ parts, (∀ q ∈ parts, p.bucketStart ≤ q.bucketStart) ∧ c.opening = p.opening
  close : ∃ p ∈ parts, (∀ q ∈ parts, q.bucketStart ≤ p.bucketStart) ∧ c.close = p.close
  high : (∃ p ∈ parts, c.high = p.high) ∧ ∀ p ∈ parts, p.high ≤ c.high
  low : (∃ p ∈ parts, c.low = p.low) ∧ ∀ p ∈ parts, c.low ≤ p.low
  volume : c.volume = (parts.map (·.volume)).sum

/-- In every bucket of size `b * m` there is a coarse candle exactly when there
are fine ones, and it summarises them. -/
def RollsUp (b m : Int) (fine coarse : List Candle) : Prop :=
  ∀ mint start, b * m ∣ start →
    ((∃ c ∈ coarse, c.mint = mint ∧ c.bucketStart = start)
        ↔ partsOf fine mint start (b * m) ≠ [])
      ∧ ∀ c ∈ coarse, c.mint = mint → c.bucketStart = start →
          RollUpOf (partsOf fine mint start (b * m)) c

theorem mem_partsOf {fine : List Candle} {mint : String} {start size : Int} {p : Candle} :
    p ∈ partsOf fine mint start size
      ↔ p ∈ fine ∧ p.mint = mint ∧ start ≤ p.bucketStart ∧ p.bucketStart < start + size := by
  simp only [partsOf, List.mem_filter, Bool.and_eq_true, decide_eq_true_eq, and_assoc]

theorem CandlesOf.mem_iff {b : Int} {interval : Interval} {trades : List Trade} {cs : List Candle}
    (h : CandlesOf b interval trades cs) {mint : String} {start : Int} :
    (∃ c ∈ cs, c.mint = mint ∧ c.bucketStart = start)
      ↔ ∃ t ∈ trades, t.mint = mint ∧ bucketStart b t.blockTime = start := by
  have hlisted := h.listed (mint, start)
  rw [List.mem_map] at hlisted
  simp only [Candle.bucketKey, Trade.bucketKey, Prod.mk.injEq] at hlisted
  exact hlisted

/-! ## The parts of a large bucket -/

section Parts

variable {b m : Int} {trades : List Trade} {fine : List Candle} {interval : Interval}

/-- No bucket start of size `b * m` leaves the `i64` range. -/
def StartsInRange (size : Int) (trades : List Trade) : Prop :=
  ∀ t ∈ trades, -2 ^ 63 ≤ floorTo size t.blockTime ∧ t.blockTime < 2 ^ 63

theorem bucketStart_eq {size x : Int} (hsize : 0 < size) (hlo : -2 ^ 63 ≤ floorTo size x)
    (hhi : x < 2 ^ 63) : bucketStart size x = floorTo size x :=
  wrap_of_range hlo (lt_of_le_of_lt (floorTo_le hsize x) hhi)

variable (hb : 0 < b) (hm : 0 < m) (hrange : StartsInRange (b * m) trades)
include hb hm hrange

theorem bucketStart_fine {t : Trade} (ht : t ∈ trades) :
    bucketStart b t.blockTime = floorTo b t.blockTime := by
  obtain ⟨hlo, hhi⟩ := hrange t ht
  exact bucketStart_eq hb (le_trans hlo (floorTo_le_floorTo hb hm _)) hhi

theorem bucketStart_coarse {t : Trade} (ht : t ∈ trades) :
    bucketStart (b * m) t.blockTime = floorTo (b * m) t.blockTime := by
  obtain ⟨hlo, hhi⟩ := hrange t ht
  exact bucketStart_eq (Int.mul_pos hb hm) hlo hhi

/-- A trade is in a large bucket when its small bucket starts in it. -/
theorem mem_bucketTrades_iff {mint : String} {start : Int} (hstart : b * m ∣ start) {t : Trade} :
    t ∈ bucketTrades (b * m) trades mint start
      ↔ t ∈ trades ∧ t.mint = mint ∧ start ≤ bucketStart b t.blockTime
          ∧ bucketStart b t.blockTime < start + b * m := by
  rw [mem_bucketTrades]
  refine and_congr_right fun ht => and_congr_right fun _ => ?_
  rw [bucketStart_fine hb hm hrange ht, bucketStart_coarse hb hm hrange ht,
    floorTo_mem_bucket hb hm hstart]

/-- The trades of a part are those of the large bucket with its start. -/
theorem bucketTrades_part {mint : String} {start s : Int} (hstart : b * m ∣ start)
    (hlo : start ≤ s) (hhi : s < start + b * m) :
    bucketTrades b trades mint s
      = (bucketTrades (b * m) trades mint start).filter fun t =>
          bucketStart b t.blockTime = s := by
  have hpart : ∀ t ∈ trades, decide (t.bucketKey b = (mint, s))
      = (decide (bucketStart b t.blockTime = s)
          && decide (t.bucketKey (b * m) = (mint, start))) := by
    intro t ht
    have hmem : t ∈ bucketTrades (b * m) trades mint start ↔ _ :=
      mem_bucketTrades_iff hb hm hrange hstart
    rw [mem_bucketTrades] at hmem
    rw [Bool.eq_iff_iff, Bool.and_eq_true, decide_eq_true_eq, decide_eq_true_eq,
      decide_eq_true_eq, Trade.bucketKey, Trade.bucketKey, Prod.mk.injEq, Prod.mk.injEq]
    constructor
    · rintro ⟨hmint, hs⟩
      exact ⟨hs, (hmem.mpr ⟨ht, hmint, by omega, by omega⟩).2⟩
    · rintro ⟨hs, hmint, -⟩
      exact ⟨hmint, hs⟩
  rw [bucketTrades, bucketTrades, List.filter_filter]
  exact List.filter_congr hpart

variable (hfine : CandlesOf b interval trades fine) {mint : String} {start : Int}
  (hstart : b * m ∣ start)
include hfine hstart

/-- Every trade of the large bucket is in a part. -/
theorem exists_part {t : Trade} (ht : t ∈ bucketTrades (b * m) trades mint start) :
    ∃ p ∈ partsOf fine mint start (b * m), p.bucketStart = bucketStart b t.blockTime := by
  obtain ⟨hmem, hmint, hlo, hhi⟩ := (mem_bucketTrades_iff hb hm hrange hstart).mp ht
  obtain ⟨p, hp, hpm, hps⟩ := hfine.mem_iff.mpr ⟨t, hmem, hmint, rfl⟩
  exact ⟨p, mem_partsOf.mpr ⟨hp, hpm, hps ▸ hlo, hps ▸ hhi⟩, hps⟩

/-- Every part has a trade, and is the candle of the large bucket's trades in it. -/
theorem part_candleOf {p : Candle} (hp : p ∈ partsOf fine mint start (b * m)) :
    (∃ t ∈ bucketTrades (b * m) trades mint start, bucketStart b t.blockTime = p.bucketStart)
      ∧ CandleOf ((bucketTrades (b * m) trades mint start).filter fun t =>
          bucketStart b t.blockTime = p.bucketStart) p := by
  obtain ⟨hmem, hmint, hlo, hhi⟩ := mem_partsOf.mp hp
  constructor
  · obtain ⟨t, ht, htm, hts⟩ := hfine.mem_iff.mp ⟨p, hmem, hmint, rfl⟩
    exact ⟨t, (mem_bucketTrades_iff hb hm hrange hstart).mpr
      ⟨ht, htm, hts ▸ hlo, hts ▸ hhi⟩, hts⟩
  · rw [← bucketTrades_part hb hm hrange hstart hlo hhi, ← hmint]
    exact hfine.candle p hmem

/-! ## Field by field -/

variable (hmono : ∀ t ∈ trades, ∀ u ∈ trades, t.slot ≤ u.slot → t.blockTime ≤ u.blockTime)
include hmono

omit hfine hstart in
/-- Later in the chain, so in no earlier small bucket. -/
theorem bucketStart_le_of_position {t u : Trade} (ht : t ∈ trades) (hu : u ∈ trades)
    (h : t.position ≤ u.position) : bucketStart b t.blockTime ≤ bucketStart b u.blockTime := by
  have hslot : t.slot ≤ u.slot := by
    rcases Prod.Lex.toLex_le_toLex.mp h with hlt | ⟨heq, -⟩
    · exact le_of_lt hlt
    · exact le_of_eq heq
  rw [bucketStart_fine hb hm hrange ht, bucketStart_fine hb hm hrange hu]
  exact floorTo_mono hb (hmono t ht u hu hslot)

omit hmono in
theorem rollUp_volume {c : Candle} (hc : CandleOf (bucketTrades (b * m) trades mint start) c) :
    c.volume = ((partsOf fine mint start (b * m)).map (·.volume)).sum := by
  have hnd : ((partsOf fine mint start (b * m)).map (·.bucketStart)).Nodup := by
    have hkeys : (partsOf fine mint start (b * m)).map Candle.bucketKey
        = ((partsOf fine mint start (b * m)).map (·.bucketStart)).map fun s => (mint, s) := by
      rw [List.map_map]
      refine List.map_congr_left fun p hp => ?_
      exact Prod.ext (mem_partsOf.mp hp).2.1 rfl
    refine List.Nodup.of_map (fun s => (mint, s)) ?_
    rw [← hkeys]
    exact (List.filter_sublist.map _).nodup hfine.once
  have hfibers := sum_map_fibers (fun t : Trade => bucketStart b t.blockTime) (·.volume)
    (bucketTrades (b * m) trades mint start) hnd fun t ht => by
      obtain ⟨p, hp, hps⟩ := exists_part hb hm hrange hfine hstart ht
      exact List.mem_map.mpr ⟨p, hp, hps⟩
  rw [hc.volume, hfibers, List.map_map]
  refine congrArg List.sum (List.map_congr_left fun p hp => ?_)
  obtain ⟨-, hof⟩ := part_candleOf hb hm hrange hfine hstart hp
  exact hof.volume.symm

/-- A large candle summarises its parts: each field of it is an end, an extremum
or the sum over all of the bucket's trades, taken part by part. -/
theorem rollUpOf_partsOf {c : Candle}
    (hc : CandleOf (bucketTrades (b * m) trades mint start) c) :
    RollUpOf (partsOf fine mint start (b * m)) c := by
  have hcover : ∀ t ∈ bucketTrades (b * m) trades mint start,
      ∃ p ∈ partsOf fine mint start (b * m), p.bucketStart = bucketStart b t.blockTime :=
    fun t ht => exists_part hb hm hrange hfine hstart ht
  have hpart : ∀ p ∈ partsOf fine mint start (b * m),
      CandleOf ((bucketTrades (b * m) trades mint start).filter fun t =>
        bucketStart b t.blockTime = p.bucketStart) p :=
    fun p hp => (part_candleOf hb hm hrange hfine hstart hp).2
  have hgrow : ∀ t ∈ bucketTrades (b * m) trades mint start,
      ∀ u ∈ bucketTrades (b * m) trades mint start, t.position ≤ u.position →
        bucketStart b t.blockTime ≤ bucketStart b u.blockTime :=
    fun t ht u hu => bucketStart_le_of_position hb hm hrange hmono (mem_bucketTrades.mp ht).1
      (mem_bucketTrades.mp hu).1
  obtain ⟨first, hfirst, hopening⟩ := hc.opening
  obtain ⟨last, hlast, hclose⟩ := hc.close
  constructor
  · rw [hopening]
    exact hfirst.of_fibers hgrow hcover fun p hp => (hpart p hp).opening
  · rw [hclose]
    exact hlast.of_fibers hgrow hcover fun p hp => (hpart p hp).close
  · exact foldl_max_of_fibers hc.high hc.ne_nil hcover fun p hp => (hpart p hp).high
  · exact foldl_min_of_fibers hc.low hc.ne_nil hcover fun p hp => (hpart p hp).low
  · exact rollUp_volume hb hm hrange hfine hstart hc

end Parts

/-! ## The theorem -/

/-- For any bucket size and any multiple of it, negative times included, the
large candles are the roll-up of the small ones, as long as time does not run
backwards along the chain and no bucket starts below the `i64` range. -/
theorem buildCandles_rollsUp (ord ord' : IterOrder ((String × Int) × List Trade))
    (interval interval' : Interval) {b m : Int} (hb : 0 < b) (hm : 0 < m) {trades : List Trade}
    (hmono : ∀ t ∈ trades, ∀ u ∈ trades, t.slot ≤ u.slot → t.blockTime ≤ u.blockTime)
    (hrange : StartsInRange (b * m) trades) :
    ∃ fine coarse, buildCandles ord trades interval b = .ok fine
      ∧ buildCandles ord' trades interval' (b * m) = .ok coarse ∧ RollsUp b m fine coarse := by
  obtain ⟨fine, hfine_ok, hfine⟩ := buildCandles_spec ord trades interval b
  obtain ⟨coarse, hcoarse_ok, hcoarse⟩ := buildCandles_spec ord' trades interval' (b * m)
  refine ⟨fine, coarse, hfine_ok, hcoarse_ok, fun mint start hstart => ⟨?_, ?_⟩⟩
  · rw [hcoarse.mem_iff]
    constructor
    · rintro ⟨t, ht, hmint, hts⟩
      obtain ⟨p, hp, -⟩ := exists_part hb hm hrange hfine hstart
        (mem_bucketTrades.mpr ⟨ht, hmint, hts⟩)
      exact List.ne_nil_of_mem hp
    · intro hne
      obtain ⟨p, hp⟩ := List.exists_mem_of_ne_nil _ hne
      obtain ⟨⟨t, ht, -⟩, -⟩ := part_candleOf hb hm hrange hfine hstart hp
      obtain ⟨ht, hmint, hts⟩ := mem_bucketTrades.mp ht
      exact ⟨t, ht, hmint, hts⟩
  · intro c hc hmint hcs
    have hof : CandleOf (bucketTrades (b * m) trades mint start) c := by
      rw [← hmint, ← hcs]
      exact hcoarse.candle c hc
    exact rollUpOf_partsOf hb hm hrange hfine hstart hmono hof

/-- Trades on both sides of time zero, two of them in one slot. -/
def trickleTrades : List Trade :=
  [⟨"TOKEN", -61, 1, 0, 2, 10⟩, ⟨"TOKEN", 59, 2, 1, 3, 5⟩, ⟨"TOKEN", 59, 2, 0, 1, 2⟩,
   ⟨"TOKEN", 125, 3, 0, 4, 1⟩]

theorem buildCandles_rollsUp_trickle :
    ∃ fine coarse, buildCandles .stored trickleTrades .oneMin 60 = .ok fine
      ∧ buildCandles .stored trickleTrades .fiveMin (60 * 5) = .ok coarse
      ∧ RollsUp 60 5 fine coarse :=
  buildCandles_rollsUp .stored .stored .oneMin .fiveMin (by decide) (by decide) (by decide)
    (by unfold StartsInRange; decide)

/-- A trade at `i64::MIN`: its one-second bucket starts there, but the start of
its minute wraps to the far end of time. -/
def earliestTrade : Trade :=
  ⟨"TOKEN", -2 ^ 63, 0, 0, 1, 1⟩

theorem rollsUp_fails_below_i64 :
    ∃ fine coarse, buildCandles .stored [earliestTrade] .oneMin 1 = .ok fine
      ∧ buildCandles .stored [earliestTrade] .fiveMin (1 * 60) = .ok coarse
      ∧ fine.map (·.bucketStart) = [-2 ^ 63] ∧ coarse.map (·.bucketStart) = [2 ^ 63 - 52]
      ∧ ¬RollsUp 1 60 fine coarse := by
  refine ⟨_, _, rfl, rfl, by decide, by decide, fun h => ?_⟩
  have hwindow := (h "TOKEN" (-2 ^ 63 - 52) (by decide)).1
  revert hwindow
  decide

end Astralane
