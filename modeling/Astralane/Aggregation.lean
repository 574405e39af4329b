import Astralane.Rollup

/-!
# What a candle aggregates

The candles of a list of trades without the hash map, the sort and the folds:
each stands for one bucket of one mint and says of the trades in it which was
first, which last, what their extreme prices were and what they add up to
(`Aggregates`). Every trade is in exactly one bucket, so volumes are conserved,
and the order of the trades is in none of it.
-/

namespace Astralane

/-! ## The aggregates -/

/-- The trades of a mint within the bucket that the candle stands for. -/
def contributing (b : Int) (trades : List Trade) (c : Candle) : List Trade :=
  trades.filter fun t =>
    t.mint = c.mint && c.bucketStart ≤ t.blockTime && t.blockTime < c.bucketStart + b

structure Aggregates (b : Int) (trades : List Trade) (c : Candle) : Prop where
  aligned : b ∣ c.bucketStart
  traded : contributing b trades c ≠ []
  opening : ∃ t ∈ contributing b trades c,
    (∀ u ∈ contributing b trades c, u ≠ t → t.position < u.position) ∧ c.opening = t.price
  close : ∃ t ∈ contributing b trades c,
    (∀ u ∈ contributing b trades c, u ≠ t → u.position < t.position) ∧ c.close = t.price
  high : (∃ t ∈ contributing b trades c, c.high = t.price)
    ∧ ∀ t ∈ contributing b trades c, t.price ≤ c.high
  low : (∃ t ∈ contributing b trades c, c.low = t.price)
    ∧ ∀ t ∈ contributing b trades c, c.low ≤ t.price
  between : (c.low ≤ c.opening ∧ c.opening ≤ c.high) ∧ c.low ≤ c.close ∧ c.close ≤ c.high
  volume : c.volume = ((contributing b trades c).map (·.volume)).sum

/-- One candle for each mint and bucket with trades, and each trade in one. -/
structure AggregatedBy (b : Int) (interval : Interval) (trades : List Trade) (cs : List Candle) :
    Prop where
  once : (cs.map Candle.bucketKey).Nodup
  candle : ∀ c ∈ cs, Aggregates b trades c
  interval_eq : ∀ c ∈ cs, c.interval = interval
  exactly_one : ∀ t ∈ trades, ∃! c, c ∈ cs ∧ t ∈ contributing b trades c
  volumes : ∀ mint, ((cs.filter fun c => c.mint = mint).map (·.volume)).sum
    = ((trades.filter fun t => t.mint = mint).map (·.volume)).sum

/-- Prices within the bounds from which the folds start, bucket starts within
`i64`, and no two trades of a mint at one position. -/
structure Aggregable (b : Int) (trades : List Trade) : Prop where
  starts : StartsInRange b trades
  prices : ∀ t ∈ trades, -f64Max ≤ t.price ∧ t.price ≤ f64Max
  positions : trades.Pairwise fun t u => t.mint = u.mint → t.position ≠ u.position

theorem mem_contributing {b : Int} {trades : List Trade} {c : Candle} {t : Trade} :
    t ∈ contributing b trades c
      ↔ t ∈ trades ∧ t.mint = c.mint ∧ c.bucketStart ≤ t.blockTime
          ∧ t.blockTime < c.bucketStart + b := by
  simp only [contributing, List.mem_filter, Bool.and_eq_true, decide_eq_true_eq, and_assoc]

theorem Aggregable.position_ne {b : Int} {trades : List Trade} (h : Aggregable b trades)
    {t u : Trade} (ht : t ∈ trades) (hu : u ∈ trades) (hne : t ≠ u) (hmint : t.mint = u.mint) :
    t.position ≠ u.position := by
  have hsymm : Std.Symm fun t u : Trade => t.mint = u.mint → t.position ≠ u.position :=
    ⟨fun _ _ himp heq => (himp heq.symm).symm⟩
  exact h.positions.forall ht hu hne hmint

/-! ## The bucket of a candle -/

section Bucket

variable {b : Int} {trades : List Trade} (hb : 0 < b) (hrange : StartsInRange b trades)
include hb hrange

/-- A candle of the build starts at a multiple of the bucket size, and its trades
are those of its bucket. -/
theorem bucketTrades_eq_contributing {c : Candle} (haligned : b ∣ c.bucketStart) :
    bucketTrades b trades c.mint c.bucketStart = contributing b trades c := by
  refine List.filter_congr fun t ht => ?_
  obtain ⟨hlo, hhi⟩ := hrange t ht
  rw [Bool.eq_iff_iff, Bool.and_eq_true, Bool.and_eq_true, decide_eq_true_eq, decide_eq_true_eq,
    decide_eq_true_eq, decide_eq_true_eq, Trade.bucketKey, Prod.mk.injEq,
    bucketStart_eq hb hlo hhi, floorTo_eq_iff hb haligned, and_assoc]

theorem aligned_of_mem {c : Candle} {t : Trade}
    (ht : t ∈ bucketTrades b trades c.mint c.bucketStart) : b ∣ c.bucketStart := by
  obtain ⟨hmem, -, hstart⟩ := mem_bucketTrades.mp ht
  obtain ⟨hlo, hhi⟩ := hrange t hmem
  rw [← hstart, bucketStart_eq hb hlo hhi]
  exact dvd_floorTo b t.blockTime

end Bucket

/-- The bucket of a trade in `c` is that of `c`. -/
theorem bucketStart_of_contributing {b : Int} (hb : 0 < b) {trades : List Trade} {c : Candle}
    (haligned : b ∣ c.bucketStart) {t : Trade} (ht : t ∈ contributing b trades c) :
    c.bucketStart = floorTo b t.blockTime := by
  obtain ⟨-, -, hlo, hhi⟩ := mem_contributing.mp ht
  exact ((floorTo_eq_iff hb haligned).mpr ⟨hlo, hhi⟩).symm

/-! ## The build aggregates -/

/-- With prices above the start of the fold the high is one of them. -/
theorem CandleOf.high_bounds {group : List Trade} {c : Candle} (h : CandleOf group c)
    (hbound : ∀ t ∈ group, -f64Max ≤ t.price) :
    (∃ t ∈ group, c.high = t.price) ∧ ∀ t ∈ group, t.price ≤ c.high :=
  foldl_max_bounds h.high h.ne_nil hbound

theorem CandleOf.low_bounds {group : List Trade} {c : Candle} (h : CandleOf group c)
    (hbound : ∀ t ∈ group, t.price ≤ f64Max) :
    (∃ t ∈ group, c.low = t.price) ∧ ∀ t ∈ group, c.low ≤ t.price :=
  foldl_min_bounds h.low h.ne_nil hbound

section Build

variable {b : Int} {trades : List Trade} {interval : Interval} {cs : List Candle}
  (hb : 0 < b) (h : Aggregable b trades) (hcs : CandlesOf b interval trades cs)
include hb h

theorem aggregates_of_candleOf {c : Candle}
    (hof : CandleOf (bucketTrades b trades c.mint c.bucketStart) c) : Aggregates b trades c := by
  obtain ⟨first, hfirst, hopen⟩ := hof.opening
  obtain ⟨last, hlast, hclose⟩ := hof.close
  have haligned := aligned_of_mem hb h.starts hfirst.mem
  rw [bucketTrades_eq_contributing hb h.starts haligned] at hof hfirst hlast
  have hdistinct : ∀ t ∈ contributing b trades c, ∀ u ∈ contributing b trades c, t ≠ u →
      t.position ≠ u.position := by
    intro t ht u hu htu
    obtain ⟨htmem, htm, -⟩ := mem_contributing.mp ht
    obtain ⟨humem, hum, -⟩ := mem_contributing.mp hu
    exact h.position_ne htmem humem htu (htm.trans hum.symm)
  have hhigh := hof.high_bounds fun t ht => (h.prices t (mem_contributing.mp ht).1).1
  have hlow := hof.low_bounds fun t ht => (h.prices t (mem_contributing.mp ht).1).2
  refine
    { aligned := haligned
      traded := hof.ne_nil
      opening := ⟨first, hfirst.mem, fun u hu hu' => ?_, hopen⟩
      close := ⟨last, hlast.mem, fun u hu hu' => ?_, hclose⟩
      high := hhigh
      low := hlow
      between := ?_
      volume := hof.volume }
  · exact lt_of_le_of_ne (hfirst.le u hu) (hdistinct first hfirst.mem u hu hu'.symm)
  · exact lt_of_le_of_ne (hlast.le u hu) (hdistinct u hu last hlast.mem hu')
  · rw [hopen, hclose]
    exact ⟨⟨hlow.2 first hfirst.mem, hhigh.2 first hfirst.mem⟩,
      hlow.2 last hlast.mem, hhigh.2 last hlast.mem⟩

include hcs

theorem exists_unique_candle {t : Trade} (ht : t ∈ trades) :
    ∃! c, c ∈ cs ∧ t ∈ contributing b trades c := by
  have hcandle := fun c hc => aggregates_of_candleOf hb h (hcs.candle c hc)
  obtain ⟨c, hc, hmint, hstart⟩ := hcs.mem_iff.mpr ⟨t, ht, rfl, rfl⟩
  have hin : t ∈ contributing b trades c := by
    rw [← bucketTrades_eq_contributing hb h.starts (hcandle c hc).aligned]
    exact mem_bucketTrades.mpr ⟨ht, hmint.symm, hstart.symm⟩
  refine ⟨c, ⟨hc, hin⟩, ?_⟩
  rintro d ⟨hd, hind⟩
  refine List.inj_on_of_nodup_map hcs.once hd hc (Prod.ext ?_ ?_)
  · exact (mem_contributing.mp hind).2.1.symm.trans hmint.symm
  · show d.bucketStart = c.bucketStart
    rw [bucketStart_of_contributing hb (hcandle d hd).aligned hind,
      bucketStart_of_contributing hb (hcandle c hc).aligned hin]

omit hb h in
/-- The candles of a mint partition its trades. -/
theorem volumes_eq (mint : String) :
    ((cs.filter fun c => c.mint = mint).map (·.volume)).sum
      = ((trades.filter fun t => t.mint = mint).map (·.volume)).sum := by
  have hmint : ∀ c ∈ cs.filter (fun c => c.mint = mint), c ∈ cs ∧ c.mint = mint := fun c hc =>
    ⟨(List.mem_filter.mp hc).1, of_decide_eq_true (List.mem_filter.mp hc).2⟩
  have hnd : ((cs.filter fun c => c.mint = mint).map Candle.bucketStart).Nodup := by
    refine List.Nodup.of_map (fun s => (mint, s)) ?_
    rw [List.map_map]
    have hkeys : (cs.filter fun c => c.mint = mint).map ((fun s => (mint, s)) ∘ Candle.bucketStart)
        = (cs.filter fun c => c.mint = mint).map Candle.bucketKey :=
      List.map_congr_left fun c hc => Prod.ext (hmint c hc).2.symm rfl
    rw [hkeys]
    exact (List.filter_sublist.map _).nodup hcs.once
  rw [sum_map_fibers (fun t : Trade => bucketStart b t.blockTime) (·.volume) _ hnd, List.map_map]
  · refine congrArg List.sum (List.map_congr_left fun c hc => ?_)
    obtain ⟨hmem, rfl⟩ := hmint c hc
    rw [(hcs.candle c hmem).volume, Function.comp_apply, bucketTrades, List.filter_filter]
    refine congrArg (fun l : List Trade => (l.map (·.volume)).sum) (List.filter_congr fun t _ => ?_)
    rw [Bool.eq_iff_iff, Bool.and_eq_true, decide_eq_true_eq, decide_eq_true_eq,
      decide_eq_true_eq, Trade.bucketKey, Prod.mk.injEq, and_comm]
  · intro t ht
    obtain ⟨hmem, hm⟩ := List.mem_filter.mp ht
    obtain ⟨c, hc, hcm, hcs'⟩ := hcs.mem_iff.mpr ⟨t, hmem, rfl, rfl⟩
    have hcm' : decide (c.mint = mint) = true :=
      decide_eq_true (hcm.trans (of_decide_eq_true hm))
    exact List.mem_map.mpr ⟨c, List.mem_filter.mpr ⟨hc, hcm'⟩, hcs'⟩

theorem aggregatedBy_of_candlesOf : AggregatedBy b interval trades cs where
  once := hcs.once
  candle := fun c hc => aggregates_of_candleOf hb h (hcs.candle c hc)
  interval_eq := hcs.interval_eq
  exactly_one := fun _ ht => exists_unique_candle hb h hcs ht
  volumes := volumes_eq hcs

end Build

/-! ## The order of the trades -/

theorem contributing_perm {b : Int} {trades trades' : List Trade} (hperm : trades'.Perm trades)
    {c d : Candle} (hmint : d.mint = c.mint) (hstart : d.bucketStart = c.bucketStart) :
    (contributing b trades' d).Perm (contributing b trades c) := by
  rw [contributing, contributing, hmint, hstart]
  exact hperm.filter _

/-- Two arrangements of the same elements have one element that is before all
others. -/
theorem eq_of_before_all {α : Type} (before : α → α → Prop) {l l' : List α} (hperm : l'.Perm l)
    (hasymm : ∀ a b, before a b → ¬before b a) {a a' : α} (ha : a ∈ l)
    (hall : ∀ u ∈ l, u ≠ a → before a u) (ha' : a' ∈ l')
    (hall' : ∀ u ∈ l', u ≠ a' → before a' u) : a' = a := by
  by_contra hne
  have hbefore := hall a' (hperm.mem_iff.mp ha') hne
  exact hasymm a a' hbefore (hall' a (hperm.mem_iff.mpr ha) (Ne.symm hne))

/-- What a candle says of its trades determines it. -/
theorem Aggregates.unique {b : Int} {trades trades' : List Trade} (hperm : trades'.Perm trades)
    {c d : Candle} (hc : Aggregates b trades c) (hd : Aggregates b trades' d)
    (hmint : d.mint = c.mint) (hstart : d.bucketStart = c.bucketStart)
    (hinterval : d.interval = c.interval) : d = c := by
  have hsame := contributing_perm (b := b) hperm hmint hstart
  have hopening : d.opening = c.opening := by
    obtain ⟨t, ht, hleast, hopen⟩ := hc.opening
    obtain ⟨t', ht', hleast', hopen'⟩ := hd.opening
    rw [hopen, hopen', eq_of_before_all (fun t u => t.position < u.position) hsame
      (fun _ _ => lt_asymm) ht hleast ht' hleast']
  have hclose : d.close = c.close := by
    obtain ⟨t, ht, hgreatest, hclose⟩ := hc.close
    obtain ⟨t', ht', hgreatest', hclose'⟩ := hd.close
    rw [hclose, hclose', eq_of_before_all (fun t u => u.position < t.position) hsame
      (fun _ _ => lt_asymm) ht hgreatest ht' hgreatest']
  have hhigh : d.high = c.high := by
    obtain ⟨⟨t, ht, hprice⟩, hbound⟩ := hc.high
    obtain ⟨⟨t', ht', hprice'⟩, hbound'⟩ := hd.high
    refine le_antisymm ?_ ?_
    · exact hprice' ▸ hbound t' (hsame.mem_iff.mp ht')
    · exact hprice ▸ hbound' t (hsame.mem_iff.mpr ht)
  have hlow : d.low = c.low := by
    obtain ⟨⟨t, ht, hprice⟩, hbound⟩ := hc.low
    obtain ⟨⟨t', ht', hprice'⟩, hbound'⟩ := hd.low
    refine le_antisymm ?_ ?_
    · exact hprice ▸ hbound' t (hsame.mem_iff.mpr ht)
    · exact hprice' ▸ hbound t' (hsame.mem_iff.mp ht')
  have hvolume : d.volume = c.volume := by
    rw [hc.volume, hd.volume]
    exact (hsame.map _).sum_eq
  cases c
  cases d
  simp_all

/-- Every candle of the one list is in the other. -/
theorem AggregatedBy.subset {b : Int} (hb : 0 < b) {interval : Interval}
    {trades trades' : List Trade} (hperm : trades'.Perm trades) {cs cs' : List Candle}
    (h : AggregatedBy b interval trades cs) (h' : AggregatedBy b interval trades' cs') {d : Candle}
    (hd : d ∈ cs') : d ∈ cs := by
  obtain ⟨t, ht⟩ := List.exists_mem_of_ne_nil _ (h'.candle d hd).traded
  obtain ⟨hmem, hmint, -⟩ := mem_contributing.mp ht
  obtain ⟨c, ⟨hc, htc⟩, -⟩ := h.exactly_one t (hperm.mem_iff.mp hmem)
  have hstart : d.bucketStart = c.bucketStart := by
    rw [bucketStart_of_contributing hb (h'.candle d hd).aligned ht,
      bucketStart_of_contributing hb (h.candle c hc).aligned htc]
  have hsame : d = c := (h.candle c hc).unique hperm (h'.candle d hd)
    (hmint.symm.trans (mem_contributing.mp htc).2.1) hstart
    ((h'.interval_eq d hd).trans (h.interval_eq c hc).symm)
  rw [hsame]
  exact hc

theorem AggregatedBy.perm {b : Int} (hb : 0 < b) {interval : Interval}
    {trades trades' : List Trade} (hperm : trades'.Perm trades) {cs cs' : List Candle}
    (h : AggregatedBy b interval trades cs) (h' : AggregatedBy b interval trades' cs') :
    cs'.Perm cs := by
  refine (List.perm_ext_iff_of_nodup h'.once.of_map h.once.of_map).mpr fun d => ?_
  exact ⟨h.subset hb hperm h', h'.subset hb hperm.symm h⟩

theorem Aggregable.perm {b : Int} {trades trades' : List Trade} (h : Aggregable b trades)
    (hperm : trades'.Perm trades) : Aggregable b trades' where
  starts := fun t ht => h.starts t (hperm.mem_iff.mp ht)
  prices := fun t ht => h.prices t (hperm.mem_iff.mp ht)
  positions := h.positions.perm hperm.symm fun himp hmint heq => himp hmint.symm heq.symm

/-- For every list of trades, negative times included, every order of it and every
order of the hash map, the candles aggregate the trades of their buckets, and the
set of candles is always the same. -/
theorem buildCandles_aggregates (interval : Interval) {b : Int} (hb : 0 < b) {trades : List Trade}
    (h : Aggregable b trades) :
    (∀ ord, ∃ cs, buildCandles ord trades interval b = .ok cs
        ∧ AggregatedBy b interval trades cs)
      ∧ ∀ trades', trades'.Perm trades → ∀ ord ord' cs cs',
          buildCandles ord trades interval b = .ok cs →
          buildCandles ord' trades' interval b = .ok cs' → cs'.Perm cs := by
  have hbuild : ∀ ord {ts cs}, Aggregable b ts → buildCandles ord ts interval b = .ok cs →
      AggregatedBy b interval ts cs := by
    intro ord ts cs hts hok
    obtain ⟨cs', hok', hof⟩ := buildCandles_spec ord ts interval b
    rw [hok'] at hok
    cases hok
    exact aggregatedBy_of_candlesOf hb hts hof
  constructor
  · intro ord
    obtain ⟨cs, hok, -⟩ := buildCandles_spec ord trades interval b
    exact ⟨cs, hok, hbuild ord h hok⟩
  · intro trades' hperm ord ord' cs cs' hok hok'
    exact (hbuild ord h hok).perm hb hperm (hbuild ord' (h.perm hperm) hok')

theorem buildCandles_aggregates_trickle :
    (∃ cs, buildCandles .stored trickleTrades .oneMin 60 = .ok cs
        ∧ AggregatedBy 60 .oneMin trickleTrades cs)
      ∧ ∀ cs cs', buildCandles .stored trickleTrades .oneMin 60 = .ok cs →
          buildCandles .stored trickleTrades.reverse .oneMin 60 = .ok cs' → cs'.Perm cs := by
  have h : Aggregable 60 trickleTrades :=
    { starts := by unfold StartsInRange; decide
      prices := by decide +kernel
      positions := by decide }
  obtain ⟨hbuild, hperm⟩ := buildCandles_aggregates .oneMin (show 0 < (60 : Int) by omega) h
  exact ⟨hbuild .stored, hperm _ (List.reverse_perm _) .stored .stored⟩

end Astralane
