import Astralane.Buckets
import Astralane.Trades

/-!
# Candles

`build_candles`: trades grouped by mint and bucket in a hash map, each group
sorted by position in the chain and folded into a candle.

`CandleOf` says what a candle is of its group without the sort; the groups are
the `bucketTrades` (`buildCandles_spec`). The build never panics, and yields
one candle per group that is not empty.
-/

namespace Astralane

/-! ## `build_candles` -/

structure Candle where
  mint : String
  interval : Interval
  bucketStart : Int
  opening : Rat
  high : Rat
  low : Rat
  close : Rat
  volume : Rat
deriving DecidableEq, Repr

/-- The sort key `(slot, tx_index)`. -/
def Trade.position (t : Trade) : Int ×ₗ Int :=
  toLex (t.slot, t.txIndex)

/-- `block_time - block_time.rem_euclid(bucket_seconds)`, in `i64`. -/
def bucketStart (bucketSeconds blockTime : Int) : Int :=
  wrap 64 (floorTo bucketSeconds blockTime)

/-- `f64::MAX`, and `f64::MIN` is its negative. -/
def f64Max : Rat :=
  (2 ^ 53 - 1) * 2 ^ 971

def Trade.bucketKey (bucketSeconds : Int) (t : Trade) : String × Int :=
  (t.mint, bucketStart bucketSeconds t.blockTime)

def groupTrades (bucketSeconds : Int) (trades : List Trade) :
    EntryMap (String × Int) (List Trade) :=
  trades.foldl (fun m t => m.entry (t.bucketKey bucketSeconds) [] (· ++ [t])) .empty

/-- The body of the loop over the groups. -/
def candleOfGroup (interval : Interval) (entry : (String × Int) × List Trade) :
    Except Panic Candle :=
  let group := sortByKey Trade.position entry.2
  match group.head?, group.getLast? with
  | some first, some last =>
      .ok
        { mint := entry.1.1
          interval
          bucketStart := entry.1.2
          opening := first.price
          high := (group.map (·.price)).foldl max (-f64Max)
          low := (group.map (·.price)).foldl min f64Max
          close := last.price
          volume := (group.map (·.volume)).sum }
  | _, _ => .error .unwrapNone

def buildCandles (ord : IterOrder ((String × Int) × List Trade)) (trades : List Trade)
    (interval : Interval) (bucketSeconds : Int) : Except Panic (List Candle) :=
  (ord.arrange (groupTrades bucketSeconds trades).rows).mapM (candleOfGroup interval)

/-! ## Groups -/

/-- The trades of a mint in the bucket that starts at `start`, in their order. -/
def bucketTrades (bucketSeconds : Int) (trades : List Trade) (mint : String) (start : Int) :
    List Trade :=
  trades.filter fun t => t.bucketKey bucketSeconds = (mint, start)

theorem mem_bucketTrades {b start : Int} {trades : List Trade} {mint : String} {t : Trade} :
    t ∈ bucketTrades b trades mint start
      ↔ t ∈ trades ∧ t.mint = mint ∧ bucketStart b t.blockTime = start := by
  rw [bucketTrades, List.mem_filter, decide_eq_true_eq, Trade.bucketKey, Prod.mk.injEq]

theorem mem_groupTrades {b : Int} {trades : List Trade} {mint : String} {start : Int}
    {group : List Trade} :
    ((mint, start), group) ∈ (groupTrades b trades).rows
      ↔ group = bucketTrades b trades mint start ∧ group ≠ [] := by
  have happend : ∀ (l init : List Trade), l.foldl (fun v t => v ++ [t]) init = init ++ l := by
    intro l
    induction l with
    | nil => simp
    | cons t l ih => simp [ih]
  rw [Keyed.mem_rows_iff_get?, groupTrades,
    Keyed.get?_foldl_entry (Trade.bucketKey b) [] fun t v => v ++ [t]]
  change (if bucketTrades b trades mint start = [] then none else _) = _ ↔ _
  split
  · rename_i hnil
    rw [hnil]
    constructor
    · intro h
      cases h
    · rintro ⟨h, hne⟩
      exact absurd h hne
  · rename_i hne
    rw [happend]
    simp only [Keyed.get?_empty, Option.getD_none, List.nil_append, Option.some.injEq]
    constructor
    · rintro rfl
      exact ⟨rfl, hne⟩
    · exact fun h => h.1.symm

/-! ## What a candle says of its group -/

structure CandleOf (group : List Trade) (c : Candle) : Prop where
  opening : ∃ t, IsFirst Trade.position group t ∧ c.opening = t.price
  close : ∃ t, IsLast Trade.position group t ∧ c.close = t.price
  high : c.high = (group.map (·.price)).foldl max (-f64Max)
  low : c.low = (group.map (·.price)).foldl min f64Max
  volume : c.volume = (group.map (·.volume)).sum

theorem CandleOf.ne_nil {group : List Trade} {c : Candle} (h : CandleOf group c) : group ≠ [] := by
  obtain ⟨t, ht, -⟩ := h.opening
  exact List.ne_nil_of_mem ht.mem

theorem CandleOf.unique {group : List Trade} {c d : Candle} (hc : CandleOf group c)
    (hd : CandleOf group d) (hmint : c.mint = d.mint) (hinterval : c.interval = d.interval)
    (hstart : c.bucketStart = d.bucketStart) : c = d := by
  obtain ⟨⟨t, ht, hopen⟩, ⟨u, hu, hclose⟩, hhigh, hlow, hvolume⟩ := hc
  obtain ⟨⟨t', ht', hopen'⟩, ⟨u', hu', hclose'⟩, hhigh', hlow', hvolume'⟩ := hd
  obtain rfl := ht.unique ht'
  obtain rfl := hu.unique hu'
  cases c
  cases d
  simp_all

/-- A group that is not empty has a candle; sorting it is a rearrangement,
which the extrema and the sum do not see. -/
theorem candleOfGroup_spec (interval : Interval) (key : String × Int) {group : List Trade}
    (hne : group ≠ []) :
    ∃ c, candleOfGroup interval (key, group) = .ok c ∧ CandleOf group c
      ∧ c.mint = key.1 ∧ c.bucketStart = key.2 ∧ c.interval = interval := by
  obtain ⟨first, hfirst⟩ := exists_isFirst Trade.position hne
  obtain ⟨last, hlast⟩ := exists_isLast Trade.position hne
  have hperm := sortByKey_perm Trade.position group
  have hok : candleOfGroup interval (key, group) = .ok
      { mint := key.1
        interval
        bucketStart := key.2
        opening := first.price
        high := (group.map (·.price)).foldl max (-f64Max)
        low := (group.map (·.price)).foldl min f64Max
        close := last.price
        volume := (group.map (·.volume)).sum } := by
    rw [candleOfGroup, head?_sortByKey hfirst, getLast?_sortByKey hlast]
    simp only [(hperm.map _).foldl_op_eq, (hperm.map _).sum_eq]
  exact ⟨_, hok, ⟨⟨first, hfirst, rfl⟩, ⟨last, hlast, rfl⟩, rfl, rfl, rfl⟩, rfl, rfl, rfl⟩

/-- A loop whose body succeeds on every element succeeds. -/
theorem mapM_ok {ε α β : Type} {f : α → Except ε β} {P : α → β → Prop} {l : List α}
    (h : ∀ a ∈ l, ∃ b, f a = .ok b ∧ P a b) :
    ∃ bs, l.mapM f = .ok bs ∧ List.Forall₂ P l bs := by
  induction l with
  | nil => exact ⟨[], rfl, .nil⟩
  | cons a l ih =>
      obtain ⟨b, hb, hP⟩ := h a List.mem_cons_self
      obtain ⟨bs, hbs, hPs⟩ := ih fun x hx => h x (List.mem_cons_of_mem _ hx)
      refine ⟨b :: bs, ?_, .cons hP hPs⟩
      rw [List.mapM_cons, hb, hbs]
      rfl

theorem exists_of_mem_forall₂ {α β : Type} {P : α → β → Prop} {l : List α} {bs : List β}
    (h : List.Forall₂ P l bs) {b : β} (hb : b ∈ bs) : ∃ a ∈ l, P a b := by
  induction h with
  | nil => nomatch hb
  | cons hP _ ih =>
      rcases List.mem_cons.mp hb with rfl | hb
      · exact ⟨_, List.mem_cons_self, hP⟩
      · obtain ⟨a, ha, hPa⟩ := ih hb
        exact ⟨a, List.mem_cons_of_mem _ ha, hPa⟩

def Candle.bucketKey (c : Candle) : String × Int :=
  (c.mint, c.bucketStart)

/-- The candles of `trades`: one per mint and bucket with trades, each that of
its trades. -/
structure CandlesOf (bucketSeconds : Int) (interval : Interval) (trades : List Trade)
    (cs : List Candle) : Prop where
  once : (cs.map Candle.bucketKey).Nodup
  listed : ∀ key, key ∈ cs.map Candle.bucketKey ↔ ∃ t ∈ trades, t.bucketKey bucketSeconds = key
  candle : ∀ c ∈ cs, CandleOf (bucketTrades bucketSeconds trades c.mint c.bucketStart) c
  interval_eq : ∀ c ∈ cs, c.interval = interval

theorem buildCandles_spec (ord : IterOrder ((String × Int) × List Trade)) (trades : List Trade)
    (interval : Interval) (b : Int) :
    ∃ cs, buildCandles ord trades interval b = .ok cs ∧ CandlesOf b interval trades cs := by
  have hperm := ord.perm (groupTrades b trades).rows
  have hgroup : ∀ entry ∈ ord.arrange (groupTrades b trades).rows,
      entry.2 = bucketTrades b trades entry.1.1 entry.1.2 ∧ entry.2 ≠ [] :=
    fun _ hentry => mem_groupTrades.mp (hperm.mem_iff.mp hentry)
  obtain ⟨cs, hcs, hall⟩ := mapM_ok fun entry hentry =>
    candleOfGroup_spec interval entry.1 (hgroup entry hentry).2
  have hkeys : cs.map Candle.bucketKey = (ord.arrange (groupTrades b trades).rows).map (·.1) := by
    have heq : List.Forall₂ (fun entry c => entry.1 = Candle.bucketKey c)
        (ord.arrange (groupTrades b trades).rows) cs :=
      hall.imp fun _ _ ⟨_, hmint, hstart, _⟩ => (Prod.ext hmint hstart).symm
    have hmap := List.forall₂_map_left_iff.mpr (List.forall₂_map_right_iff.mpr heq)
    rw [List.forall₂_eq_eq_eq] at hmap
    exact hmap.symm
  refine ⟨cs, hcs, ?_, ?_, ?_, ?_⟩
  · rw [hkeys, (hperm.map _).nodup_iff]
    exact (groupTrades b trades).nodup
  · rintro ⟨mint, start⟩
    rw [hkeys, (hperm.map _).mem_iff, List.mem_map]
    constructor
    · rintro ⟨⟨key, group⟩, hentry, rfl⟩
      obtain ⟨rfl, hne⟩ := mem_groupTrades.mp hentry
      obtain ⟨t, ht⟩ := List.exists_mem_of_ne_nil _ hne
      obtain ⟨ht, hkey⟩ := List.mem_filter.mp ht
      exact ⟨t, ht, by simpa using hkey⟩
    · rintro ⟨t, ht, hkey⟩
      have hmem : t ∈ bucketTrades b trades mint start :=
        List.mem_filter.mpr ⟨ht, by simpa using hkey⟩
      exact ⟨((mint, start), _), mem_groupTrades.mpr ⟨rfl, List.ne_nil_of_mem hmem⟩, rfl⟩
  · intro c hc
    obtain ⟨entry, hentry, hof, hmint, hstart, -⟩ := exists_of_mem_forall₂ hall hc
    rw [hmint, hstart, ← (hgroup entry (by exact hentry)).1]
    exact hof
  · intro c hc
    obtain ⟨entry, -, -, -, -, hinterval⟩ := exists_of_mem_forall₂ hall hc
    exact hinterval

end Astralane
