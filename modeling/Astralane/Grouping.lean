import Astralane.RangeReport
import Astralane.Runs
import Astralane.Trades

/-!
# Grouping by transaction

`trades_from_rows` cuts its rows where the signature changes, while the query
sorts them by slot, `tx_index` and account index. The two fit together where the
rows of one transaction lie together (`groupingComplete_iff`): where `tx_index`
tells the transactions of a slot apart (`extractTrades_complete`), but not where
several of them have the column's default.
-/

namespace Astralane

/-! ## The loops and the grouping they stand for -/

theorem signatureRuns_eq : ∀ {fuel : Nat} {rows : List BalanceRow}, rows.length ≤ fuel →
    signatureRuns fuel rows = runs BalanceRow.signature rows
  | 0, rows, hlen => by
      rw [List.length_eq_zero_iff.mp (Nat.le_zero.mp hlen)]
      rfl
  | _ + 1, [], _ => rfl
  | fuel + 1, first :: rest, hlen => by
      have hshort : (rest.dropWhile fun row => row.signature = first.signature).length ≤ fuel :=
        (List.length_dropWhile_le _ _).trans (Nat.le_of_succ_le_succ hlen)
      have hfirst : decide (first.signature = first.signature) = true := decide_eq_true rfl
      rw [runs_cons, signatureRuns, List.span_eq_takeWhile_dropWhile]
      show _ :: signatureRuns fuel _ = _
      rw [List.takeWhile_cons, List.dropWhile_cons, if_pos hfirst, if_pos hfirst,
        signatureRuns_eq hshort]

/-- `trade_from_group` once for each signature, on all its rows. -/
def tradesPerSignature (ord : TradeOrder) (rows : List BalanceRow) :
    Except Panic (List Trade) := do
  let trades ← (keyGroups BalanceRow.signature rows).mapM fun group =>
    tradeFromGroup (ord.perMint group) group
  .ok trades.reduceOption

/-- The pieces that `trades_from_rows` evaluates are the transactions. -/
structure GroupingComplete (rows : List BalanceRow) : Prop where
  covered : (signatureRuns rows.length rows).flatten = rows
  whole : ∀ group ∈ signatureRuns rows.length rows, ∀ row ∈ group,
    group = rows.filter fun r => r.signature = row.signature
  once : (signatureRuns rows.length rows).Pairwise fun group group' =>
    ∀ r ∈ group, ∀ r' ∈ group', r.signature ≠ r'.signature
  trades : ∀ ord, tradesFromRows ord rows = tradesPerSignature ord rows

theorem GroupingComplete.of_contiguous {rows : List BalanceRow}
    (h : Contiguous BalanceRow.signature rows) : GroupingComplete rows := by
  have hruns := signatureRuns_eq (Nat.le_refl rows.length)
  have hgroups := hruns.trans (runs_eq_keyGroups h)
  refine ⟨?_, ?_, ?_, ?_⟩
  · rw [hruns]
    exact List.flatten_splitBy _ rows
  · intro group hgroup row hrow
    rw [hgroups] at hgroup
    exact eq_filter_of_mem_keyGroups hgroup hrow
  · rw [hgroups]
    exact keyGroups_distinct _ rows
  · intro ord
    rw [tradesFromRows, hgroups]
    rfl

/-- For every list of rows the grouping is complete exactly if no row of another
transaction lies between two rows of one. -/
theorem groupingComplete_iff (rows : List BalanceRow) :
    GroupingComplete rows ↔ Contiguous BalanceRow.signature rows := by
  refine ⟨fun h => ?_, .of_contiguous⟩
  have honce := h.once
  rw [signatureRuns_eq (Nat.le_refl rows.length)] at honce
  exact contiguous_of_distinct honce

/-! ## The rows of the query -/

/-- What the query gives: rows in its order, and the columns of a transaction
and its block the same in all rows of one signature. -/
structure QueryRows (rows : List (Int × BalanceRow)) : Prop where
  sorted : rows.Pairwise fun r r' => balanceOrder r ≤ balanceOrder r'
  joined : ∀ r ∈ rows, ∀ r' ∈ rows, r.2.signature = r'.2.signature →
    r.2.slot = r'.2.slot ∧ r.2.txIndex = r'.2.txIndex ∧ r.2.blockTime = r'.2.blockTime

def blockPosition (row : BalanceRow) : Int ×ₗ Int :=
  toLex (row.slot, row.txIndex)

theorem blockPosition_le {r r' : Int × BalanceRow} (h : balanceOrder r ≤ balanceOrder r') :
    blockPosition r.2 ≤ blockPosition r'.2 := by
  simp only [balanceOrder, Prod.Lex.toLex_le_toLex] at h
  rw [blockPosition, blockPosition, Prod.Lex.toLex_le_toLex]
  omega

/-- A `tx_index` that only one transaction of the slot has keeps its rows
together. -/
theorem QueryRows.contiguous {rows : List (Int × BalanceRow)} (h : QueryRows rows)
    (hindex : ∀ r ∈ rows, ∀ r' ∈ rows, blockPosition r.2 = blockPosition r'.2 →
      r.2.signature = r'.2.signature) :
    Contiguous BalanceRow.signature (rows.map (·.2)) := by
  refine contiguous_of_sorted (List.pairwise_map.mpr (h.sorted.imp blockPosition_le)) ?_
  intro a ha b hb
  obtain ⟨r, hr, rfl⟩ := List.mem_map.mp ha
  obtain ⟨r', hr', rfl⟩ := List.mem_map.mp hb
  refine ⟨fun hsig => ?_, hindex r hr r' hr'⟩
  obtain ⟨hslot, hidx, -⟩ := h.joined r hr r' hr' hsig
  rw [blockPosition, blockPosition, hslot, hidx]

/-- Where the columns of a joined row come from. -/
theorem mem_balanceRows {db : Db} {row : Int × BalanceRow} (h : row ∈ db.balanceRows) :
    ∃ t ∈ db.transactions.rows, ∃ b ∈ db.blocks.rows,
      t.signature = row.2.signature ∧ t.slot = row.2.slot ∧ t.txIndex = row.2.txIndex
        ∧ b.slot = row.2.slot ∧ b.blockTime = some row.2.blockTime := by
  simp only [Db.balanceRows, List.mem_flatMap, List.mem_filterMap, List.mem_filter,
    Bool.and_eq_true, decide_eq_true_eq, Option.map_eq_some_iff] at h
  obtain ⟨tb, -, t, ⟨ht, hsig⟩, b, ⟨hb, hslot, -⟩, time, htime, rfl⟩ := h
  exact ⟨t, ht, b, hb, hsig, rfl, rfl, hslot, htime⟩

/-- The rows that `extract_trades` groups, with their account indices. -/
def Db.sortedBalanceRows (ord : TradeOrder) (db : Db) : List (Int × BalanceRow) :=
  sortByKey balanceOrder (ord.rows.arrange db.balanceRows)

theorem mem_sortedBalanceRows {ord : TradeOrder} {db : Db} {row : Int × BalanceRow} :
    row ∈ db.sortedBalanceRows ord ↔ row ∈ db.balanceRows := by
  rw [Db.sortedBalanceRows, mem_sortByKey, (ord.rows.perm _).mem_iff]

theorem sortedBalanceRows_queryRows (ord : TradeOrder) (db : Db) :
    QueryRows (db.sortedBalanceRows ord) := by
  refine ⟨sortByKey_sorted _ _, fun r hr r' hr' hsig => ?_⟩
  obtain ⟨t, ht, b, hb, hts, hslot, hidx, hbs, htime⟩ :=
    mem_balanceRows (mem_sortedBalanceRows.mp hr)
  obtain ⟨t', ht', b', hb', hts', hslot', hidx', hbs', htime'⟩ :=
    mem_balanceRows (mem_sortedBalanceRows.mp hr')
  have hsame : t = t' :=
    db.transactions.eq_of_key_eq ht ht' (hts.trans (hsig.trans hts'.symm))
  have hslots : r.2.slot = r'.2.slot := by rw [← hslot, ← hslot', hsame]
  have hblock : b = b' :=
    db.blocks.eq_of_key_eq hb hb' (hbs.trans (hslots.trans hbs'.symm))
  refine ⟨hslots, by rw [← hidx, ← hidx', hsame], ?_⟩
  rw [hblock, htime'] at htime
  exact (Option.some.inj htime).symm

/-- A database whose `tx_index` tells the transactions of a slot apart yields the
trades of its transactions. -/
theorem extractTrades_complete (ord : TradeOrder) {db : Db} (hidx : db.IndexedSlots) :
    extractTrades ord db = tradesPerSignature ord ((db.sortedBalanceRows ord).map (·.2)) := by
  have hcontiguous : Contiguous BalanceRow.signature ((db.sortedBalanceRows ord).map (·.2)) := by
    refine (sortedBalanceRows_queryRows ord db).contiguous fun r hr r' hr' hpos => ?_
    obtain ⟨t, ht, -, -, hts, hslot, htidx, -⟩ := mem_balanceRows (mem_sortedBalanceRows.mp hr)
    obtain ⟨t', ht', -, -, hts', hslot', htidx', -⟩ :=
      mem_balanceRows (mem_sortedBalanceRows.mp hr')
    obtain ⟨hslots, hidxs⟩ := Prod.mk.inj (toLex.injective hpos)
    have hmem : t ∈ db.transactionsOf r.2.slot :=
      List.mem_filter.mpr ⟨ht, decide_eq_true hslot⟩
    have hmem' : t' ∈ db.transactionsOf r.2.slot :=
      List.mem_filter.mpr ⟨ht', decide_eq_true (hslot'.trans hslots.symm)⟩
    have hsame : t = t' := by
      refine List.inj_on_of_nodup_map (hidx r.2.slot) hmem hmem' ?_
      rw [htidx, htidx', hidxs]
    rw [← hts, ← hts', hsame]
  exact (GroupingComplete.of_contiguous hcontiguous).trades ord

/-- The rows of two transactions of slot 1, both without an index: an account of
the one lies between the accounts of the other, which is a swap. -/
def unindexedRows : List (Int × BalanceRow) :=
  [(1, ⟨"s1", "TOKEN", "0", "100000000", 6, 1, -1, 1000⟩),
   (2, ⟨"s2", "OTHER", "5", "5", 6, 1, -1, 1000⟩),
   (3, ⟨"s1", wsolMint, "2000000000", "1000000000", 9, 1, -1, 1000⟩)]

theorem unindexed_swap_dropped :
    QueryRows unindexedRows
      ∧ tradesFromRows .stored (unindexedRows.map (·.2)) = .ok []
      ∧ tradesPerSignature .stored (unindexedRows.map (·.2))
        = .ok [⟨"TOKEN", 1000, 1, -1, 1 / 100, 100⟩]
      ∧ ¬GroupingComplete (unindexedRows.map (·.2)) := by
  have hnone : tradesFromRows .stored (unindexedRows.map (·.2)) = .ok [] := by decide +kernel
  have hswap : tradesPerSignature .stored (unindexedRows.map (·.2))
      = .ok [⟨"TOKEN", 1000, 1, -1, 1 / 100, 100⟩] := by decide +kernel
  refine ⟨⟨by decide, by decide⟩, hnone, hswap, fun h => ?_⟩
  have htrades := h.trades .stored
  rw [hnone, hswap] at htrades
  cases htrades

end Astralane
