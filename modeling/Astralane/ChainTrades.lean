import Astralane.Bounds
import Astralane.ChainContention
import Astralane.TradeRule

/-!
# Trades and charts, from the chain to the API

The path of a range of blocks to `/api/ohlcv`, with no database left in the
statement. The join of `extract_trades` gives back the balances of each
transaction, together and in the order of the chain (`sortedBalanceRows_ingest`),
so its trades are those of the transactions one by one (`trades_of_chain`).

The builds upsert and delete nothing, but blocks are only ever added, and with
them trades: whatever an earlier build stored has a trade in its bucket ever
after, and the last build overwrites it (`charts_of_chain`).
-/

namespace Astralane

variable {json : StringListJson} {bs ws : List ParsedBlock}

/-! ## The chain's own balances -/

/-- A balance of a transaction as the query joins it, with its account index. -/
def TokenBalanceRow.joined (slot time : Int) (t : ParsedTransaction) (bal : TokenBalanceRow) :
    Int × BalanceRow :=
  (bal.accountIndex,
    { signature := t.signature
      mint := bal.mint
      preAmount := bal.preAmount
      postAmount := bal.postAmount
      decimals := bal.decimals
      slot
      txIndex := t.txIndex
      blockTime := time })

/-- The transactions of a block with a balance at all, each as the rows of its
balances; none of a block that was skipped or has no time. -/
def ParsedBlock.balanceGroups (b : ParsedBlock) : List (List (Int × BalanceRow)) :=
  match b.skipped, b.blockTime with
  | false, some time =>
      (b.transactions.filter fun t => t.tokenBalances ≠ []).map fun t =>
        t.tokenBalances.map (·.joined (asI64 b.slot) time t)
  | _, _ => []

/-- In the order of the chain: by slot, and within it by position. -/
def chainGroups (bs : List ParsedBlock) : List (List (Int × BalanceRow)) :=
  (sortByKey (fun b => asI64 b.slot) bs).flatMap (·.balanceGroups)

theorem mem_balanceGroups {b : ParsedBlock} {g : List (Int × BalanceRow)} :
    g ∈ b.balanceGroups ↔ b.skipped = false ∧ ∃ time, b.blockTime = some time
      ∧ ∃ t ∈ b.transactions, t.tokenBalances ≠ []
        ∧ g = t.tokenBalances.map (·.joined (asI64 b.slot) time t) := by
  unfold ParsedBlock.balanceGroups
  cases hskip : b.skipped with
  | true =>
      refine ⟨fun h => ?_, fun h => ?_⟩
      · cases h
      · cases h.1
  | false =>
      cases htime : b.blockTime with
      | none =>
          refine ⟨fun h => ?_, fun h => ?_⟩
          · cases h
          · obtain ⟨-, time, h, -⟩ := h
            cases h
      | some time =>
          simp only [List.mem_map, List.mem_filter, decide_eq_true_eq, true_and,
            Option.some.injEq, exists_eq_left']
          constructor
          · rintro ⟨t, ⟨ht, hne⟩, rfl⟩
            exact ⟨t, ht, hne, rfl⟩
          · rintro ⟨t, ht, hne, rfl⟩
            exact ⟨t, ⟨ht, hne⟩, rfl⟩

theorem mem_chainGroups {g : List (Int × BalanceRow)} :
    g ∈ chainGroups bs ↔ ∃ b ∈ bs, g ∈ b.balanceGroups := by
  simp only [chainGroups, List.mem_flatMap, mem_sortByKey]

theorem exists_of_mem_chainGroups {g : List (Int × BalanceRow)} (hg : g ∈ chainGroups bs) :
    ∃ b ∈ bs, ∃ time, b.skipped = false ∧ b.blockTime = some time
      ∧ ∃ t ∈ b.transactions, t.tokenBalances ≠ []
        ∧ g = t.tokenBalances.map (·.joined (asI64 b.slot) time t) := by
  obtain ⟨b, hb, hg⟩ := mem_chainGroups.mp hg
  obtain ⟨hskip, time, htime, t, ht, hne, hgroup⟩ := mem_balanceGroups.mp hg
  exact ⟨b, hb, time, hskip, htime, t, ht, hne, hgroup⟩

/-- The balances of the transactions, as `trade_from_group` gets them. -/
def chainRows (bs : List ParsedBlock) : List (List BalanceRow) :=
  (chainGroups bs).map fun g => g.map (·.2)

theorem exists_of_mem_chainRows {rows : List BalanceRow} (h : rows ∈ chainRows bs) :
    ∃ b ∈ bs, ∃ time, b.skipped = false ∧ b.blockTime = some time
      ∧ ∃ t ∈ b.transactions, t.tokenBalances ≠ []
        ∧ rows = t.tokenBalances.map fun bal => (bal.joined (asI64 b.slot) time t).2 := by
  obtain ⟨g, hg, rfl⟩ := List.mem_map.mp h
  obtain ⟨b, hb, time, hskip, htime, t, ht, hne, rfl⟩ := exists_of_mem_chainGroups hg
  exact ⟨b, hb, time, hskip, htime, t, ht, hne, List.map_map⟩

/-- A transaction's balances are parsed in the order of their accounts. -/
theorem parseOutcome_ascending {slot : UInt64} {o : BlockFetchOutcome} {b : ParsedBlock}
    (h : parseOutcome slot o = some b) {t : ParsedTransaction} (ht : t ∈ b.transactions) :
    t.tokenBalances.Pairwise fun a c => a.accountIndex < c.accountIndex := by
  cases o with
  | skipped =>
      obtain rfl := Option.some.inj h
      cases ht
  | failed msg => cases h
  | fetched v =>
      obtain ⟨_, txs, -, -, rfl⟩ := parseBlock_eq_some.mp h
      obtain ⟨⟨tx, i⟩, -, htx⟩ := List.mem_filterMap.mp ht
      obtain ⟨_, _, _, _, _, _, _, _, -, -, -, -, -, -, -, -, rfl⟩ :=
        parseTransaction_eq_some.mp htx
      exact parseTokenBalances_ascending _

theorem ChainBlocks.sublist {cs : List ParsedBlock} (h : ChainBlocks bs) (hsub : cs.Sublist bs) :
    ChainBlocks cs where
  slots := (hsub.map _).nodup h.slots
  signatures := h.signatures.sublist hsub
  within := fun b hb => h.within b (hsub.subset hb)
  accounts := fun b hb => h.accounts b (hsub.subset hb)

/-! ## What the query gives back -/

/-- The join repeats nothing: its conditions are on primary keys. -/
theorem balanceRows_nodup (db : Db) : db.balanceRows.Nodup := by
  refine List.pairwise_flatMap.mpr ⟨fun tb _ => ?_, ?_⟩
  · refine List.pairwise_flatMap.mpr ⟨fun t _ => ?_, ?_⟩
    · refine List.pairwise_filterMap.mpr ?_
      refine (db.blocks.rows_nodup.filter _).imp_of_mem fun {b b'} hb hb' hne => ?_
      rw [List.mem_filter, Bool.and_eq_true, decide_eq_true_eq, decide_eq_true_eq] at hb hb'
      exact absurd (db.blocks.eq_of_key_eq hb.1 hb'.1 (hb.2.1.trans hb'.2.1.symm)) hne
    · refine (db.transactions.rows_nodup.filter _).imp_of_mem fun {t t'} ht ht' hne => ?_
      rw [List.mem_filter, decide_eq_true_eq] at ht ht'
      exact absurd (db.transactions.eq_of_key_eq ht.1 ht'.1 (ht.2.trans ht'.2.symm)) hne
  · refine (List.pairwise_map.mp db.tokenBalances.nodup).imp fun {tb tb'} hne r hr r' hr' heq => ?_
    simp only [List.mem_flatMap, List.mem_filterMap, Option.map_eq_some_iff] at hr hr'
    obtain ⟨t, -, b, -, time, -, rfl⟩ := hr
    obtain ⟨t', -, b', -, time', -, rfl⟩ := hr'
    exact hne (Prod.ext (congrArg (·.2.signature) heq) (congrArg Prod.fst heq))

theorem balanceOrder_lt {r r' : Int × BalanceRow} (h : blockPosition r.2 < blockPosition r'.2) :
    balanceOrder r < balanceOrder r' := by
  simp only [blockPosition, Prod.Lex.toLex_lt_toLex] at h
  simp only [balanceOrder, Prod.Lex.toLex_lt_toLex]
  omega

section Ingested

variable (h : ChainBlocks bs) (hparsed : ∀ b ∈ bs, ∃ o, parseOutcome b.slot o = some b)
  (hws : ∀ b, b ∈ ws ↔ b ∈ bs)
include h hparsed hws

theorem mem_ingest_tokenBalances {r : TokenBalancesRow} :
    r ∈ (Db.empty.ingest json ws).tokenBalances.rows
      ↔ ∃ b ∈ bs, ∃ t ∈ b.transactions, ∃ bal ∈ t.tokenBalances,
          bal.tokenBalancesRow t.signature = r := by
  have hmem : ∀ {r}, r ∈ ws.flatMap (·.tokenBalancesRows)
      ↔ ∃ b ∈ bs, ∃ t ∈ b.transactions, ∃ bal ∈ t.tokenBalances,
          bal.tokenBalancesRow t.signature = r := by
    intro r
    simp only [ParsedBlock.tokenBalancesRows, List.mem_flatMap, List.mem_map, hws]
  refine (Keyed.mem_insertAll_of_consistent fun r hr s hs hkey => ?_).trans hmem
  obtain ⟨b, hb, t, ht, bal, hbal, rfl⟩ := hmem.mp hr
  obtain ⟨c, hc, u, hu, bal', hbal', rfl⟩ := hmem.mp hs
  obtain ⟨rfl, rfl⟩ := h.eq_of_txn_signature hb hc ht hu (congrArg Prod.fst hkey)
  obtain ⟨o, ho⟩ := hparsed b hb
  have hnodup : (t.tokenBalances.map (·.accountIndex)).Nodup :=
    List.pairwise_map.mpr ((parseOutcome_ascending ho ht).imp ne_of_lt)
  obtain rfl := List.inj_on_of_nodup_map hnodup hbal hbal' (congrArg Prod.snd hkey)
  rfl

/-- The join finds each balance its own transaction and block. -/
theorem mem_balanceRows_ingest {row : Int × BalanceRow} :
    row ∈ (Db.empty.ingest json ws).balanceRows ↔ row ∈ (chainGroups bs).flatten := by
  rw [List.mem_flatten]
  simp only [Db.balanceRows, List.mem_flatMap, List.mem_filterMap, List.mem_filter,
    Bool.and_eq_true, decide_eq_true_eq, Option.map_eq_some_iff]
  constructor
  · rintro ⟨tb, htb, t, ⟨ht, hsig⟩, b, ⟨hb, hslot, hskip⟩, time, htime, rfl⟩
    obtain ⟨c, hc, u, hu, bal, hbal, rfl⟩ := (mem_ingest_tokenBalances h hparsed hws).mp htb
    obtain ⟨c', hc', u', hu', rfl⟩ :=
      (mem_ingest_transactions h fun b => (hws b).mp).mp ht
    obtain ⟨rfl, rfl⟩ := h.eq_of_txn_signature ((hws c').mp hc') hc hu' hu hsig
    obtain ⟨d, hd, rfl⟩ := (mem_ingest_blocks h hws).mp hb
    obtain rfl := h.eq_of_slot hd hc (asI64_inj.mp hslot)
    refine ⟨_, mem_chainGroups.mpr ⟨d, hd, mem_balanceGroups.mpr
      ⟨?_, time, htime, u', hu, List.ne_nil_of_mem hbal, rfl⟩⟩, List.mem_map_of_mem hbal⟩
    cases hs : d.skipped with
    | false => rfl
    | true =>
        rw [ParsedBlock.blocksRow, hs] at hskip
        cases hskip
  · rintro ⟨g, hg, hrow⟩
    obtain ⟨b, hb, time, hskip, htime, t, ht, -, rfl⟩ := exists_of_mem_chainGroups hg
    obtain ⟨bal, hbal, rfl⟩ := List.mem_map.mp hrow
    refine ⟨bal.tokenBalancesRow t.signature,
      (mem_ingest_tokenBalances h hparsed hws).mpr ⟨b, hb, t, ht, bal, hbal, rfl⟩,
      t.transactionsRow json (asI64 b.slot),
      ⟨(mem_ingest_transactions h fun b => (hws b).mp).mpr ⟨b, (hws b).mpr hb, t, ht, rfl⟩, rfl⟩,
      b.blocksRow, ⟨(mem_ingest_blocks h hws).mpr ⟨b, hb, rfl⟩, rfl, ?_⟩, time, htime, rfl⟩
    rw [ParsedBlock.blocksRow, hskip]
    rfl

omit hws in
/-- Later in the chain, at a later position. -/
theorem chainGroups_strict : (chainGroups bs).Pairwise fun g g' =>
    ∀ r ∈ g, ∀ r' ∈ g', blockPosition r.2 < blockPosition r'.2 := by
  refine List.pairwise_flatMap.mpr ⟨fun b hb => ?_, ?_⟩
  · obtain ⟨o, ho⟩ := hparsed b (mem_sortByKey.mp hb)
    unfold ParsedBlock.balanceGroups
    cases b.skipped with
    | true => exact List.Pairwise.nil
    | false =>
        cases b.blockTime with
        | none => exact List.Pairwise.nil
        | some time =>
            refine List.pairwise_map.mpr (((parseOutcome_sorted ho).filter _).imp ?_)
            intro t u htu r hr r' hr'
            obtain ⟨bal, -, rfl⟩ := List.mem_map.mp hr
            obtain ⟨bal', -, rfl⟩ := List.mem_map.mp hr'
            exact Prod.Lex.toLex_lt_toLex.mpr (Or.inr ⟨rfl, htu⟩)
  · have hnodup : (bs.map fun b => asI64 b.slot).Nodup := by
      have hpair := List.pairwise_map.mp h.slots
      exact List.pairwise_map.mpr (hpair.imp fun hne heq => hne (asI64_inj.mp heq))
    refine (sortByKey_strict hnodup).imp fun {b c} hbc g hg g' hg' r hr r' hr' => ?_
    obtain ⟨-, time, -, t, -, -, rfl⟩ := mem_balanceGroups.mp hg
    obtain ⟨-, time', -, t', -, -, rfl⟩ := mem_balanceGroups.mp hg'
    obtain ⟨bal, -, rfl⟩ := List.mem_map.mp hr
    obtain ⟨bal', -, rfl⟩ := List.mem_map.mp hr'
    exact Prod.Lex.toLex_lt_toLex.mpr (Or.inl hbc)

omit hws in
theorem chainGroups_sorted :
    (chainGroups bs).flatten.Pairwise fun r r' => balanceOrder r < balanceOrder r' := by
  refine List.pairwise_flatten.mpr ⟨fun g hg => ?_, ?_⟩
  · obtain ⟨b, hb, time, -, -, t, ht, -, rfl⟩ := exists_of_mem_chainGroups hg
    obtain ⟨o, ho⟩ := hparsed b hb
    refine List.pairwise_map.mpr ((parseOutcome_ascending ho ht).imp fun {bal bal'} hlt => ?_)
    refine Prod.Lex.toLex_lt_toLex.mpr (Or.inr ⟨rfl, ?_⟩)
    exact Prod.Lex.toLex_lt_toLex.mpr (Or.inr ⟨rfl, hlt⟩)
  · refine (chainGroups_strict h hparsed).imp fun hlt r hr r' hr' => ?_
    exact balanceOrder_lt (hlt r hr r' hr')

/-- The rows in the order of the query are the balances in the order of the chain. -/
theorem sortedBalanceRows_ingest (ord : TradeOrder) :
    (Db.empty.ingest json ws).sortedBalanceRows ord = (chainGroups bs).flatten := by
  have hstrict := chainGroups_sorted h hparsed
  refine sortByKey_eq_of_strict ((ord.rows.perm _).trans ?_) hstrict
  refine (List.perm_ext_iff_of_nodup (balanceRows_nodup _) ?_).mpr fun row =>
    mem_balanceRows_ingest h hparsed hws
  exact hstrict.imp fun hlt => ne_of_apply_ne balanceOrder hlt.ne

omit hws in
theorem chainRows_strict : (chainRows bs).Pairwise fun rows rows' =>
    ∀ r ∈ rows, ∀ r' ∈ rows', blockPosition r < blockPosition r' := by
  refine List.pairwise_map.mpr ((chainGroups_strict h hparsed).imp fun hlt => ?_)
  simp only [List.forall_mem_map]
  exact hlt

omit hws in
/-- Cut where the signature changes, the rows come apart into the transactions. -/
theorem runs_chainRows : runs BalanceRow.signature (chainRows bs).flatten = chainRows bs := by
  refine runs_flatten (fun rows hrows => ?_) (fun rows hrows r hr r' hr' => ?_) ?_
  · obtain ⟨_, _, _, _, _, _, _, hne, rfl⟩ := exists_of_mem_chainRows hrows
    exact fun hnil => hne (List.map_eq_nil_iff.mp hnil)
  · obtain ⟨b, hb, time, -, -, t, ht, -, rfl⟩ := exists_of_mem_chainRows hrows
    obtain ⟨bal, -, rfl⟩ := List.mem_map.mp hr
    obtain ⟨bal', -, rfl⟩ := List.mem_map.mp hr'
    rfl
  · refine (chainRows_strict h hparsed).imp_of_mem fun hrows hrows' hlt r hr r' hr' hsig => ?_
    have hpos := hlt r hr r' hr'
    obtain ⟨b, hb, time, -, -, t, ht, -, rfl⟩ := exists_of_mem_chainRows hrows
    obtain ⟨c, hc, time', -, -, u, hu, -, rfl⟩ := exists_of_mem_chainRows hrows'
    obtain ⟨bal, -, rfl⟩ := List.mem_map.mp hr
    obtain ⟨bal', -, rfl⟩ := List.mem_map.mp hr'
    obtain ⟨rfl, rfl⟩ := h.eq_of_txn_signature hb hc ht hu hsig
    exact lt_irrefl _ hpos

/-- The extraction evaluates the transactions one by one, each on its own rows. -/
theorem extractTrades_ingest (ord : TradeOrder) :
    extractTrades ord (Db.empty.ingest json ws)
      = ((chainRows bs).mapM fun rows => tradeFromGroup (ord.perMint rows) rows).map
          List.reduceOption := by
  have hrows : ((Db.empty.ingest json ws).sortedBalanceRows ord).map (·.2)
      = (chainRows bs).flatten := by
    rw [sortedBalanceRows_ingest h hparsed hws ord, chainRows, List.map_flatten]
  rw [extractTrades, ← Db.sortedBalanceRows, hrows, tradesFromRows,
    signatureRuns_eq (Nat.le_refl _), runs_chainRows h hparsed]
  cases (chainRows bs).mapM fun rows => tradeFromGroup (ord.perMint rows) rows with
  | error e => rfl
  | ok trades => rfl

end Ingested

/-! ## The trades -/

/-- The trade of each transaction that has one, in the order of the transactions. -/
inductive TradesOf : List (List BalanceRow) → List Trade → Prop where
  | nil : TradesOf [] []
  | trade {rows : List BalanceRow} {groups : List (List BalanceRow)} {t : Trade}
      {trades : List Trade} (ht : TradeOf rows t) (hrest : TradesOf groups trades) :
      TradesOf (rows :: groups) (t :: trades)
  | none {rows : List BalanceRow} {groups : List (List BalanceRow)} {trades : List Trade}
      (hnone : ∀ t, ¬TradeOf rows t) (hrest : TradesOf groups trades) :
      TradesOf (rows :: groups) trades

namespace TradesOf

variable {groups : List (List BalanceRow)} {trades : List Trade}

theorem mem_iff (h : TradesOf groups trades) {t : Trade} :
    t ∈ trades ↔ ∃ rows ∈ groups, TradeOf rows t := by
  induction h with
  | nil => simp
  | trade ht _ ih =>
      rw [List.mem_cons, ih, List.exists_mem_cons_iff]
      refine or_congr ⟨fun heq => heq ▸ ht, fun hu => hu.unique ht⟩ Iff.rfl
  | none hnone _ ih =>
      rw [ih, List.exists_mem_cons_iff]
      exact ⟨Or.inr, fun hu => hu.resolve_left (hnone t)⟩

/-- Trades are as ordered as the rows they come from. -/
theorem ascending (h : TradesOf groups trades) (hne : ∀ rows ∈ groups, rows ≠ [])
    (hstrict : groups.Pairwise fun rows rows' =>
      ∀ r ∈ rows, ∀ r' ∈ rows', blockPosition r < blockPosition r') :
    trades.Pairwise fun t u => t.position < u.position := by
  induction h with
  | nil => exact List.Pairwise.nil
  | trade ht hrest ih =>
      obtain ⟨hfirst, hlater⟩ := List.pairwise_cons.mp hstrict
      refine List.pairwise_cons.mpr
        ⟨fun u hu => ?_, ih (fun rows hrows => hne rows (List.mem_cons_of_mem _ hrows)) hlater⟩
      obtain ⟨rows', hrows', hof⟩ := hrest.mem_iff.mp hu
      obtain ⟨r, hr⟩ := List.exists_mem_of_ne_nil _ (hne _ List.mem_cons_self)
      obtain ⟨r', hr'⟩ := List.exists_mem_of_ne_nil _ (hne _ (List.mem_cons_of_mem _ hrows'))
      obtain ⟨hslot, hidx, -⟩ := ht.position r hr
      obtain ⟨hslot', hidx', -⟩ := hof.position r' hr'
      rw [Trade.position, Trade.position, hslot, hidx, hslot', hidx']
      exact hfirst rows' hrows' r hr r' hr'
  | none _ _ ih =>
      exact ih (fun rows hrows => hne rows (List.mem_cons_of_mem _ hrows))
        (List.pairwise_cons.mp hstrict).2

theorem unique {trades' : List Trade} (h : TradesOf groups trades)
    (h' : TradesOf groups trades') : trades = trades' := by
  induction h generalizing trades' with
  | nil =>
      cases h'
      rfl
  | trade ht _ ih =>
      cases h' with
      | trade ht' hrest' => rw [ht.unique ht', ih hrest']
      | none hnone' _ => exact absurd ht (hnone' _)
  | none hnone _ ih =>
      cases h' with
      | trade ht' _ => exact absurd ht' (hnone _)
      | none _ hrest' => exact ih hrest'

theorem of_forall₂ {results : List (Option Trade)}
    (h : List.Forall₂ (fun rows result => ∀ t, result = some t ↔ TradeOf rows t) groups results) :
    TradesOf groups results.reduceOption := by
  induction h with
  | nil => exact .nil
  | @cons rows result groups results hresult _ ih =>
      cases result with
      | none =>
          refine .none (fun t ht => ?_) ih
          have hsome := (hresult t).mpr ht
          cases hsome
      | some t => exact .trade ((hresult t).mp rfl) ih

end TradesOf

/-- The loop over the transactions, when each is one the rule applies to. -/
theorem tradesOf_mapM (ord : List BalanceRow → IterOrder (String × Int × Int))
    {groups : List (List BalanceRow)} (h : ∀ rows ∈ groups, TransactionRows rows) :
    ∃ trades, (groups.mapM fun rows => tradeFromGroup (ord rows) rows).map List.reduceOption
        = .ok trades ∧ TradesOf groups trades := by
  obtain ⟨results, hok, hresults⟩ :=
    mapM_ok fun rows hrows => tradeFromGroup_eq (h rows hrows) (ord rows)
  exact ⟨_, congrArg (Except.map List.reduceOption) hok, .of_forall₂ hresults⟩

/-- Balances as the chain has them: amounts of 64 bits, written in decimal, of mints
that fit the arithmetic and have one number of decimals. -/
structure ParsedTransaction.TokenAmounts (t : ParsedTransaction) : Prop where
  amounts : ∀ bal ∈ t.tokenBalances, IsU64 bal.preAmount ∧ IsU64 bal.postAmount
  fits : t.tokenBalances.length < 2 ^ 63
  decimals_range : ∀ bal ∈ t.tokenBalances, 0 ≤ bal.decimals ∧ bal.decimals ≤ 32
  decimals_eq : ∀ bal ∈ t.tokenBalances, ∀ bal' ∈ t.tokenBalances, bal.mint = bal'.mint →
    bal.decimals = bal'.decimals

theorem transactionRows_of_mem (hamounts : ∀ b ∈ bs, ∀ t ∈ b.transactions, t.TokenAmounts)
    {rows : List BalanceRow} (hrows : rows ∈ chainRows bs) : TransactionRows rows := by
  obtain ⟨b, hb, time, -, -, t, ht, hne, rfl⟩ := exists_of_mem_chainRows hrows
  have ha := hamounts b hb t ht
  constructor
  · exact fun hnil => hne (List.map_eq_nil_iff.mp hnil)
  · exact List.forall_mem_map.mpr ha.amounts
  · rw [List.length_map]
    exact ha.fits
  · exact List.forall_mem_map.mpr ha.decimals_range
  · simp only [List.forall_mem_map]
    exact ha.decimals_eq
  · simp only [List.forall_mem_map]
    exact fun _ _ _ _ => ⟨rfl, rfl, rfl⟩

theorem TradesOf.chain_ascending {trades : List Trade} (htrades : TradesOf (chainRows bs) trades)
    (h : ChainBlocks bs) (hparsed : ∀ b ∈ bs, ∃ o, parseOutcome b.slot o = some b) :
    trades.Pairwise fun t u => t.position < u.position := by
  refine htrades.ascending (fun rows hrows => ?_) (chainRows_strict h hparsed)
  obtain ⟨_, _, _, _, _, _, _, hne, rfl⟩ := exists_of_mem_chainRows hrows
  exact fun hnil => hne (List.map_eq_nil_iff.mp hnil)

theorem TradesOf.prices {groups : List (List BalanceRow)} {trades : List Trade}
    (htrades : TradesOf groups trades) (h : ∀ rows ∈ groups, TransactionRows rows) :
    ∀ t ∈ trades, 0 < t.price ∧ t.price < f64Max := by
  intro t ht
  obtain ⟨rows, hrows, hof⟩ := htrades.mem_iff.mp ht
  obtain ⟨result, hok, hresult⟩ := tradeFromGroup_eq (h rows hrows) .stored
  obtain rfl := (hresult t).mpr hof
  exact ⟨(tradeFromGroup_bounds hok).price_pos, (tradeFromGroup_bounds hok).price_lt⟩

/-- In whatever order and number the blocks were written, and whatever orders SQLite
and the hash maps choose: the trades extracted are those of the transactions, one
by one and in the order of the chain. -/
theorem trades_of_chain (json : StringListJson) (h : ChainBlocks bs)
    (hparsed : ∀ b ∈ bs, ∃ o, parseOutcome b.slot o = some b)
    (hamounts : ∀ b ∈ bs, ∀ t ∈ b.transactions, t.TokenAmounts) :
    ∃ trades, TradesOf (chainRows bs) trades
      ∧ (trades.Pairwise fun t u => t.position < u.position)
      ∧ ∀ ws : List ParsedBlock, (∀ b, b ∈ ws ↔ b ∈ bs) → ∀ ord,
          extractTrades ord (runBlocking json Db.empty ws) = .ok trades := by
  have hrows : ∀ rows ∈ chainRows bs, TransactionRows rows :=
    fun _ => transactionRows_of_mem hamounts
  obtain ⟨trades, -, htrades⟩ := tradesOf_mapM (fun _ => .stored) hrows
  refine ⟨trades, htrades, htrades.chain_ascending h hparsed, fun ws hws ord => ?_⟩
  obtain ⟨trades', hok, htrades'⟩ := tradesOf_mapM ord.perMint hrows
  rw [runBlocking_eq, extractTrades_ingest h hparsed hws, hok, htrades'.unique htrades]

/-! ## Charts -/

/-- A candle of trades given in their order: of the first and last price, of prices
that bound all others and occur, and of the whole volume. -/
structure CandleRowOf (group : List Trade) (r : CandleRow) : Prop where
  opening : group.head?.map (·.price) = some r.opening
  close : group.getLast?.map (·.price) = some r.close
  high : (∃ t ∈ group, r.high = t.price) ∧ ∀ t ∈ group, t.price ≤ r.high
  low : (∃ t ∈ group, r.low = t.price) ∧ ∀ t ∈ group, r.low ≤ t.price
  volume : r.volume = (group.map (·.volume)).sum

/-- One candle for each bucket with a trade of the mint, in the order of time. -/
structure ChartOf (trades : List Trade) (mint : String) (interval : Interval)
    (rows : List CandleRow) : Prop where
  ascending : rows.Pairwise fun r r' => r.bucketStart < r'.bucketStart
  listed : ∀ start, start ∈ rows.map (·.bucketStart)
    ↔ ∃ t ∈ trades, t.bucketKey interval.seconds = (mint, start)
  candle : ∀ r ∈ rows, CandleRowOf (bucketTrades interval.seconds trades mint r.bucketStart) r

theorem CandleOf.candleRowOf {group : List Trade} {c : Candle} (h : CandleOf group c)
    (hsorted : group.Pairwise fun t u => t.position < u.position)
    (hprices : ∀ t ∈ group, 0 < t.price ∧ t.price < f64Max) :
    CandleRowOf group c.row.candleRow := by
  have hle : group.Pairwise fun t u => t.position ≤ u.position := hsorted.imp le_of_lt
  have hmax : (0 : Rat) < f64Max := by
    obtain ⟨t, ht⟩ := List.exists_mem_of_ne_nil _ h.ne_nil
    exact (hprices t ht).1.trans (hprices t ht).2
  obtain ⟨first, hfirst, hopen⟩ := h.opening
  obtain ⟨last, hlast, hclose⟩ := h.close
  constructor
  · rw [hfirst.head?_of_sorted hle]
    exact congrArg some hopen.symm
  · rw [hlast.getLast?_of_sorted hle]
    exact congrArg some hclose.symm
  · exact h.high_bounds fun t ht => (neg_neg_of_pos hmax).le.trans (hprices t ht).1.le
  · exact h.low_bounds fun t ht => (hprices t ht).2.le
  · exact h.volume

/-- The candle table is that of `trades`, in both intervals. -/
def CandleTable (trades : List Trade) (t : Keyed OhlcvCandlesRow.key) : Prop :=
  ∃ oneMin fiveMin, CandlesOf 60 .oneMin trades oneMin ∧ CandlesOf 300 .fiveMin trades fiveMin
    ∧ t.rows.Perm ((oneMin ++ fiveMin).map Candle.row)

namespace CandleTable

variable {trades : List Trade} {t : Keyed OhlcvCandlesRow.key}

theorem mem_keys_iff (h : CandleTable trades t) (mint : String) (interval : Interval)
    (start : Int) : (mint, interval, start) ∈ t.rows.map OhlcvCandlesRow.key
      ↔ ∃ t ∈ trades, t.bucketKey interval.seconds = (mint, start) := by
  obtain ⟨oneMin, fiveMin, hone, hfive, hperm⟩ := h
  rw [(hperm.map _).mem_iff]
  exact mem_candleRows_keys hone hfive ⟨mint, interval, start, 0, 0, 0, 0, 0⟩

theorem candleRowOf (h : CandleTable trades t)
    (hsorted : trades.Pairwise fun t u => t.position < u.position)
    (hprices : ∀ t ∈ trades, 0 < t.price ∧ t.price < f64Max) {r : OhlcvCandlesRow}
    (hr : r ∈ t.rows) :
    CandleRowOf (bucketTrades r.interval.seconds trades r.mint r.bucketStart) r.candleRow := by
  obtain ⟨oneMin, fiveMin, hone, hfive, hperm⟩ := h
  obtain ⟨c, hc, rfl⟩ := List.mem_map.mp (hperm.mem_iff.mp hr)
  have hof : CandleOf (bucketTrades c.interval.seconds trades c.mint c.bucketStart) c := by
    rcases interval_of_mem hone hfive hc with ⟨hc, hi⟩ | ⟨hc, hi⟩
    · rw [hi]
      exact hone.candle c hc
    · rw [hi]
      exact hfive.candle c hc
  exact hof.candleRowOf (hsorted.filter _) fun t ht => hprices t (mem_bucketTrades.mp ht).1

/-- What is served of such a table. -/
theorem chart {db : Db} (h : CandleTable trades db.ohlcvCandles)
    (hsorted : trades.Pairwise fun t u => t.position < u.position)
    (hprices : ∀ t ∈ trades, 0 < t.price ∧ t.price < f64Max) (mint : String)
    (interval : Interval) :
    ∃ rows, getOhlcv db mint interval.text = .ok rows ∧ ChartOf trades mint interval rows := by
  refine ⟨_, getOhlcv_text db mint interval, ?_, fun start => ?_, fun row hrow => ?_⟩
  · exact List.pairwise_map.mpr (candlesOf_ascending db mint interval)
  · rw [← h.mem_keys_iff mint interval start, List.map_map, List.mem_map, List.mem_map]
    constructor
    · rintro ⟨r, hr, rfl⟩
      obtain ⟨hmem, rfl, rfl⟩ := mem_candlesOf.mp (mem_sortByKey.mp hr)
      exact ⟨r, hmem, rfl⟩
    · rintro ⟨r, hr, hkey⟩
      cases hkey
      exact ⟨r, mem_sortByKey.mpr (mem_candlesOf.mpr ⟨hr, rfl, rfl⟩), rfl⟩
  · obtain ⟨r, hr, rfl⟩ := List.mem_map.mp hrow
    obtain ⟨hmem, rfl, rfl⟩ := mem_candlesOf.mp (mem_sortByKey.mp hr)
    exact h.candleRowOf hsorted hprices hmem

end CandleTable

/-! ## Ingestion and builds by turns -/

/-- In each round some blocks are written, and the candles are built. -/
def ingestAndBuild (json : StringListJson) :
    Db → List (List ParsedBlock × BuildOrder) → Except Panic Db
  | db, [] => .ok db
  | db, (ws, ord) :: rounds => do
      let (db, _) ← buildAndStoreCandles ord (runBlocking json db ws)
      ingestAndBuild json db rounds

/-- Every candle has a trade of the blocks `bs` in its bucket. -/
def BackedBy (bs : List ParsedBlock) (t : Keyed OhlcvCandlesRow.key) : Prop :=
  ∀ r ∈ t.rows, ∃ rows ∈ chainRows bs, ∃ t, TradeOf rows t
    ∧ t.bucketKey r.interval.seconds = (r.mint, r.bucketStart)

theorem chainRows_mono {cs : List ParsedBlock} (hcs : ∀ b ∈ cs, b ∈ bs)
    {rows : List BalanceRow} (h : rows ∈ chainRows cs) : rows ∈ chainRows bs := by
  obtain ⟨g, hg, rfl⟩ := List.mem_map.mp h
  obtain ⟨b, hb, hg⟩ := mem_chainGroups.mp hg
  exact List.mem_map_of_mem (mem_chainGroups.mpr ⟨b, hcs b hb, hg⟩)

theorem BackedBy.mono {cs : List ParsedBlock} {t : Keyed OhlcvCandlesRow.key}
    (h : BackedBy cs t) (hcs : ∀ b ∈ cs, b ∈ bs) : BackedBy bs t := by
  intro r hr
  obtain ⟨rows, hrows, u, hof, hkey⟩ := h r hr
  exact ⟨rows, chainRows_mono hcs hrows, u, hof, hkey⟩

theorem CandleTable.backedBy {trades : List Trade} {t : Keyed OhlcvCandlesRow.key}
    (h : CandleTable trades t) (htrades : TradesOf (chainRows bs) trades) : BackedBy bs t := by
  intro r hr
  obtain ⟨u, hu, hkey⟩ :=
    (h.mem_keys_iff r.mint r.interval r.bucketStart).mp (List.mem_map_of_mem hr)
  obtain ⟨rows, hrows, hof⟩ := htrades.mem_iff.mp hu
  exact ⟨rows, hrows, u, hof, hkey⟩

/-- The database of a chain: the rows of its blocks, and a candle table. -/
def ingestedWith (json : StringListJson) (ws : List ParsedBlock)
    (t : Keyed OhlcvCandlesRow.key) : Db :=
  { Db.empty.ingest json ws with ohlcvCandles := t }

theorem runBlocking_ingestedWith (ws vs : List ParsedBlock) (t : Keyed OhlcvCandlesRow.key) :
    runBlocking json (ingestedWith json ws t) vs = ingestedWith json (ws ++ vs) t := by
  rw [runBlocking_eq, ingestedWith, ingestedWith, Db.ingest_append]
  rfl

section Rounds

variable (h : ChainBlocks bs) (hparsed : ∀ b ∈ bs, ∃ o, parseOutcome b.slot o = some b)
  (hamounts : ∀ b ∈ bs, ∀ t ∈ b.transactions, t.TokenAmounts)
include h hparsed hamounts

/-- A build over candles that all have a trade in their bucket leaves none of them. -/
theorem buildAndStoreCandles_ingestedWith (json : StringListJson) (hws : ∀ b, b ∈ ws ↔ b ∈ bs)
    {t : Keyed OhlcvCandlesRow.key} (hbacked : BackedBy bs t) (ord : BuildOrder) :
    ∃ trades t' total, TradesOf (chainRows bs) trades ∧ CandleTable trades t'
      ∧ buildAndStoreCandles ord (ingestedWith json ws t)
        = .ok (ingestedWith json ws t', total) := by
  obtain ⟨trades, hok, htrades⟩ :=
    tradesOf_mapM ord.trades.perMint fun _ => transactionRows_of_mem hamounts
  have hextract : extractTrades ord.trades (ingestedWith json ws t) = .ok trades :=
    (extractTrades_ingest h hparsed hws ord.trades).trans hok
  obtain ⟨oneMin, hone, hones⟩ := buildCandles_spec ord.oneMin trades .oneMin 60
  obtain ⟨fiveMin, hfive, hfives⟩ := buildCandles_spec ord.fiveMin trades .fiveMin 300
  refine ⟨trades, t.replaceAll ((oneMin ++ fiveMin).map Candle.row),
    oneMin.length + fiveMin.length, htrades, ⟨oneMin, fiveMin, hones, hfives, ?_⟩, ?_⟩
  · refine (Keyed.replaceAll_perm_iff t (candleRows_nodup hones hfives)).mpr fun r hr => ?_
    obtain ⟨rows, hrows, u, hof, hkey⟩ := hbacked r hr
    exact (mem_candleRows_keys hones hfives r).mpr ⟨u, htrades.mem_iff.mpr ⟨rows, hrows, hof⟩, hkey⟩
  · rw [buildAndStoreCandles, hextract, Except.ok_bind, hone, Except.ok_bind, hfive]
    rfl

/-- The rounds from some point on: `vs` was written before, and the candles in the
table go back to it. -/
theorem ingestAndBuild_ingestedWith (json : StringListJson)
    {rounds : List (List ParsedBlock × BuildOrder)}
    (hne : rounds ≠ []) {vs : List ParsedBlock} {t : Keyed OhlcvCandlesRow.key}
    (hall : ∀ b, b ∈ vs ++ rounds.flatMap (·.1) ↔ b ∈ bs)
    (hbacked : BackedBy (bs.filter fun b => b ∈ vs) t) :
    ∃ trades t', TradesOf (chainRows bs) trades ∧ CandleTable trades t'
      ∧ ingestAndBuild json (ingestedWith json vs t) rounds
        = .ok (ingestedWith json (vs ++ rounds.flatMap (·.1)) t') := by
  induction rounds generalizing vs t with
  | nil => exact absurd rfl hne
  | cons round rounds ih =>
      obtain ⟨ws, ord⟩ := round
      rw [List.flatMap_cons, ← List.append_assoc] at hall ⊢
      have hwritten : ∀ b, b ∈ vs ++ ws ↔ b ∈ bs.filter fun b => b ∈ vs ++ ws := by
        intro b
        rw [List.mem_filter, decide_eq_true_eq]
        exact ⟨fun hb => ⟨(hall b).mp (List.mem_append_left _ hb), hb⟩, And.right⟩
      have hmore : ∀ b ∈ bs.filter (fun b => b ∈ vs), b ∈ bs.filter fun b => b ∈ vs ++ ws := by
        intro b hb
        refine (hwritten b).mp (List.mem_append_left ws ?_)
        exact of_decide_eq_true (List.mem_filter.mp hb).2
      obtain ⟨trades, t', total, htrades, htable, hbuild⟩ :=
        buildAndStoreCandles_ingestedWith (h.sublist List.filter_sublist)
          (fun b hb => hparsed b (List.mem_filter.mp hb).1)
          (fun b hb => hamounts b (List.mem_filter.mp hb).1) json hwritten (hbacked.mono hmore) ord
      rw [ingestAndBuild, runBlocking_ingestedWith, hbuild, Except.ok_bind]
      cases rounds with
      | nil =>
          have hwhole : bs.filter (fun b => b ∈ vs ++ ws) = bs := by
            refine List.filter_eq_self.mpr fun b hb => decide_eq_true ?_
            simpa using (hall b).mpr hb
          rw [hwhole] at htrades
          refine ⟨trades, t', htrades, htable, ?_⟩
          rw [List.flatMap_nil, List.append_nil]
          rfl
      | cons round rounds =>
          exact ih (List.cons_ne_nil _ _) hall (htable.backedBy htrades)

/-- Blocks may arrive in any number of batches, in any order and more than once, with
a build after each: after the last one every chart is that of the trades of all the
blocks, as if there had been one build. -/
theorem charts_of_chain (json : StringListJson) :
    ∃ trades, TradesOf (chainRows bs) trades
      ∧ ∀ rounds : List (List ParsedBlock × BuildOrder), rounds ≠ [] →
        (∀ b, b ∈ rounds.flatMap (·.1) ↔ b ∈ bs) →
        ∃ db, ingestAndBuild json Db.empty rounds = .ok db
          ∧ ∀ mint interval, ∃ rows, getOhlcv db mint interval.text = .ok rows
            ∧ ChartOf trades mint interval rows := by
  have hrows : ∀ rows ∈ chainRows bs, TransactionRows rows :=
    fun _ => transactionRows_of_mem hamounts
  obtain ⟨trades, -, htrades⟩ := tradesOf_mapM (fun _ => .stored) hrows
  refine ⟨trades, htrades, fun rounds hne hall => ?_⟩
  have hall' : ∀ b, b ∈ ([] : List ParsedBlock) ++ rounds.flatMap (·.1) ↔ b ∈ bs := hall
  have hempty : BackedBy (bs.filter fun b => b ∈ ([] : List ParsedBlock)) Keyed.empty := by
    intro r hr
    cases hr
  obtain ⟨trades', t', htrades', htable, hrun⟩ :=
    ingestAndBuild_ingestedWith h hparsed hamounts json hne hall' hempty
  obtain rfl := htrades.unique htrades'
  exact ⟨_, hrun, htable.chart (htrades.chain_ascending h hparsed) (htrades.prices hrows)⟩

end Rounds

/-! ## Two swaps of a token -/

def rawSwapBlock (signature : String) (time : Int) : Json :=
  .obj
    [("blockhash", .str "h"), ("blockTime", .num (.int time)),
     ("transactions", .arr [rawTransaction signature [] [] swapBalances])]

def swapTransaction (signature : String) : ParsedTransaction :=
  ⟨signature, 0, true, 5000, [], [], swapBalances⟩

def swapBlockAt (slot : UInt64) (signature : String) (time : Int) : ParsedBlock :=
  ⟨slot, some "h", some time, false, [swapTransaction signature]⟩

theorem swapBlocks_chain :
    ChainBlocks [swapBlockAt 6 "s6" 1010, swapBlockAt 5 "s5" 1000] :=
  ⟨⟨by decide, by decide⟩, by decide, by decide⟩

theorem swapBlocks_parsed : ∀ b ∈ [swapBlockAt 6 "s6" 1010, swapBlockAt 5 "s5" 1000],
    ∃ o, parseOutcome b.slot o = some b := by
  intro b hb
  rcases List.mem_cons.mp hb with rfl | hb
  · exact ⟨.fetched (rawSwapBlock "s6" 1010), by decide +kernel⟩
  · obtain rfl := List.mem_singleton.mp hb
    exact ⟨.fetched (rawSwapBlock "s5" 1000), by decide +kernel⟩

theorem tokenAmounts_of_swap {t : ParsedTransaction} (ht : t.tokenBalances = swapBalances) :
    t.TokenAmounts := by
  constructor
  all_goals rw [ht]
  · intro bal hbal
    rcases List.mem_cons.mp hbal with rfl | hbal
    · exact ⟨⟨0, by omega, by decide⟩, ⟨100000001, by omega, by decide⟩⟩
    · obtain rfl := List.mem_singleton.mp hbal
      exact ⟨⟨2000000000, by omega, by decide⟩, ⟨1000000000, by omega, by decide⟩⟩
  · show 2 < 2 ^ 63
    omega
  · decide
  · decide

theorem swapBlocks_amounts : ∀ b ∈ [swapBlockAt 6 "s6" 1010, swapBlockAt 5 "s5" 1000],
    ∀ t ∈ b.transactions, t.TokenAmounts := by
  intro b hb t ht
  rcases List.mem_cons.mp hb with rfl | hb
  · obtain rfl := List.mem_singleton.mp ht
    exact tokenAmounts_of_swap rfl
  · obtain rfl := List.mem_singleton.mp hb
    obtain rfl := List.mem_singleton.mp ht
    exact tokenAmounts_of_swap rfl

/-- The later block comes first, and then both. -/
theorem trades_of_chain_swaps :
    ∃ trades, TradesOf (chainRows [swapBlockAt 6 "s6" 1010, swapBlockAt 5 "s5" 1000]) trades
      ∧ extractTrades .stored (runBlocking .escapeFree Db.empty
          [swapBlockAt 6 "s6" 1010, swapBlockAt 5 "s5" 1000]) = .ok trades := by
  obtain ⟨trades, htrades, -, hextract⟩ :=
    trades_of_chain .escapeFree swapBlocks_chain swapBlocks_parsed swapBlocks_amounts
  exact ⟨trades, htrades, hextract _ (fun _ => Iff.rfl) .stored⟩

theorem charts_of_chain_swaps :
    ∃ trades, TradesOf (chainRows [swapBlockAt 6 "s6" 1010, swapBlockAt 5 "s5" 1000]) trades
      ∧ ∃ db, ingestAndBuild .escapeFree Db.empty
          [([swapBlockAt 6 "s6" 1010], .stored),
           ([swapBlockAt 5 "s5" 1000, swapBlockAt 6 "s6" 1010], .stored)] = .ok db
        ∧ ∀ mint interval, ∃ rows, getOhlcv db mint interval.text = .ok rows
          ∧ ChartOf trades mint interval rows := by
  obtain ⟨trades, htrades, hcharts⟩ :=
    charts_of_chain swapBlocks_chain swapBlocks_parsed swapBlocks_amounts .escapeFree
  refine ⟨trades, htrades, hcharts _ (List.cons_ne_nil _ _) fun b => ?_⟩
  simp only [List.flatMap_cons, List.flatMap_nil, List.append_nil, List.mem_append,
    List.mem_cons, List.not_mem_nil, or_false]
  tauto

end Astralane
