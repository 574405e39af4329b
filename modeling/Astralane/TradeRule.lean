import Astralane.Arithmetic

/-!
# The trade rule

When `trade_from_group` infers a trade, and which: a statement about net deltas
alone (`TradeRule`, `TradeOf`). The first nonzero base mint, the flag for further
ones and the five filters decide exactly it, so neither the order of the rows nor
that of the hash map matters, and no account does beyond what it adds to the net
delta of its mint.
-/

namespace Astralane

/-! ## The rule -/

/-- The balance rows of one transaction, of mints that fit the arithmetic. A slice
holds fewer than `2 ^ 63` of them. -/
structure TransactionRows (rows : List BalanceRow) : Prop where
  nonempty : rows ≠ []
  amounts : U64Amounts rows
  fits : rows.length < 2 ^ 63
  decimals_range : ∀ r ∈ rows, 0 ≤ r.decimals ∧ r.decimals ≤ 32
  decimals_eq : ∀ r ∈ rows, ∀ r' ∈ rows, r.mint = r'.mint → r.decimals = r'.decimals
  position_eq : ∀ r ∈ rows, ∀ r' ∈ rows,
    r.slot = r'.slot ∧ r.txIndex = r'.txIndex ∧ r.blockTime = r'.blockTime

structure TradeRule (rows : List BalanceRow) (mint : String) : Prop extends
    BaseMint rows mint where
  wsol_moved : netDelta rows wsolMint ≠ 0
  size : dustThresholdLamports ≤ |netDelta rows wsolMint|
  opposite : 0 < netDelta rows mint ∧ netDelta rows wsolMint < 0
    ∨ netDelta rows mint < 0 ∧ 0 < netDelta rows wsolMint
  not_round : ∀ r ∈ rows, r.mint = mint →
    ¬10 ^ (r.decimals.toNat + 6) ∣ (netDelta rows mint).natAbs

/-- `t` is the trade the rule infers, in exact arithmetic. -/
structure TradeOf (rows : List BalanceRow) (t : Trade) : Prop where
  rule : TradeRule rows t.mint
  volume : ∀ r ∈ rows, r.mint = t.mint →
    t.volume = (netDelta rows t.mint).natAbs / 10 ^ r.decimals
  price : t.price = (netDelta rows wsolMint).natAbs / 10 ^ 9 / t.volume
  position : ∀ r ∈ rows, t.slot = r.slot ∧ t.txIndex = r.txIndex ∧ t.blockTime = r.blockTime

/-- The same transaction, its deltas spread over other accounts. -/
structure SameNets (rows rows' : List BalanceRow) : Prop where
  net : ∀ mint, netDelta rows mint = netDelta rows' mint
  decimals : ∀ r ∈ rows, ∀ r' ∈ rows', r.mint = r'.mint → r.decimals = r'.decimals
  position : ∀ r ∈ rows, ∀ r' ∈ rows',
    r.slot = r'.slot ∧ r.txIndex = r'.txIndex ∧ r.blockTime = r'.blockTime

theorem netDelta_perm {rows rows' : List BalanceRow} (h : rows'.Perm rows) (mint : String) :
    netDelta rows' mint = netDelta rows mint :=
  ((h.filter _).map _).sum_eq

theorem mem_of_find?_mint {rows : List BalanceRow} {mint : String} {first : BalanceRow}
    (h : rows.find? (fun row => row.mint = mint) = some first) :
    first ∈ rows ∧ first.mint = mint := by
  have hmint := List.find?_some h
  exact ⟨List.mem_of_find?_eq_some h, of_decide_eq_true hmint⟩

theorem exists_row_of_moved {rows : List BalanceRow} {mint : String}
    (hmoved : netDelta rows mint ≠ 0) : ∃ r ∈ rows, r.mint = mint := by
  cases hfind : rows.find? fun row => row.mint = mint with
  | none => exact absurd (netDelta_of_absent hfind) hmoved
  | some r => exact ⟨r, mem_of_find?_mint hfind⟩

/-! ## The filters decide the rule -/

theorem roundUnit_eq {d : Int} (hlo : 0 ≤ d) (hhi : d ≤ 32) :
    roundUnit d = 10 ^ (d.toNat + 6) := by
  obtain ⟨hpow, hunit⟩ := roundUnit_fits (show d.toNat ≤ 32 by omega)
  unfold roundUnit
  rw [decimals_toNat hlo (by omega), Nat.mod_eq_of_lt hpow, Nat.mod_eq_of_lt hunit, Nat.pow_add]

theorem opposite_iff {a b : Int} (ha : a ≠ 0) (hb : b ≠ 0) :
    decide (a > 0) ≠ decide (b > 0) ↔ 0 < a ∧ b < 0 ∨ a < 0 ∧ 0 < b := by
  rw [ne_eq, decide_eq_decide]
  omega

theorem TradeRule.tested {rows : List BalanceRow} {mint : String} (h : TradeRule rows mint) :
    RoundTested rows mint where
  toBaseMint := h.toBaseMint
  size := h.size
  opposite := (opposite_iff h.moved h.wsol_moved).mpr h.opposite

theorem RoundTested.rule {rows : List BalanceRow} {mint : String} (h : RoundTested rows mint)
    (hround : ∀ r ∈ rows, r.mint = mint →
      ¬10 ^ (r.decimals.toNat + 6) ∣ (netDelta rows mint).natAbs) : TradeRule rows mint where
  toBaseMint := h.toBaseMint
  wsol_moved := h.wsol
  size := h.size
  opposite := (opposite_iff h.moved h.wsol).mp h.opposite
  not_round := hround

/-- What the release build returns for a group that comes to the round-number test. -/
theorem tradeFromGroup_of_tested (ord : IterOrder (String × Int × Int)) {head : BalanceRow}
    {rest : List BalanceRow} (h : U64Amounts (head :: rest))
    (hlen : (head :: rest).length < 2 ^ 63) {mint : String} {first : BalanceRow}
    (htested : RoundTested (head :: rest) mint)
    (hfirst : (head :: rest).find? (fun row => row.mint = mint) = some first)
    (hlo : 0 ≤ first.decimals) (hhi : first.decimals ≤ 32) :
    tradeFromGroup ord (head :: rest) = .ok
      (if 10 ^ (first.decimals.toNat + 6) ∣ (netDelta (head :: rest) mint).natAbs then none
      else some
        { mint
          blockTime := head.blockTime
          slot := head.slot
          txIndex := head.txIndex
          price := (netDelta (head :: rest) wsolMint).natAbs / 10 ^ 9
            / ((netDelta (head :: rest) mint).natAbs / 10 ^ first.decimals)
          volume := (netDelta (head :: rest) mint).natAbs / 10 ^ first.decimals }) := by
  obtain ⟨-, hwrapped⟩ := checkedI128_abs h hlen
  obtain ⟨-, hpos⟩ := roundUnitChecked_eq hlo hhi
  have hzero := htested.wsol
  have hexp : wrap 32 first.decimals = first.decimals := wrap_of_range (by omega) (by omega)
  have hvolume : ((netDelta (head :: rest) mint).natAbs : Rat) / 10 ^ first.decimals ≠ 0 := by
    refine div_ne_zero ?_ (zpow_ne_zero _ (OfNat.ofNat_ne_zero 10))
    exact Nat.cast_ne_zero.mpr (Int.natAbs_ne_zero.mpr htested.moved)
  unfold tradeFromGroup
  rw [legs_of_base h hlen ord htested.toBaseMint hfirst]
  simp only [hzero, not_lt.mpr htested.size, htested.opposite, hwrapped, decide_false,
    Bool.or_self, Bool.false_eq_true, if_false]
  rw [if_neg hpos, roundUnit_eq hlo hhi, hexp, if_neg hvolume]
  by_cases hround : 10 ^ (first.decimals.toNat + 6) ∣ (netDelta (head :: rest) mint).natAbs
  · rw [if_pos (Nat.mod_eq_zero_of_dvd hround), if_pos hround]
  · rw [if_neg fun hmod => hround (Nat.dvd_of_mod_eq_zero hmod), if_neg hround]

/-! ## The trade it infers -/

section Inferred

variable {rows : List BalanceRow}

theorem TradeOf.unique {t u : Trade} (ht : TradeOf rows t) (hu : TradeOf rows u) : t = u := by
  obtain ⟨r, hr, hmint⟩ := exists_row_of_moved ht.rule.moved
  have hsame : u.mint = t.mint := ht.rule.only u.mint hu.rule.other hu.rule.moved
  have hvolume : t.volume = u.volume := by
    rw [ht.volume r hr hmint, hu.volume r hr (hmint.trans hsame.symm), hsame]
  have hprice : t.price = u.price := by rw [ht.price, hu.price, hvolume]
  obtain ⟨hslot, hidx, htime⟩ := ht.position r hr
  obtain ⟨hslot', hidx', htime'⟩ := hu.position r hr
  cases t
  cases u
  simp_all

variable (h : TransactionRows rows)
include h

theorem tradeOf_of_rule {mint : String} (hrule : TradeRule rows mint) {first : BalanceRow}
    (hfirst : first ∈ rows) (hmint : first.mint = mint) {head : BalanceRow} (hhead : head ∈ rows) :
    TradeOf rows
      { mint
        blockTime := head.blockTime
        slot := head.slot
        txIndex := head.txIndex
        price := (netDelta rows wsolMint).natAbs / 10 ^ 9
          / ((netDelta rows mint).natAbs / 10 ^ first.decimals)
        volume := (netDelta rows mint).natAbs / 10 ^ first.decimals } where
  rule := hrule
  volume := fun r hr hrmint => by
    rw [h.decimals_eq r hr first hfirst (hrmint.trans hmint.symm)]
  price := rfl
  position := fun r hr => h.position_eq head hhead r hr

theorem exists_tradeOf_iff : (∃ t, TradeOf rows t) ↔ ∃ mint, TradeRule rows mint := by
  constructor
  · rintro ⟨t, ht⟩
    exact ⟨t.mint, ht.rule⟩
  · rintro ⟨mint, hrule⟩
    obtain ⟨r, hr, hmint⟩ := exists_row_of_moved hrule.moved
    exact ⟨_, tradeOf_of_rule h hrule hr hmint hr⟩

/-- Whatever the order of the map, the trade of the rule or none. -/
theorem tradeFromGroup_eq (ord : IterOrder (String × Int × Int)) :
    ∃ result, tradeFromGroup ord rows = .ok result ∧ ∀ t, result = some t ↔ TradeOf rows t := by
  by_cases htested : ∃ mint, RoundTested rows mint
  · obtain ⟨mint, htested⟩ := htested
    obtain ⟨first, hfirst, -⟩ := movedMints_of_base h.amounts h.fits ord htested.toBaseMint
    obtain ⟨hmem, hmint⟩ := mem_of_find?_mint hfirst
    obtain ⟨hlo, hhi⟩ := h.decimals_range first hmem
    cases rows with
    | nil => cases hmem
    | cons head rest =>
        refine ⟨_, tradeFromGroup_of_tested ord h.amounts h.fits htested hfirst hlo hhi,
          fun t => ?_⟩
        by_cases hround : 10 ^ (first.decimals.toNat + 6) ∣ (netDelta (head :: rest) mint).natAbs
        · rw [if_pos hround]
          refine ⟨nofun, fun ht => ?_⟩
          have hsame : t.mint = mint := htested.only t.mint ht.rule.other ht.rule.moved
          rw [← hsame] at hround
          exact absurd hround (ht.rule.not_round first hmem (hmint.trans hsame.symm))
        · rw [if_neg hround]
          have hrule : TradeRule (head :: rest) mint := by
            refine htested.rule fun r hr hrmint => ?_
            rw [h.decimals_eq r hr first hmem (hrmint.trans hmint.symm)]
            exact hround
          have hof := tradeOf_of_rule h hrule hmem hmint List.mem_cons_self
          constructor
          · intro heq
            cases heq
            exact hof
          · exact fun ht => congrArg some (hof.unique ht)
  · have hnone : ∀ mint, ¬RoundTested rows mint := fun mint hmint => htested ⟨mint, hmint⟩
    refine ⟨none, (exact_of_not_tested h.amounts h.fits ord hnone).2, fun t => ?_⟩
    exact ⟨nofun, fun ht => absurd ht.rule.tested (hnone t.mint)⟩

end Inferred

/-! ## What it does not depend on -/

section Rearranged

variable {rows rows' : List BalanceRow}

theorem SameNets.symm (h : SameNets rows rows') : SameNets rows' rows where
  net := fun mint => (h.net mint).symm
  decimals := fun r hr r' hr' hmint => (h.decimals r' hr' r hr hmint.symm).symm
  position := fun r hr r' hr' => by
    obtain ⟨hslot, hidx, htime⟩ := h.position r' hr' r hr
    exact ⟨hslot.symm, hidx.symm, htime.symm⟩

theorem TradeRule.transfer (hsame : SameNets rows rows') {mint : String}
    (h : TradeRule rows mint) : TradeRule rows' mint where
  other := h.other
  moved := hsame.net mint ▸ h.moved
  only := fun m hother hmoved => h.only m hother ((hsame.net m).symm ▸ hmoved)
  wsol_moved := hsame.net wsolMint ▸ h.wsol_moved
  size := hsame.net wsolMint ▸ h.size
  opposite := by
    rw [← hsame.net mint, ← hsame.net wsolMint]
    exact h.opposite
  not_round := fun r' hr' hmint => by
    obtain ⟨r, hr, hrmint⟩ := exists_row_of_moved h.moved
    rw [← hsame.decimals r hr r' hr' (hrmint.trans hmint.symm), ← hsame.net mint]
    exact h.not_round r hr hrmint

theorem TradeOf.transfer (hsame : SameNets rows rows') {t : Trade} (h : TradeOf rows t) :
    TradeOf rows' t := by
  obtain ⟨r, hr, hmint⟩ := exists_row_of_moved h.rule.moved
  refine ⟨h.rule.transfer hsame, fun r' hr' hmint' => ?_, ?_, fun r' hr' => ?_⟩
  · rw [← hsame.decimals r hr r' hr' (hmint.trans hmint'.symm), ← hsame.net t.mint]
    exact h.volume r hr hmint
  · rw [← hsame.net wsolMint]
    exact h.price
  · obtain ⟨hslot, hidx, htime⟩ := h.position r hr
    obtain ⟨hslot', hidx', htime'⟩ := hsame.position r hr r' hr'
    exact ⟨hslot.trans hslot', hidx.trans hidx', htime.trans htime'⟩

theorem tradeFromGroup_congr (h : TransactionRows rows) (h' : TransactionRows rows')
    (hsame : SameNets rows rows') (ord ord' : IterOrder (String × Int × Int)) :
    tradeFromGroup ord' rows' = tradeFromGroup ord rows := by
  obtain ⟨result, hok, hresult⟩ := tradeFromGroup_eq h ord
  obtain ⟨result', hok', hresult'⟩ := tradeFromGroup_eq h' ord'
  rw [hok, hok']
  refine congrArg Except.ok (Option.ext fun t => ?_)
  rw [hresult', hresult]
  exact ⟨TradeOf.transfer hsame.symm, TradeOf.transfer hsame⟩

theorem TransactionRows.perm (h : TransactionRows rows) (hperm : rows'.Perm rows) :
    TransactionRows rows' where
  nonempty := fun hnil => h.nonempty (List.nil_perm.mp (hnil ▸ hperm))
  amounts := fun r hr => h.amounts r (hperm.mem_iff.mp hr)
  fits := hperm.length_eq ▸ h.fits
  decimals_range := fun r hr => h.decimals_range r (hperm.mem_iff.mp hr)
  decimals_eq := fun r hr r' hr' => h.decimals_eq r (hperm.mem_iff.mp hr) r' (hperm.mem_iff.mp hr')
  position_eq := fun r hr r' hr' => h.position_eq r (hperm.mem_iff.mp hr) r' (hperm.mem_iff.mp hr')

theorem TransactionRows.sameNets_perm (h : TransactionRows rows) (hperm : rows'.Perm rows) :
    SameNets rows rows' where
  net := fun mint => (netDelta_perm hperm mint).symm
  decimals := fun r hr r' hr' => h.decimals_eq r hr r' (hperm.mem_iff.mp hr')
  position := fun r hr r' hr' => h.position_eq r hr r' (hperm.mem_iff.mp hr')

end Rearranged

/-- For every transaction, `trade_from_group` returns a trade exactly when the rule
says so, and then the trade of the rule; and it returns the same for every order of
the rows and of the hash map, and for any other accounts with the same net deltas. -/
theorem tradeFromGroup_rule {rows : List BalanceRow} (h : TransactionRows rows) :
    (∀ ord, ∃ result, tradeFromGroup ord rows = .ok result
        ∧ (result.isSome = true ↔ ∃ mint, TradeRule rows mint)
        ∧ ∀ t, result = some t ↔ TradeOf rows t)
      ∧ (∀ rows', rows'.Perm rows → ∀ ord ord',
          tradeFromGroup ord' rows' = tradeFromGroup ord rows)
      ∧ ∀ rows', TransactionRows rows' → SameNets rows rows' → ∀ ord ord',
          tradeFromGroup ord' rows' = tradeFromGroup ord rows := by
  refine ⟨fun ord => ?_, fun rows' hperm => ?_, fun rows' h' hsame => ?_⟩
  · obtain ⟨result, hok, hresult⟩ := tradeFromGroup_eq h ord
    refine ⟨result, hok, ?_, hresult⟩
    rw [← exists_tradeOf_iff h, Option.isSome_iff_exists]
    exact exists_congr hresult
  · exact tradeFromGroup_congr h (h.perm hperm) (h.sameNets_perm hperm)
  · exact tradeFromGroup_congr h h' hsame

theorem swapRowsOf_transaction : TransactionRows (swapRowsOf 6) where
  nonempty := nofun
  amounts := swapRowsOf_amounts 6
  fits := by
    show 2 < 2 ^ 63
    omega
  decimals_range := by decide
  decimals_eq := by decide
  position_eq := by decide

/-- One more account of the token, with the same balance before and after. -/
def idleRow : BalanceRow :=
  ⟨"s1", "TOKEN", "3", "3", 6, 1, 0, 1000⟩

theorem idleRow_transaction : TransactionRows (swapRowsOf 6 ++ [idleRow]) where
  nonempty := nofun
  amounts := fun r hr => by
    rcases List.mem_append.mp hr with hr | hr
    · exact swapRowsOf_amounts 6 r hr
    · obtain rfl := List.mem_singleton.mp hr
      have hthree : IsU64 "3" := ⟨3, by omega, by decide⟩
      exact ⟨hthree, hthree⟩
  fits := by
    show 3 < 2 ^ 63
    omega
  decimals_range := by decide
  decimals_eq := by decide
  position_eq := by decide

theorem idleRow_sameNets : SameNets (swapRowsOf 6) (swapRowsOf 6 ++ [idleRow]) where
  net := fun mint => by
    have hidle : idleRow.delta = 0 := Int.sub_self _
    rw [netDelta_concat, hidle, ite_self, Int.add_zero]
  decimals := by decide
  position := by decide

theorem tradeFromGroup_rule_swap :
    TradeOf (swapRowsOf 6) ⟨"TOKEN", 1000, 1, 0, 1000000 / 100000001, 100000001 / 1000000⟩
      ∧ tradeFromGroup .stored (swapRowsOf 6 ++ [idleRow])
        = tradeFromGroup .stored (swapRowsOf 6) := by
  have htrade : tradeFromGroup .stored (swapRowsOf 6)
      = .ok (some ⟨"TOKEN", 1000, 1, 0, 1000000 / 100000001, 100000001 / 1000000⟩) := by
    decide +kernel
  obtain ⟨hreturns, -, hsame⟩ := tradeFromGroup_rule swapRowsOf_transaction
  obtain ⟨result, hok, -, hresult⟩ := hreturns .stored
  rw [htrade] at hok
  cases hok
  exact ⟨(hresult _).mp rfl, hsame _ idleRow_transaction idleRow_sameNets .stored .stored⟩

end Astralane
