import Astralane.NetDelta

/-!
# Checked arithmetic

`trade_from_group` as a build with overflow checks runs it: where the release
build wraps, it fails. A group is computed exactly (`ExactArithmetic`) when this
build returns and the release build returns the same, whatever the order of the
hash map.

Sums are never the problem. The round-number unit is: `10 ^ (d + 6)` fits a
`u128` for `d` up to 32 only, and nothing bounds the decimals of a mint.
-/

namespace Astralane

/-! ## The checked build -/

inductive Failure where
  | overflow
  | panic (p : Panic)
deriving DecidableEq, Repr

def checkedI128 (n : Int) : Except Failure Int :=
  if -2 ^ 127 ≤ n ∧ n < 2 ^ 127 then .ok n else .error .overflow

def checkedU128 (n : Nat) : Except Failure Nat :=
  if n < 2 ^ 128 then .ok n else .error .overflow

def rawDeltaChecked (pre post : String) : Except Failure Int :=
  checkedI128 ((parseI128 post).getD 0 - (parseI128 pre).getD 0)

def addRowChecked (m : EntryMap String (Int × Int)) (row : BalanceRow) :
    Except Failure (EntryMap String (Int × Int)) := do
  let delta ← rawDeltaChecked row.preAmount row.postAmount
  let sum ← checkedI128 (((m.get? row.mint).getD (0, row.decimals)).1 + delta)
  .ok (m.entry row.mint (0, row.decimals) fun e => (sum, e.2))

def perMintChecked (rows : List BalanceRow) : Except Failure (EntryMap String (Int × Int)) :=
  rows.foldlM addRowChecked .empty

def Legs.addChecked (legs : Legs) (entry : String × Int × Int) : Except Failure Legs :=
  let (mint, delta, decimals) := entry
  if delta = 0 then .ok legs
  else if mint = wsolMint then do
    let wsolDelta ← checkedI128 (legs.wsolDelta + delta)
    .ok { legs with wsolDelta }
  else
    match legs.base with
    | none => .ok { legs with base := some (mint, delta, decimals) }
    | some _ => .ok { legs with multipleBaseMints := true }

/-- A checked `pow` fails exactly when the power is out of range: it squares
only what it needs. -/
def roundUnitChecked (decimals : Int) : Except Failure Nat := do
  let power ← checkedU128 (10 ^ (decimals % 2 ^ 32).toNat)
  checkedU128 (power * 1000000)

def tradeFromGroupChecked (ord : IterOrder (String × Int × Int)) (rows : List BalanceRow) :
    Except Failure (Option Trade) := do
  let m ← perMintChecked rows
  let legs ← (ord.arrange m.rows).foldlM Legs.addChecked ⟨0, none, false⟩
  if legs.multipleBaseMints || legs.wsolDelta = 0 then .ok none
  else
    match legs.base with
    | none => .ok none
    | some (baseMint, baseDelta, baseDecimals) => do
        let size ← checkedI128 |legs.wsolDelta|
        if size < dustThresholdLamports then .ok none
        else if decide (baseDelta > 0) = decide (legs.wsolDelta > 0) then .ok none
        else do
          let unit ← roundUnitChecked baseDecimals
          if unit = 0 then .error (.panic .remainderByZero)
          else if baseDelta.natAbs % unit = 0 then .ok none
          else
            let baseAmount : Rat := baseDelta.natAbs / 10 ^ wrap 32 baseDecimals
            let solAmount : Rat := legs.wsolDelta.natAbs / 10 ^ 9
            if baseAmount = 0 then .ok none
            else
              match rows with
              | [] => .error (.panic .indexOutOfBounds)
              | first :: _ =>
                  .ok (some
                    { mint := baseMint
                      blockTime := first.blockTime
                      slot := first.slot
                      txIndex := first.txIndex
                      price := solAmount / baseAmount
                      volume := baseAmount })

/-- No operation leaves its range: the checked build returns, and the release
build computes the same. -/
def ExactArithmetic (rows : List BalanceRow) : Prop :=
  ∀ ord, ∃ result, tradeFromGroupChecked ord rows = .ok result
    ∧ tradeFromGroup ord rows = .ok result

/-! ## Sums stay in range -/

theorem checkedI128_of_range {n : Int} (hlo : -2 ^ 127 ≤ n) (hhi : n < 2 ^ 127) :
    checkedI128 n = .ok n :=
  if_pos ⟨hlo, hhi⟩

theorem addRowChecked_eq {m : EntryMap String (Int × Int)} {row : BalanceRow}
    (hdelta : rawDeltaChecked row.preAmount row.postAmount
      = .ok (rawDelta row.preAmount row.postAmount))
    (hlo : -2 ^ 127 ≤ ((m.get? row.mint).getD (0, row.decimals)).1
      + rawDelta row.preAmount row.postAmount)
    (hhi : ((m.get? row.mint).getD (0, row.decimals)).1
      + rawDelta row.preAmount row.postAmount < 2 ^ 127) :
    addRowChecked m row = .ok (m.entry row.mint (0, row.decimals) fun e =>
      (wrap 128 (e.1 + rawDelta row.preAmount row.postAmount), e.2)) := by
  unfold addRowChecked
  rw [hdelta]
  show (checkedI128 _ >>= fun sum => _) = _
  rw [checkedI128_of_range hlo hhi]
  refine congrArg Except.ok (Keyed.entry_congr ?_)
  show (_, _) = (wrap 128 _, _)
  rw [wrap_of_range hlo hhi]

theorem perMintChecked_eq {rows : List BalanceRow} (h : U64Amounts rows)
    (hlen : rows.length < 2 ^ 63) : perMintChecked rows = .ok (perMint rows) := by
  induction rows using List.reverseRecOn with
  | nil => rfl
  | append_singleton rows row ih =>
      have hmem : row ∈ rows ++ [row] := List.mem_append_right rows List.mem_cons_self
      have hdelta := delta_range h hmem
      have hraw := rawDelta_eq h hmem
      have hsum := netDelta_range h hlen row.mint
      rw [netDelta_concat, if_pos rfl] at hsum
      rw [List.length_append, List.length_singleton] at hlen
      have hshort : rows.length < 2 ^ 63 := by omega
      have hvalue := getD_perMint h.of_concat hshort row.mint row.decimals
      have hchecked : rawDeltaChecked row.preAmount row.postAmount = .ok row.delta := by
        show checkedI128 row.delta = _
        exact checkedI128_of_range (by omega) (by omega)
      have hstep : perMintChecked (rows ++ [row])
          = perMintChecked rows >>= fun m => addRowChecked m row := by
        rw [perMintChecked, List.foldlM_append]
        simp only [List.foldlM_cons, List.foldlM_nil, bind_pure]
        rfl
      rw [hstep, ih h.of_concat hshort, perMint_concat]
      refine addRowChecked_eq (hraw ▸ hchecked) ?_ ?_
      · rw [hvalue, hraw]
        omega
      · rw [hvalue, hraw]
        omega

theorem addChecked_of_wsol {legs : Legs} {delta decimals : Int} (hzero : delta ≠ 0)
    (hlo : -2 ^ 127 ≤ legs.wsolDelta + delta) (hhi : legs.wsolDelta + delta < 2 ^ 127) :
    legs.addChecked (wsolMint, delta, decimals) = .ok (legs.add (wsolMint, delta, decimals)) := by
  unfold Legs.addChecked Legs.add
  simp only [if_neg hzero, if_true, wrap_of_range hlo hhi, checkedI128_of_range hlo hhi]
  rfl

theorem addChecked_of_skip (legs : Legs) {mint : String} {delta : Int} (decimals : Int)
    (hskip : ¬(mint = wsolMint ∧ delta ≠ 0)) :
    legs.addChecked (mint, delta, decimals) = .ok (legs.add (mint, delta, decimals))
      ∧ (legs.add (mint, delta, decimals)).wsolDelta = legs.wsolDelta := by
  obtain ⟨w, base, multiple⟩ := legs
  unfold Legs.addChecked Legs.add
  by_cases hzero : delta = 0
  · simp [hzero]
  · have hmint : mint ≠ wsolMint := fun hmint => hskip ⟨hmint, hzero⟩
    cases base <;> simp [hzero, hmint]

/-- One WSOL entry is added to zero, and nothing else is added up. -/
theorem foldlM_addChecked {entries : List (String × Int × Int)}
    (hrange : ∀ e ∈ entries, -2 ^ 127 ≤ e.2.1 ∧ e.2.1 < 2 ^ 127) {legs : Legs}
    (hwsol : wsolEntries entries = [] ∨ legs.wsolDelta = 0 ∧ (wsolEntries entries).length = 1) :
    entries.foldlM Legs.addChecked legs = .ok (entries.foldl Legs.add legs) := by
  induction entries generalizing legs with
  | nil => rfl
  | cons e entries ih =>
      obtain ⟨mint, delta, decimals⟩ := e
      have hdelta : -2 ^ 127 ≤ delta ∧ delta < 2 ^ 127 := hrange _ List.mem_cons_self
      have hrest := fun e he => hrange e (List.mem_cons_of_mem _ he)
      rw [List.foldlM_cons, List.foldl_cons]
      by_cases hcounts : mint = wsolMint ∧ delta ≠ 0
      · obtain ⟨rfl, hzero⟩ := hcounts
        have hcons : wsolEntries ((wsolMint, delta, decimals) :: entries)
            = (wsolMint, delta, decimals) :: wsolEntries entries :=
          List.filter_cons_of_pos (by simp [hzero])
        rw [hcons] at hwsol
        rcases hwsol with hnil | ⟨hw, hone⟩
        · cases hnil
        · have hlast : wsolEntries entries = [] :=
            List.length_eq_zero_iff.mp (Nat.succ.inj hone)
          rw [addChecked_of_wsol hzero (by omega) (by omega)]
          exact ih hrest (Or.inl hlast)
      · have hcons : wsolEntries ((mint, delta, decimals) :: entries) = wsolEntries entries :=
          List.filter_cons_of_neg (by simpa using hcounts)
        obtain ⟨hsame, hw⟩ := addChecked_of_skip legs decimals hcounts
        rw [hcons, ← hw] at hwsol
        rw [hsame]
        exact ih hrest hwsol

theorem legsChecked_perMint {rows : List BalanceRow} (h : U64Amounts rows)
    (hlen : rows.length < 2 ^ 63) (ord : IterOrder (String × Int × Int)) :
    (ord.arrange (perMint rows).rows).foldlM Legs.addChecked ⟨0, none, false⟩
      = .ok ((ord.arrange (perMint rows).rows).foldl Legs.add ⟨0, none, false⟩) := by
  refine foldlM_addChecked ?_ ?_
  · intro e he
    obtain ⟨first, -, hvalue⟩ := (mem_perMint h hlen).mp ((ord.perm _).mem_iff.mp he)
    have hrange := netDelta_range h hlen e.1
    rw [hvalue]
    exact ⟨by omega, by omega⟩
  · rw [wsolEntries_arrange]
    cases ((perMint rows).find? wsolMint).filter fun e => e.2.1 ≠ 0 with
    | none => exact Or.inl rfl
    | some e => exact Or.inr ⟨rfl, rfl⟩

/-! ## The round-number unit -/

theorem roundUnit_fits {k : Nat} (hk : k ≤ 32) :
    10 ^ k < 2 ^ 128 ∧ 10 ^ k * 1000000 < 2 ^ 128 := by
  have hpow : 10 ^ k ≤ 10 ^ 32 := Nat.pow_le_pow_right (by omega) hk
  omega

theorem roundUnit_overflows {k : Nat} (hk : 32 < k) : 2 ^ 128 ≤ 10 ^ k * 1000000 := by
  have hpow : 10 ^ 33 ≤ 10 ^ k := Nat.pow_le_pow_right (by omega) hk
  omega

theorem decimals_toNat {d : Int} (hlo : 0 ≤ d) (hhi : d ≤ 255) :
    (d % 2 ^ 32).toNat = d.toNat := by
  omega

theorem checkedU128_of_lt {n : Nat} (h : n < 2 ^ 128) : checkedU128 n = .ok n :=
  if_pos h

theorem checkedU128_of_le {n : Nat} (h : 2 ^ 128 ≤ n) : checkedU128 n = .error .overflow :=
  if_neg (Nat.not_lt.mpr h)

theorem roundUnitChecked_eq {d : Int} (hlo : 0 ≤ d) (hhi : d ≤ 32) :
    roundUnitChecked d = .ok (roundUnit d) ∧ roundUnit d ≠ 0 := by
  obtain ⟨hpow, hunit⟩ := roundUnit_fits (show d.toNat ≤ 32 by omega)
  have hpos : 0 < 10 ^ d.toNat := Nat.pow_pos (by omega)
  unfold roundUnitChecked roundUnit
  rw [decimals_toNat hlo (by omega), Nat.mod_eq_of_lt hpow, Nat.mod_eq_of_lt hunit,
    checkedU128_of_lt hpow, Except.ok_bind, checkedU128_of_lt hunit]
  exact ⟨rfl, by omega⟩

theorem roundUnitChecked_overflow {d : Int} (hlo : 32 < d) (hhi : d ≤ 255) :
    roundUnitChecked d = .error .overflow := by
  have hover := roundUnit_overflows (show 32 < d.toNat by omega)
  unfold roundUnitChecked
  rw [decimals_toNat (by omega) hhi]
  rcases Nat.lt_or_ge (10 ^ d.toNat) (2 ^ 128) with hpow | hpow
  · rw [checkedU128_of_lt hpow, Except.ok_bind, checkedU128_of_le hover]
  · rw [checkedU128_of_le hpow]
    rfl

/-! ## Exactness -/

/-- The group passes every filter before the round-number test, with `mint` as its base. -/
structure RoundTested (rows : List BalanceRow) (mint : String) : Prop extends
    BaseMint rows mint where
  size : dustThresholdLamports ≤ |netDelta rows wsolMint|
  opposite : decide (netDelta rows mint > 0) ≠ decide (netDelta rows wsolMint > 0)

theorem RoundTested.wsol {rows : List BalanceRow} {mint : String}
    (htested : RoundTested rows mint) : netDelta rows wsolMint ≠ 0 := by
  intro hzero
  have hsize := htested.size
  rw [hzero, abs_zero] at hsize
  exact absurd hsize (by decide)

section Exact

variable {rows : List BalanceRow} (h : U64Amounts rows) (hlen : rows.length < 2 ^ 63)
  (ord : IterOrder (String × Int × Int))
include h hlen

theorem checkedI128_abs : checkedI128 |netDelta rows wsolMint| = .ok |netDelta rows wsolMint|
    ∧ wrap 128 |netDelta rows wsolMint| = |netDelta rows wsolMint| := by
  have hsum := netDelta_range h hlen wsolMint
  have habs : |netDelta rows wsolMint| < 2 ^ 127 := abs_lt.mpr hsum
  have hpos := abs_nonneg (netDelta rows wsolMint)
  exact ⟨checkedI128_of_range (by omega) habs, wrap_of_range (by omega) habs⟩

/-- Without a round-number test both builds return the same. -/
theorem exact_of_not_tested (hnot : ∀ mint, ¬RoundTested rows mint) :
    tradeFromGroupChecked ord rows = .ok none ∧ tradeFromGroup ord rows = .ok none := by
  obtain ⟨hchecked, hwrapped⟩ := checkedI128_abs h hlen
  unfold tradeFromGroupChecked tradeFromGroup
  rw [perMintChecked_eq h hlen, Except.ok_bind, legsChecked_perMint h hlen, Except.ok_bind]
  rcases legs_cases h hlen ord with
    ⟨mint, first, hbase, -, hlegs⟩ | ⟨-, base, multiple, hnone, hlegs⟩
  · rw [hlegs]
    by_cases hzero : netDelta rows wsolMint = 0
    · simp [hzero]
    · by_cases hsize : |netDelta rows wsolMint| < dustThresholdLamports
      · simp only [hzero, hsize, hchecked, hwrapped, Except.ok_bind]
        simp
      · have hsame : decide (netDelta rows mint > 0) = decide (netDelta rows wsolMint > 0) := by
          by_contra hne
          exact hnot mint ⟨hbase, not_lt.mp hsize, hne⟩
        simp only [hzero, hsize, hchecked, hwrapped, hsame, Except.ok_bind]
        simp
  · rw [hlegs]
    cases multiple with
    | true => simp
    | false =>
        cases base with
        | none => simp
        | some b => cases hnone

section Tested

variable {mint : String} {first : BalanceRow} (htested : RoundTested rows mint)
  (hfirst : rows.find? (fun row => row.mint = mint) = some first)
include htested hfirst

theorem exact_of_tested (hlo : 0 ≤ first.decimals) (hhi : first.decimals ≤ 32) :
    ∃ result, tradeFromGroupChecked ord rows = .ok result
      ∧ tradeFromGroup ord rows = .ok result := by
  obtain ⟨hchecked, hwrapped⟩ := checkedI128_abs h hlen
  obtain ⟨hunit, hpos⟩ := roundUnitChecked_eq hlo hhi
  have hzero := htested.wsol
  obtain ⟨row, rest, rfl⟩ : ∃ row rest, rows = row :: rest := by
    cases rows with
    | nil => cases hfirst
    | cons row rest => exact ⟨row, rest, rfl⟩
  unfold tradeFromGroupChecked tradeFromGroup
  rw [perMintChecked_eq h hlen, Except.ok_bind, legsChecked_perMint h hlen, Except.ok_bind,
    legs_of_base h hlen ord htested.toBaseMint hfirst]
  simp only [hzero, not_lt.mpr htested.size, htested.opposite, hchecked, hwrapped, Except.ok_bind,
    decide_false, Bool.or_self, Bool.false_eq_true, if_false]
  rw [hunit, Except.ok_bind, if_neg hpos, if_neg hpos]
  by_cases hround : (netDelta (row :: rest) mint).natAbs % roundUnit first.decimals = 0
  · rw [if_pos hround, if_pos hround]
    exact ⟨none, rfl, rfl⟩
  · rw [if_neg hround, if_neg hround]
    split
    · exact ⟨none, rfl, rfl⟩
    · exact ⟨_, rfl, rfl⟩

theorem overflow_of_tested (hlo : 32 < first.decimals) (hhi : first.decimals ≤ 255) :
    tradeFromGroupChecked ord rows = .error .overflow := by
  obtain ⟨hchecked, -⟩ := checkedI128_abs h hlen
  have hunit := roundUnitChecked_overflow hlo hhi
  have hzero := htested.wsol
  unfold tradeFromGroupChecked
  rw [perMintChecked_eq h hlen, Except.ok_bind, legsChecked_perMint h hlen, Except.ok_bind,
    legs_of_base h hlen ord htested.toBaseMint hfirst]
  simp only [hzero, not_lt.mpr htested.size, htested.opposite, hchecked, hunit, Except.ok_bind,
    decide_false, Bool.or_self, Bool.false_eq_true, if_false]
  rfl

end Tested

end Exact

/-- A group of `u64` amounts and `u8` decimals is computed exactly, whatever the
order of the hash map, unless it comes to the round-number test with a base mint
of more than 32 decimals. -/
theorem exactArithmetic_iff (rows : List BalanceRow) (h : U64Amounts rows)
    (hlen : rows.length < 2 ^ 63)
    (hdecimals : ∀ row ∈ rows, 0 ≤ row.decimals ∧ row.decimals ≤ 255) :
    ExactArithmetic rows
      ↔ ∀ mint first, RoundTested rows mint →
          rows.find? (fun row => row.mint = mint) = some first → first.decimals ≤ 32 := by
  constructor
  · intro hexact mint first htested hfirst
    by_contra hbeyond
    obtain ⟨-, hhi⟩ := hdecimals first (List.mem_of_find?_eq_some hfirst)
    obtain ⟨result, hchecked, -⟩ := hexact .stored
    rw [overflow_of_tested h hlen .stored htested hfirst (not_le.mp hbeyond) hhi] at hchecked
    cases hchecked
  · intro hwithin ord
    by_cases htested : ∃ mint, RoundTested rows mint
    · obtain ⟨mint, htested⟩ := htested
      obtain ⟨first, hfirst, -⟩ := movedMints_of_base h hlen ord htested.toBaseMint
      obtain ⟨hlo, -⟩ := hdecimals first (List.mem_of_find?_eq_some hfirst)
      exact exact_of_tested h hlen ord htested hfirst hlo (hwithin mint first htested hfirst)
    · exact ⟨none, exact_of_not_tested h hlen ord fun mint hmint => htested ⟨mint, hmint⟩⟩

/-- The swap of `swapRows`, of a token with other decimals. -/
def swapRowsOf (decimals : Int) : List BalanceRow :=
  [⟨"s1", "TOKEN", "0", "100000001", decimals, 1, 0, 1000⟩,
   ⟨"s1", wsolMint, "2000000000", "1000000000", 9, 1, 0, 1000⟩]

theorem swapRowsOf_amounts (decimals : Int) : U64Amounts (swapRowsOf decimals) := by
  rintro row (_ | ⟨_, _ | ⟨_, hrow⟩⟩)
  · have hpre : IsU64 "0" := ⟨0, by omega, by decide⟩
    have hpost : IsU64 "100000001" := ⟨100000001, by omega, by decide⟩
    exact ⟨hpre, hpost⟩
  · have hpre : IsU64 "2000000000" := ⟨2000000000, by omega, by decide⟩
    have hpost : IsU64 "1000000000" := ⟨1000000000, by omega, by decide⟩
    exact ⟨hpre, hpost⟩
  · cases hrow

/-- From 33 decimals on a checked build fails, and from 122 on the wrapped unit
is zero, which the release build divides by. -/
theorem swap_of_33_decimals_overflows :
    U64Amounts (swapRowsOf 33) ∧ ¬ExactArithmetic (swapRowsOf 33)
      ∧ tradeFromGroup .stored (swapRowsOf 122) = .error .remainderByZero := by
  refine ⟨swapRowsOf_amounts 33, fun hexact => ?_, by decide +kernel⟩
  obtain ⟨result, hchecked, -⟩ := hexact .stored
  have hfails : tradeFromGroupChecked .stored (swapRowsOf 33) = .error .overflow := by
    decide +kernel
  rw [hfails] at hchecked
  cases hchecked

theorem exactArithmetic_iff_swap : ExactArithmetic (swapRowsOf 6) := by
  have hsmall : ∀ row ∈ swapRowsOf 6, row.decimals ≤ 32 := by decide
  have hlen : (swapRowsOf 6).length < 2 ^ 63 := by
    show 2 < 2 ^ 63
    omega
  refine (exactArithmetic_iff (swapRowsOf 6) (swapRowsOf_amounts 6) hlen (by decide)).mpr ?_
  exact fun _ first _ hfirst => hsmall first (List.mem_of_find?_eq_some hfirst)

end Astralane
