import Mathlib.Algebra.Order.Field.Rat
import Mathlib.Algebra.Order.Group.Unbundled.Int
import Mathlib.Data.Prod.Lex
import Astralane.Db
import Astralane.StableSort

/-!
# Trade inference

`ohlcv.rs` down to `extract_trades`: the joined balance rows in the order of
the query, cut into runs of one signature, of which each yields at most one
trade.

Integers are the release build's: `i128`, `u128` and `i64` arithmetic wraps
(`wrap`), casts truncate. What panics there is an `Except.error`. Prices and
volumes are exact rationals where the source rounds to `f64`.
-/

namespace Astralane

/-- A signed integer of `w` bits from its value modulo `2 ^ w`. -/
def wrap (w : Nat) (n : Int) : Int :=
  n.bmod (2 ^ w)

theorem wrap_of_range {w : Nat} {n : Int} (hlo : -2 ^ w ≤ n) (hhi : n < 2 ^ w) :
    wrap (w + 1) n = n := by
  unfold wrap
  have hpow : ((2 ^ (w + 1) : Nat) : Int) = 2 ^ w * 2 := by
    rw [Nat.pow_succ]
    simp
  refine Int.bmod_eq_of_le_mul_two ?_ ?_
  · rw [hpow]
    omega
  · rw [hpow]
    omega

/-- Where the release build panics. -/
inductive Panic where
  | indexOutOfBounds
  | unwrapNone
  | remainderByZero
deriving DecidableEq, Repr

/-! ## Rows and trades -/

def wsolMint : String :=
  "So11111111111111111111111111111111111111112"

def dustThresholdLamports : Int :=
  100000

structure Trade where
  mint : String
  blockTime : Int
  slot : Int
  txIndex : Int
  price : Rat
  volume : Rat
deriving DecidableEq, Repr

structure BalanceRow where
  signature : String
  mint : String
  preAmount : String
  postAmount : String
  decimals : Int
  slot : Int
  txIndex : Int
  blockTime : Int
deriving DecidableEq, Repr

/-! ## `trade_from_group` -/

def parseDigits (digits : List Char) : Option Nat :=
  if !digits.isEmpty && digits.all Char.isDigit then
    some (digits.foldl (fun n c => 10 * n + (c.toNat - 48)) 0)
  else
    none

/-- `str::parse::<i128>`: an optional sign, then decimal digits, in range. -/
def parseI128 (s : String) : Option Int := do
  let n : Int ←
    match s.toList with
    | '-' :: digits => (parseDigits digits).map fun n => -(n : Int)
    | '+' :: digits => (parseDigits digits).map Int.ofNat
    | digits => (parseDigits digits).map Int.ofNat
  if -2 ^ 127 ≤ n ∧ n < 2 ^ 127 then some n else none

def rawDelta (pre post : String) : Int :=
  wrap 128 ((parseI128 post).getD 0 - (parseI128 pre).getD 0)

/-- `per_mint`: the delta of a mint, with the decimals of its first row. -/
def perMint (rows : List BalanceRow) : EntryMap String (Int × Int) :=
  rows.foldl
    (fun m row => m.entry row.mint (0, row.decimals) fun e =>
      (wrap 128 (e.1 + rawDelta row.preAmount row.postAmount), e.2)) .empty

/-- `wsol_delta`, `base` and `multiple_base_mints` during the loop over `per_mint`. -/
structure Legs where
  wsolDelta : Int
  base : Option (String × Int × Int)
  multipleBaseMints : Bool
deriving DecidableEq, Repr

def Legs.add (legs : Legs) (entry : String × Int × Int) : Legs :=
  let (mint, delta, decimals) := entry
  if delta = 0 then legs
  else if mint = wsolMint then { legs with wsolDelta := wrap 128 (legs.wsolDelta + delta) }
  else
    match legs.base with
    | none => { legs with base := some (mint, delta, decimals) }
    | some _ => { legs with multipleBaseMints := true }

/-- `10u128.pow(decimals as u32) * 1_000_000`. -/
def roundUnit (decimals : Int) : Nat :=
  10 ^ (decimals % 2 ^ 32).toNat % 2 ^ 128 * 1000000 % 2 ^ 128

def tradeFromGroup (ord : IterOrder (String × Int × Int)) (rows : List BalanceRow) :
    Except Panic (Option Trade) :=
  let legs := (ord.arrange (perMint rows).rows).foldl Legs.add ⟨0, none, false⟩
  if legs.multipleBaseMints || legs.wsolDelta = 0 then .ok none
  else
    match legs.base with
    | none => .ok none
    | some (baseMint, baseDelta, baseDecimals) =>
        if wrap 128 |legs.wsolDelta| < dustThresholdLamports then .ok none
        else if decide (baseDelta > 0) = decide (legs.wsolDelta > 0) then .ok none
        else if roundUnit baseDecimals = 0 then .error .remainderByZero
        else if baseDelta.natAbs % roundUnit baseDecimals = 0 then .ok none
        else
          let baseAmount : Rat := baseDelta.natAbs / 10 ^ wrap 32 baseDecimals
          let solAmount : Rat := legs.wsolDelta.natAbs / 10 ^ 9
          if baseAmount = 0 then .ok none
          else
            match rows with
            | [] => .error .indexOutOfBounds
            | first :: _ =>
                .ok (some
                  { mint := baseMint
                    blockTime := first.blockTime
                    slot := first.slot
                    txIndex := first.txIndex
                    price := solAmount / baseAmount
                    volume := baseAmount })

/-! ## `extract_trades` -/

/-- Where the two index loops cut: `rows` is what lies from `i` on, and its
length is fuel enough. -/
def signatureRuns : Nat → List BalanceRow → List (List BalanceRow)
  | 0, _ => []
  | _, [] => []
  | fuel + 1, first :: rest =>
      let (group, later) := (first :: rest).span fun row => row.signature = first.signature
      group :: signatureRuns fuel later

/-- The unspecified orders of one extraction: rows that the `ORDER BY` leaves
tied, and the hash map of each group. -/
structure TradeOrder where
  rows : IterOrder (Int × BalanceRow)
  perMint : List BalanceRow → IterOrder (String × Int × Int)

def TradeOrder.stored : TradeOrder where
  rows := .stored
  perMint _ := .stored

def tradesFromRows (ord : TradeOrder) (rows : List BalanceRow) : Except Panic (List Trade) := do
  let trades ← (signatureRuns rows.length rows).mapM fun group =>
    tradeFromGroup (ord.perMint group) group
  .ok trades.reduceOption

/-- The query without its order: balances joined with their transaction and
its block, each row with the account index it is sorted by. -/
def Db.balanceRows (db : Db) : List (Int × BalanceRow) :=
  db.tokenBalances.rows.flatMap fun tb =>
    (db.transactions.rows.filter fun t => t.signature = tb.signature).flatMap fun t =>
      (db.blocks.rows.filter fun b => b.slot = t.slot && b.skipped = 0).filterMap fun b =>
        b.blockTime.map fun time =>
          (tb.accountIndex,
            { signature := tb.signature
              mint := tb.mint
              preAmount := tb.preAmount
              postAmount := tb.postAmount
              decimals := tb.decimals
              slot := t.slot
              txIndex := t.txIndex
              blockTime := time })

/-- `ORDER BY t.slot, t.tx_index, tb.account_index`. -/
def balanceOrder (row : Int × BalanceRow) : Int ×ₗ Int ×ₗ Int :=
  toLex (row.2.slot, toLex (row.2.txIndex, row.1))

def extractTrades (ord : TradeOrder) (db : Db) : Except Panic (List Trade) :=
  tradesFromRows ord ((sortByKey balanceOrder (ord.rows.arrange db.balanceRows)).map (·.2))

/-- A swap of 100 tokens for 1 SOL. -/
def swapRows : List BalanceRow :=
  [⟨"s1", "TOKEN", "0", "100000000", 6, 1, 0, 1000⟩,
   ⟨"s1", wsolMint, "2000000000", "1000000000", 9, 1, 0, 1000⟩]

example : tradesFromRows .stored swapRows =
    .ok [⟨"TOKEN", 1000, 1, 0, 1 / 100, 100⟩] := by
  decide +kernel

end Astralane
