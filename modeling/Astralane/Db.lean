import Mathlib.Data.Rat.Defs
import Astralane.Keyed
import Astralane.Statements

/-!
# The database

The tables of `src/schema/` as keyed row collections: a primary key is the key
of its table, so no state with a duplicate can be built. SQLite integers are
`Int`, `REAL` columns hold exact rationals.

Inserts check foreign keys when, and only when, a row is actually added: an
`OR IGNORE` that hits an existing primary key never reaches the check.
-/

namespace Astralane

/-- Rust's `as i64` on a `u64`: two's complement, hence injective. -/
def asI64 (n : UInt64) : Int :=
  n.toBitVec.toInt

theorem asI64_inj {m n : UInt64} : asI64 m = asI64 n ↔ m = n := by
  rw [asI64, asI64, BitVec.toInt_inj, UInt64.toBitVec_inj]

/-- Rust's `as u64` on an `i64`. -/
def asU64 (n : Int) : UInt64 :=
  UInt64.ofBitVec (BitVec.ofInt 64 n)

theorem asU64_asI64 (n : UInt64) : asU64 (asI64 n) = n := by
  rw [asU64, asI64, BitVec.ofInt_toInt, UInt64.ofBitVec_toBitVec]

/-- A Rust `bool` as SQLite stores it. -/
def boolToInt (b : Bool) : Int :=
  if b then 1 else 0

theorem boolToInt_ne_zero (b : Bool) : decide (boolToInt b ≠ 0) = b := by
  cases b <;> rfl

/-! ## Rows -/

structure BlocksRow where
  slot : Int
  blockhash : Option String
  blockTime : Option Int
  skipped : Int
deriving DecidableEq, Repr

structure TransactionsRow where
  signature : String
  slot : Int
  txIndex : Int
  success : Int
  fee : Int
  programIds : String
deriving DecidableEq, Repr

structure AccountLocksRow where
  signature : String
  accountPubkey : String
  isWritable : Int
deriving DecidableEq, Repr

def AccountLocksRow.key (r : AccountLocksRow) : String × String :=
  (r.signature, r.accountPubkey)

structure TokenBalancesRow where
  signature : String
  accountIndex : Int
  mint : String
  preAmount : String
  postAmount : String
  decimals : Int
deriving DecidableEq, Repr

def TokenBalancesRow.key (r : TokenBalancesRow) : String × Int :=
  (r.signature, r.accountIndex)

/-- The two intervals the `CHECK` of `ohlcv_candles` admits. -/
inductive Interval where
  | oneMin
  | fiveMin
deriving DecidableEq, Repr

def Interval.text : Interval → String
  | .oneMin => "1m"
  | .fiveMin => "5m"

structure OhlcvCandlesRow where
  mint : String
  interval : Interval
  bucketStart : Int
  opening : Rat
  high : Rat
  low : Rat
  close : Rat
  volume : Rat
deriving DecidableEq, Repr

def OhlcvCandlesRow.key (r : OhlcvCandlesRow) : String × Interval × Int :=
  (r.mint, r.interval, r.bucketStart)

structure ContentionBlocksRow where
  slot : Int
  scheduleDepth : Int
  stepWidths : String
deriving DecidableEq, Repr

structure ContentionAccountsRow where
  accountPubkey : String
  writeConflicts : Int
  readConflicts : Int
deriving DecidableEq, Repr

structure ContentionProgramsRow where
  programId : String
  writeConflicts : Int
  readConflicts : Int
deriving DecidableEq, Repr

structure Db where
  blocks : Keyed BlocksRow.slot
  transactions : Keyed TransactionsRow.signature
  accountLocks : Keyed AccountLocksRow.key
  tokenBalances : Keyed TokenBalancesRow.key
  ohlcvCandles : Keyed OhlcvCandlesRow.key
  contentionBlocks : Keyed ContentionBlocksRow.slot
  contentionAccounts : Keyed ContentionAccountsRow.accountPubkey
  contentionPrograms : Keyed ContentionProgramsRow.programId
deriving DecidableEq

/-- The database right after `init_schema`. -/
def Db.empty : Db where
  blocks := .empty
  transactions := .empty
  accountLocks := .empty
  tokenBalances := .empty
  ohlcvCandles := .empty
  contentionBlocks := .empty
  contentionAccounts := .empty
  contentionPrograms := .empty

/-! ## Inserts -/

theorem Except.ok_bind {ε α β : Type} (a : α) (f : α → Except ε β) :
    (Except.ok a >>= f) = f a := rfl

theorem Except.of_bind_eq_ok {ε α β : Type} {x : Except ε α} {f : α → Except ε β} {b : β}
    (h : (x >>= f) = Except.ok b) : ∃ a, x = Except.ok a ∧ f a = Except.ok b := by
  match x, h with
  | .ok a, h => exact ⟨a, rfl, h⟩

inductive SqlError where
  | foreignKey
  | primaryKey
deriving DecidableEq, Repr

/-- `INSERT OR IGNORE` into a table with a foreign key, `parent` telling
whether the referenced row exists. -/
def insertOrIgnoreRef {ρ κ : Type} {key : ρ → κ} [DecidableEq κ] (t : Keyed key) (r : ρ)
    (parent : Bool) : Except SqlError (Keyed key) :=
  if (t.find? (key r)).isSome then .ok t
  else if parent then .ok (t.insertOrIgnore r)
  else .error .foreignKey

theorem insertOrIgnoreRef_of_parent {ρ κ : Type} {key : ρ → κ} [DecidableEq κ] (t : Keyed key)
    (r : ρ) : insertOrIgnoreRef t r true = .ok (t.insertOrIgnore r) := by
  unfold insertOrIgnoreRef
  split
  · rename_i h
    rw [Keyed.insertOrIgnore_of_present (Option.isSome_iff_ne_none.mp h)]
  · rfl

/-- Plain `INSERT`, which a taken key makes fail. -/
def insertRef {ρ κ : Type} {key : ρ → κ} [DecidableEq κ] (t : Keyed key) (r : ρ)
    (parent : Bool) : Except SqlError (Keyed key) :=
  if (t.find? (key r)).isSome then .error .primaryKey
  else if parent then .ok (t.insertOrIgnore r)
  else .error .foreignKey

section InsertEach

variable {ρ κ σ : Type} {key : ρ → κ} [DecidableEq κ] (put : Keyed key → σ)
  (insert : ρ → σ → Except SqlError σ) (parent : ρ → Bool)
  (hinsert : ∀ t r, insert r (put t) = insertRef t r (parent r) >>= fun t' => .ok (put t'))
include hinsert

theorem succeeds_insert {t : Keyed key} {r : ρ} {s' : σ} :
    Statements.Succeeds (.execute (insert r)) (put t) s'
      ↔ t.find? (key r) = none ∧ parent r = true ∧ s' = put (t.insertOrIgnore r) := by
  rw [Statements.succeeds_execute, hinsert]
  unfold insertRef
  cases t.find? (key r) with
  | some r' => exact iff_of_false nofun nofun
  | none =>
      cases parent r with
      | false => exact iff_of_false nofun nofun
      | true =>
          show Except.ok _ = Except.ok s' ↔ _
          simp [eq_comm]

/-- A loop of plain inserts into one table, `put` placing that table among the
others: it goes through when the keys stay distinct and no parent is missing. -/
theorem succeeds_insertEach {α : Type} (row : α → ρ) {l : List α} {t : Keyed key} {s' : σ} :
    Statements.Succeeds (forM l fun a => .execute (insert (row a))) (put t) s'
      ↔ (∀ a ∈ l, parent (row a) = true)
          ∧ ∃ h : ((t.rows ++ l.map row).map key).Nodup, s' = put ⟨t.rows ++ l.map row, h⟩ := by
  induction l generalizing t with
  | nil =>
      rw [List.forM_nil, Statements.succeeds_pure]
      simp [t.nodup]
  | cons a l ih =>
      have hrows : t.find? (key (row a)) = none →
          (t.insertOrIgnore (row a)).rows ++ l.map row = t.rows ++ (a :: l).map row :=
        fun hfree => by
          rw [Keyed.insertOrIgnore_of_absent hfree, List.append_assoc]
          rfl
      rw [List.forM_cons, Statements.succeeds_bind]
      simp only [succeeds_insert put insert parent hinsert, List.forall_mem_cons]
      constructor
      · rintro ⟨_, ⟨hfree, hparent, rfl⟩, hrest⟩
        obtain ⟨hparents, hnd, rfl⟩ := ih.mp hrest
        simp only [hrows hfree] at hnd ⊢
        exact ⟨⟨hparent, hparents⟩, hnd, trivial⟩
      · rintro ⟨⟨hparent, hparents⟩, hnd, rfl⟩
        have hfree : t.find? (key (row a)) = none := by
          refine Keyed.find?_eq_none.mpr fun r hr hk => ?_
          rw [List.map_append, List.nodup_append] at hnd
          exact hnd.2.2 _ (List.mem_map_of_mem hr) _ (by simp) hk
        refine ⟨_, ⟨hfree, hparent, rfl⟩, ih.mpr ⟨hparents, ?_⟩⟩
        simp only [hrows hfree]
        exact ⟨hnd, trivial⟩

end InsertEach

namespace Db

def insertBlock (db : Db) (r : BlocksRow) : Db :=
  { db with blocks := db.blocks.insertOrIgnore r }

def insertTransaction (db : Db) (r : TransactionsRow) : Except SqlError Db := do
  let t ← insertOrIgnoreRef db.transactions r (db.blocks.find? r.slot).isSome
  .ok { db with transactions := t }

def insertAccountLock (db : Db) (r : AccountLocksRow) : Except SqlError Db := do
  let t ← insertOrIgnoreRef db.accountLocks r (db.transactions.find? r.signature).isSome
  .ok { db with accountLocks := t }

def insertTokenBalance (db : Db) (r : TokenBalancesRow) : Except SqlError Db := do
  let t ← insertOrIgnoreRef db.tokenBalances r (db.transactions.find? r.signature).isSome
  .ok { db with tokenBalances := t }

end Db

end Astralane
