import Astralane.NetDelta
import Astralane.Parser
import Astralane.Tally

/-!
# Conservation of token balances

`parse_token_balances` merges two arrays by account index, and trade inference
sums the rows by mint. The sums agree with the arrays except for accounts whose
entry names another mint afterwards: their row carries the new mint, so what was
there before is taken from the wrong one.
-/

namespace Astralane

/-- The usable entries of a balance array. -/
def balanceEntries (balances : Option Json) : List (Int × BalanceEntry) :=
  ((balances.bind Json.asArray?).getD []).filterMap parseBalance

def mintTotal (entries : List (Int × BalanceEntry)) (mint : String) : Int :=
  ((entries.filter fun e => e.2.mint = mint).map fun e => amount e.2.amount).sum

def rowsTotal (rows : List TokenBalanceRow) (mint : String) : Int :=
  ((rows.filter fun r => r.mint = mint).map fun r => amount r.postAmount - amount r.preAmount).sum

/-- The amounts of `pre` in accounts whose mint satisfies `before` there and
`after` in `post`. -/
def movedTotal (pre post : List (Int × BalanceEntry)) (before after : String → Bool) : Int :=
  ((pre.filter fun e => before e.2.mint && post.any fun e' => e'.1 = e.1 && after e'.2.mint).map
    fun e => amount e.2.amount).sum

/-- What the accounts of a mint held that have another mint afterwards. -/
def leavingTotal (pre post : List (Int × BalanceEntry)) (mint : String) : Int :=
  movedTotal pre post (fun m => m = mint) (fun m => m ≠ mint)

/-- What the accounts of other mints held that have this one afterwards. -/
def arrivingTotal (pre post : List (Int × BalanceEntry)) (mint : String) : Int :=
  movedTotal pre post (fun m => m ≠ mint) (fun m => m = mint)

/-- Rows in strict order of the account index that carry, for every mint, its
amounts after less its amounts before. -/
structure Conserved (pre post : List (Int × BalanceEntry)) (rows : List TokenBalanceRow) :
    Prop where
  ascending : rows.Pairwise fun a b => a.accountIndex < b.accountIndex
  balanced : ∀ mint, rowsTotal rows mint = mintTotal post mint - mintTotal pre mint

/-! ## The merge -/

theorem amount_zero : amount "0" = 0 := by
  rw [amount, parseI128_of_digits (show parseDigits "0".toList = some 0 by decide) (by omega)]
  rfl

/-- With distinct account indices the map holds the entries. -/
theorem collectBalances_perm {balances : Option Json}
    (hnd : ((balanceEntries balances).map (·.1)).Nodup) :
    (collectBalances balances).rows.Perm (balanceEntries balances) :=
  (Keyed.replaceAll_perm_iff .empty hnd).mpr nofun

/-! ## Accounts -/

/-- What a row of the account adds to a mint, given its entries before and after. -/
def rowShare (mint : String) (before after : Option BalanceEntry) : Int :=
  match after.or before with
  | none => 0
  | some reference =>
      if reference.mint = mint then
        (after.map fun e => amount e.amount).getD 0 - (before.map fun e => amount e.amount).getD 0
      else 0

def entryShare (mint : String) : Option BalanceEntry → Int
  | none => 0
  | some e => if e.mint = mint then amount e.amount else 0

def movedShare (before after : String → Bool) : Option BalanceEntry → Option BalanceEntry → Int
  | some e, some e' => if before e.mint && after e'.mint then amount e.amount else 0
  | _, _ => 0

/-- The merge, account by account. -/
theorem rowShare_eq (mint : String) (before after : Option BalanceEntry) :
    rowShare mint before after
      = entryShare mint after - entryShare mint before
        + (movedShare (fun m => m = mint) (fun m => m ≠ mint) before after
          - movedShare (fun m => m ≠ mint) (fun m => m = mint) before after) := by
  cases before with
  | none =>
      cases after with
      | none => rfl
      | some e' =>
          simp only [rowShare, entryShare, movedShare, Option.or_none]
          split <;> simp
  | some e =>
      cases after with
      | none =>
          simp only [rowShare, entryShare, movedShare, Option.none_or]
          split <;> simp
      | some e' =>
          by_cases he : e.mint = mint
          · by_cases he' : e'.mint = mint
            · simp [rowShare, entryShare, movedShare, he, he']
            · simp [rowShare, entryShare, movedShare, he, he']
          · by_cases he' : e'.mint = mint
            · simp [rowShare, entryShare, movedShare, he, he', Int.sub_eq_add_neg]
            · simp [rowShare, entryShare, movedShare, he, he']

/-! ## Sums over the accounts -/

section Sums

variable (pre post : EntryMap Int BalanceEntry) {indices : List Int} (mint : String)

theorem balanceRow_share (idx : Int) :
    ((balanceRow pre post idx).map fun r =>
        if decide (r.mint = mint) = true then amount r.postAmount - amount r.preAmount
        else 0).getD 0
      = rowShare mint (pre.get? idx) (post.get? idx) := by
  have hdefault : ∀ e : Option BalanceEntry,
      amount ((e.map (·.amount)).getD "0") = (e.map fun e => amount e.amount).getD 0 := by
    intro e
    cases e with
    | none => exact amount_zero
    | some e => rfl
  simp only [balanceRow, rowShare, Option.bind_eq_bind]
  cases (post.get? idx).or (pre.get? idx) with
  | none => rfl
  | some reference =>
      simp only [Option.bind_some, Option.map_some, Option.getD_some, decide_eq_true_eq, hdefault]

theorem rowsTotal_filterMap :
    rowsTotal (indices.filterMap (balanceRow pre post)) mint
      = (indices.map fun idx => rowShare mint (pre.get? idx) (post.get? idx)).sum := by
  unfold rowsTotal
  rw [sum_map_filter, sum_map_filterMap]
  simp only [balanceRow_share]

variable {entries entries' : List (Int × BalanceEntry)} (hpre : pre.rows.Perm entries)
  (hpost : post.rows.Perm entries') (hnd : indices.Nodup) (hkeys : ∀ r ∈ pre.rows, r.1 ∈ indices)

include hpre hnd hkeys

theorem mintTotal_eq :
    mintTotal entries mint = (indices.map fun idx => entryShare mint (pre.get? idx)).sum := by
  unfold mintTotal
  rw [((hpre.symm.filter _).map _).sum_eq, sum_map_filter, Keyed.sum_rows pre _ hnd hkeys]
  refine congrArg List.sum (List.map_congr_left fun idx _ => ?_)
  cases pre.get? idx with
  | none => rfl
  | some e => simp [entryShare]

include hpost

theorem movedTotal_eq (before after : String → Bool) :
    movedTotal entries entries' before after
      = (indices.map fun idx => movedShare before after (pre.get? idx) (post.get? idx)).sum := by
  unfold movedTotal
  rw [((hpre.symm.filter _).map _).sum_eq, sum_map_filter, Keyed.sum_rows pre _ hnd hkeys]
  refine congrArg List.sum (List.map_congr_left fun idx _ => ?_)
  cases pre.get? idx with
  | none => rfl
  | some e =>
      have hany : (entries'.any fun e' => decide (e'.1 = idx) && after e'.2.mint)
          = (post.get? idx).any fun e' => after e'.mint := by
        rw [← hpost.any_eq, Keyed.any_rows_key, Keyed.get?, Option.any_map]
      rw [Option.map_some, Option.getD_some]
      simp only [hany]
      cases post.get? idx with
      | none => simp [movedShare]
      | some e' => simp [movedShare]

end Sums

/-! ## Conservation -/

theorem movedTotal_of_kept {pre post : List (Int × BalanceEntry)}
    (hkept : ∀ e ∈ pre, ∀ e' ∈ post, e'.1 = e.1 → e'.2.mint = e.2.mint)
    {before after : String → Bool} (hexclude : ∀ m, before m = true → after m = false) :
    movedTotal pre post before after = 0 := by
  have hnil : (pre.filter fun e => before e.2.mint
      && post.any fun e' => decide (e'.1 = e.1) && after e'.2.mint) = [] := by
    rw [List.filter_eq_nil_iff]
    intro e he hmoved
    rw [Bool.and_eq_true, List.any_eq_true] at hmoved
    obtain ⟨hbefore, e', he', hafter⟩ := hmoved
    rw [Bool.and_eq_true, decide_eq_true_eq] at hafter
    rw [hkept e he e' he' hafter.1, hexclude _ hbefore] at hafter
    cases hafter.2
  rw [movedTotal, hnil]
  rfl

/-- Nothing moves between mints when every account keeps its own. -/
theorem leavingTotal_of_kept {pre post : List (Int × BalanceEntry)}
    (hkept : ∀ e ∈ pre, ∀ e' ∈ post, e'.1 = e.1 → e'.2.mint = e.2.mint) (mint : String) :
    leavingTotal pre post mint = arrivingTotal pre post mint := by
  rw [leavingTotal, arrivingTotal, movedTotal_of_kept hkept (by simp),
    movedTotal_of_kept hkept (by simp)]

section Merge

variable (txMeta : Json)
  (hpre : ((balanceEntries (txMeta.get? "preTokenBalances")).map (·.1)).Nodup)
  (hpost : ((balanceEntries (txMeta.get? "postTokenBalances")).map (·.1)).Nodup)
include hpre hpost

/-- What the rows say of a mint, and what they get wrong. -/
theorem rowsTotal_parseTokenBalances (mint : String) :
    rowsTotal (parseTokenBalances txMeta) mint
      = mintTotal (balanceEntries (txMeta.get? "postTokenBalances")) mint
        - mintTotal (balanceEntries (txMeta.get? "preTokenBalances")) mint
        + (leavingTotal (balanceEntries (txMeta.get? "preTokenBalances"))
              (balanceEntries (txMeta.get? "postTokenBalances")) mint
            - arrivingTotal (balanceEntries (txMeta.get? "preTokenBalances"))
              (balanceEntries (txMeta.get? "postTokenBalances")) mint) := by
  let pre := collectBalances (txMeta.get? "preTokenBalances")
  let post := collectBalances (txMeta.get? "postTokenBalances")
  let indices := btreeSet (pre.rows.map (·.1) ++ post.rows.map (·.1))
  have hpreRows : pre.rows.Perm _ := collectBalances_perm hpre
  have hpostRows : post.rows.Perm _ := collectBalances_perm hpost
  have hnd : indices.Nodup := (btreeSet_strict _).imp ne_of_lt
  have hpreKeys : ∀ r ∈ pre.rows, r.1 ∈ indices := fun r hr =>
    mem_btreeSet.mpr (List.mem_append_left _ (List.mem_map_of_mem hr))
  have hpostKeys : ∀ r ∈ post.rows, r.1 ∈ indices := fun r hr =>
    mem_btreeSet.mpr (List.mem_append_right _ (List.mem_map_of_mem hr))
  calc rowsTotal (parseTokenBalances txMeta) mint
    _ = (indices.map fun idx => rowShare mint (pre.get? idx) (post.get? idx)).sum :=
      rowsTotal_filterMap pre post mint
    _ = _ := by
      simp only [rowShare_eq, List.sum_map_add, sum_map_sub]
      rw [mintTotal_eq post mint hpostRows hnd hpostKeys,
        mintTotal_eq pre mint hpreRows hnd hpreKeys, leavingTotal, arrivingTotal,
        movedTotal_eq pre post hpreRows hpostRows hnd hpreKeys,
        movedTotal_eq pre post hpreRows hpostRows hnd hpreKeys]

/-- For every meta whose arrays name each account once the rows are in strict
order of the account index, and they conserve every mint exactly if the accounts
that change their mint take as much from each mint as they bring to it. -/
theorem parseTokenBalances_conserved_iff :
    Conserved (balanceEntries (txMeta.get? "preTokenBalances"))
        (balanceEntries (txMeta.get? "postTokenBalances")) (parseTokenBalances txMeta)
      ↔ ∀ mint, leavingTotal (balanceEntries (txMeta.get? "preTokenBalances"))
            (balanceEntries (txMeta.get? "postTokenBalances")) mint
          = arrivingTotal (balanceEntries (txMeta.get? "preTokenBalances"))
            (balanceEntries (txMeta.get? "postTokenBalances")) mint := by
  constructor
  · intro h mint
    have hbalanced := h.balanced mint
    rw [rowsTotal_parseTokenBalances txMeta hpre hpost] at hbalanced
    omega
  · intro h
    refine ⟨parseTokenBalances_ascending txMeta, fun mint => ?_⟩
    rw [rowsTotal_parseTokenBalances txMeta hpre hpost, h mint]
    omega

end Merge

/-- An entry of a balance array. -/
def rawBalance (accountIndex : Int) (mint tokens : String) : Json :=
  .obj [("accountIndex", .num (.int accountIndex)), ("mint", .str mint),
    ("uiTokenAmount", .obj [("amount", .str tokens), ("decimals", .num (.int 6))])]

def rawBalances (pre post : List Json) : Json :=
  .obj [("preTokenBalances", .arr pre), ("postTokenBalances", .arr post)]

/-- Account 1 is closed and created again for another mint. -/
def recreatedAccount : Json :=
  rawBalances [rawBalance 1 "A" "5"] [rawBalance 1 "B" "7"]

theorem recreated_account_not_conserved :
    ((balanceEntries (recreatedAccount.get? "preTokenBalances")).map (·.1)).Nodup
      ∧ ((balanceEntries (recreatedAccount.get? "postTokenBalances")).map (·.1)).Nodup
      ∧ ¬Conserved (balanceEntries (recreatedAccount.get? "preTokenBalances"))
          (balanceEntries (recreatedAccount.get? "postTokenBalances"))
          (parseTokenBalances recreatedAccount) := by
  refine ⟨by decide, by decide, fun h => ?_⟩
  have hwrong : ¬rowsTotal (parseTokenBalances recreatedAccount) "A"
      = mintTotal (balanceEntries (recreatedAccount.get? "postTokenBalances")) "A"
        - mintTotal (balanceEntries (recreatedAccount.get? "preTokenBalances")) "A" := by
    decide +kernel
  exact hwrong (h.balanced "A")

/-- Account 1 pays account 2, account 3 is closed and account 4 opened. -/
def keptAccounts : Json :=
  rawBalances [rawBalance 3 "B" "9", rawBalance 1 "A" "5", rawBalance 2 "A" "1"]
    [rawBalance 1 "A" "3", rawBalance 2 "A" "3", rawBalance 4 "B" "8"]

theorem parseTokenBalances_conserved_iff_kept :
    Conserved (balanceEntries (keptAccounts.get? "preTokenBalances"))
      (balanceEntries (keptAccounts.get? "postTokenBalances"))
      (parseTokenBalances keptAccounts) := by
  have hiff := parseTokenBalances_conserved_iff keptAccounts (by decide) (by decide)
  exact hiff.mpr (leavingTotal_of_kept (by decide))

end Astralane
