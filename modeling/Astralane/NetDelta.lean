import Mathlib.Algebra.BigOperators.Group.List.Lemmas
import Mathlib.Algebra.Order.Group.Abs
import Mathlib.Data.List.Induction
import Astralane.Trades

/-!
# Net deltas

What `trade_from_group` accumulates, without its loops. With `u64` amounts and
fewer rows than a slice can hold nothing wraps: the map holds for each mint the
sum of its deltas and the decimals of its first row (`get?_perMint`), and the
loop over the map finds the WSOL sum and the other mints that moved, in the
order of the map (`legs_perMint`).
-/

namespace Astralane

/-! ## Amounts -/

/-- The decimal digits of a `u64`. -/
def IsU64 (s : String) : Prop :=
  ∃ n < 2 ^ 64, parseDigits s.toList = some n

def amount (s : String) : Int :=
  (parseI128 s).getD 0

def BalanceRow.delta (row : BalanceRow) : Int :=
  amount row.postAmount - amount row.preAmount

def U64Amounts (rows : List BalanceRow) : Prop :=
  ∀ row ∈ rows, IsU64 row.preAmount ∧ IsU64 row.postAmount

/-- The last step of `str::parse`, at any bounds: evaluating it at the powers
themselves is out of the kernel's reach. -/
theorem checkRange_of_digits {digits : List Char} {n : Nat} {lo hi : Int}
    (h : parseDigits digits = some n) (hn : lo ≤ n ∧ n < hi) :
    ((parseDigits digits).map Int.ofNat >>= fun n => if lo ≤ n ∧ n < hi then some n else none)
      = some (n : Int) := by
  rw [h]
  exact if_pos hn

/-- Digits are no sign. -/
theorem parseI128_of_digits {s : String} {n : Nat} (h : parseDigits s.toList = some n)
    (hn : n < 2 ^ 64) : parseI128 s = some (n : Int) := by
  have hdigit : ∀ c ∈ s.toList, c.isDigit = true := by
    unfold parseDigits at h
    split at h
    · rename_i hall
      rw [Bool.and_eq_true, List.all_eq_true] at hall
      exact hall.2
    · cases h
  have hrange : -2 ^ 127 ≤ (n : Int) ∧ (n : Int) < 2 ^ 127 := by omega
  unfold parseI128
  split
  · rename_i digits hs
    have hsign := hdigit '-' (hs ▸ List.mem_cons_self)
    exact absurd hsign (by decide)
  · rename_i digits hs
    have hsign := hdigit '+' (hs ▸ List.mem_cons_self)
    exact absurd hsign (by decide)
  · exact checkRange_of_digits h hrange

theorem amount_of_isU64 {s : String} (h : IsU64 s) : 0 ≤ amount s ∧ amount s < 2 ^ 64 := by
  obtain ⟨n, hn, hs⟩ := h
  rw [amount, parseI128_of_digits hs hn]
  show 0 ≤ (n : Int) ∧ (n : Int) < 2 ^ 64
  omega

theorem delta_range {rows : List BalanceRow} (h : U64Amounts rows) {row : BalanceRow}
    (hrow : row ∈ rows) : -2 ^ 64 < row.delta ∧ row.delta < 2 ^ 64 := by
  have hpre := amount_of_isU64 (h row hrow).1
  have hpost := amount_of_isU64 (h row hrow).2
  unfold BalanceRow.delta
  omega

/-- The sum of the deltas of the rows of a mint. -/
def netDelta (rows : List BalanceRow) (mint : String) : Int :=
  ((rows.filter fun row => row.mint = mint).map (·.delta)).sum

theorem netDelta_concat (rows : List BalanceRow) (row : BalanceRow) (mint : String) :
    netDelta (rows ++ [row]) mint
      = netDelta rows mint + if row.mint = mint then row.delta else 0 := by
  unfold netDelta
  rw [List.filter_append, List.map_append, List.sum_append]
  by_cases hmint : row.mint = mint <;> simp [hmint]

theorem netDelta_of_absent {rows : List BalanceRow} {mint : String}
    (h : rows.find? (fun row => row.mint = mint) = none) : netDelta rows mint = 0 := by
  have hnil : (rows.filter fun row => row.mint = mint) = [] := by
    rw [List.filter_eq_nil_iff]
    exact List.find?_eq_none.mp h
  rw [netDelta, hnil]
  rfl

theorem U64Amounts.of_concat {rows : List BalanceRow} {row : BalanceRow}
    (h : U64Amounts (rows ++ [row])) : U64Amounts rows :=
  fun r hr => h r (List.mem_append_left [row] hr)

/-- A sum of `n` deltas is below `n * 2 ^ 64`. -/
theorem netDelta_le {rows : List BalanceRow} (h : U64Amounts rows) (mint : String) :
    |netDelta rows mint| ≤ rows.length * (2 ^ 64 - 1) := by
  induction rows using List.reverseRecOn with
  | nil => exact Int.le_refl 0
  | append_singleton rows row ih =>
      have hsum := ih h.of_concat
      have hrow := delta_range h (List.mem_append_right rows List.mem_cons_self)
      rw [netDelta_concat, List.length_append]
      rw [abs_le] at hsum ⊢
      split
      · push_cast
        simp only [List.length_singleton]
        omega
      · push_cast
        simp only [List.length_singleton]
        omega

/-- A slice holds fewer than `2 ^ 63` rows, so no sum of deltas leaves the `i128` range. -/
theorem netDelta_range {rows : List BalanceRow} (h : U64Amounts rows)
    (hlen : rows.length < 2 ^ 63) (mint : String) :
    -2 ^ 127 < netDelta rows mint ∧ netDelta rows mint < 2 ^ 127 := by
  have hle := abs_le.mp (netDelta_le h mint)
  omega

theorem rawDelta_eq {rows : List BalanceRow} (h : U64Amounts rows) {row : BalanceRow}
    (hrow : row ∈ rows) : rawDelta row.preAmount row.postAmount = row.delta := by
  have hrange := delta_range h hrow
  show wrap 128 row.delta = row.delta
  exact wrap_of_range (by omega) (by omega)

/-! ## `per_mint` -/

theorem perMint_concat (rows : List BalanceRow) (row : BalanceRow) :
    perMint (rows ++ [row]) = (perMint rows).entry row.mint (0, row.decimals) fun e =>
      (wrap 128 (e.1 + rawDelta row.preAmount row.postAmount), e.2) := by
  rw [perMint, List.foldl_append]
  rfl

/-- The entry of a mint: its net delta, and the decimals of its first row. -/
theorem get?_perMint {rows : List BalanceRow} (h : U64Amounts rows)
    (hlen : rows.length < 2 ^ 63) (mint : String) :
    (perMint rows).get? mint
      = (rows.find? fun row => row.mint = mint).map fun row =>
          (netDelta rows mint, row.decimals) := by
  induction rows using List.reverseRecOn with
  | nil => rfl
  | append_singleton rows row ih =>
      have hrange := netDelta_range h hlen mint
      rw [List.length_append, List.length_singleton] at hlen
      have hold := ih h.of_concat (by omega)
      rw [perMint_concat, Keyed.get?_entry,
        rawDelta_eq h (List.mem_append_right rows List.mem_cons_self), List.find?_append]
      rw [netDelta_concat] at hrange ⊢
      by_cases hmint : row.mint = mint
      · rw [if_pos hmint] at hrange
        rw [if_pos hmint, if_pos hmint, hmint, hold]
        cases hfind : rows.find? fun row => row.mint = mint with
        | none =>
            rw [netDelta_of_absent hfind] at hrange ⊢
            simp only [Option.map_none, Option.getD_none, Option.none_or, List.find?_cons, hmint,
              decide_true, Option.map_some]
            rw [wrap_of_range (by omega) (by omega)]
        | some first =>
            simp only [Option.map_some, Option.getD_some, Option.some_or]
            rw [wrap_of_range (by omega) (by omega)]
      · rw [if_neg hmint, if_neg hmint, Int.add_zero, hold]
        simp [hmint]

/-- What the next delta of a mint is added to. -/
theorem getD_perMint {rows : List BalanceRow} (h : U64Amounts rows)
    (hlen : rows.length < 2 ^ 63) (mint : String) (decimals : Int) :
    (((perMint rows).get? mint).getD (0, decimals)).1 = netDelta rows mint := by
  rw [get?_perMint h hlen]
  cases hfind : rows.find? fun row => row.mint = mint with
  | none => exact (netDelta_of_absent hfind).symm
  | some first => rfl

/-! ## The legs -/

/-- The entries that count as a base: another mint than WSOL, and not zero. -/
def movedMints (entries : List (String × Int × Int)) : List (String × Int × Int) :=
  entries.filter fun e => e.1 ≠ wsolMint && e.2.1 ≠ 0

/-- The entries that count for WSOL. -/
def wsolEntries (entries : List (String × Int × Int)) : List (String × Int × Int) :=
  entries.filter fun e => e.1 = wsolMint && e.2.1 ≠ 0

theorem foldl_legs (entries : List (String × Int × Int)) (legs : Legs) :
    entries.foldl Legs.add legs =
      { wsolDelta := (wsolEntries entries).foldl (fun w e => wrap 128 (w + e.2.1)) legs.wsolDelta
        base := legs.base.or (movedMints entries).head?
        multipleBaseMints := legs.multipleBaseMints
          || decide (1 < legs.base.toList.length + (movedMints entries).length) } := by
  induction entries generalizing legs with
  | nil =>
      obtain ⟨w, base, multiple⟩ := legs
      cases base <;> simp [movedMints, wsolEntries]
  | cons e entries ih =>
      obtain ⟨mint, delta, decimals⟩ := e
      obtain ⟨w, base, multiple⟩ := legs
      rw [List.foldl_cons, ih]
      by_cases hzero : delta = 0
      · simp [Legs.add, movedMints, wsolEntries, hzero]
      · by_cases hmint : mint = wsolMint
        · simp [Legs.add, movedMints, wsolEntries, hzero, hmint]
        · have hmoved : movedMints ((mint, delta, decimals) :: entries)
              = (mint, delta, decimals) :: movedMints entries :=
            List.filter_cons_of_pos (by simp [hzero, hmint])
          have hwsol : wsolEntries ((mint, delta, decimals) :: entries) = wsolEntries entries :=
            List.filter_cons_of_neg (by simp [hmint])
          rw [hmoved, hwsol]
          cases base with
          | none => simp [Legs.add, hzero, hmint, Nat.add_comm]
          | some b => simp [Legs.add, hzero, hmint]

/-- The entries of the map, in the order in which they are met. -/
theorem mem_perMint {rows : List BalanceRow} (h : U64Amounts rows) (hlen : rows.length < 2 ^ 63)
    {e : String × Int × Int} :
    e ∈ (perMint rows).rows ↔ ∃ first, rows.find? (fun row => row.mint = e.1) = some first
      ∧ e.2 = (netDelta rows e.1, first.decimals) := by
  obtain ⟨mint, value⟩ := e
  rw [Keyed.mem_rows_iff_get?, get?_perMint h hlen, Option.map_eq_some_iff]
  exact exists_congr fun first => and_congr_right fun _ => eq_comm

/-- A mint has one entry, so at most one counts for WSOL, and no order matters. -/
theorem wsolEntries_arrange (ord : IterOrder (String × Int × Int))
    (m : EntryMap String (Int × Int)) :
    wsolEntries (ord.arrange m.rows) = ((m.find? wsolMint).filter fun e => e.2.1 ≠ 0).toList := by
  have hperm := (ord.perm m.rows).filter fun e => e.1 = wsolMint && e.2.1 ≠ 0
  rw [Keyed.filter_rows_key] at hperm
  cases hwsol : (m.find? wsolMint).filter fun e => e.2.1 ≠ 0 with
  | none =>
      rw [hwsol] at hperm
      exact List.perm_nil.mp hperm
  | some e =>
      rw [hwsol] at hperm
      exact List.perm_singleton.mp hperm

theorem movedMints_nodup (ord : IterOrder (String × Int × Int))
    (m : EntryMap String (Int × Int)) :
    ((movedMints (ord.arrange m.rows)).map (·.1)).Nodup := by
  have hkeys := ((ord.perm m.rows).map Prod.fst).nodup_iff.mpr m.nodup
  exact (List.filter_sublist.map _).nodup hkeys

/-- The one base mint of a group: no other but WSOL has a net delta. -/
structure BaseMint (rows : List BalanceRow) (mint : String) : Prop where
  other : mint ≠ wsolMint
  moved : netDelta rows mint ≠ 0
  only : ∀ m, m ≠ wsolMint → netDelta rows m ≠ 0 → m = mint

section Loop

variable {rows : List BalanceRow} (h : U64Amounts rows) (hlen : rows.length < 2 ^ 63)
  (ord : IterOrder (String × Int × Int))
include h hlen

theorem foldl_wsolEntries :
    (wsolEntries (ord.arrange (perMint rows).rows)).foldl (fun w e => wrap 128 (w + e.2.1)) 0
      = netDelta rows wsolMint := by
  have hrange := netDelta_range h hlen wsolMint
  rw [wsolEntries_arrange]
  cases hfind : (perMint rows).find? wsolMint with
  | none =>
      have habsent : rows.find? (fun row => row.mint = wsolMint) = none := by
        have hget := get?_perMint h hlen wsolMint
        rw [Keyed.get?, hfind] at hget
        exact Option.map_eq_none_iff.mp hget.symm
      rw [netDelta_of_absent habsent]
      rfl
  | some e =>
      obtain ⟨hmem, hmint⟩ := Keyed.find?_eq_some.mp hfind
      obtain ⟨first, -, hvalue⟩ := (mem_perMint h hlen).mp hmem
      have hdelta : e.2.1 = netDelta rows wsolMint := by
        rw [hvalue]
        exact congrArg (netDelta rows) hmint
      rw [Option.filter_some, hdelta]
      by_cases hzero : netDelta rows wsolMint = 0
      · rw [hzero]
        rfl
      · rw [if_pos (by simpa using hzero), Option.toList_some, List.foldl_cons, List.foldl_nil,
          hdelta, Int.zero_add]
        exact wrap_of_range (by omega) (by omega)

/-- What the loop over the map finds, in any order of the map. -/
theorem legs_perMint :
    (ord.arrange (perMint rows).rows).foldl Legs.add ⟨0, none, false⟩ =
      { wsolDelta := netDelta rows wsolMint
        base := (movedMints (ord.arrange (perMint rows).rows)).head?
        multipleBaseMints :=
          decide (1 < (movedMints (ord.arrange (perMint rows).rows)).length) } := by
  rw [foldl_legs, foldl_wsolEntries h hlen]
  simp

theorem mem_movedMints {e : String × Int × Int} :
    e ∈ movedMints (ord.arrange (perMint rows).rows)
      ↔ e.1 ≠ wsolMint ∧ netDelta rows e.1 ≠ 0
          ∧ ∃ first, rows.find? (fun row => row.mint = e.1) = some first
            ∧ e.2 = (netDelta rows e.1, first.decimals) := by
  rw [movedMints, List.mem_filter, (ord.perm _).mem_iff, mem_perMint h hlen, Bool.and_eq_true,
    decide_eq_true_eq, decide_eq_true_eq]
  constructor
  · rintro ⟨⟨first, hfirst, hvalue⟩, hmint, hmoved⟩
    rw [hvalue] at hmoved
    exact ⟨hmint, hmoved, first, hfirst, hvalue⟩
  · rintro ⟨hmint, hmoved, first, hfirst, hvalue⟩
    refine ⟨⟨first, hfirst, hvalue⟩, hmint, ?_⟩
    rw [hvalue]
    exact hmoved

theorem movedMints_of_base {mint : String} (hbase : BaseMint rows mint) :
    ∃ first, rows.find? (fun row => row.mint = mint) = some first
      ∧ movedMints (ord.arrange (perMint rows).rows)
          = [(mint, netDelta rows mint, first.decimals)] := by
  cases hfind : rows.find? fun row => row.mint = mint with
  | none => exact absurd (netDelta_of_absent hfind) hbase.moved
  | some first =>
      refine ⟨first, rfl, ?_⟩
      have hmem : (mint, netDelta rows mint, first.decimals)
          ∈ movedMints (ord.arrange (perMint rows).rows) :=
        (mem_movedMints h hlen ord).mpr ⟨hbase.other, hbase.moved, first, hfind, rfl⟩
      have hkeys : ∀ e ∈ movedMints (ord.arrange (perMint rows).rows), e.1 = mint := by
        intro e he
        obtain ⟨hother, hmoved, -⟩ := (mem_movedMints h hlen ord).mp he
        exact hbase.only e.1 hother hmoved
      have hnd := movedMints_nodup ord (perMint rows)
      rcases hentries : movedMints (ord.arrange (perMint rows).rows) with _ | ⟨a, _ | ⟨b, l⟩⟩
      · rw [hentries] at hmem
        cases hmem
      · rw [hentries, List.mem_singleton] at hmem
        rw [hmem]
      · rw [hentries] at hnd hkeys
        have hab : a.1 = b.1 := (hkeys a (by simp)).trans (hkeys b (by simp)).symm
        simp [hab] at hnd

theorem base_of_movedMints {e : String × Int × Int}
    (hmoved : movedMints (ord.arrange (perMint rows).rows) = [e]) : BaseMint rows e.1 := by
  have hmem : ∀ e', e' ∈ movedMints (ord.arrange (perMint rows).rows) ↔ e' = e := by
    intro e'
    rw [hmoved, List.mem_singleton]
  obtain ⟨hother, hnet, -⟩ := (mem_movedMints h hlen ord).mp ((hmem e).mpr rfl)
  refine ⟨hother, hnet, fun m hm hdelta => ?_⟩
  cases hfind : rows.find? fun row => row.mint = m with
  | none => exact absurd (netDelta_of_absent hfind) hdelta
  | some first =>
      have hin : (m, netDelta rows m, first.decimals)
          ∈ movedMints (ord.arrange (perMint rows).rows) :=
        (mem_movedMints h hlen ord).mpr ⟨hm, hdelta, first, hfind, rfl⟩
      rw [← (hmem _).mp hin]

/-- What the loop over the map leaves when one mint moved, and what it does not
when several did or none. -/
theorem legs_cases :
    (∃ mint first, BaseMint rows mint ∧ rows.find? (fun row => row.mint = mint) = some first
        ∧ (ord.arrange (perMint rows).rows).foldl Legs.add ⟨0, none, false⟩
          = ⟨netDelta rows wsolMint, some (mint, netDelta rows mint, first.decimals), false⟩)
      ∨ (∀ mint, ¬BaseMint rows mint)
        ∧ ∃ base multiple, (multiple || base.isNone) = true
          ∧ (ord.arrange (perMint rows).rows).foldl Legs.add ⟨0, none, false⟩
            = ⟨netDelta rows wsolMint, base, multiple⟩ := by
  rw [legs_perMint h hlen]
  by_cases hbase : ∃ mint, BaseMint rows mint
  · obtain ⟨mint, hbase⟩ := hbase
    obtain ⟨first, hfirst, hmoved⟩ := movedMints_of_base h hlen ord hbase
    refine Or.inl ⟨mint, first, hbase, hfirst, ?_⟩
    rw [hmoved]
    rfl
  · refine Or.inr ⟨fun mint hmint => hbase ⟨mint, hmint⟩, _, _, ?_, rfl⟩
    rcases hmoved : movedMints (ord.arrange (perMint rows).rows) with _ | ⟨e, _ | ⟨e', l⟩⟩
    · rfl
    · exact absurd ⟨e.1, base_of_movedMints h hlen ord hmoved⟩ hbase
    · simp

theorem legs_of_base {mint : String} {first : BalanceRow} (hbase : BaseMint rows mint)
    (hfirst : rows.find? (fun row => row.mint = mint) = some first) :
    (ord.arrange (perMint rows).rows).foldl Legs.add ⟨0, none, false⟩
      = ⟨netDelta rows wsolMint, some (mint, netDelta rows mint, first.decimals), false⟩ := by
  rcases legs_cases h hlen ord with ⟨mint', first', hbase', hfirst', hlegs⟩ | ⟨hnone, -⟩
  · obtain rfl := hbase.only mint' hbase'.other hbase'.moved
    rw [hfirst] at hfirst'
    cases hfirst'
    exact hlegs
  · exact absurd hbase (hnone mint)

end Loop

end Astralane
