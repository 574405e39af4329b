import Mathlib.Algebra.BigOperators.Ring.List
import Mathlib.Algebra.Group.Action.Defs
import Mathlib.Algebra.Order.BigOperators.Group.List
import Mathlib.Algebra.Order.Group.Nat
import Astralane.RangeReport

/-!
# Scheduling friction

What the conflict counts of a report say. They are counts of rejections, not of
pairs of transactions, so two questions arise.

- What has a count to do with the depths and widths beside it? A transaction of
  step `j` was rejected by `j` steps, each time on account of one lock at least:
  the widths alone bound the conflicts of the range, from below and, with the
  number of locks of a transaction, from above (`report_friction`).
- How does it compare with a count of pairs? The rejections are found among the
  pairs of clashing transactions, so no account and no program is charged more
  than by pairs (`conflicts_among_pairs`).

And one account suffices to make a block deep: all its writers are in different
steps, and its readers in yet another. Where no transaction locks two accounts
that is all there is to the depth (`hotAccount_depth`).
-/

namespace Astralane

open FirstFit

variable (json : StringListJson)

/-! ## Conflicts against depth and widths -/

/-- The rejections of an arrival, the slot being the number of steps that reject it. -/
def rejections (bins : List (List Transaction)) (t : Transaction) : List ConflictEvent :=
  (bins.take (slotFor Conflicts bins t)).flatMap fun ms =>
    (clashingLocks ms t).map (ConflictEvent.of t)

theorem scheduleBlock_conflicts_concat (l : List Transaction) (t : Transaction) :
    (scheduleBlock (l ++ [t])).conflicts
      = (scheduleBlock l).conflicts ++ rejections (pack Conflicts l) t :=
  scheduleRun_conflicts l t

theorem length_take_slotFor (bins : List (List Transaction)) (t : Transaction) :
    (bins.take (slotFor Conflicts bins t)).length = slotFor Conflicts bins t := by
  rw [List.length_take]
  exact Nat.min_eq_left (slotFor_le Conflicts bins t)

theorem clashingLocks_ne_nil_of_mem_take {bins : List (List Transaction)} {t : Transaction}
    {ms : List Transaction} (hms : ms ∈ bins.take (slotFor Conflicts bins t)) :
    clashingLocks ms t ≠ [] := by
  obtain ⟨j, hj, rfl⟩ := List.getElem_of_mem hms
  have hslot : j < slotFor Conflicts bins t := length_take_slotFor bins t ▸ hj
  obtain ⟨u, hu, hconf⟩ := exists_conf_of_lt_slotFor Conflicts hslot
  intro hnil
  refine clashingLocks_eq_nil.mp hnil u ?_ hconf
  have hlt := Nat.lt_of_lt_of_le hslot (slotFor_le Conflicts bins t)
  simpa [List.getD_eq_getElem?_getD, List.getElem?_eq_getElem hlt] using hu

/-- Every step that rejects an arrival does so by one lock at least. -/
theorem slotFor_le_rejections (bins : List (List Transaction)) (t : Transaction) :
    slotFor Conflicts bins t ≤ (rejections bins t).length := by
  have hone : ∀ n ∈ (bins.take (slotFor Conflicts bins t)).map
      fun ms => ((clashingLocks ms t).map (ConflictEvent.of t)).length, 1 ≤ n := by
    intro n hn
    obtain ⟨ms, hms, rfl⟩ := List.mem_map.mp hn
    rw [List.length_map]
    exact List.length_pos_of_ne_nil (clashingLocks_ne_nil_of_mem_take hms)
  have hle := List.length_le_sum_of_one_le _ hone
  rwa [List.length_map, length_take_slotFor, ← List.length_flatMap] at hle

/-- And by no more locks than the arrival has. -/
theorem rejections_le (bins : List (List Transaction)) {t : Transaction} {m : Nat}
    (hm : t.locks.length ≤ m) :
    (rejections bins t).length ≤ m * slotFor Conflicts bins t := by
  have hmany : ∀ n ∈ (bins.take (slotFor Conflicts bins t)).map
      fun ms => ((clashingLocks ms t).map (ConflictEvent.of t)).length, n ≤ m := by
    intro n hn
    obtain ⟨ms, -, rfl⟩ := List.mem_map.mp hn
    rw [List.length_map]
    exact Nat.le_trans (List.length_filter_le _ _) hm
  have hle := List.sum_le_card_nsmul _ _ hmany
  rwa [List.length_map, length_take_slotFor, ← List.length_flatMap, smul_eq_mul,
    Nat.mul_comm] at hle

/-- The widths of the steps of a block. -/
def Schedule.widths (s : Schedule) : List Nat :=
  s.steps.map List.length

theorem widths_eq_pack (txs : List Transaction) :
    (scheduleBlock txs).widths = (pack Conflicts txs).map List.length := by
  rw [Schedule.widths, scheduleBlock_steps, List.map_map]
  exact List.map_congr_left fun ms _ => by simp

theorem passed_le_conflicts (txs : List Transaction) :
    passed (scheduleBlock txs).widths ≤ (scheduleBlock txs).conflicts.length := by
  rw [widths_eq_pack]
  induction txs using List.reverseRecOn with
  | nil => exact Nat.le_refl 0
  | append_singleton l t ih =>
      rw [pack_concat, passed_place, scheduleBlock_conflicts_concat, List.length_append]
      exact Nat.add_le_add ih (slotFor_le_rejections _ t)

theorem conflicts_le_passed {txs : List Transaction} {m : Nat}
    (hm : ∀ t ∈ txs, t.locks.length ≤ m) :
    (scheduleBlock txs).conflicts.length ≤ m * passed (scheduleBlock txs).widths := by
  rw [widths_eq_pack]
  induction txs using List.reverseRecOn with
  | nil => exact Nat.le_refl 0
  | append_singleton l t ih =>
      rw [pack_concat, passed_place, scheduleBlock_conflicts_concat, List.length_append,
        Nat.mul_add]
      exact Nat.add_le_add (ih fun u hu => hm u (List.mem_append_left _ hu))
        (rejections_le _ (hm t (by simp)))

theorem depth_sq_le_conflicts (txs : List Transaction) :
    (scheduleBlock txs).steps.length * ((scheduleBlock txs).steps.length - 1)
      ≤ 2 * (scheduleBlock txs).conflicts.length := by
  have hpos : ∀ w ∈ (scheduleBlock txs).widths, 0 < w := by
    intro w hw
    obtain ⟨step, hstep, rfl⟩ := List.mem_map.mp hw
    exact List.length_pos_of_ne_nil (steps_ne_nil txs step hstep)
  have hdepth := mul_pred_length_le_passed hpos
  rw [Schedule.widths, List.length_map] at hdepth
  exact Nat.le_trans hdepth (Nat.mul_le_mul_left 2 (passed_le_conflicts txs))

/-- All conflicts of a report, as its accounts count them. -/
def RangeReport.totalConflicts (report : RangeReport) : Nat :=
  (report.accounts.map fun a => a.writeConflicts + a.readConflicts).sum

/-- How often a transaction of the range was passed on to the next step, read
off the widths. -/
def RangeReport.passedSteps (report : RangeReport) : Nat :=
  (report.blocks.map fun b => passed b.stepWidths).sum

theorem accounts_listing (ord : ReportOrder) (db : Db) (limit : Option Nat) :
    CountListing AccountConflictCount.accountPubkey AccountConflictCount.writeConflicts
      AccountConflictCount.readConflicts
      (· ∈ (rangeEvents json ord.load db (reportSlots db limit)).map (·.accountPubkey))
      (eventCounts (rangeEvents json ord.load db (reportSlots db limit)))
      (rangeEvents json ord.load db (reportSlots db limit)).length
      (buildRangeReportLimited json ord db limit).accounts := by
  rw [buildRangeReportLimited_eq]
  exact countListing_tally _ _ _ _ _ _ AccountConflictCount.ofEntry (fun _ => rfl) (fun _ => rfl) _

theorem totalConflicts_eq (ord : ReportOrder) (db : Db) (limit : Option Nat) :
    (buildRangeReportLimited json ord db limit).totalConflicts
      = ((reportSlots db limit).map fun slot =>
          (slotSchedule json (ord.load slot) db slot).conflicts.length).sum := by
  rw [RangeReport.totalConflicts, (accounts_listing json ord db limit).total_eq, rangeEvents,
    List.length_flatMap]

theorem passedSteps_eq (ord : ReportOrder) (db : Db) (limit : Option Nat) :
    (buildRangeReportLimited json ord db limit).passedSteps
      = ((reportSlots db limit).map fun slot =>
          passed (slotSchedule json (ord.load slot) db slot).widths).sum := by
  rw [RangeReport.passedSteps, buildRangeReportLimited_eq, List.map_map]
  rfl

/-- A loaded transaction is a row of the slot with the locks under its signature. -/
theorem exists_row_of_mem_load {ord : LoadOrder} {db : Db} {slot : Int} {t : Transaction}
    (ht : t ∈ loadBlockTransactions json ord db slot) :
    ∃ r ∈ db.transactionsOf slot,
      t.signature = r.signature ∧ t.locks.Perm ((db.locksUnder r.signature).map (·.lock)) := by
  rw [loadBlockTransactions_eq] at ht
  obtain ⟨r, hr, rfl⟩ := List.mem_map.mp ht
  have hmem := (ord.transactions.perm _).mem_iff.mp (mem_sortByKey.mp hr)
  obtain ⟨hrow, hslot⟩ := List.mem_filter.mp hmem
  exact ⟨r, hmem, rfl, loadedTransaction_locks json ord db hrow (of_decide_eq_true hslot)⟩

/-- The conflicts of a report against the depths and widths beside them, on any
database and in any order. -/
theorem report_friction (ord : ReportOrder) (db : Db) (limit : Option Nat) :
    (buildRangeReportLimited json ord db limit).passedSteps
        ≤ (buildRangeReportLimited json ord db limit).totalConflicts
      ∧ ((buildRangeReportLimited json ord db limit).blocks.map fun b =>
            b.scheduleDepth * (b.scheduleDepth - 1)).sum
          ≤ 2 * (buildRangeReportLimited json ord db limit).totalConflicts
      ∧ ∀ m, (∀ r ∈ db.transactions.rows, (db.locksUnder r.signature).length ≤ m) →
          (buildRangeReportLimited json ord db limit).totalConflicts
            ≤ m * (buildRangeReportLimited json ord db limit).passedSteps := by
  rw [totalConflicts_eq, passedSteps_eq]
  refine ⟨?_, ?_, fun m hm => ?_⟩
  · exact List.sum_le_sum fun slot _ => passed_le_conflicts _
  · rw [buildRangeReportLimited_eq, List.map_map, ← List.sum_map_mul_left]
    exact List.sum_le_sum fun slot _ => depth_sq_le_conflicts _
  · rw [← List.sum_map_mul_left]
    refine List.sum_le_sum fun slot _ => conflicts_le_passed fun t ht => ?_
    obtain ⟨r, hr, -, hlocks⟩ := exists_row_of_mem_load json ht
    rw [hlocks.length_eq, List.length_map]
    exact hm r (List.mem_filter.mp hr).1

/-- Two writers of one account with two readers between and after them, and a
transaction of its own. -/
def hotDb : Db :=
  runBlocking .escapeFree Db.empty
    [⟨1, some "h1", none, false,
      [⟨"s0", 0, true, 5000, ["P"], [⟨"A", true⟩], []⟩,
       ⟨"s1", 1, true, 5000, ["P"], [⟨"A", false⟩], []⟩,
       ⟨"s2", 2, true, 5000, ["P"], [⟨"A", true⟩], []⟩,
       ⟨"s3", 3, true, 5000, ["Q"], [⟨"A", false⟩], []⟩,
       ⟨"s4", 4, true, 5000, ["Q"], [⟨"B", false⟩], []⟩]⟩]

/-- Four times a transaction was passed on, by its one lock. -/
theorem report_friction_hot :
    (buildRangeReportLimited .escapeFree .stored hotDb none).passedSteps = 4
      ∧ (buildRangeReportLimited .escapeFree .stored hotDb none).totalConflicts
          ≤ 1 * (buildRangeReportLimited .escapeFree .stored hotDb none).passedSteps :=
  ⟨by decide, (report_friction .escapeFree .stored hotDb none).2.2 1 (by decide)⟩

/-! ## Conflicts against pairs

The other reading of a conflict: a pair of transactions, once for each lock of
the later one that clashes with a lock of the earlier one. -/

/-- What `t` is charged with for coming after `u`. -/
def pairEvents (u t : Transaction) : List ConflictEvent :=
  (clashingLocks [u] t).map (ConflictEvent.of t)

def pairConflicts (txs : List Transaction) : List ConflictEvent :=
  txs.zipIdx.flatMap fun (t, i) => (txs.take i).flatMap fun u => pairEvents u t

theorem pairConflicts_concat (l : List Transaction) (t : Transaction) :
    pairConflicts (l ++ [t]) = pairConflicts l ++ l.flatMap fun u => pairEvents u t :=
  flatMap_take_concat (fun earlier t => earlier.flatMap fun u => pairEvents u t) l t

theorem filter_or_subperm {α : Type*} (p q : α → Bool) (l : List α) :
    (l.filter fun x => p x || q x).Subperm (l.filter p ++ l.filter q) := by
  -- what satisfies `p` and what only satisfies `q`
  have hsplit := List.filter_append_perm p (l.filter fun x => p x || q x)
  refine hsplit.symm.subperm.trans ?_
  have hfirst : ((l.filter fun x => p x || q x).filter p).Sublist (l.filter p) :=
    List.filter_sublist.filter p
  have hsecond : ((l.filter fun x => p x || q x).filter fun x => !p x).Sublist (l.filter q) := by
    rw [List.filter_filter]
    refine List.monotone_filter_right l fun x hx => ?_
    rw [Bool.and_eq_true, Bool.not_eq_true'] at hx
    simpa [hx.1] using hx.2
  exact (hfirst.append hsecond).subperm

/-- A step with several members rejects a lock once, however many of them hold it. -/
theorem clashingLocks_subperm (ms : List Transaction) (t : Transaction) :
    (clashingLocks ms t).Subperm (ms.flatMap fun u => clashingLocks [u] t) := by
  induction ms with
  | nil => simp [clashingLocks]
  | cons u ms ih =>
      have hor : clashingLocks (u :: ms) t = t.locks.filter fun l =>
          decide (∃ v ∈ [u], ∃ m ∈ v.locks, m.Clashes l)
            || decide (∃ v ∈ ms, ∃ m ∈ v.locks, m.Clashes l) := by
        refine List.filter_congr fun l _ => ?_
        rw [← Bool.decide_or, decide_eq_decide, List.exists_mem_cons_iff, List.exists_mem_cons_iff]
        simp
      rw [hor, List.flatMap_cons]
      exact (filter_or_subperm _ _ _).trans ((List.subperm_append_left _).mpr ih)

theorem rejections_subperm (bins : List (List Transaction)) (t : Transaction) :
    (rejections bins t).Subperm (bins.flatten.flatMap fun u => pairEvents u t) := by
  have hall : ∀ parts : List (List Transaction),
      (parts.flatMap fun ms => (clashingLocks ms t).map (ConflictEvent.of t)).Subperm
        (parts.flatten.flatMap fun u => pairEvents u t) := by
    intro parts
    induction parts with
    | nil => exact List.Subperm.refl _
    | cons ms parts ih =>
        obtain ⟨locks, hperm, hsub⟩ := clashingLocks_subperm ms t
        have hfirst : ((clashingLocks ms t).map (ConflictEvent.of t)).Subperm
            (ms.flatMap fun u => pairEvents u t) := by
          refine ⟨locks.map (ConflictEvent.of t), hperm.map _, ?_⟩
          have hmap := hsub.map (ConflictEvent.of t)
          rwa [List.map_flatMap] at hmap
        rw [List.flatMap_cons, List.flatten_cons, List.flatMap_append]
        exact hfirst.append ih
  refine (hall _).trans (List.Sublist.subperm ?_)
  exact (List.take_sublist _ bins).flatten.flatMap _

/-- Charged by rejections, a block has the conflicts of some of its pairs. -/
theorem conflicts_subperm_pairs (txs : List Transaction) :
    (scheduleBlock txs).conflicts.Subperm (pairConflicts txs) := by
  induction txs using List.reverseRecOn with
  | nil => exact List.Subperm.refl _
  | append_singleton l t ih =>
      rw [scheduleBlock_conflicts_concat, pairConflicts_concat]
      refine ih.append ((rejections_subperm _ t).trans (List.Perm.subperm ?_))
      exact (flatten_pack Conflicts l).flatMap_right _

/-- Where all transactions conflict, every pair is a rejection. -/
theorem conflicts_eq_pairs {txs : List Transaction} (h : txs.Pairwise Conflicts) :
    (scheduleBlock txs).conflicts = pairConflicts txs := by
  induction txs using List.reverseRecOn with
  | nil => rfl
  | append_singleton l t ih =>
      obtain ⟨hl, -, hlt⟩ := List.pairwise_append.mp h
      have hslot : slotFor Conflicts (l.map fun u => [u]) t = l.length :=
        slotFor_singletons Conflicts fun u hu => hlt u hu t (List.mem_singleton_self t)
      rw [scheduleBlock_conflicts_concat, pairConflicts_concat, ih hl, rejections,
        pack_clique Conflicts hl, hslot, ← List.length_map fun u => [u], List.take_length,
        List.flatMap_map]
      rfl

/-- The pairs of a range of blocks, each as loaded. -/
def rangePairs (load : Int → LoadOrder) (db : Db) (slots : List Int) : List ConflictEvent :=
  slots.flatMap fun slot => pairConflicts (loadBlockTransactions json (load slot) db slot)

theorem rangeEvents_subperm (load : Int → LoadOrder) (db : Db) (slots : List Int) :
    (rangeEvents json load db slots).Subperm (rangePairs json load db slots) := by
  induction slots with
  | nil => exact List.Subperm.refl _
  | cons slot slots ih =>
      rw [rangeEvents, rangePairs, List.flatMap_cons, List.flatMap_cons]
      exact (conflicts_subperm_pairs _).append ih

theorem programOccurrences_subperm {events events' : List ConflictEvent}
    (h : events.Subperm events') :
    (programOccurrences events).Subperm (programOccurrences events') := by
  obtain ⟨l, hperm, hsub⟩ := h
  exact ⟨programOccurrences l, programOccurrences_perm hperm, hsub.flatMap _⟩

theorem programs_listing (ord : ReportOrder) (db : Db) (limit : Option Nat) :
    CountListing ProgramConflictCount.programId ProgramConflictCount.writeConflicts
      ProgramConflictCount.readConflicts
      (· ∈ (programOccurrences (rangeEvents json ord.load db (reportSlots db limit))).map (·.1))
      (Keyed.counts (·.1) (·.2)
        (programOccurrences (rangeEvents json ord.load db (reportSlots db limit))))
      (programOccurrences (rangeEvents json ord.load db (reportSlots db limit))).length
      (buildRangeReportLimited json ord db limit).programs := by
  rw [buildRangeReportLimited_eq]
  exact countListing_tally _ _ _ _ _ _ ProgramConflictCount.ofEntry (fun _ => rfl) (fun _ => rfl) _

theorem accountCounts_eq (ord : ReportOrder) (db : Db) (limit : Option Nat) (account : String) :
    (buildRangeReportLimited json ord db limit).accountCounts account
      = eventCounts (rangeEvents json ord.load db (reportSlots db limit)) account :=
  (accounts_listing json ord db limit).lookupCounts_eq (fun _ hk => Keyed.counts_eq_zero hk) account

theorem programCounts_eq (ord : ReportOrder) (db : Db) (limit : Option Nat) (program : String) :
    (buildRangeReportLimited json ord db limit).programCounts program
      = occurrenceCounts (rangeEvents json ord.load db (reportSlots db limit)) program := by
  rw [occurrenceCounts_eq]
  exact (programs_listing json ord db limit).lookupCounts_eq
    (fun _ hk => Keyed.counts_eq_zero hk) program

/-- A report charges no account and no program with more than the pairs would,
and with as much where all transactions of each block conflict. -/
theorem conflicts_among_pairs (ord : ReportOrder) (db : Db) (limit : Option Nat) :
    (∀ account, (buildRangeReportLimited json ord db limit).accountCounts account
        ≤ eventCounts (rangePairs json ord.load db (reportSlots db limit)) account)
      ∧ (∀ program, (buildRangeReportLimited json ord db limit).programCounts program
          ≤ occurrenceCounts (rangePairs json ord.load db (reportSlots db limit)) program)
      ∧ ((∀ slot ∈ reportSlots db limit,
            (loadBlockTransactions json (ord.load slot) db slot).Pairwise Conflicts) →
          ∀ name, (buildRangeReportLimited json ord db limit).accountCounts name
                = eventCounts (rangePairs json ord.load db (reportSlots db limit)) name
              ∧ (buildRangeReportLimited json ord db limit).programCounts name
                = occurrenceCounts (rangePairs json ord.load db (reportSlots db limit)) name) := by
  have hsub := rangeEvents_subperm json ord.load db (reportSlots db limit)
  refine ⟨fun account => ?_, fun program => ?_, fun hall name => ?_⟩
  · rw [accountCounts_eq]
    exact Keyed.counts_le hsub account
  · rw [programCounts_eq, occurrenceCounts_eq, occurrenceCounts_eq]
    exact Keyed.counts_le (programOccurrences_subperm hsub) program
  · have heq : rangeEvents json ord.load db (reportSlots db limit)
        = rangePairs json ord.load db (reportSlots db limit) :=
      List.flatMap_congr fun slot hslot => conflicts_eq_pairs (hall slot hslot)
    rw [accountCounts_eq, programCounts_eq, heq]
    exact ⟨rfl, rfl⟩

/-- The last reader is rejected by the step of one writer only. -/
example : (buildRangeReportLimited .escapeFree .stored hotDb none).accountCounts "A" = (2, 2)
    ∧ eventCounts (rangePairs .escapeFree (fun _ => .stored) hotDb (reportSlots hotDb none)) "A"
        = (2, 3) := by
  decide

theorem conflicts_among_pairs_contended :
    (buildRangeReportLimited .escapeFree .stored contendedDb none).accountCounts "A"
      = eventCounts (rangePairs .escapeFree (fun _ => .stored) contendedDb
          (reportSlots contendedDb none)) "A" :=
  ((conflicts_among_pairs .escapeFree .stored contendedDb none).2.2 (by decide) "A").1

/-! ## One account -/

def Transaction.touches (t : Transaction) (account : String) : Bool :=
  t.locks.any fun l => decide (l.accountPubkey = account)

def Transaction.writes (t : Transaction) (account : String) : Bool :=
  t.locks.any fun l => decide (l.accountPubkey = account) && l.isWritable

def Transaction.onlyReads (t : Transaction) (account : String) : Bool :=
  t.touches account && !t.writes account

/-- The steps that `account` takes by itself: one for each transaction that writes
it, and one for those that only read it. -/
def lockLoad (txs : List Transaction) (account : String) : Nat :=
  txs.countP (·.writes account) + if txs.any (·.onlyReads account) then 1 else 0

theorem touches_iff {t : Transaction} {account : String} :
    t.touches account = true ↔ ∃ l ∈ t.locks, l.accountPubkey = account := by
  simp [Transaction.touches]

theorem writes_iff {t : Transaction} {account : String} :
    t.writes account = true ↔ ∃ l ∈ t.locks, l.accountPubkey = account ∧ l.isWritable = true := by
  simp [Transaction.writes]

theorem conflicts_of_writes {t u : Transaction} {account : String} (ht : t.writes account = true)
    (hu : u.touches account = true) : Conflicts t u := by
  obtain ⟨l, hl, rfl, hw⟩ := writes_iff.mp ht
  obtain ⟨m, hm, hml⟩ := touches_iff.mp hu
  exact ⟨l, hl, m, hm, hml.symm, Or.inl hw⟩

theorem touches_of_writes {t : Transaction} {account : String} (h : t.writes account = true) :
    t.touches account = true := by
  obtain ⟨l, hl, hla, -⟩ := writes_iff.mp h
  exact touches_iff.mpr ⟨l, hl, hla⟩

theorem touches_cases {t : Transaction} {account : String} (h : t.touches account = true) :
    t.writes account = true ∨ t.onlyReads account = true := by
  cases hw : t.writes account with
  | true => exact Or.inl rfl
  | false => exact Or.inr (by rw [Transaction.onlyReads, h, hw]; rfl)

/-- The writers of an account and one of its readers are a clique. -/
theorem lockLoad_le_depth (txs : List Transaction) (account : String) :
    lockLoad txs account ≤ (scheduleBlock txs).steps.length := by
  have hdepth : (scheduleBlock txs).steps.length = (pack Conflicts txs).length := by
    rw [scheduleBlock_steps, List.length_map]
  have hwriters : (txs.filter (·.writes account)).Pairwise Conflicts := by
    refine List.pairwise_of_forall_mem_list fun t ht u hu => ?_
    exact conflicts_of_writes (List.mem_filter.mp ht).2
      (touches_of_writes (List.mem_filter.mp hu).2)
  rw [hdepth, lockLoad, List.countP_eq_length_filter]
  split
  · rename_i hany
    obtain ⟨r, hr, honly⟩ := List.any_eq_true.mp hany
    rw [Transaction.onlyReads, Bool.and_eq_true] at honly
    have hclique : (txs.filter (·.writes account) ++ [r]).Pairwise Conflicts := by
      refine List.pairwise_append.mpr ⟨hwriters, List.pairwise_singleton _ r, fun t ht u hu => ?_⟩
      rw [List.mem_singleton.mp hu]
      exact conflicts_of_writes (List.mem_filter.mp ht).2 honly.1
    have hsub : (txs.filter (·.writes account) ++ [r]).Subperm txs := by
      have hreader : [r].Sublist (txs.filter fun t => !t.writes account) :=
        List.singleton_sublist.mpr (List.mem_filter.mpr ⟨hr, honly.2⟩)
      exact ((List.Sublist.refl _).append hreader).subperm.trans
        (List.filter_append_perm _ txs).subperm
    have hle := clique_le_pack Conflicts Conflicts.symm hclique hsub
    rwa [List.length_append] at hle
  · exact clique_le_pack Conflicts Conflicts.symm hwriters List.filter_sublist.subperm

section OneAccount

variable {txs : List Transaction} (hsig : (txs.map (·.signature)).Nodup)
include hsig

theorem exists_stepOf_eq {k : Nat} (hk : k < (scheduleBlock txs).steps.length) :
    ∃ t ∈ txs, (scheduleBlock txs).stepOf t.signature = k := by
  have hstep := List.getElem_mem hk
  obtain ⟨sig, hsigIn⟩ := List.exists_mem_of_ne_nil _ (steps_ne_nil txs _ hstep)
  have hget : (scheduleBlock txs).steps.getD k [] = (scheduleBlock txs).steps[k] := by
    rw [List.getD_eq_getElem?_getD, List.getElem?_eq_getElem hk, Option.getD_some]
  rw [← hget, getD_steps hsig] at hsigIn
  obtain ⟨t, ht, -⟩ := List.mem_map.mp hsigIn
  exact ⟨t, (List.mem_filter.mp ht).1, of_decide_eq_true (List.mem_filter.mp ht).2⟩

variable (hone : ∀ t ∈ txs, ∀ l ∈ t.locks, ∀ m ∈ t.locks, l.accountPubkey = m.accountPubkey)
include hone

/-- Transactions are passed on because of the one account they lock. -/
theorem exists_touching {t : Transaction} (ht : t ∈ txs) {account : String}
    (htouch : t.touches account = true) {j : Nat}
    (hj : j < (scheduleBlock txs).stepOf t.signature) :
    ∃ u ∈ txs, (scheduleBlock txs).stepOf u.signature = j ∧ u.touches account = true
      ∧ (t.onlyReads account = true → u.writes account = true) := by
  obtain ⟨u, ⟨hsub, hconf⟩, hu⟩ := (stepOf_greedy hsig).justified ht j hj
  obtain ⟨m, hm, l, hl, hml, hw⟩ := hconf
  obtain ⟨l', hl', rfl⟩ := touches_iff.mp htouch
  have hm' : m.accountPubkey = l'.accountPubkey := hml.trans (hone t ht l hl l' hl')
  refine ⟨u, hsub.subset (by simp), hu, touches_iff.mpr ⟨m, hm, hm'⟩, fun honly => ?_⟩
  rw [Transaction.onlyReads, Bool.and_eq_true, Bool.not_eq_true'] at honly
  rcases hw with hw | hw
  · exact writes_iff.mpr ⟨m, hm, hm', hw⟩
  · have hwrites : t.writes l'.accountPubkey = true :=
      writes_iff.mpr ⟨l, hl, hone t ht l hl l' hl', hw⟩
    exact absurd (honly.2.symm.trans hwrites) Bool.false_ne_true

/-- The readers of an account share a step: it is the first without a writer. -/
theorem stepOf_onlyReads_le {r r' : Transaction} (hr : r ∈ txs) (hr' : r' ∈ txs)
    {account : String} (honly : r.onlyReads account = true)
    (honly' : r'.onlyReads account = true) :
    (scheduleBlock txs).stepOf r'.signature ≤ (scheduleBlock txs).stepOf r.signature := by
  have htouch : ∀ {t : Transaction}, t.onlyReads account = true → t.touches account = true := by
    intro t h
    rw [Transaction.onlyReads, Bool.and_eq_true] at h
    exact h.1
  by_contra hlt
  obtain ⟨u, hu, hstep, -, hwriter⟩ :=
    exists_touching hsig hone hr' (htouch honly') (Nat.lt_of_not_le hlt)
  have hconf : Conflicts u r := conflicts_of_writes (hwriter honly') (htouch honly)
  have hne : u ≠ r := by
    rintro rfl
    rw [Transaction.onlyReads, hwriter honly', Bool.and_eq_true] at honly
    exact Bool.false_ne_true honly.2
  exact stepOf_ne_of_conflicts hsig hu hr hne hconf hstep

/-- All steps up to that of `t` hold a transaction on its account: each writer
accounts for one of them, the readers together for one. -/
theorem stepOf_lt_lockLoad {t : Transaction} (ht : t ∈ txs) {account : String}
    (htouch : t.touches account = true) :
    (scheduleBlock txs).stepOf t.signature < lockLoad txs account := by
  have hsubset : List.range ((scheduleBlock txs).stepOf t.signature + 1)
      ⊆ (txs.filter (·.writes account)).map (fun u => (scheduleBlock txs).stepOf u.signature)
        ++ (txs.find? (·.onlyReads account)).toList.map
            fun u => (scheduleBlock txs).stepOf u.signature := by
    intro j hj
    have hholds : ∃ u ∈ txs, (scheduleBlock txs).stepOf u.signature = j
        ∧ u.touches account = true := by
      rcases Nat.lt_or_eq_of_le (Nat.le_of_lt_succ (List.mem_range.mp hj)) with hlt | rfl
      · obtain ⟨u, hu, hstep, hon, -⟩ := exists_touching hsig hone ht htouch hlt
        exact ⟨u, hu, hstep, hon⟩
      · exact ⟨t, ht, rfl, htouch⟩
    obtain ⟨u, hu, rfl, hon⟩ := hholds
    rcases touches_cases hon with hw | honly
    · exact List.mem_append_left _ (List.mem_map.mpr ⟨u, List.mem_filter.mpr ⟨hu, hw⟩, rfl⟩)
    · refine List.mem_append_right _ ?_
      cases hfind : txs.find? (·.onlyReads account) with
      | none => exact absurd honly (List.find?_eq_none.mp hfind u hu)
      | some r =>
          have hr := List.mem_of_find?_eq_some hfind
          have hfound := List.find?_some hfind
          have hronly : r.onlyReads account = true := hfound
          have hsame := Nat.le_antisymm (stepOf_onlyReads_le hsig hone hr hu hronly honly)
            (stepOf_onlyReads_le hsig hone hu hr honly hronly)
          simp [hsame]
  have hle := (List.nodup_range.subperm hsubset).length_le
  have hreader : (txs.find? (·.onlyReads account)).toList.length
      = if txs.any (·.onlyReads account) then 1 else 0 := by
    cases hfind : txs.find? (·.onlyReads account) with
    | none =>
        have hany : txs.any (·.onlyReads account) = false :=
          List.any_eq_false.mpr (List.find?_eq_none.mp hfind)
        rw [hany]
        rfl
    | some r =>
        have hfound := List.find?_some hfind
        have hany : txs.any (·.onlyReads account) = true :=
          List.any_eq_true.mpr ⟨r, List.mem_of_find?_eq_some hfind, hfound⟩
        rw [hany]
        rfl
  rw [List.length_range, List.length_append, List.length_map, List.length_map, hreader,
    ← List.countP_eq_length_filter] at hle
  exact hle

theorem depth_le_iff (d : Nat) :
    (scheduleBlock txs).steps.length ≤ d
      ↔ (txs ≠ [] → 1 ≤ d) ∧ ∀ account, lockLoad txs account ≤ d := by
  constructor
  · refine fun hd => ⟨fun hne => ?_, fun account => (lockLoad_le_depth txs account).trans hd⟩
    obtain ⟨t, ht⟩ := List.exists_mem_of_ne_nil txs hne
    have hbin := binOf_lt_length Conflicts hsig.of_map ht
    rw [scheduleBlock_steps, List.length_map] at hd
    omega
  · rintro ⟨hne, hload⟩
    cases hdepth : (scheduleBlock txs).steps.length with
    | zero => exact Nat.zero_le d
    | succ k =>
        obtain ⟨t, ht, rfl⟩ := exists_stepOf_eq hsig (k := k) (by omega)
        cases hlocks : t.locks with
        | nil =>
            -- without locks nothing keeps `t` out of the first step
            have hpos := hne (List.ne_nil_of_mem ht)
            rcases Nat.eq_zero_or_pos ((scheduleBlock txs).stepOf t.signature) with hk | hk
            · omega
            · obtain ⟨u, ⟨-, -, -, l, hl, -⟩, -⟩ := (stepOf_greedy hsig).justified ht 0 hk
              rw [hlocks] at hl
              exact absurd hl List.not_mem_nil
        | cons l rest =>
            have htouch : t.touches l.accountPubkey = true :=
              touches_iff.mpr ⟨l, by simp [hlocks], rfl⟩
            exact Nat.le_trans (stepOf_lt_lockLoad hsig hone ht htouch) (hload l.accountPubkey)

end OneAccount

/-! Counted on the tables, without loading anything. -/

def Db.writes (db : Db) (account : String) (r : TransactionsRow) : Bool :=
  (db.locksUnder r.signature).any fun l => decide (l.accountPubkey = account) && l.lock.isWritable

def Db.onlyReads (db : Db) (account : String) (r : TransactionsRow) : Bool :=
  (db.locksUnder r.signature).any (fun l => decide (l.accountPubkey = account))
    && !db.writes account r

/-- The transactions of `slot` that write `account`, and one for those that only read it. -/
def Db.lockLoad (db : Db) (slot : Int) (account : String) : Nat :=
  (db.transactionsOf slot).countP (db.writes account)
    + if (db.transactionsOf slot).any (db.onlyReads account) then 1 else 0

theorem any_eq_of_perm {α : Type*} {l l' : List α} (h : l.Perm l') (p : α → Bool) :
    l.any p = l'.any p := by
  rw [Bool.eq_iff_iff, List.any_eq_true, List.any_eq_true]
  exact exists_congr fun x => and_congr_left' h.mem_iff

section Loaded

variable (ord : LoadOrder) (db : Db) {slot : Int}

theorem loadedTransaction_writes {r : TransactionsRow} (hr : r ∈ db.transactionsOf slot)
    (account : String) :
    (loadedTransaction json ord db slot r).writes account = db.writes account r := by
  obtain ⟨hrow, hslot⟩ := List.mem_filter.mp hr
  have hlocks := loadedTransaction_locks json ord db hrow (of_decide_eq_true hslot)
  rw [Transaction.writes, any_eq_of_perm hlocks, List.any_map]
  rfl

theorem loadedTransaction_onlyReads {r : TransactionsRow} (hr : r ∈ db.transactionsOf slot)
    (account : String) :
    (loadedTransaction json ord db slot r).onlyReads account = db.onlyReads account r := by
  obtain ⟨hrow, hslot⟩ := List.mem_filter.mp hr
  have hlocks := loadedTransaction_locks json ord db hrow (of_decide_eq_true hslot)
  rw [Transaction.onlyReads, Transaction.touches, any_eq_of_perm hlocks, List.any_map,
    loadedTransaction_writes json ord db hr]
  rfl

/-- The loaded transactions are those of the rows, in some order. -/
theorem loadBlockTransactions_perm (slot : Int) :
    (loadBlockTransactions json ord db slot).Perm
      ((db.transactionsOf slot).map (loadedTransaction json ord db slot)) := by
  rw [loadBlockTransactions_eq]
  exact ((sortByKey_perm _ _).trans (ord.transactions.perm _)).map _

theorem lockLoad_loaded (slot : Int) (account : String) :
    lockLoad (loadBlockTransactions json ord db slot) account = db.lockLoad slot account := by
  have hperm := loadBlockTransactions_perm json ord db slot
  have hwrites : (db.transactionsOf slot).countP
        ((·.writes account) ∘ loadedTransaction json ord db slot)
      = (db.transactionsOf slot).countP (db.writes account) :=
    List.countP_congr fun r hr =>
      Bool.eq_iff_iff.mp (loadedTransaction_writes json ord db hr account)
  have hreads : ((db.transactionsOf slot).map (loadedTransaction json ord db slot)).any
        (·.onlyReads account)
      = (db.transactionsOf slot).any (db.onlyReads account) := by
    rw [List.any_map, Bool.eq_iff_iff, List.any_eq_true, List.any_eq_true]
    exact exists_congr fun r => and_congr_right fun hr =>
      Bool.eq_iff_iff.mp (loadedTransaction_onlyReads json ord db hr account)
  rw [lockLoad, Db.lockLoad, hperm.countP_eq, List.countP_map, hwrites, any_eq_of_perm hperm,
    hreads]

theorem load_signatures_nodup (slot : Int) :
    ((loadBlockTransactions json ord db slot).map (·.signature)).Nodup := by
  refine ((loadBlockTransactions_perm json ord db slot).map _).nodup_iff.mpr ?_
  rw [List.map_map]
  exact (List.filter_sublist.map _).nodup db.transactions.nodup

end Loaded

/-- The depth of every block of a report is at least the number of transactions
that write any one account, and one more if others read it; where no transaction
locks two accounts it is the largest of these numbers. -/
theorem hotAccount_depth (ord : ReportOrder) (db : Db) (limit : Option Nat) :
    ∀ b ∈ (buildRangeReportLimited json ord db limit).blocks,
      (∀ account, db.lockLoad b.slot account ≤ b.scheduleDepth)
        ∧ ((∀ r ∈ db.transactionsOf b.slot, ∀ l ∈ db.locksUnder r.signature,
              ∀ m ∈ db.locksUnder r.signature, l.accountPubkey = m.accountPubkey) →
            ∀ d, b.scheduleDepth ≤ d
              ↔ (db.transactionsOf b.slot ≠ [] → 1 ≤ d)
                ∧ ∀ account, db.lockLoad b.slot account ≤ d) := by
  rw [buildRangeReportLimited_eq]
  intro b hb
  obtain ⟨slot, -, rfl⟩ := List.mem_map.mp hb
  have hload := lockLoad_loaded json (ord.load slot) db slot
  constructor
  · intro account
    show db.lockLoad slot account ≤ _
    rw [← hload account]
    exact lockLoad_le_depth _ account
  · intro hone d
    have hone' : ∀ t ∈ loadBlockTransactions json (ord.load slot) db slot,
        ∀ l ∈ t.locks, ∀ m ∈ t.locks, l.accountPubkey = m.accountPubkey := by
      intro t ht l hl m hm
      obtain ⟨r, hr, -, hlocks⟩ := exists_row_of_mem_load json ht
      obtain ⟨l', hl', rfl⟩ := List.mem_map.mp (hlocks.mem_iff.mp hl)
      obtain ⟨m', hm', rfl⟩ := List.mem_map.mp (hlocks.mem_iff.mp hm)
      exact hone r hr l' hl' m' hm'
    have hempty : loadBlockTransactions json (ord.load slot) db slot ≠ []
        ↔ db.transactionsOf slot ≠ [] := by
      rw [← List.length_pos_iff, ← List.length_pos_iff,
        (loadBlockTransactions_perm json (ord.load slot) db slot).length_eq, List.length_map]
    have hdepth := depth_le_iff (load_signatures_nodup json (ord.load slot) db slot) hone' d
    simp only [hload, hempty] at hdepth
    exact hdepth

theorem hotAccount_depth_hot :
    hotDb.lockLoad 1 "A" = 3
      ∧ ∀ d, 3 ≤ d ↔ (hotDb.transactionsOf 1 ≠ [] → 1 ≤ d)
          ∧ ∀ account, hotDb.lockLoad 1 account ≤ d :=
  ⟨by decide,
    (hotAccount_depth .escapeFree .stored hotDb none ⟨1, 3, [2, 2, 1]⟩ (by decide)).2 (by decide)⟩

/-! ## The profile

`profile_contention` times the two phases of the report by running them itself. -/

/-- What it prints beside the times. -/
structure ContentionProfile where
  blocks : Nat
  totalTx : Nat
  totalSteps : Nat
deriving DecidableEq, Repr

/-- The body of the loop over the slots. -/
def profileSlot (load : Int → LoadOrder) (db : Db) (totals : Nat × Nat) (slot : Int) :
    Nat × Nat :=
  let transactions := loadBlockTransactions json (load slot) db slot
  let schedule := scheduleBlock transactions
  (totals.1 + transactions.length, totals.2 + schedule.steps.length)

/-- `LIMIT` is 200. -/
def profileContention (load : Int → LoadOrder) (db : Db) : ContentionProfile :=
  let slots := reportSlots db (some 200)
  let totals := slots.foldl (profileSlot json load db) (0, 0)
  { blocks := slots.length, totalTx := totals.1, totalSteps := totals.2 }

theorem profileSlot_foldl (load : Int → LoadOrder) (db : Db) (slots : List Int)
    (totals : Nat × Nat) :
    slots.foldl (profileSlot json load db) totals
      = (totals.1 + (slots.map fun slot => (db.transactionsOf slot).length).sum,
        totals.2
          + (slots.map fun slot => (blockReport json (load slot) db slot).scheduleDepth).sum) := by
  induction slots generalizing totals with
  | nil => rfl
  | cons slot slots ih =>
      have hlength : (loadBlockTransactions json (load slot) db slot).length
          = (db.transactionsOf slot).length := by
        rw [(loadBlockTransactions_perm json (load slot) db slot).length_eq, List.length_map]
      rw [List.foldl_cons, ih, profileSlot, hlength, List.map_cons, List.map_cons, List.sum_cons,
        List.sum_cons, Nat.add_assoc, Nat.add_assoc]
      rfl

/-- It profiles the report that is built: the totals are those of its entries, in
whatever orders the two were made. -/
theorem profileContention_eq (load : Int → LoadOrder) (ord : ReportOrder) {db : Db}
    (hidx : db.IndexedSlots) :
    profileContention json load db =
      { blocks := (buildRangeReportLimited json ord db (some 200)).blocks.length
        totalTx := ((buildRangeReportLimited json ord db (some 200)).blocks.map fun b =>
          b.stepWidths.sum).sum
        totalSteps := ((buildRangeReportLimited json ord db (some 200)).blocks.map
          (·.scheduleDepth)).sum } := by
  have hdepth : ∀ slot, (blockReport json (load slot) db slot).scheduleDepth
      = (blockReport json (ord.load slot) db slot).scheduleDepth := by
    intro slot
    have hloaded := loadBlockTransactions_sameLocks json (load slot) hidx
      (blockTransactions_load json (ord.load slot) db slot)
    exact congrArg List.length (scheduleBlock_sameLocks hloaded).1
  rw [profileContention, profileSlot_foldl, buildRangeReportLimited_eq]
  simp only [List.length_map, List.map_map, Function.comp_def, blockReport_sum, hdepth,
    Nat.zero_add]

end Astralane
