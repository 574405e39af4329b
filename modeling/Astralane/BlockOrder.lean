import Astralane.Footprint
import Astralane.Keyed
import Astralane.ScheduleSpec

/-!
# Schedules and block order

What running a schedule step by step has to do with running the block. A
transaction is a state update with a footprint: it reads accounts it locks and
writes accounts it locks writable; nothing else about it is fixed.

The members of a step do not interfere, so the order within steps is immaterial.
The order between steps need not be that of the block: first-fit asks only
whether a step holds a conflict, and may put a transaction before a later step
that holds an earlier one it conflicts with. The schedule realises the block
exactly when that happens to no two transactions that write
(`realisesBlock_iff`), and it never happens when conflicts come in closed chains
(`stepOf_lt_of_chained`).
-/

namespace Astralane

open FirstFit Footprint

/-! ## Execution -/

def Transaction.Locks (t : Transaction) (account : String) : Prop :=
  ∃ l ∈ t.locks, l.accountPubkey = account

def Transaction.LocksWritable (t : Transaction) (account : String) : Prop :=
  ∃ l ∈ t.locks, l.accountPubkey = account ∧ l.isWritable = true

/-- Transactions as updates of an account state with values in `V`. -/
abbrev Effects (V : Type) := Interpretation Transaction.Locks Transaction.LocksWritable V

/-- `order` runs through `steps` one after another, through the members of each
in any order. -/
def Arranges (steps : List (List String)) (order : List String) : Prop :=
  ∃ parts, List.Forall₂ List.Perm parts steps ∧ parts.flatten = order

/-- The transactions of the block that `signatures` names. -/
def namedTransactions (txs : List Transaction) (signatures : List String) : List Transaction :=
  signatures.filterMap fun signature => txs.find? fun t => t.signature = signature

/-- Executing the steps one after another does what executing the block does,
whatever the transactions compute and wherever they start from. -/
def RealisesBlock (txs : List Transaction) : Prop :=
  ∀ (V : Type) (effects : Effects V) (order : List String),
    Arranges (scheduleBlock txs).steps order →
      ∀ σ, effects.exec (namedTransactions txs order) σ = effects.exec txs σ

theorem locks_of_locksWritable (t : Transaction) (account : String)
    (h : t.LocksWritable account) : t.Locks account := by
  obtain ⟨l, hl, hkey, -⟩ := h
  exact ⟨l, hl, hkey⟩

/-- Transactions interfere when they conflict and both write. -/
theorem interferes_iff {u t : Transaction} :
    Interferes Transaction.Locks Transaction.LocksWritable u t
      ↔ Conflicts u t ∧ (∃ a, u.LocksWritable a) ∧ ∃ a, t.LocksWritable a := by
  constructor
  · rintro ⟨hu, ht, a, ⟨⟨l, hl, hla, hw⟩, m, hm, hma⟩ | ⟨⟨l, hl, hla⟩, m, hm, hma, hw⟩⟩
    · exact ⟨⟨l, hl, m, hm, hla.trans hma.symm, Or.inl hw⟩, hu, ht⟩
    · exact ⟨⟨l, hl, m, hm, hla.trans hma.symm, Or.inr hw⟩, hu, ht⟩
  · rintro ⟨⟨l, hl, m, hm, hkey, hw | hw⟩, hu, ht⟩
    · exact ⟨hu, ht, l.accountPubkey, Or.inl ⟨⟨l, hl, rfl, hw⟩, m, hm, hkey.symm⟩⟩
    · exact ⟨hu, ht, l.accountPubkey, Or.inr ⟨⟨l, hl, rfl⟩, m, hm, hkey.symm, hw⟩⟩

/-! ## The order of an arrangement -/

section Arrangement

variable {txs : List Transaction} (hsig : (txs.map (·.signature)).Nodup)
include hsig

theorem find_signature {t : Transaction} (ht : t ∈ txs) :
    (txs.find? fun u => u.signature = t.signature) = some t :=
  (Keyed.find?_eq_some (t := (⟨txs, hsig⟩ : Keyed Transaction.signature))).mpr ⟨ht, rfl⟩

theorem namedTransactions_map {ms : List Transaction} (hms : ∀ t ∈ ms, t ∈ txs) :
    namedTransactions txs (ms.map (·.signature)) = ms := by
  rw [namedTransactions, List.filterMap_map]
  induction ms with
  | nil => rfl
  | cons t ms ih =>
      have ht : t ∈ txs := hms t List.mem_cons_self
      rw [List.filterMap_cons, Function.comp_apply, find_signature hsig ht,
        ih fun u hu => hms u (List.mem_cons_of_mem t hu)]

variable {order : List String} (horder : Arranges (scheduleBlock txs).steps order)
include horder

/-- An arrangement of the signatures is one of the bins of the packing. -/
theorem exists_parts :
    ∃ parts, List.Forall₂ List.Perm parts (pack Conflicts txs)
      ∧ parts.flatten = namedTransactions txs order := by
  obtain ⟨parts, hparts, rfl⟩ := horder
  refine ⟨parts.map (namedTransactions txs), ?_, ?_⟩
  · rw [scheduleBlock_steps, List.forall₂_map_right_iff] at hparts
    rw [List.forall₂_map_left_iff]
    have hin : ∀ b ∈ pack Conflicts txs, ∀ t ∈ b, t ∈ txs := fun b hb t ht =>
      (flatten_pack Conflicts txs).subset (List.mem_flatten.mpr ⟨b, hb, ht⟩)
    generalize pack Conflicts txs = bins at hparts hin ⊢
    induction hparts with
    | nil => exact .nil
    | cons hd _ ih =>
        refine .cons ?_ (ih fun b hb => hin b (List.mem_cons_of_mem _ hb))
        have hnamed := hd.filterMap fun signature => txs.find? fun t => t.signature = signature
        exact hnamed.trans
          (List.Perm.of_eq (namedTransactions_map hsig (hin _ List.mem_cons_self)))
  · rw [namedTransactions, List.filterMap_flatten]
    rfl

theorem named_perm : (namedTransactions txs order).Perm txs := by
  obtain ⟨parts, hparts, hflat⟩ := exists_parts hsig horder
  rw [← hflat]
  exact (List.Perm.flatten_congr hparts).trans (flatten_pack Conflicts txs)

theorem named_nodup : (namedTransactions txs order).Nodup :=
  (named_perm hsig horder).nodup_iff.mpr hsig.of_map

theorem named_pair_of_lt {u t : Transaction} (hu : u ∈ txs) (ht : t ∈ txs)
    (hlt : (scheduleBlock txs).stepOf u.signature < (scheduleBlock txs).stepOf t.signature) :
    [u, t].Sublist (namedTransactions txs order) := by
  obtain ⟨parts, hparts, hflat⟩ := exists_parts hsig horder
  have hmem : ∀ v ∈ txs, v ∈ parts.getD ((scheduleBlock txs).stepOf v.signature) [] := by
    intro v hv
    rw [stepOf_eq_binOf hsig hv, (getD_forall₂ (List.Perm.refl []) hparts _).mem_iff,
      mem_getD_pack Conflicts hsig.of_map]
    exact ⟨hv, rfl⟩
  rw [← hflat]
  exact pair_sublist_flatten hlt (hmem u hu) (hmem t ht)

theorem le_of_named_pair {u t : Transaction}
    (hut : [u, t].Sublist (namedTransactions txs order)) :
    (scheduleBlock txs).stepOf u.signature ≤ (scheduleBlock txs).stepOf t.signature := by
  have hmem : ∀ v ∈ [u, t], v ∈ txs := fun v hv =>
    (named_perm hsig horder).mem_iff.mp (hut.subset hv)
  by_contra hnot
  have htu := named_pair_of_lt hsig horder (hmem t (by simp)) (hmem u (by simp))
    (Nat.lt_of_not_le hnot)
  exact pair_sublist_asymm (named_nodup hsig horder) hut htu

/-- A conflicting pair is arranged by its steps. -/
theorem lt_of_named_pair {u t : Transaction}
    (hut : [u, t].Sublist (namedTransactions txs order)) (hconf : Conflicts u t) :
    (scheduleBlock txs).stepOf u.signature < (scheduleBlock txs).stepOf t.signature := by
  have hmem : ∀ v ∈ [u, t], v ∈ txs := fun v hv =>
    (named_perm hsig horder).mem_iff.mp (hut.subset hv)
  have hne := stepOf_ne_of_conflicts hsig (hmem u (by simp)) (hmem t (by simp))
    (pair_sublist_ne (named_nodup hsig horder) hut) hconf
  have hle := le_of_named_pair hsig horder hut
  omega

end Arrangement

/-! ## What a schedule computes -/

section Outcome

variable {txs : List Transaction} (hsig : (txs.map (·.signature)).Nodup)
include hsig

theorem exec_arrangement_eq {V : Type} (effects : Effects V) {order order' : List String}
    (horder : Arranges (scheduleBlock txs).steps order)
    (horder' : Arranges (scheduleBlock txs).steps order') (σ : String → V) :
    effects.exec (namedTransactions txs order) σ
      = effects.exec (namedTransactions txs order') σ := by
  have hperm := named_perm hsig horder
  have hperm' := named_perm hsig horder'
  refine effects.exec_eq_of_order locks_of_locksWritable (named_nodup hsig horder)
    (hperm'.trans hperm.symm) (fun {u t} hut hint => ?_) σ
  have hlt := lt_of_named_pair hsig horder hut (interferes_iff.mp hint).1
  have hmem : ∀ v ∈ [u, t], v ∈ txs := fun v hv => hperm.mem_iff.mp (hut.subset hv)
  exact named_pair_of_lt hsig horder' (hmem u (by simp)) (hmem t (by simp)) hlt

theorem realisesBlock_iff :
    RealisesBlock txs ↔ ∀ u t, [u, t].Sublist txs → Conflicts u t →
      (∃ a, u.LocksWritable a) → (∃ a, t.LocksWritable a) →
        (scheduleBlock txs).stepOf u.signature < (scheduleBlock txs).stepOf t.signature := by
  constructor
  · intro h u t hut hconf hu ht
    -- the steps as they are returned are one arrangement
    have horder : Arranges (scheduleBlock txs).steps (scheduleBlock txs).steps.flatten :=
      ⟨_, List.forall₂_same.mpr fun _ _ => List.Perm.refl _, rfl⟩
    have hkept := order_of_exec_eq locks_of_locksWritable hsig.of_map (named_perm hsig horder)
      (fun effects σ => h Bool effects _ horder σ) hut (interferes_iff.mpr ⟨hconf, hu, ht⟩)
    exact lt_of_named_pair hsig horder hkept hconf
  · intro h V effects order horder σ
    refine (effects.exec_eq_of_order locks_of_locksWritable hsig.of_map (named_perm hsig horder)
      (fun {u t} hut hint => ?_) σ).symm
    obtain ⟨hconf, hu, ht⟩ := interferes_iff.mp hint
    exact named_pair_of_lt hsig horder (hut.subset (by simp)) (hut.subset (by simp))
      (h u t hut hconf hu ht)

/-- A step skipped for the sake of `s` is closed to all that conflict with `s`. -/
theorem stepOf_lt_of_chained
    (hchain : ∀ s u t, [s, u, t].Sublist txs → Conflicts s u → Conflicts u t → Conflicts s t)
    {u t : Transaction} (hut : [u, t].Sublist txs) (hconf : Conflicts u t) :
    (scheduleBlock txs).stepOf u.signature < (scheduleBlock txs).stepOf t.signature := by
  have hgreedy := stepOf_greedy hsig
  have ht : t ∈ txs := hut.subset (by simp)
  rcases Nat.lt_trichotomy ((scheduleBlock txs).stepOf u.signature)
    ((scheduleBlock txs).stepOf t.signature) with hlt | heq | hgt
  · exact hlt
  · exact absurd heq (hgreedy.separated ht ⟨hut, hconf⟩)
  · obtain ⟨s, ⟨hsu, hsconf⟩, hs⟩ := hgreedy.justified (hut.subset (by simp)) _ hgt
    have htriple := triple_sublist hsig.of_map hsu hut
    have hst : [s, t].Sublist txs :=
      (List.cons_sublist_cons.mpr (List.sublist_cons_self u [t])).trans htriple
    exact absurd hs (hgreedy.separated ht ⟨hst, hchain s u t htriple hsconf hconf⟩)

end Outcome

/-- What executing a schedule computes: the order within its steps is
immaterial, and it realises the block if and only if no conflicting pair of
writing transactions is put out of order; chained conflicts never are. -/
theorem scheduleBlock_realises (txs : List Transaction) (hsig : (txs.map (·.signature)).Nodup) :
    (∀ (V : Type) (effects : Effects V) (order order' : List String),
        Arranges (scheduleBlock txs).steps order → Arranges (scheduleBlock txs).steps order' →
          ∀ σ, effects.exec (namedTransactions txs order) σ
            = effects.exec (namedTransactions txs order') σ)
      ∧ (RealisesBlock txs ↔ ∀ u t, [u, t].Sublist txs → Conflicts u t →
          (∃ a, u.LocksWritable a) → (∃ a, t.LocksWritable a) →
            (scheduleBlock txs).stepOf u.signature < (scheduleBlock txs).stepOf t.signature)
      ∧ ((∀ s u t, [s, u, t].Sublist txs → Conflicts s u → Conflicts u t → Conflicts s t) →
          ∀ u t, [u, t].Sublist txs → Conflicts u t →
            (scheduleBlock txs).stepOf u.signature < (scheduleBlock txs).stepOf t.signature) :=
  ⟨fun _ effects _ _ horder horder' σ => exec_arrangement_eq hsig effects horder horder' σ,
    realisesBlock_iff hsig, fun hchain _ _ hut hconf => stepOf_lt_of_chained hsig hchain hut hconf⟩

theorem scheduleBlock_realises_mixedLocks :
    Arranges (scheduleBlock mixedLocks).steps ["t3", "t1", "t2"]
      ∧ ∀ (effects : Effects Nat) (σ : String → Nat),
          effects.exec (namedTransactions mixedLocks ["t3", "t1", "t2"]) σ
            = effects.exec (namedTransactions mixedLocks ["t1", "t3", "t2"]) σ := by
  have hsteps : (scheduleBlock mixedLocks).steps = [["t1", "t3"], ["t2"]] := by decide
  have hswapped : Arranges (scheduleBlock mixedLocks).steps ["t3", "t1", "t2"] :=
    ⟨[["t3", "t1"], ["t2"]], by rw [hsteps]; exact .cons (.swap ..) (.cons (.refl _) .nil), rfl⟩
  have hplaced : Arranges (scheduleBlock mixedLocks).steps ["t1", "t3", "t2"] :=
    ⟨[["t1", "t3"], ["t2"]], by rw [hsteps]; exact .cons (.refl _) (.cons (.refl _) .nil), rfl⟩
  exact ⟨hswapped, fun effects σ =>
    (scheduleBlock_realises mixedLocks (by decide)).1 Nat effects _ _ hswapped hplaced σ⟩

/-- `t2` waits for `t1`; `t3` conflicts with `t2` only, and is put beside `t1`. -/
def unchainedWrites : List Transaction :=
  [⟨"t1", 0, [], [⟨"A", true⟩]⟩,
   ⟨"t2", 1, [], [⟨"A", true⟩, ⟨"B", true⟩]⟩,
   ⟨"t3", 2, [], [⟨"B", true⟩]⟩]

theorem unchainedWrites_not_realised :
    (scheduleBlock unchainedWrites).steps = [["t1", "t3"], ["t2"]]
      ∧ ¬RealisesBlock unchainedWrites := by
  refine ⟨by decide, fun h => ?_⟩
  have hlt := (realisesBlock_iff (by decide)).mp h
    ⟨"t2", 1, [], [⟨"A", true⟩, ⟨"B", true⟩]⟩ ⟨"t3", 2, [], [⟨"B", true⟩]⟩ (by decide) (by decide)
    ⟨"B", ⟨"B", true⟩, by decide, rfl, rfl⟩ ⟨"B", ⟨"B", true⟩, by decide, rfl, rfl⟩
  exact absurd hlt (by decide)

end Astralane
