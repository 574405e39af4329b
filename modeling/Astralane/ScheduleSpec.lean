import Mathlib.Data.List.Flatten
import Mathlib.Data.List.Perm.Basic
import Astralane.ScheduleRefine

/-!
# What a schedule guarantees

Consequences of the refinement to `FirstFit.pack`, phrased on the value that
`schedule_block` returns. Everything goes through the step index of a
signature (`Schedule.stepOf`):

- `getD_steps`: step `j` lists, in input order, the signatures with step
  index `j`, hence validity (`scheduleBlock_valid`);
- `stepOf_greedy`: the step indices are the greedy indices of "earlier and
  conflicting", hence independence of the order of unrelated transactions
  (`scheduleBlock_order_free`);
- `conflicts_attributed`: the events, enumerated without the step sets.
-/

namespace Astralane

open FirstFit

/-! ## Step indices -/

section StepIndex

variable {txs : List Transaction} (hsig : (txs.map (·.signature)).Nodup)
include hsig

theorem stepOf_eq_binOf {t : Transaction} (ht : t ∈ txs) :
    (scheduleBlock txs).stepOf t.signature = binOf (pack Conflicts txs) t := by
  have hnd : txs.Nodup := hsig.of_map
  rw [Schedule.stepOf, scheduleBlock_steps, List.findIdx_map]
  refine (List.findIdx_eq (binOf_lt_length Conflicts hnd ht)).mpr ?_
  -- a bin lists the signature of `t` iff it holds `t`
  have hiff : ∀ j (hj : j < (pack Conflicts txs).length),
      (t.signature ∈ ((pack Conflicts txs)[j].map (·.signature)))
        ↔ binOf (pack Conflicts txs) t = j := by
    intro j hj
    have hmem : ∀ u, u ∈ (pack Conflicts txs)[j] ↔ u ∈ txs ∧ binOf (pack Conflicts txs) u = j := by
      intro u
      rw [← mem_getD_pack Conflicts hnd, List.getD_eq_getElem?_getD, List.getElem?_eq_getElem hj,
        Option.getD_some]
    rw [List.mem_map]
    constructor
    · rintro ⟨u, hu, hut⟩
      obtain ⟨hu, hbin⟩ := (hmem u).mp hu
      rwa [List.inj_on_of_nodup_map hsig hu ht hut] at hbin
    · exact fun hbin => ⟨t, (hmem t).mpr ⟨ht, hbin⟩, rfl⟩
  refine ⟨?_, fun j hj => ?_⟩
  · simpa using (hiff _ (binOf_lt_length Conflicts hnd ht)).mpr rfl
  · have hlt := Nat.lt_trans hj (binOf_lt_length Conflicts hnd ht)
    have hnot := mt (hiff j hlt).mp (Nat.ne_of_gt hj)
    simpa using hnot

/-- Step `j` lists, in input order, the signatures with step index `j`. -/
theorem getD_steps (j : Nat) :
    (scheduleBlock txs).steps.getD j [] =
      (txs.filter fun t => (scheduleBlock txs).stepOf t.signature = j).map (·.signature) := by
  have hnd : txs.Nodup := hsig.of_map
  have hmap : (scheduleBlock txs).steps.getD j []
      = ((pack Conflicts txs).getD j []).map (·.signature) := by
    rw [scheduleBlock_steps, List.getD_eq_getElem?_getD, List.getD_eq_getElem?_getD,
      List.getElem?_map]
    cases (pack Conflicts txs)[j]? <;> rfl
  rw [hmap, getD_pack Conflicts hnd]
  exact congrArg _ (List.filter_congr fun t ht => by rw [stepOf_eq_binOf hsig ht])

theorem stepOf_greedy :
    Greedy (· ∈ txs) (fun u t => [u, t].Sublist txs ∧ Conflicts u t)
      fun t => (scheduleBlock txs).stepOf t.signature := by
  have hpack := greedy_pack Conflicts hsig.of_map
  constructor
  · rintro u t ht ⟨hsub, hconf⟩ heq
    rw [stepOf_eq_binOf hsig (hsub.subset (by simp)), stepOf_eq_binOf hsig ht] at heq
    exact hpack.separated ht ⟨hsub, hconf⟩ heq
  · intro t ht j hj
    rw [stepOf_eq_binOf hsig ht] at hj
    obtain ⟨u, hdep, hu⟩ := hpack.justified ht j hj
    exact ⟨u, hdep, (stepOf_eq_binOf hsig (hdep.1.subset (by simp))).trans hu⟩

theorem stepOf_ne_of_conflicts {t u : Transaction} (ht : t ∈ txs) (hu : u ∈ txs) (hne : t ≠ u)
    (hconf : Conflicts t u) :
    (scheduleBlock txs).stepOf t.signature ≠ (scheduleBlock txs).stepOf u.signature := by
  rcases pair_sublist_total ht hu hne with h | h
  · exact (stepOf_greedy hsig).separated hu ⟨h, hconf⟩
  · exact ((stepOf_greedy hsig).separated ht ⟨h, hconf.symm⟩).symm

end StepIndex

theorem mem_steps_getD {s : Schedule} {step : List String} (h : step ∈ s.steps) :
    ∃ j, s.steps.getD j [] = step := by
  obtain ⟨j, hj, rfl⟩ := List.getElem_of_mem h
  exact ⟨j, by simp [List.getD_eq_getElem?_getD, List.getElem?_eq_getElem hj]⟩

theorem steps_ne_nil (txs : List Transaction) : ∀ s ∈ (scheduleBlock txs).steps, s ≠ [] := by
  rw [scheduleBlock_steps]
  intro s hs
  obtain ⟨ms, hms, rfl⟩ := List.mem_map.mp hs
  simpa using pack_ne_nil Conflicts txs ms hms

/-! ## Validity -/

/-- A valid parallel schedule of `txs`. -/
structure ValidSchedule (txs : List Transaction) (steps : List (List String)) : Prop where
  placed_once : ∀ t ∈ txs, ∃ j, ∀ i,
    (steps.getD i []).count t.signature = if i = j then 1 else 0
  nothing_else : ∀ step ∈ steps, ∀ sig ∈ step, ∃ t ∈ txs, t.signature = sig
  step_nonempty : ∀ step ∈ steps, step ≠ []
  input_order : ∀ step ∈ steps, step.Sublist (txs.map (·.signature))
  conflict_free : ∀ step ∈ steps, ∀ t ∈ txs, ∀ u ∈ txs, t ≠ u →
    t.signature ∈ step → u.signature ∈ step → ¬Conflicts t u

theorem mem_step_iff {txs : List Transaction} (hsig : (txs.map (·.signature)).Nodup) {j : Nat}
    {t : Transaction} (ht : t ∈ txs) :
    t.signature ∈ (scheduleBlock txs).steps.getD j []
      ↔ (scheduleBlock txs).stepOf t.signature = j := by
  rw [getD_steps hsig, List.mem_map]
  constructor
  · rintro ⟨u, hu, hut⟩
    rw [← hut]
    simpa using (List.mem_filter.mp hu).2
  · intro h
    exact ⟨t, List.mem_filter.mpr ⟨ht, by simpa using h⟩, rfl⟩

/-- The steps returned for a block with distinct signatures form a valid
parallel schedule. -/
theorem scheduleBlock_valid (txs : List Transaction) (hsig : (txs.map (·.signature)).Nodup) :
    ValidSchedule txs (scheduleBlock txs).steps where
  placed_once := by
    intro t ht
    refine ⟨(scheduleBlock txs).stepOf t.signature, fun i => ?_⟩
    split
    · rename_i hi
      have hnd : ((scheduleBlock txs).steps.getD i []).Nodup := by
        rw [getD_steps hsig]
        exact (List.filter_sublist.map _).nodup hsig
      exact List.count_eq_one_of_mem hnd ((mem_step_iff hsig ht).mpr hi.symm)
    · rename_i hi
      exact List.count_eq_zero_of_not_mem fun h => hi ((mem_step_iff hsig ht).mp h).symm
  nothing_else := by
    intro step hstep sig hin
    obtain ⟨j, rfl⟩ := mem_steps_getD hstep
    rw [getD_steps hsig] at hin
    obtain ⟨t, ht, rfl⟩ := List.mem_map.mp hin
    exact ⟨t, (List.mem_filter.mp ht).1, rfl⟩
  step_nonempty := by
    intro step hstep
    exact steps_ne_nil txs step hstep
  input_order := by
    intro step hstep
    obtain ⟨j, rfl⟩ := mem_steps_getD hstep
    rw [getD_steps hsig]
    exact List.filter_sublist.map _
  conflict_free := by
    intro step hstep t ht u hu hne hts hus hconf
    obtain ⟨j, rfl⟩ := mem_steps_getD hstep
    have hj := (mem_step_iff hsig ht).mp hts
    have hk := (mem_step_iff hsig hu).mp hus
    exact stepOf_ne_of_conflicts hsig ht hu hne hconf (hj.trans hk.symm)

/-- Three transactions mixing reads and writes, one listing an account twice. -/
def mixedLocks : List Transaction :=
  [⟨"t1", 0, ["P"], [⟨"A", true⟩, ⟨"A", false⟩]⟩,
   ⟨"t2", 1, ["P"], [⟨"A", false⟩, ⟨"B", true⟩]⟩,
   ⟨"t3", 2, ["Q"], [⟨"C", false⟩]⟩]

theorem scheduleBlock_valid_mixedLocks :
    (scheduleBlock mixedLocks).steps = [["t1", "t3"], ["t2"]]
      ∧ ValidSchedule mixedLocks (scheduleBlock mixedLocks).steps :=
  ⟨by decide, scheduleBlock_valid mixedLocks (by decide)⟩

/-! ## Conflict attribution

The declarative enumeration of the events: it knows the step of every
transaction and the input order, and nothing of the sets kept per step. -/

/-- The locks of `t` that clash with a lock of an earlier transaction placed in
step `j`, in the order of `t.locks`. -/
def offendingLocks (stepOf : String → Nat) (earlier : List Transaction) (t : Transaction)
    (j : Nat) : List AccountLock :=
  t.locks.filter fun l =>
    decide (∃ u ∈ earlier, stepOf u.signature = j ∧ ∃ m ∈ u.locks, m.Clashes l)

def attributedTo (stepOf : String → Nat) (earlier : List Transaction) (t : Transaction) :
    List ConflictEvent :=
  (List.range (stepOf t.signature)).flatMap fun j =>
    (offendingLocks stepOf earlier t j).map (ConflictEvent.of t)

/-- For each transaction in input order, each step before its own, each
offending lock: one event. -/
def attribution (stepOf : String → Nat) (txs : List Transaction) : List ConflictEvent :=
  txs.zipIdx.flatMap fun (t, i) => attributedTo stepOf (txs.take i) t

theorem offendingLocks_eq_clashingLocks {stepOf : String → Nat} {earlier : List Transaction}
    {t : Transaction} {j : Nat} (ms : List Transaction)
    (h : ∀ u, Conflicts u t → (u ∈ ms ↔ u ∈ earlier ∧ stepOf u.signature = j)) :
    offendingLocks stepOf earlier t j = clashingLocks ms t := by
  refine List.filter_congr fun l hl => ?_
  rw [decide_eq_decide]
  constructor
  · rintro ⟨u, hu, hj, m, hm, hclash⟩
    exact ⟨u, (h u ⟨m, hm, l, hl, hclash⟩).mpr ⟨hu, hj⟩, m, hm, hclash⟩
  · rintro ⟨u, hu, m, hm, hclash⟩
    obtain ⟨hu, hj⟩ := (h u ⟨m, hm, l, hl, hclash⟩).mp hu
    exact ⟨u, hu, hj, m, hm, hclash⟩

/-- The events of `t` depend only on its own step and, for the transactions
that conflict with it, on whether they are earlier and where they were placed. -/
theorem attributedTo_congr {f g : String → Nat} {earlier earlier' : List Transaction}
    {t : Transaction} (ht : f t.signature = g t.signature)
    (h : ∀ u, Conflicts u t → ∀ j,
      (u ∈ earlier ∧ f u.signature = j ↔ u ∈ earlier' ∧ g u.signature = j)) :
    attributedTo f earlier t = attributedTo g earlier' t := by
  rw [attributedTo, attributedTo, ht]
  refine List.flatMap_congr fun j _ => ?_
  have hf : offendingLocks f earlier t j
      = clashingLocks (earlier.filter fun u => f u.signature = j) t :=
    offendingLocks_eq_clashingLocks _ fun u _ => by simp
  have hg : offendingLocks g earlier' t j
      = clashingLocks (earlier.filter fun u => f u.signature = j) t :=
    offendingLocks_eq_clashingLocks _ fun u hu => by simpa using h u hu j
  rw [hf, hg]

theorem attribution_congr {f g : String → Nat} {txs : List Transaction}
    (h : ∀ u ∈ txs, f u.signature = g u.signature) : attribution f txs = attribution g txs := by
  refine List.flatMap_congr fun ⟨t, i⟩ hti => ?_
  have ht : t ∈ txs := List.fst_mem_of_mem_zipIdx hti
  refine attributedTo_congr (h t ht) fun u _ j => and_congr_right fun hu => ?_
  rw [h u (List.mem_of_mem_take hu)]

/-- What comes of each element and those before it, for one element more. -/
theorem flatMap_take_concat {α β : Type*} (g : List α → α → List β) (l : List α) (a : α) :
    ((l ++ [a]).zipIdx.flatMap fun (x, i) => g ((l ++ [a]).take i) x)
      = (l.zipIdx.flatMap fun (x, i) => g (l.take i) x) ++ g l a := by
  rw [List.zipIdx_append, List.flatMap_append]
  congr 1
  · refine List.flatMap_congr fun ⟨x, i⟩ hx => ?_
    have hi : i < l.length := by simpa using List.snd_lt_of_mem_zipIdx hx
    simp only [List.take_append_of_le_length (Nat.le_of_lt hi)]
  · simp

theorem attribution_concat (f : String → Nat) (l : List Transaction) (t : Transaction) :
    attribution f (l ++ [t]) = attribution f l ++ attributedTo f l t :=
  flatMap_take_concat (attributedTo f) l t

theorem take_eq_map_getD {α : Type*} (l : List α) (d : α) {k : Nat} (hk : k ≤ l.length) :
    l.take k = (List.range k).map (l.getD · d) := by
  refine List.ext_getElem (by simp [hk]) fun i hi hi' => ?_
  have hil : i < l.length := by
    simp only [List.length_take] at hi
    omega
  simp [List.getElem?_eq_getElem hil]

/-- The events of a run, by induction on the input: an arrival leaves the steps
of the earlier transactions alone, so it only appends its own events. -/
theorem scheduleRun_attribution (txs : List Transaction) (hsig : (txs.map (·.signature)).Nodup) :
    (scheduleRun txs).2 = attribution (scheduleBlock txs).stepOf txs := by
  induction txs using List.reverseRecOn with
  | nil => rfl
  | append_singleton l t ih =>
      have hl : (l.map (·.signature)).Nodup := by
        rw [List.map_append] at hsig
        exact (List.nodup_append.mp hsig).1
      have hnd : (l ++ [t]).Nodup := hsig.of_map
      have hold : ∀ u ∈ l, (scheduleBlock (l ++ [t])).stepOf u.signature
          = binOf (pack Conflicts l) u := by
        intro u hu
        rw [stepOf_eq_binOf hsig (List.mem_append_left _ hu), binOf_pack_append Conflicts hnd hu]
      have hnew : (scheduleBlock (l ++ [t])).stepOf t.signature
          = slotFor Conflicts (pack Conflicts l) t := by
        rw [stepOf_eq_binOf hsig (by simp), binOf_pack_eq_slotFor Conflicts hnd]
      have hsame : attribution (scheduleBlock (l ++ [t])).stepOf l
          = attribution (scheduleBlock l).stepOf l :=
        attribution_congr fun u hu => by rw [hold u hu, stepOf_eq_binOf hl hu]
      rw [scheduleRun_conflicts, attribution_concat, ih hl, hsame,
        take_eq_map_getD _ [] (slotFor_le ..), List.flatMap_map, attributedTo, hnew]
      congr 1
      refine List.flatMap_congr fun j _ => ?_
      refine congrArg _ (offendingLocks_eq_clashingLocks _ fun u _ => ?_).symm
      rw [mem_getD_pack Conflicts hl.of_map]
      exact and_congr_right fun hu => by rw [hold u hu]

section Rejections

variable {pre post : List Transaction} {t : Transaction}
  (hsig : ((pre ++ t :: post).map (·.signature)).Nodup)
include hsig

theorem offendingLocks_ne_nil {j : Nat}
    (hj : j < (scheduleBlock (pre ++ t :: post)).stepOf t.signature) :
    offendingLocks (scheduleBlock (pre ++ t :: post)).stepOf pre t j ≠ [] := by
  obtain ⟨u, ⟨hsub, hconf⟩, hu⟩ := (stepOf_greedy hsig).justified (by simp) j hj
  obtain ⟨m, hm, l, hl, hclash⟩ := hconf
  have hpre : u ∈ pre := (pair_sublist_append_cons hsig.of_map).mp hsub
  refine List.ne_nil_of_mem (a := l) (List.mem_filter.mpr ⟨hl, ?_⟩)
  exact decide_eq_true ⟨u, hpre, hu, m, hm, hclash⟩

theorem offendingLocks_own_step :
    offendingLocks (scheduleBlock (pre ++ t :: post)).stepOf pre t
      ((scheduleBlock (pre ++ t :: post)).stepOf t.signature) = [] := by
  rw [offendingLocks, List.filter_eq_nil_iff]
  intro l hl hoff
  obtain ⟨u, hu, hstep, m, hm, hclash⟩ := of_decide_eq_true hoff
  refine (stepOf_greedy hsig).separated (a := t) (by simp) ⟨?_, m, hm, l, hl, hclash⟩ hstep
  exact (pair_sublist_append_cons hsig.of_map).mpr hu

end Rejections

/-- The recorded events are exactly the declarative enumeration; each step that
rejected a transaction contributes at least one event and the step that
accepted it contributes none. -/
theorem conflicts_attributed (txs : List Transaction) (hsig : (txs.map (·.signature)).Nodup) :
    (scheduleBlock txs).conflicts = attribution (scheduleBlock txs).stepOf txs
      ∧ ∀ pre t post, txs = pre ++ t :: post →
          (∀ j < (scheduleBlock txs).stepOf t.signature,
            offendingLocks (scheduleBlock txs).stepOf pre t j ≠ [])
          ∧ offendingLocks (scheduleBlock txs).stepOf pre t
              ((scheduleBlock txs).stepOf t.signature) = [] := by
  refine ⟨scheduleRun_attribution txs hsig, ?_⟩
  rintro pre t post rfl
  exact ⟨fun j hj => offendingLocks_ne_nil hsig hj, offendingLocks_own_step hsig⟩

theorem conflicts_attributed_mixedLocks :
    (scheduleBlock mixedLocks).conflicts = [⟨"A", false, ["P"]⟩]
      ∧ (scheduleBlock mixedLocks).conflicts
          = attribution (scheduleBlock mixedLocks).stepOf mixedLocks :=
  ⟨by decide, (conflicts_attributed mixedLocks (by decide)).1⟩

/-! ## Independence of the order of unrelated transactions -/

theorem attribution_eq_flatMap {txs : List Transaction} (hnd : txs.Nodup) (f : String → Nat) :
    attribution f txs =
      txs.flatMap fun t => attributedTo f (txs.filter fun u => [u, t].Sublist txs) t := by
  have hfst : txs = txs.zipIdx.map Prod.fst := by simp
  conv => rhs; arg 2; rw [hfst]
  rw [List.flatMap_map]
  refine List.flatMap_congr fun ⟨t, i⟩ hti => ?_
  have hsplit : txs = txs.take i ++ t :: txs.drop (i + 1) := by
    obtain ⟨hi, ht⟩ := List.getElem?_eq_some_iff.mp (List.mem_zipIdx_iff_getElem?.mp hti)
    conv => lhs; rw [← List.take_append_drop i txs, List.drop_eq_getElem_cons hi, ht]
  refine attributedTo_congr rfl fun u _ j => ?_
  have hiff : [u, t].Sublist txs ↔ u ∈ txs.take i := by
    rw [hsplit] at hnd
    conv => lhs; rw [hsplit]
    exact pair_sublist_append_cons hnd
  simp only [List.mem_filter, decide_eq_true_eq, hiff]
  exact and_congr_left' ⟨fun h => ⟨List.mem_of_mem_take h, h⟩, fun h => h.2⟩

/-- `txs'` reorders `txs`, keeping the relative order of conflicting pairs. -/
structure ConflictReordering (txs txs' : List Transaction) : Prop where
  perm : txs.Perm txs'
  agree : ∀ u ∈ txs, ∀ t ∈ txs, Conflicts u t → ([u, t].Sublist txs ↔ [u, t].Sublist txs')

theorem ConflictReordering.dep_iff {txs txs' : List Transaction}
    (hre : ConflictReordering txs txs') {u t : Transaction} :
    [u, t].Sublist txs ∧ Conflicts u t ↔ [u, t].Sublist txs' ∧ Conflicts u t := by
  refine and_congr_left fun hconf => ⟨fun h => ?_, fun h => ?_⟩
  · exact (hre.agree u (h.subset (by simp)) t (h.subset (by simp)) hconf).mp h
  · have hmem : ∀ v ∈ [u, t], v ∈ txs := fun v hv => hre.perm.mem_iff.mpr (h.subset hv)
    exact (hre.agree u (hmem u (by simp)) t (hmem t (by simp)) hconf).mpr h

section Reordering

variable {txs txs' : List Transaction} (hsig : (txs.map (·.signature)).Nodup)
  (hre : ConflictReordering txs txs')
include hsig hre

theorem reordering_nodup : (txs'.map (·.signature)).Nodup :=
  (hre.perm.map _).nodup_iff.mp hsig

/-- Both runs are greedy for the same dependency relation. -/
theorem reordering_stepOf {t : Transaction} (ht : t ∈ txs) :
    (scheduleBlock txs).stepOf t.signature = (scheduleBlock txs').stepOf t.signature := by
  have hgreedy := stepOf_greedy (reordering_nodup hsig hre)
  have hgreedy' : Greedy (· ∈ txs) (fun u t => [u, t].Sublist txs ∧ Conflicts u t)
      fun t => (scheduleBlock txs').stepOf t.signature := by
    constructor
    · intro u a ha hdep
      exact hgreedy.separated (hre.perm.mem_iff.mp ha) (hre.dep_iff.mp hdep)
    · intro a ha j hj
      obtain ⟨u, hdep, hu⟩ := hgreedy.justified (hre.perm.mem_iff.mp ha) j hj
      exact ⟨u, hre.dep_iff.mpr hdep, hu⟩
  have hwf : WellFounded fun u t => [u, t].Sublist txs ∧ Conflicts u t :=
    Subrelation.wf (fun h => h.1) (pair_sublist_wf hsig.of_map)
  exact (stepOf_greedy hsig).unique hwf (fun h => h.1.subset (by simp)) hgreedy' t ht

theorem reordering_width (j : Nat) :
    ((scheduleBlock txs).steps.getD j []).length
      = ((scheduleBlock txs').steps.getD j []).length := by
  rw [getD_steps hsig, getD_steps (reordering_nodup hsig hre), List.length_map, List.length_map,
    List.filter_congr fun t ht => by rw [reordering_stepOf hsig hre ht]]
  exact (hre.perm.filter _).length_eq

theorem reordering_conflicts :
    (scheduleBlock txs).conflicts.Perm (scheduleBlock txs').conflicts := by
  have hsig' := reordering_nodup hsig hre
  have hA : (scheduleBlock txs).conflicts = _ := scheduleRun_attribution txs hsig
  have hB : (scheduleBlock txs').conflicts = _ := scheduleRun_attribution txs' hsig'
  rw [hA, hB, attribution_eq_flatMap hsig.of_map, attribution_eq_flatMap hsig'.of_map]
  refine hre.perm.flatMap fun t ht => List.Perm.of_eq ?_
  refine attributedTo_congr (reordering_stepOf hsig hre ht) fun u hconf j => ?_
  have hdep := hre.dep_iff (u := u) (t := t)
  simp only [List.mem_filter, decide_eq_true_eq, hconf, and_true, hre.perm.mem_iff] at hdep ⊢
  rw [hdep]
  refine and_congr_right fun hu => ?_
  rw [reordering_stepOf hsig hre (hre.perm.mem_iff.mpr hu.1)]

end Reordering

/-- Lists of non-empty lists agree in their lengths once they agree at every
index, past the end included. -/
theorem map_length_eq_of_getD {l l' : List (List String)} (h : ∀ s ∈ l, s ≠ [])
    (h' : ∀ s ∈ l', s ≠ []) (hw : ∀ j, (l.getD j []).length = (l'.getD j []).length) :
    l.map List.length = l'.map List.length := by
  induction l generalizing l' with
  | nil =>
      cases l' with
      | nil => rfl
      | cons s l' =>
          have h0 := hw 0
          simp only [List.getD_nil, List.length_nil, List.getD_cons_zero] at h0
          exact absurd (List.length_eq_zero_iff.mp h0.symm) (h' s (by simp))
  | cons s l ih =>
      cases l' with
      | nil =>
          have h0 := hw 0
          simp only [List.getD_nil, List.length_nil, List.getD_cons_zero] at h0
          exact absurd (List.length_eq_zero_iff.mp h0) (h s (by simp))
      | cons s' l' =>
          rw [List.map_cons, List.map_cons, ih (fun s hs => h s (List.mem_cons_of_mem _ hs))
            (fun s hs => h' s (List.mem_cons_of_mem _ hs)) (fun j => hw (j + 1))]
          exact congrArg (· :: _) (hw 0)

/-- The schedule depends only on the order of conflicting transactions: two
orderings that agree on those give every transaction the same step, the same
depth and widths, and permutations of the same events. -/
theorem scheduleBlock_order_free (txs txs' : List Transaction)
    (hsig : (txs.map (·.signature)).Nodup) (hre : ConflictReordering txs txs') :
    (∀ t ∈ txs, (scheduleBlock txs).stepOf t.signature = (scheduleBlock txs').stepOf t.signature)
      ∧ (scheduleBlock txs).steps.length = (scheduleBlock txs').steps.length
      ∧ (scheduleBlock txs).steps.map List.length = (scheduleBlock txs').steps.map List.length
      ∧ (scheduleBlock txs).conflicts.Perm (scheduleBlock txs').conflicts := by
  have hwidths := map_length_eq_of_getD (steps_ne_nil txs) (steps_ne_nil txs')
    (reordering_width hsig hre)
  refine ⟨fun t ht => reordering_stepOf hsig hre ht, ?_, hwidths, reordering_conflicts hsig hre⟩
  simpa using congrArg List.length hwidths

/-- `mixedLocks` with the transaction that touches neither `A` nor `B` first. -/
def mixedLocksReordered : List Transaction :=
  [⟨"t3", 2, ["Q"], [⟨"C", false⟩]⟩,
   ⟨"t1", 0, ["P"], [⟨"A", true⟩, ⟨"A", false⟩]⟩,
   ⟨"t2", 1, ["P"], [⟨"A", false⟩, ⟨"B", true⟩]⟩]

theorem scheduleBlock_order_free_mixedLocks :
    (scheduleBlock mixedLocks).steps ≠ (scheduleBlock mixedLocksReordered).steps
      ∧ (scheduleBlock mixedLocks).steps.map List.length
          = (scheduleBlock mixedLocksReordered).steps.map List.length :=
  ⟨by decide, (scheduleBlock_order_free mixedLocks mixedLocksReordered (by decide)
    ⟨by decide, by decide⟩).2.2.1⟩

end Astralane
