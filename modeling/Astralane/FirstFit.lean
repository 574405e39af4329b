import Mathlib.Algebra.GroupWithZero.Nat
import Mathlib.Data.List.Nodup
import Mathlib.Data.List.Sublists
import Mathlib.Order.WellFounded
import Mathlib.Tactic.Common

/-!
# First-fit packing

The generic mathematics of an online first-fit: items arrive one after
another and each goes into the first bin none of whose members conflicts
with it, a new bin being opened when there is none.

Two views, and the bridge between them:

- **operational** (`place`, `pack`): the list of bins, extended item by
  item. `getD_pack` says what a packing is: bin `j` is the sublist of the
  input whose items have bin index `j`.
- **declarative** (`Greedy`): a bin index per item that differs from the
  index of every dependency and skips only indices some dependency has.
  It is determined by the dependency relation alone (`Greedy.unique`),
  whatever order produced it.

`greedy_pack` connects them: the bin indices of a packing are the greedy
indices of "arrives earlier and conflicts".
-/

namespace FirstFit

/-! ## Greedy index functions -/

/-- `f` is the greedy index function of the dependency relation `dep` on
`S`: no dependency shares its dependent's index, and an index below `f a`
is passed over only because some dependency of `a` has it. -/
structure Greedy {α : Type*} (S : α → Prop) (dep : α → α → Prop) (f : α → Nat) : Prop where
  separated : ∀ {u a}, S a → dep u a → f u ≠ f a
  justified : ∀ {a}, S a → ∀ j < f a, ∃ u, dep u a ∧ f u = j

/-- A greedy index function is determined by its dependency relation. If two
of them differed at `a` they would agree on all dependencies of `a`, and the
smaller index at `a` would be justified by a dependency that has it. -/
theorem Greedy.unique {α : Type*} {S : α → Prop} {dep : α → α → Prop} {f g : α → Nat}
    (hwf : WellFounded dep) (hS : ∀ {u a}, dep u a → S u)
    (hf : Greedy S dep f) (hg : Greedy S dep g) : ∀ a, S a → f a = g a := by
  intro a
  induction a using hwf.induction with
  | _ a ih =>
      intro ha
      rcases Nat.lt_trichotomy (f a) (g a) with hlt | heq | hgt
      · obtain ⟨u, hdep, hu⟩ := hg.justified ha _ hlt
        exact absurd ((ih u hdep (hS hdep)).trans hu) (hf.separated ha hdep)
      · exact heq
      · obtain ⟨u, hdep, hu⟩ := hf.justified ha _ hgt
        exact absurd ((ih u hdep (hS hdep)).symm.trans hu) (hg.separated ha hdep)

/-! ## Arrival order

`[u, a] <+ l` says that an occurrence of `u` precedes one of `a`; on a list
without repetitions this is a strict order. -/

theorem pair_sublist_append_cons {α : Type*} {pre post : List α} {u a : α}
    (hnd : (pre ++ a :: post).Nodup) : [u, a].Sublist (pre ++ a :: post) ↔ u ∈ pre := by
  constructor
  · intro h
    obtain ⟨hpre, hpost, hdisj⟩ := List.nodup_append.mp hnd
    obtain ⟨l₁, l₂, hl, h₁, h₂⟩ := List.sublist_append_iff.mp h
    -- `a` is not in `pre`, so the split of `[u, a]` leaves `u` on the left
    match l₁, hl with
    | [], hl =>
        obtain rfl : l₂ = [u, a] := by simpa using hl.symm
        rcases List.sublist_cons_iff.mp h₂ with h₃ | ⟨r, hr, h₃⟩
        · exact absurd (h₃.subset (by simp)) (List.nodup_cons.mp hpost).1
        · obtain ⟨rfl, rfl⟩ := List.cons.inj hr
          exact absurd (h₃.subset (by simp)) (List.nodup_cons.mp hpost).1
    | [v], hl =>
        obtain ⟨rfl, -⟩ := List.cons.inj hl
        exact h₁.subset (by simp)
    | v :: w :: r, hl =>
        obtain ⟨rfl, hl'⟩ := List.cons.inj hl
        exact h₁.subset (by simp)
  · intro h
    exact (List.singleton_sublist.mpr h).append (List.singleton_sublist.mpr (by simp))

theorem pair_sublist_wf {α : Type*} {l : List α} (hnd : l.Nodup) :
    WellFounded fun u a => [u, a].Sublist l := by
  classical
  refine Subrelation.wf (r := InvImage (· < ·) (l.idxOf ·)) ?_ (InvImage.wf _ Nat.lt_wfRel.wf)
  intro u a h
  have hmem : a ∈ l := h.subset (by simp)
  obtain ⟨pre, post, rfl⟩ := List.append_of_mem hmem
  have hu : u ∈ pre := (pair_sublist_append_cons hnd).mp h
  have ha : a ∉ pre := fun ha => (List.nodup_append.mp hnd).2.2 a ha a (by simp) rfl
  show List.idxOf u _ < List.idxOf a _
  rw [List.idxOf_append_of_mem hu, List.idxOf_append_of_notMem ha]
  exact Nat.lt_of_lt_of_le (List.idxOf_lt_length_of_mem hu) (Nat.le_add_right ..)

theorem pair_sublist_total {α : Type*} {l : List α} {u a : α} (hu : u ∈ l) (ha : a ∈ l)
    (hne : u ≠ a) : [u, a].Sublist l ∨ [a, u].Sublist l := by
  obtain ⟨pre, post, rfl⟩ := List.append_of_mem ha
  rcases List.mem_append.mp hu with h | h
  · exact Or.inl ((List.singleton_sublist.mpr h).append (List.singleton_sublist.mpr (by simp)))
  · obtain rfl | h := List.mem_cons.mp h
    · exact absurd rfl hne
    · exact Or.inr (List.sublist_append_of_sublist_right
        (List.cons_sublist_cons.mpr (List.singleton_sublist.mpr h)))

theorem pair_sublist_ne {α : Type*} {l : List α} {u a : α} (hnd : l.Nodup)
    (h : [u, a].Sublist l) : u ≠ a := by
  have hpair := h.nodup hnd
  simp only [List.nodup_cons, List.mem_singleton] at hpair
  exact hpair.1

theorem pair_sublist_asymm {α : Type*} {l : List α} {u a : α} (hnd : l.Nodup)
    (h : [u, a].Sublist l) : ¬[a, u].Sublist l := by
  intro h'
  have ha : a ∈ l := h.subset (by simp)
  obtain ⟨pre, post, rfl⟩ := List.append_of_mem ha
  have hu : u ∈ pre := (pair_sublist_append_cons hnd).mp h
  obtain ⟨before, after, rfl⟩ := List.append_of_mem hu
  -- `a` would have to stand both before and after `u`
  rw [List.append_assoc, List.cons_append] at h' hnd
  have ha' : a ∈ before := (pair_sublist_append_cons hnd).mp h'
  exact (List.nodup_append.mp hnd).2.2 a ha' a (by simp) rfl

theorem pair_sublist_append_cons_left {α : Type*} {pre post : List α} {u a : α}
    (hnd : (pre ++ u :: post).Nodup) : [u, a].Sublist (pre ++ u :: post) ↔ a ∈ post := by
  constructor
  · intro h
    have ha : a ∈ pre ++ u :: post := h.subset (by simp)
    rcases List.mem_append.mp ha with hpre | hpost
    · exact absurd ((pair_sublist_append_cons hnd).mpr hpre) (pair_sublist_asymm hnd h)
    · exact (List.mem_cons.mp hpost).resolve_left (pair_sublist_ne hnd h).symm
  · intro h
    exact List.sublist_append_of_sublist_right
      (List.cons_sublist_cons.mpr (List.singleton_sublist.mpr h))

/-- What precedes `u` and what follows it line up around it. -/
theorem triple_sublist {α : Type*} {l : List α} {s u a : α} (hnd : l.Nodup)
    (hsu : [s, u].Sublist l) (hua : [u, a].Sublist l) : [s, u, a].Sublist l := by
  obtain ⟨pre, post, rfl⟩ := List.append_of_mem (hsu.subset (by simp : u ∈ [s, u]))
  have hs : s ∈ pre := (pair_sublist_append_cons hnd).mp hsu
  have ha : a ∈ post := (pair_sublist_append_cons_left hnd).mp hua
  exact (List.singleton_sublist.mpr hs).append
    (List.cons_sublist_cons.mpr (List.singleton_sublist.mpr ha))

/-! ## Packing -/

section Packing

variable {α : Type*} (conf : α → α → Prop) [DecidableRel conf]

/-- The first bin without a member conflicting with `a`; the number of bins
when there is none. -/
def slotFor (bins : List (List α)) (a : α) : Nat :=
  bins.findIdx fun b => b.all fun u => !decide (conf u a)

/-- Put `a` into its slot, opening a new bin at the end if need be. -/
def place (bins : List (List α)) (a : α) : List (List α) :=
  if slotFor conf bins a < bins.length then
    bins.modify (slotFor conf bins a) (· ++ [a])
  else
    bins ++ [[a]]

def pack (l : List α) : List (List α) :=
  l.foldl (place conf) []

@[simp] theorem pack_nil : pack conf [] = [] := rfl

theorem pack_concat (l : List α) (a : α) :
    pack conf (l ++ [a]) = place conf (pack conf l) a := by
  simp [pack]

theorem slotFor_le (bins : List (List α)) (a : α) : slotFor conf bins a ≤ bins.length :=
  List.findIdx_le_length

theorem getD_place (bins : List (List α)) (a : α) (j : Nat) :
    (place conf bins a).getD j []
      = if j = slotFor conf bins a then bins.getD j [] ++ [a] else bins.getD j [] := by
  unfold place
  split
  · rename_i hlt
    simp only [List.getD_eq_getElem?_getD, List.getElem?_modify]
    by_cases hj : j = slotFor conf bins a
    · subst hj
      simp [List.getElem?_eq_getElem hlt]
    · simp [hj, Ne.symm hj]
  · rename_i hge
    have hslot : slotFor conf bins a = bins.length :=
      Nat.le_antisymm (slotFor_le conf bins a) (Nat.le_of_not_lt hge)
    rw [hslot]
    simp only [List.getD_eq_getElem?_getD, List.getElem?_append]
    rcases Nat.lt_trichotomy j bins.length with h | rfl | h
    · simp [h, Nat.ne_of_lt h]
    · simp
    · obtain ⟨k, hk⟩ := Nat.exists_eq_add_of_lt h
      have hj : j - bins.length = k + 1 := by omega
      simp [Nat.not_lt_of_lt h, Nat.ne_of_gt h, hj]

/-- Below its slot `a` is rejected by every bin. -/
theorem exists_conf_of_lt_slotFor {bins : List (List α)} {a : α} {j : Nat}
    (h : j < slotFor conf bins a) : ∃ u ∈ bins.getD j [], conf u a := by
  have hlt : j < bins.length := Nat.lt_of_lt_of_le h (slotFor_le conf bins a)
  have hnot := List.not_of_lt_findIdx h
  simp only [List.all_eq_false, Bool.not_eq_eq_eq_not] at hnot
  obtain ⟨u, hu, hconf⟩ := hnot
  exact ⟨u, by simpa [List.getD_eq_getElem?_getD, List.getElem?_eq_getElem hlt] using hu,
    by simpa using hconf⟩

/-- The slot itself holds nothing that conflicts with `a`. -/
theorem not_conf_slotFor {bins : List (List α)} {a : α} :
    ∀ u ∈ bins.getD (slotFor conf bins a) [], ¬conf u a := by
  intro u hu
  by_cases hlt : slotFor conf bins a < bins.length
  · have hall := List.findIdx_getElem (w := hlt)
    simp only [List.all_eq_true] at hall
    have hu' : u ∈ bins[slotFor conf bins a] := by
      simpa [List.getD_eq_getElem?_getD, List.getElem?_eq_getElem hlt] using hu
    simpa using hall u hu'
  · simp [List.getD_eq_getElem?_getD, List.getElem?_eq_none (Nat.le_of_not_lt hlt)] at hu

/-- No bin of a packing is empty. -/
theorem pack_ne_nil (l : List α) : ∀ b ∈ pack conf l, b ≠ [] := by
  induction l using List.reverseRecOn with
  | nil => simp
  | append_singleton l a ih =>
      rw [pack_concat, place]
      intro b hb
      split at hb
      · obtain ⟨i, hi, rfl⟩ := List.getElem_of_mem hb
        rw [List.getElem_modify]
        split
        · simp
        · exact ih _ (List.getElem_mem _)
      · rcases List.mem_append.mp hb with hb | hb
        · exact ih b hb
        · simp_all

theorem flatten_modify (a : α) (bins : List (List α)) (i : Nat) (hi : i < bins.length) :
    (bins.modify i (· ++ [a])).flatten.Perm (a :: bins.flatten) := by
  induction bins generalizing i with
  | nil => exact absurd hi (Nat.not_lt_zero i)
  | cons b bins ih =>
      cases i with
      | zero =>
          rw [List.modify_zero_cons, List.flatten_cons, List.flatten_cons, List.append_assoc]
          exact List.perm_middle
      | succ i =>
          rw [List.modify_succ_cons, List.flatten_cons, List.flatten_cons]
          exact ((ih i (Nat.lt_of_succ_lt_succ hi)).append_left b).trans List.perm_middle

theorem flatten_place (bins : List (List α)) (a : α) :
    (place conf bins a).flatten.Perm (a :: bins.flatten) := by
  unfold place
  split
  · rename_i hlt
    exact flatten_modify a bins _ hlt
  · rw [List.flatten_append]
    exact List.perm_append_comm

/-- Every element is in a bin, once. -/
theorem flatten_pack (l : List α) : (pack conf l).flatten.Perm l := by
  induction l using List.reverseRecOn with
  | nil => exact List.Perm.refl []
  | append_singleton l a ih =>
      rw [pack_concat]
      exact (flatten_place conf _ a).trans ((ih.cons a).trans (List.perm_append_singleton a l).symm)

theorem sum_length_pack (l : List α) : ((pack conf l).map List.length).sum = l.length := by
  rw [← List.length_flatten, (flatten_pack conf l).length_eq]

end Packing

/-! ## Bins passed over

An item in bin `j` was offered `j` bins in vain. -/

/-- Over all items of bins with the given widths, the first of which has
index `k`. -/
def passedFrom : Nat → List Nat → Nat
  | _, [] => 0
  | k, w :: ws => k * w + passedFrom (k + 1) ws

/-- How often an item of a packing with these widths was passed on to the next bin. -/
def passed (widths : List Nat) : Nat :=
  passedFrom 0 widths

theorem passedFrom_append (k : Nat) (ws vs : List Nat) :
    passedFrom k (ws ++ vs) = passedFrom k ws + passedFrom (k + ws.length) vs := by
  induction ws generalizing k with
  | nil => simp [passedFrom]
  | cons w ws ih =>
      have hindex : k + 1 + ws.length = k + (ws.length + 1) := by omega
      rw [List.cons_append, passedFrom, passedFrom, ih, List.length_cons, hindex, Nat.add_assoc]

/-- One more item in bin `i` was passed over `k + i` bins. -/
theorem passedFrom_modify (k i : Nat) {ws : List Nat} (hi : i < ws.length) :
    passedFrom k (ws.modify i (· + 1)) = passedFrom k ws + (k + i) := by
  induction ws generalizing k i with
  | nil => exact absurd hi (Nat.not_lt_zero i)
  | cons w ws ih =>
      cases i with
      | zero =>
          rw [List.modify_zero_cons, passedFrom, passedFrom, Nat.mul_succ]
          omega
      | succ i =>
          rw [List.modify_succ_cons, passedFrom, passedFrom,
            ih (k + 1) i (Nat.lt_of_succ_lt_succ hi)]
          omega

theorem passed_concat (ws : List Nat) (w : Nat) :
    passed (ws ++ [w]) = passed ws + ws.length * w := by
  rw [passed, passedFrom_append, passedFrom, passedFrom, Nat.zero_add, Nat.add_zero]
  rfl

/-- Bins that hold something were all but the first opened by an item that the
ones before had rejected. -/
theorem mul_pred_length_le_passed {ws : List Nat} (hpos : ∀ w ∈ ws, 0 < w) :
    ws.length * (ws.length - 1) ≤ 2 * passed ws := by
  induction ws using List.reverseRecOn with
  | nil => exact Nat.zero_le _
  | append_singleton ws w ih =>
      have hw : ws.length ≤ ws.length * w := Nat.le_mul_of_pos_right _ (hpos w (by simp))
      have hws := ih fun v hv => hpos v (List.mem_append_left _ hv)
      have hsucc : (ws.length + 1) * ws.length = ws.length * (ws.length - 1) + 2 * ws.length := by
        cases ws.length with
        | zero => rfl
        | succ n =>
            show (n + 2) * (n + 1) = (n + 1) * n + 2 * (n + 1)
            rw [Nat.add_mul, Nat.mul_comm n]
      rw [passed_concat, List.length_append, List.length_singleton, Nat.add_sub_cancel, hsucc]
      omega

section Passed

variable {α : Type*} (conf : α → α → Prop) [DecidableRel conf]

/-- An arrival adds the bins it is passed over. -/
theorem passed_place (bins : List (List α)) (a : α) :
    passed ((place conf bins a).map List.length)
      = passed (bins.map List.length) + slotFor conf bins a := by
  unfold place
  split
  · rename_i hlt
    have hmap : (bins.modify (slotFor conf bins a) (· ++ [a])).map List.length
        = (bins.map List.length).modify (slotFor conf bins a) (· + 1) := by
      refine List.ext_getElem? fun j => ?_
      rw [List.getElem?_map, List.getElem?_modify, List.getElem?_modify, List.getElem?_map]
      cases bins[j]? with
      | none => rfl
      | some b => by_cases hj : slotFor conf bins a = j <;> simp [hj]
    rw [hmap, passed, passedFrom_modify 0 _ (by simpa using hlt), Nat.zero_add]
    rfl
  · rename_i hge
    have hslot : slotFor conf bins a = bins.length :=
      Nat.le_antisymm (slotFor_le conf bins a) (Nat.le_of_not_lt hge)
    rw [List.map_append, List.map_singleton, passed_concat, hslot, List.length_map]
    simp

end Passed

/-! ## Cliques -/

section Cliques

variable {α : Type*} (conf : α → α → Prop) [DecidableRel conf]

theorem place_pairwise {bins : List (List α)} (h : ∀ b ∈ bins, b.Pairwise fun u a => ¬conf u a)
    (a : α) : ∀ b ∈ place conf bins a, b.Pairwise fun u a => ¬conf u a := by
  intro b hb
  obtain ⟨j, hj, rfl⟩ := List.getElem_of_mem hb
  have hget := getD_place conf bins a j
  have hold : (bins.getD j []).Pairwise fun u a => ¬conf u a := by
    rw [List.getD_eq_getElem?_getD]
    cases hbin : bins[j]? with
    | none => exact List.Pairwise.nil
    | some b => exact h b (List.mem_of_getElem? hbin)
  rw [List.getD_eq_getElem?_getD, List.getElem?_eq_getElem hj, Option.getD_some] at hget
  rw [hget]
  split
  · rename_i hslot
    refine List.pairwise_append.mpr ⟨hold, List.pairwise_singleton _ a, fun u hu v hv => ?_⟩
    rw [List.mem_singleton.mp hv]
    exact not_conf_slotFor conf u (hslot ▸ hu)
  · exact hold

theorem pack_pairwise (l : List α) : ∀ b ∈ pack conf l, b.Pairwise fun u a => ¬conf u a := by
  induction l using List.reverseRecOn with
  | nil => simp
  | append_singleton l a ih =>
      rw [pack_concat]
      exact place_pairwise conf ih a

omit [DecidableRel conf] in
/-- Pairwise conflicting items are in different bins. -/
theorem length_le_of_sublist_flatten {bins : List (List α)}
    (h : ∀ b ∈ bins, b.Pairwise fun u a => ¬conf u a) {clique : List α}
    (hclique : clique.Pairwise conf) (hsub : clique.Sublist bins.flatten) :
    clique.length ≤ bins.length := by
  induction bins generalizing clique with
  | nil => simp_all
  | cons b bins ih =>
      rw [List.flatten_cons] at hsub
      obtain ⟨first, rest, rfl, hfirst, hrest⟩ := List.sublist_append_iff.mp hsub
      obtain ⟨hfirst', hrest', -⟩ := List.pairwise_append.mp hclique
      have hone : first.length ≤ 1 := by
        have hfree := (h b List.mem_cons_self).sublist hfirst
        match first, hfirst', hfree with
        | [], _, _ => exact Nat.zero_le 1
        | [_], _, _ => exact Nat.le_refl 1
        | u :: a :: _, hconf, hfree =>
            exact absurd (List.rel_of_pairwise_cons hconf List.mem_cons_self)
              (List.rel_of_pairwise_cons hfree List.mem_cons_self)
      have hmany := ih (fun c hc => h c (List.mem_cons_of_mem b hc)) hrest' hrest
      rw [List.length_append, List.length_cons]
      omega

theorem clique_le_pack (hsymm : ∀ {u a}, conf u a → conf a u) {l clique : List α}
    (hclique : clique.Pairwise conf) (hsub : clique.Subperm l) :
    clique.length ≤ (pack conf l).length := by
  obtain ⟨clique', hperm, hsub'⟩ := hsub.trans (flatten_pack conf l).symm.subperm
  rw [← hperm.length_eq]
  exact length_le_of_sublist_flatten conf (pack_pairwise conf l)
    ((hperm.pairwise_iff hsymm).mpr hclique) hsub'

theorem slotFor_singletons {l : List α} {a : α} (h : ∀ u ∈ l, conf u a) :
    slotFor conf (l.map fun u => [u]) a = l.length := by
  rw [slotFor, ← List.length_map fun u => [u], List.findIdx_eq_length]
  intro b hb
  obtain ⟨u, hu, rfl⟩ := List.mem_map.mp hb
  simpa using h u hu

/-- Where everything conflicts every item has a bin of its own. -/
theorem pack_clique {l : List α} (h : l.Pairwise conf) : pack conf l = l.map fun u => [u] := by
  induction l using List.reverseRecOn with
  | nil => rfl
  | append_singleton l a ih =>
      obtain ⟨hl, -, hla⟩ := List.pairwise_append.mp h
      have hslot : slotFor conf (l.map fun u => [u]) a = l.length :=
        slotFor_singletons conf fun u hu => hla u hu a (List.mem_singleton_self a)
      rw [pack_concat, ih hl, place, hslot, List.length_map, if_neg (Nat.lt_irrefl _),
        List.map_append, List.map_singleton]

end Cliques

/-! ## Running through the bins -/

theorem getD_forall₂ {α : Type*} {R : List α → List α → Prop} (hnil : R [] [])
    {parts bins : List (List α)} (h : List.Forall₂ R parts bins) (j : Nat) :
    R (parts.getD j []) (bins.getD j []) := by
  induction h generalizing j with
  | nil => exact hnil
  | cons hd _ ih =>
      cases j with
      | zero => exact hd
      | succ j => exact ih j

/-- The members of an earlier bin precede those of a later one. -/
theorem pair_sublist_flatten {α : Type*} {bins : List (List α)} {i j : Nat} (hij : i < j)
    {u a : α} (hu : u ∈ bins.getD i []) (ha : a ∈ bins.getD j []) :
    [u, a].Sublist bins.flatten := by
  induction bins generalizing i j with
  | nil => nomatch hu
  | cons b bins ih =>
      obtain ⟨j, rfl⟩ := Nat.exists_eq_add_one_of_ne_zero (Nat.ne_of_gt (Nat.zero_lt_of_lt hij))
      rw [List.flatten_cons]
      cases i with
      | zero =>
          have ha' : a ∈ bins.flatten := by
            have hlt : j < bins.length := by
              by_contra hge
              have hnil : bins[j]? = none := List.getElem?_eq_none (Nat.le_of_not_lt hge)
              simp [List.getD_eq_getElem?_getD, hnil] at ha
            refine List.mem_flatten.mpr ⟨bins[j], List.getElem_mem hlt, ?_⟩
            simpa [List.getD_eq_getElem?_getD, List.getElem?_eq_getElem hlt] using ha
          exact (List.singleton_sublist.mpr hu).append (List.singleton_sublist.mpr ha')
      | succ i =>
          exact List.sublist_append_of_sublist_right (ih (Nat.lt_of_succ_lt_succ hij) hu ha)

/-! ## Bin indices -/

section BinIndex

variable {α : Type*} [DecidableEq α]

/-- The index of the first bin holding `a`. -/
def binOf (bins : List (List α)) (a : α) : Nat :=
  bins.findIdx (a ∈ ·)

theorem binOf_eq_of_mem {bins : List (List α)} {a : α} {k : Nat}
    (hk : a ∈ bins.getD k []) (hmin : ∀ j < k, a ∉ bins.getD j []) : binOf bins a = k := by
  have hlt : k < bins.length := by
    by_contra hge
    simp [List.getD_eq_getElem?_getD, List.getElem?_eq_none (Nat.le_of_not_lt hge)] at hk
  rw [binOf, List.findIdx_eq hlt]
  refine ⟨?_, fun j hj => ?_⟩
  · simpa [List.getD_eq_getElem?_getD, List.getElem?_eq_getElem hlt] using hk
  · have := hmin j hj
    simpa [List.getD_eq_getElem?_getD, List.getElem?_eq_getElem (Nat.lt_trans hj hlt)] using this

variable (conf : α → α → Prop) [DecidableRel conf]

/-- What a packing is: bin `j` lists, in arrival order, the items whose bin
index is `j`. By induction on the arrivals; an arrival changes one bin, and no
earlier item's index. -/
theorem getD_pack {l : List α} (hnd : l.Nodup) (j : Nat) :
    (pack conf l).getD j [] = l.filter (binOf (pack conf l) · = j) := by
  induction l using List.reverseRecOn generalizing j with
  | nil => simp
  | append_singleton l a ih =>
      obtain ⟨hl, -, hdisj⟩ := List.nodup_append.mp hnd
      have ha : a ∉ l := fun h => hdisj a h a (by simp) rfl
      have hmem : ∀ {u i}, u ∈ (pack conf l).getD i [] ↔ u ∈ l ∧ binOf (pack conf l) u = i := by
        intro u i
        rw [ih hl i, List.mem_filter, decide_eq_true_eq]
      have hold : ∀ u ∈ l, binOf (place conf (pack conf l) a) u = binOf (pack conf l) u := by
        intro u hu
        have hua : u ≠ a := fun h => ha (h ▸ hu)
        have hiff : ∀ i, u ∈ (place conf (pack conf l) a).getD i []
            ↔ u ∈ (pack conf l).getD i [] := by
          intro i
          rw [getD_place]
          split <;> simp [hua]
        refine binOf_eq_of_mem ((hiff _).mpr (hmem.mpr ⟨hu, rfl⟩)) fun i hi hui => ?_
        exact absurd (hmem.mp ((hiff i).mp hui)).2 (Nat.ne_of_gt hi)
      have hnew : binOf (place conf (pack conf l) a) a = slotFor conf (pack conf l) a := by
        refine binOf_eq_of_mem ?_ fun i hi hai => ?_
        · rw [getD_place, if_pos rfl]
          simp
        · rw [getD_place, if_neg (Nat.ne_of_lt hi)] at hai
          exact ha (hmem.mp hai).1
      rw [pack_concat, getD_place, List.filter_append, ih hl j]
      have hfilter : l.filter (binOf (place conf (pack conf l) a) · = j)
          = l.filter (binOf (pack conf l) · = j) :=
        List.filter_congr fun u hu => by rw [hold u hu]
      rw [hfilter]
      by_cases hj : j = slotFor conf (pack conf l) a
      · simp [hj, hnew]
      · simp [hj, hnew, Ne.symm hj]

theorem mem_getD_pack {l : List α} (hnd : l.Nodup) {a : α} {j : Nat} :
    a ∈ (pack conf l).getD j [] ↔ a ∈ l ∧ binOf (pack conf l) a = j := by
  rw [getD_pack conf hnd, List.mem_filter, decide_eq_true_eq]

/-- The bin of an item, once chosen, does not depend on later arrivals. -/
theorem binOf_pack_append {l m : List α} (hnd : (l ++ m).Nodup) {a : α} (ha : a ∈ l) :
    binOf (pack conf (l ++ m)) a = binOf (pack conf l) a := by
  induction m using List.reverseRecOn with
  | nil => simp
  | append_singleton m b ih =>
      rw [← List.append_assoc] at hnd ⊢
      have hlm : (l ++ m).Nodup := (List.nodup_append.mp hnd).1
      rw [← ih hlm, pack_concat]
      have hin : a ∈ (place conf (pack conf (l ++ m)) b).getD
          (binOf (pack conf (l ++ m)) a) [] := by
        have hmem := (mem_getD_pack conf hlm).mpr ⟨List.mem_append_left m ha, rfl⟩
        rw [getD_place]
        split
        · exact List.mem_append_left _ hmem
        · exact hmem
      rw [← pack_concat] at hin ⊢
      exact ((mem_getD_pack conf hnd).mp hin).2

/-- An item's bin is the slot it was offered on arrival. -/
theorem binOf_pack_eq_slotFor {pre post : List α} {a : α} (hnd : (pre ++ a :: post).Nodup) :
    binOf (pack conf (pre ++ a :: post)) a = slotFor conf (pack conf pre) a := by
  rw [List.append_cons] at hnd ⊢
  have hpre : (pre ++ [a]).Nodup := (List.nodup_append.mp hnd).1
  rw [binOf_pack_append conf hnd (by simp)]
  have hmem : a ∈ (pack conf (pre ++ [a])).getD (slotFor conf (pack conf pre) a) [] := by
    rw [pack_concat, getD_place, if_pos rfl]
    simp
  exact ((mem_getD_pack conf hpre).mp hmem).2

theorem binOf_lt_length {l : List α} (hnd : l.Nodup) {a : α} (ha : a ∈ l) :
    binOf (pack conf l) a < (pack conf l).length := by
  have hmem := (mem_getD_pack conf hnd).mpr ⟨ha, rfl⟩
  by_contra hge
  simp [List.getD_eq_getElem?_getD, List.getElem?_eq_none (Nat.le_of_not_lt hge)] at hmem

/-! ## The packing is greedy -/

/-- The bin indices of a packing are the greedy indices of the dependency
"arrives earlier and conflicts". -/
theorem greedy_pack {l : List α} (hnd : l.Nodup) :
    Greedy (· ∈ l) (fun u a => [u, a].Sublist l ∧ conf u a) (binOf (pack conf l)) := by
  constructor
  · rintro u a ha ⟨hsub, hconf⟩ heq
    obtain ⟨pre, post, rfl⟩ := List.append_of_mem ha
    have hu : u ∈ pre := (pair_sublist_append_cons hnd).mp hsub
    rw [binOf_pack_append conf hnd hu, binOf_pack_eq_slotFor conf hnd] at heq
    have hpre : pre.Nodup := (List.nodup_append.mp hnd).1
    exact not_conf_slotFor conf u ((mem_getD_pack conf hpre).mpr ⟨hu, heq⟩) hconf
  · intro a ha j hj
    obtain ⟨pre, post, rfl⟩ := List.append_of_mem ha
    have hpre : pre.Nodup := (List.nodup_append.mp hnd).1
    rw [binOf_pack_eq_slotFor conf hnd] at hj
    obtain ⟨u, hmem, hconf⟩ := exists_conf_of_lt_slotFor conf hj
    obtain ⟨hu, hbin⟩ := (mem_getD_pack conf hpre).mp hmem
    exact ⟨u, ⟨(pair_sublist_append_cons hnd).mpr hu, hconf⟩,
      (binOf_pack_append conf hnd hu).trans hbin⟩

end BinIndex

end FirstFit
