import Mathlib.Data.List.Nodup
import Mathlib.Logic.Function.Basic
import Astralane.FirstFit

/-!
# State updates with a footprint

Items that update a store, each of which may look at some places (`reads`) and
change some of those (`writes`). An `Interpretation` says what the items do to
the store within their footprints; nothing else about it is known.

Two items interfere when one may write what the other reads and neither is
without effect. This relation is exact for execution orders:

- `exec_eq_of_order`: an arrangement that keeps the order of every interfering
  pair leads to the same store, under every interpretation;
- `order_of_exec_eq`: an arrangement that leads to the same store under every
  interpretation keeps the order of every interfering pair.
-/

namespace Footprint

open FirstFit

variable {τ κ : Type*} {reads writes : τ → κ → Prop}

/-- What the items do, within their footprints. -/
structure Interpretation (reads writes : τ → κ → Prop) (ν : Type*) where
  run : τ → (κ → ν) → κ → ν
  frame : ∀ t σ k, ¬writes t k → run t σ k = σ k
  determined : ∀ t σ σ', (∀ k, reads t k → σ k = σ' k) → ∀ k, writes t k → run t σ k = run t σ' k

def Interferes (reads writes : τ → κ → Prop) (u t : τ) : Prop :=
  (∃ k, writes u k) ∧ (∃ k, writes t k) ∧ ∃ k, writes u k ∧ reads t k ∨ reads u k ∧ writes t k

namespace Interpretation

variable {ν : Type*} (I : Interpretation reads writes ν)

def exec (l : List τ) (σ : κ → ν) : κ → ν :=
  l.foldl (fun σ t => I.run t σ) σ

@[simp] theorem exec_nil (σ : κ → ν) : I.exec [] σ = σ := rfl

@[simp] theorem exec_cons (t : τ) (l : List τ) (σ : κ → ν) :
    I.exec (t :: l) σ = I.exec l (I.run t σ) := rfl

/-! ## Commuting -/

theorem run_eq_self {t : τ} (h : ¬∃ k, writes t k) (σ : κ → ν) : I.run t σ = σ :=
  funext fun k => I.frame t σ k fun hk => h ⟨k, hk⟩

theorem run_comm (hwr : ∀ t k, writes t k → reads t k) {u t : τ}
    (h : ¬Interferes reads writes u t) (σ : κ → ν) :
    I.run t (I.run u σ) = I.run u (I.run t σ) := by
  by_cases hu : ∃ k, writes u k
  · by_cases ht : ∃ k, writes t k
    · have hut : ∀ k, reads t k → ¬writes u k := fun k hr hw => h ⟨hu, ht, k, Or.inl ⟨hw, hr⟩⟩
      have htu : ∀ k, reads u k → ¬writes t k := fun k hr hw => h ⟨hu, ht, k, Or.inr ⟨hr, hw⟩⟩
      funext k
      by_cases hk : writes t k
      · -- `t` sees nothing `u` wrote, and `u` leaves its result alone
        rw [I.frame u _ k (hut k (hwr t k hk))]
        exact I.determined t _ _ (fun j hj => I.frame u σ j (hut j hj)) k hk
      · rw [I.frame t _ k hk]
        by_cases hk' : writes u k
        · exact (I.determined u _ _ (fun j hj => I.frame t σ j (htu j hj)) k hk').symm
        · rw [I.frame u _ k hk', I.frame u _ k hk', I.frame t _ k hk]
    · rw [I.run_eq_self ht, I.run_eq_self ht]
  · rw [I.run_eq_self hu, I.run_eq_self hu]

theorem exec_move_front (hwr : ∀ t k, writes t k → reads t k) {pre post : List τ} {a : τ}
    (h : ∀ u ∈ pre, ¬Interferes reads writes u a) (σ : κ → ν) :
    I.exec (pre ++ a :: post) σ = I.exec (a :: (pre ++ post)) σ := by
  induction pre generalizing σ with
  | nil => rfl
  | cons u pre ih =>
      rw [List.cons_append, exec_cons, ih (fun v hv => h v (List.mem_cons_of_mem u hv)), exec_cons,
        I.run_comm hwr (h u List.mem_cons_self)]
      rfl

/-- Keeping the interfering pairs in order keeps the outcome. By induction on
the new arrangement: its head can be moved to the front of the old one. -/
theorem exec_eq_of_order (hwr : ∀ t k, writes t k → reads t k) {l l' : List τ} (hnd : l.Nodup)
    (hperm : l'.Perm l)
    (horder : ∀ {u t}, [u, t].Sublist l → Interferes reads writes u t → [u, t].Sublist l')
    (σ : κ → ν) : I.exec l σ = I.exec l' σ := by
  induction l' generalizing l σ with
  | nil => rw [hperm.symm.eq_nil]
  | cons a r ih =>
      obtain ⟨pre, post, rfl⟩ := List.append_of_mem (hperm.subset List.mem_cons_self)
      have har : (a :: r).Nodup := hperm.nodup_iff.mpr hnd
      have hrest : r.Perm (pre ++ post) :=
        (List.perm_cons a).mp (hperm.trans List.perm_middle)
      have hfree : ∀ u ∈ pre, ¬Interferes reads writes u a := by
        intro u hu hint
        have hua := horder ((pair_sublist_append_cons hnd).mpr hu) hint
        have hnot : u ∈ [] := (pair_sublist_append_cons har).mp hua
        nomatch hnot
      have hsub : (pre ++ post).Sublist (pre ++ a :: post) :=
        (List.sublist_cons_self a post).append_left pre
      rw [I.exec_move_front hwr hfree, exec_cons, exec_cons]
      refine ih (hsub.nodup hnd) hrest (fun {u t} hut hint => ?_) _
      have hne : u ≠ a := by
        rintro rfl
        have hmem : u ∈ r := hrest.mem_iff.mpr (hut.subset (by simp))
        exact (List.nodup_cons.mp har).1 hmem
      rcases List.sublist_cons_iff.mp (horder (hut.trans hsub) hint) with h | ⟨s, hs, -⟩
      · exact h
      · exact absurd (List.cons.inj hs).1 hne

end Interpretation

/-! ## Telling two orders apart -/

section Probe

open Classical in
/-- Only `u` and `t` act: `u` raises a flag at `k`, `t` notes at `k'` that it
did not see it. -/
noncomputable def probe (hwr : ∀ t k, writes t k → reads t k) (u t : τ) (k k' : κ)
    (hu : writes u k) (ht : reads t k) (ht' : writes t k') :
    Interpretation reads writes Bool where
  run x σ :=
    if x = u then Function.update σ k true
    else if x = t then Function.update σ k' !σ k
    else σ
  frame x σ j hj := by
    split
    · rename_i hx
      refine Function.update_of_ne ?_ _ _
      rintro rfl
      exact hj (hx ▸ hu)
    · split
      · rename_i hx
        refine Function.update_of_ne ?_ _ _
        rintro rfl
        exact hj (hx ▸ ht')
      · rfl
  determined x σ σ' heq j hj := by
    have hself := heq j (hwr x j hj)
    split
    · by_cases hjk : j = k
      · rw [hjk, Function.update_self, Function.update_self]
      · rw [Function.update_of_ne hjk, Function.update_of_ne hjk, hself]
    · split
      · rename_i hx
        by_cases hjk : j = k'
        · rw [hjk, Function.update_self, Function.update_self, heq k (hx ▸ ht)]
        · rw [Function.update_of_ne hjk, Function.update_of_ne hjk, hself]
      · exact hself

variable (hwr : ∀ t k, writes t k → reads t k) {u t : τ} {k k' : κ} (hu : writes u k)
  (ht : reads t k) (ht' : writes t k')

open Classical in
theorem exec_probe_filter (l : List τ) (σ : κ → Bool) :
    (probe hwr u t k k' hu ht ht').exec l σ
      = (probe hwr u t k k' hu ht ht').exec (l.filter fun x => x = u ∨ x = t) σ := by
  induction l generalizing σ with
  | nil => rfl
  | cons x l ih =>
      rw [List.filter_cons]
      split
      · exact ih _
      · rename_i hx
        have hne : ¬x = u ∧ ¬x = t := by simpa using hx
        have hid : (probe hwr u t k k' hu ht ht').run x σ = σ := by
          simp only [probe, hne.1, hne.2, if_false]
        rw [Interpretation.exec_cons, hid]
        exact ih σ

open Classical in
theorem filter_pair {l : List τ} {a b : τ} (hnd : l.Nodup) (h : [a, b].Sublist l) :
    (l.filter fun x => x = a ∨ x = b) = [a, b] := by
  have hsub : [a, b].Sublist (l.filter fun x => x = a ∨ x = b) := by
    have hfilter := h.filter fun x => decide (x = a ∨ x = b)
    simpa using hfilter
  refine (hsub.eq_of_length_le ?_).symm
  refine ((hnd.filter _).subperm fun x hx => ?_).length_le
  simpa using (List.mem_filter.mp hx).2

open Classical in
/-- The note says whether the flag was raised first. -/
theorem exec_probe {l : List τ} (hnd : l.Nodup) :
    ([u, t].Sublist l → (probe hwr u t k k' hu ht ht').exec l (fun _ => false) k' = false)
      ∧ ([t, u].Sublist l → (probe hwr u t k k' hu ht ht').exec l (fun _ => false) k' = true) := by
  constructor
  · intro h
    have hne : t ≠ u := (pair_sublist_ne hnd h).symm
    rw [exec_probe_filter, filter_pair hnd h]
    simp [Interpretation.exec, probe, hne]
  · intro h
    have hne : t ≠ u := pair_sublist_ne hnd h
    have hswap : (l.filter fun x => decide (x = u ∨ x = t))
        = l.filter fun x => decide (x = t ∨ x = u) :=
      List.filter_congr fun x _ => decide_eq_decide.mpr or_comm
    rw [exec_probe_filter, hswap, filter_pair hnd h]
    by_cases hk : k' = k
    · simp [Interpretation.exec, probe, hne, hk]
    · simp [Interpretation.exec, probe, hne, hk]

end Probe

/-- Keeping the outcome under all interpretations takes keeping the interfering
pairs in order. -/
theorem order_of_exec_eq (hwr : ∀ t k, writes t k → reads t k) {l l' : List τ} (hnd : l.Nodup)
    (hperm : l'.Perm l)
    (hexec : ∀ (I : Interpretation reads writes Bool) (σ : κ → Bool), I.exec l' σ = I.exec l σ)
    {u t : τ} (hut : [u, t].Sublist l) (hint : Interferes reads writes u t) :
    [u, t].Sublist l' := by
  have hnd' : l'.Nodup := hperm.nodup_iff.mpr hnd
  rcases pair_sublist_total (hperm.mem_iff.mpr (hut.subset (by simp)))
    (hperm.mem_iff.mpr (hut.subset (by simp))) (pair_sublist_ne hnd hut) with h | h
  · exact h
  · obtain ⟨⟨i, hi⟩, ⟨j, hj⟩, k, ⟨hk, hk'⟩ | ⟨hk', hk⟩⟩ := hint
    · have heq := congrFun (hexec (probe hwr u t k j hk hk' hj) fun _ => false) j
      rw [(exec_probe hwr hk hk' hj hnd).1 hut, (exec_probe hwr hk hk' hj hnd').2 h] at heq
      nomatch heq
    · have heq := congrFun (hexec (probe hwr t u k i hk hk' hi) fun _ => false) i
      rw [(exec_probe hwr hk hk' hi hnd).2 hut, (exec_probe hwr hk hk' hi hnd').1 h] at heq
      nomatch heq

end Footprint
