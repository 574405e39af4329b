import Mathlib.Data.List.Dedup
import Mathlib.Data.List.SplitBy
import Mathlib.Data.List.TakeWhile

/-!
# Runs of one key

Cutting a list where the key changes (`runs`) is a cheap way of grouping it by
the key, and gives one group for each key exactly when the elements of one key
lie together (`runs_eq_keyGroups`, `contiguous_of_distinct`). A list sorted by
something that the key determines and that determines the key is such a list
(`contiguous_of_sorted`).
-/

section Runs

variable {α β : Type*} {key : α → β} {l l' : List α} {a : α}

/-- Nothing of another key lies between two elements of one key. -/
def Contiguous (key : α → β) (l : List α) : Prop :=
  ∀ a b c, [a, b, c].Sublist l → key a = key c → key b = key a

theorem Contiguous.sublist (h : Contiguous key l) (hsub : l'.Sublist l) : Contiguous key l' :=
  fun a b c hl => h a b c (hl.trans hsub)

/-- After another key the key of the head does not come again. -/
theorem Contiguous.ne_of_cons {b : α} (h : Contiguous key (a :: b :: l)) (hne : key b ≠ key a) :
    ∀ c ∈ l, key c ≠ key a := by
  intro c hc hkey
  exact hne (h a b c (.cons_cons a (.cons_cons b (List.singleton_sublist.mpr hc))) hkey.symm)

/-- An order that keeps equal keys together: what lies in between has the value
of its neighbours, and with it their key. -/
theorem contiguous_of_sorted {γ : Type*} [PartialOrder γ] {f : α → γ}
    (hsorted : l.Pairwise fun a b => f a ≤ f b) (hf : ∀ a ∈ l, ∀ b ∈ l, key a = key b ↔ f a = f b) :
    Contiguous key l := by
  intro a b c hsub hkey
  obtain ⟨hafter, hrest⟩ := List.pairwise_cons.mp (hsorted.sublist hsub)
  have hab : f a ≤ f b := hafter b List.mem_cons_self
  have hbc : f b ≤ f c := (List.pairwise_cons.mp hrest).1 c List.mem_cons_self
  have ha : a ∈ l := hsub.subset List.mem_cons_self
  have hb : b ∈ l := hsub.subset (List.mem_cons_of_mem a List.mem_cons_self)
  have hc : c ∈ l :=
    hsub.subset (List.mem_cons_of_mem a (List.mem_cons_of_mem b List.mem_cons_self))
  have hca : f c = f a := ((hf a ha c hc).mp hkey).symm
  exact (hf b hb a ha).mpr (le_antisymm (hca ▸ hbc) hab)

/-- Groups of one key each, no two of the same key, make up a contiguous list. -/
theorem contiguous_flatten {groups : List (List α)}
    (hkey : ∀ g ∈ groups, ∀ a ∈ g, ∀ b ∈ g, key a = key b)
    (hdistinct : groups.Pairwise fun g g' => ∀ a ∈ g, ∀ b ∈ g', key a ≠ key b) :
    Contiguous key groups.flatten := by
  induction groups with
  | nil =>
      intro a b c hsub
      cases hsub
  | cons g groups ih =>
      obtain ⟨hhead, htail⟩ := List.pairwise_cons.mp hdistinct
      have hrest := ih (fun g' hg' => hkey g' (List.mem_cons_of_mem g hg')) htail
      have hcross : ∀ x ∈ g, ∀ y ∈ groups.flatten, key x ≠ key y := by
        intro x hx y hy
        obtain ⟨g', hg', hy⟩ := List.mem_flatten.mp hy
        exact hhead g' hg' x hx y hy
      intro a b c hsub hac
      rw [List.flatten_cons, List.sublist_append_iff] at hsub
      obtain ⟨front, back, happend, hfront, hback⟩ := hsub
      have hg := hfront.subset
      have hlater := hback.subset
      -- how many of the three lie in the first group
      cases front with
      | nil => exact hrest a b c (happend ▸ hback) hac
      | cons x front =>
          obtain ⟨rfl, hbc⟩ := List.cons.inj happend
          have ha : a ∈ g := hg List.mem_cons_self
          cases front with
          | nil =>
              have hback : [b, c] = back := hbc
              have hc : c ∈ back := hback ▸ List.mem_cons_of_mem b List.mem_cons_self
              exact absurd hac (hcross a ha c (hlater hc))
          | cons y front =>
              obtain ⟨rfl, -⟩ := List.cons.inj hbc
              have hb : b ∈ g := hg (List.mem_cons_of_mem a List.mem_cons_self)
              exact hkey g List.mem_cons_self b hb a ha

/-! ## Groups and runs -/

variable [DecidableEq β]

/-- Induction that takes the elements of one key away at a time. -/
theorem filterInduction (key : α → β) {motive : List α → Prop} (nil : motive [])
    (cons : ∀ a l, motive (l.filter fun x => key x ≠ key a) → motive (a :: l)) :
    ∀ l, motive l
  | [] => nil
  | a :: l => cons a l (filterInduction key nil cons _)
termination_by l => l.length
decreasing_by exact Nat.lt_succ_of_le (List.length_filter_le _ _)

/-- All elements of each key, the keys in the order in which they occur first. -/
def keyGroups (key : α → β) (l : List α) : List (List α) :=
  (l.map key).eraseDups.map fun k => l.filter fun a => key a = k

/-- The list cut where the key changes. -/
def runs (key : α → β) (l : List α) : List (List α) :=
  l.splitBy fun a b => key a = key b

theorem key_dropWhile_head (k : β) :
    ∀ x ∈ (l.dropWhile fun x => key x = k).head?, key x ≠ k := by
  intro x hx
  have hhead := List.head?_dropWhile_not (fun x => decide (key x = k)) l
  rw [Option.mem_def.mp hx] at hhead
  exact of_decide_eq_false hhead

theorem runs_cons (key : α → β) (a : α) (l : List α) :
    runs key (a :: l)
      = (a :: l.takeWhile fun x => key x = key a)
        :: runs key (l.dropWhile fun x => key x = key a) := by
  have htake : ∀ x ∈ a :: l.takeWhile (fun x => key x = key a), key x = key a := by
    intro x hx
    rcases List.mem_cons.mp hx with rfl | hx
    · rfl
    · have hp := List.mem_takeWhile_imp hx
      exact of_decide_eq_true hp
  have hchain : (a :: l.takeWhile fun x => key x = key a).IsChain
      fun x y => decide (key x = key y) = true := by
    refine List.Pairwise.isChain (List.pairwise_of_forall_mem_list fun x hx y hy => ?_)
    exact decide_eq_true ((htake x hx).trans (htake y hy).symm)
  have hsplit : a :: l = (a :: l.takeWhile fun x => key x = key a)
      ++ l.dropWhile fun x => key x = key a := by
    rw [List.cons_append, List.takeWhile_append_dropWhile]
  rw [runs, hsplit, List.splitBy_append, List.splitBy_of_isChain (List.cons_ne_nil _ _) hchain]
  · rfl
  · intro x hx y hy
    refine decide_eq_false fun heq => key_dropWhile_head (key a) y hy ?_
    exact heq.symm.trans (htake x (List.mem_of_mem_getLast? hx))

theorem keyGroups_cons (key : α → β) (a : α) (l : List α) :
    keyGroups key (a :: l)
      = (a :: l.filter fun x => key x = key a)
        :: keyGroups key (l.filter fun x => key x ≠ key a) := by
  rw [keyGroups, List.map_cons, List.eraseDups_cons, List.map_cons, List.filter_cons,
    if_pos (decide_eq_true rfl), keyGroups, List.filter_map]
  refine congrArg _ ?_
  have hkeys : ((fun b => !b == key a) ∘ key) = fun x => decide (key x ≠ key a) := by
    funext x
    rw [Function.comp_apply, beq_eq_decide, decide_not]
  rw [hkeys]
  refine List.map_congr_left fun k hk => ?_
  obtain ⟨b, hb, rfl⟩ := List.mem_map.mp (List.mem_eraseDups.mp hk)
  have hne : key b ≠ key a := of_decide_eq_true (List.mem_filter.mp hb).2
  rw [List.filter_cons_of_neg (by simpa using hne.symm), List.filter_filter]
  refine List.filter_congr fun x _ => ?_
  by_cases hx : key x = key b
  · simp [hx, hne]
  · simp [hx]

/-- A group is all there is of the keys in it. -/
theorem eq_filter_of_mem_keyGroups {g : List α} (hg : g ∈ keyGroups key l) (ha : a ∈ g) :
    g = l.filter fun x => key x = key a := by
  obtain ⟨k, -, rfl⟩ := List.mem_map.mp hg
  have hkey : key a = k := of_decide_eq_true (List.mem_filter.mp ha).2
  rw [hkey]

theorem keyGroups_distinct (key : α → β) (l : List α) :
    (keyGroups key l).Pairwise fun g g' => ∀ a ∈ g, ∀ b ∈ g', key a ≠ key b := by
  induction l using filterInduction key with
  | nil => exact .nil
  | cons a l ih =>
      rw [keyGroups_cons]
      refine List.pairwise_cons.mpr ⟨fun g hg x hx y hy => ?_, ih⟩
      have hxa : key x = key a := by
        rcases List.mem_cons.mp hx with rfl | hx
        · rfl
        · exact of_decide_eq_true (List.mem_filter.mp hx).2
      rw [eq_filter_of_mem_keyGroups hg hy, List.filter_filter] at hy
      have hya := (List.mem_filter.mp hy).2
      rw [Bool.and_eq_true] at hya
      rw [hxa]
      exact (of_decide_eq_true hya.2).symm

/-- In a contiguous list the first run holds every element of its key. -/
theorem takeWhile_of_contiguous (h : Contiguous key (a :: l)) :
    l.takeWhile (fun x => key x = key a) = l.filter (fun x => key x = key a)
      ∧ l.dropWhile (fun x => key x = key a) = l.filter (fun x => key x ≠ key a) := by
  induction l with
  | nil => exact ⟨rfl, rfl⟩
  | cons b l ih =>
      by_cases hb : key b = key a
      · have hrest := ih (h.sublist (.cons_cons a (.cons b (List.Sublist.refl l))))
        simp only [List.takeWhile_cons, List.dropWhile_cons, List.filter_cons, hb, hrest,
          decide_true, if_true, ne_eq, not_true_eq_false, decide_false, Bool.false_eq_true,
          if_false, and_self]
      · have hlater := h.ne_of_cons hb
        have hnone : l.filter (fun x => key x = key a) = [] :=
          List.filter_eq_nil_iff.mpr fun c hc => by simpa using hlater c hc
        have hall : l.filter (fun x => key x ≠ key a) = l :=
          List.filter_eq_self.mpr fun c hc => by simpa using hlater c hc
        simp only [List.takeWhile_cons, List.dropWhile_cons, List.filter_cons, hb, hnone, hall,
          decide_false, Bool.false_eq_true, if_false, ne_eq, not_false_eq_true, decide_true,
          if_true, and_self]

theorem runs_eq_keyGroups (h : Contiguous key l) : runs key l = keyGroups key l := by
  induction l using filterInduction key with
  | nil => rfl
  | cons a l ih =>
      obtain ⟨htake, hdrop⟩ := takeWhile_of_contiguous h
      have hrest : Contiguous key (l.filter fun x => key x ≠ key a) :=
        h.sublist (.cons a List.filter_sublist)
      rw [runs_cons, keyGroups_cons, htake, hdrop, ih hrest]

/-! ## The converse -/

theorem key_eq_of_mem_runs {g : List α} (hg : g ∈ runs key l) :
    ∀ a ∈ g, ∀ b ∈ g, key a = key b := by
  have hchain : g.IsChain fun a b => key a = key b :=
    (List.isChain_of_mem_splitBy hg).imp fun _ _ => of_decide_eq_true
  have htrans : IsTrans α fun a b => key a = key b := ⟨fun _ _ _ => Eq.trans⟩
  have hsymm : Std.Symm fun a b : α => key a = key b := ⟨fun _ _ => Eq.symm⟩
  exact hchain.pairwise.forall_of_forall fun _ _ => rfl

/-- Cutting recovers the groups that a list was put together from. -/
theorem runs_flatten {groups : List (List α)} (hne : ∀ g ∈ groups, g ≠ [])
    (hkey : ∀ g ∈ groups, ∀ a ∈ g, ∀ b ∈ g, key a = key b)
    (hdistinct : groups.Pairwise fun g g' => ∀ a ∈ g, ∀ b ∈ g', key a ≠ key b) :
    runs key groups.flatten = groups := by
  refine List.splitBy_flatten (fun hnil => hne [] hnil rfl) (fun g hg => ?_) ?_
  · refine List.Pairwise.isChain (List.pairwise_of_forall_mem_list fun a ha b hb => ?_)
    exact decide_eq_true (hkey g hg a ha b hb)
  · refine List.Pairwise.isChain (hdistinct.imp_of_mem fun {g g'} hg hg' h => ?_)
    exact ⟨hne g hg, hne g' hg', decide_eq_false (h _ (List.getLast_mem _) _ (List.head_mem _))⟩

theorem contiguous_of_distinct
    (hdistinct : (runs key l).Pairwise fun g g' => ∀ a ∈ g, ∀ b ∈ g', key a ≠ key b) :
    Contiguous key l := by
  have hflat : (runs key l).flatten = l := List.flatten_splitBy _ l
  rw [← hflat]
  exact contiguous_flatten (fun _ => key_eq_of_mem_runs) hdistinct

end Runs
