import Mathlib.Data.List.Basic

/-!
# Selecting from a list

A reader that goes through a list and drops what it cannot use. `Selects` says
what comes out without the reader: the usable elements, in their order.

Where the reader sees the position of an element, and what it makes of it keeps
the position, an element has no influence beyond itself
(`filterMap_zipIdx_set`).
-/

/-- `out` is what `R` makes of the elements of `l` with `P`, in their order. -/
inductive Selects {α β : Type*} (P : α → Prop) (R : α → β → Prop) : List α → List β → Prop
  | nil : Selects P R [] []
  | keep {a : α} {b : β} {l : List α} {out : List β} :
      P a → R a b → Selects P R l out → Selects P R (a :: l) (b :: out)
  | drop {a : α} {l : List α} {out : List β} :
      ¬P a → Selects P R l out → Selects P R (a :: l) out

theorem selects_filterMap {α β : Type*} {P : α → Prop} {R : α → β → Prop} {f : α → Option β}
    (hP : ∀ a, P a ↔ ∃ b, f a = some b) (hR : ∀ a b, f a = some b → R a b) (l : List α) :
    Selects P R l (l.filterMap f) := by
  induction l with
  | nil => exact .nil
  | cons a l ih =>
      cases hf : f a with
      | none =>
          rw [List.filterMap_cons_none hf]
          refine .drop (fun ha => ?_) ih
          obtain ⟨b, hb⟩ := (hP a).mp ha
          rw [hf] at hb
          cases hb
      | some b =>
          rw [List.filterMap_cons_some hf]
          exact .keep ((hP a).mpr ⟨b, hf⟩) (hR a b hf) ih

/-! ## Positions -/

section Positions

variable {α β : Type*}

theorem filterMap_zipIdx_append_cons (f : α × Nat → Option β) (pre : List α) (a : α)
    (post : List α) :
    (pre ++ a :: post).zipIdx.filterMap f
      = pre.zipIdx.filterMap f ++ (f (a, pre.length)).toList
        ++ (post.zipIdx (pre.length + 1)).filterMap f := by
  rw [List.zipIdx_append, List.zipIdx_cons, List.filterMap_append, Nat.zero_add,
    List.append_assoc]
  cases hf : f (a, pre.length) with
  | none => rw [List.filterMap_cons_none hf, Option.toList_none, List.nil_append]
  | some b => rw [List.filterMap_cons_some hf, Option.toList_some, List.singleton_append]

variable {f : α × Nat → Option β} {pos : β → Int}
  (hpos : ∀ a i b, f (a, i) = some b → pos b = i)
include hpos

theorem pos_lt_of_mem {l : List α} {b : β} (hb : b ∈ l.zipIdx.filterMap f) :
    pos b < l.length := by
  obtain ⟨⟨a, i⟩, ha, hf⟩ := List.mem_filterMap.mp hb
  have hi : i < l.length := List.snd_lt_of_mem_zipIdx ha
  rw [hpos a i b hf]
  exact Int.ofNat_lt.mpr hi

theorem le_pos_of_mem {l : List α} {k : Nat} {b : β} (hb : b ∈ (l.zipIdx k).filterMap f) :
    (k : Int) ≤ pos b := by
  obtain ⟨⟨a, i⟩, ha, hf⟩ := List.mem_filterMap.mp hb
  have hi : k ≤ i := List.le_snd_of_mem_zipIdx ha
  rw [hpos a i b hf]
  exact Int.ofNat_le.mpr hi

/-- What is made of the elements before and after one can be told by its position,
and stays when that element is replaced. -/
theorem filterMap_zipIdx_set {l : List α} {i : Nat} (hi : i < l.length) (x : α) :
    (l.set i x).zipIdx.filterMap f
      = (l.zipIdx.filterMap f).filter (fun b => pos b < i) ++ (f (x, i)).toList
        ++ (l.zipIdx.filterMap f).filter (fun b => i < pos b) := by
  obtain ⟨pre, a, post, rfl, rfl⟩ : ∃ pre a post, l = pre ++ a :: post ∧ pre.length = i :=
    ⟨l.take i, l[i], l.drop (i + 1), by simp, by simp; omega⟩
  have hbefore : ∀ b ∈ pre.zipIdx.filterMap f, pos b < pre.length := fun _ => pos_lt_of_mem hpos
  have hself : ∀ b ∈ (f (a, pre.length)).toList, pos b = pre.length := fun b hb =>
    hpos a _ b (Option.mem_toList.mp hb)
  have hafter : ∀ b ∈ (post.zipIdx (pre.length + 1)).filterMap f, (pre.length : Int) < pos b := by
    intro b hb
    have hle := le_pos_of_mem hpos hb
    omega
  have hlow : ((pre ++ a :: post).zipIdx.filterMap f).filter (fun b => pos b < pre.length)
      = pre.zipIdx.filterMap f := by
    rw [filterMap_zipIdx_append_cons, List.append_assoc, List.filter_append,
      List.filter_eq_self.mpr fun b hb => decide_eq_true (hbefore b hb),
      List.filter_eq_nil_iff.mpr, List.append_nil]
    intro b hb hlt
    rw [decide_eq_true_eq] at hlt
    rcases List.mem_append.mp hb with hb | hb
    · rw [hself b hb] at hlt
      omega
    · have hgt := hafter b hb
      omega
  have hhigh : ((pre ++ a :: post).zipIdx.filterMap f).filter (fun b => pre.length < pos b)
      = (post.zipIdx (pre.length + 1)).filterMap f := by
    rw [filterMap_zipIdx_append_cons, List.filter_append,
      List.filter_eq_self.mpr fun b hb => decide_eq_true (hafter b hb),
      List.filter_eq_nil_iff.mpr, List.nil_append]
    intro b hb hgt
    rw [decide_eq_true_eq] at hgt
    rcases List.mem_append.mp hb with hb | hb
    · have hlt := hbefore b hb
      omega
    · rw [hself b hb] at hgt
      omega
  rw [hlow, hhigh, List.set_append_right _ _ (Nat.le_refl _), Nat.sub_self, List.set_cons_zero,
    filterMap_zipIdx_append_cons]

end Positions
