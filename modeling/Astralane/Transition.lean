/-!
# Labelled transition systems given by a step function

A system is a partial step function: `step a s` is the state after action `a`,
and `none` when `a` is not enabled in `s`. Interleavings of concurrent parts are
sequences of actions, one part moving at a time.
-/

namespace Transition

variable {A S : Type} (step : A → S → Option S)

/-- The states some sequence of actions leads to from `init`. -/
inductive Reachable (init : S) : S → Prop where
  | start : Reachable init init
  | next {s s' : S} {a : A} : Reachable init s → step a s = some s' → Reachable init s'

/-- The state after a sequence of actions, if all of them are enabled in turn. -/
def runActions : List A → S → Option S
  | [], s => some s
  | a :: as, s => (step a s).bind (runActions as)

/-- No action is enabled. -/
def Stuck (s : S) : Prop := ∀ a, step a s = none

variable {step}

/-- What holds at the start and is preserved by every step holds everywhere. -/
theorem Reachable.invariant {init s : S} {P : S → Prop} (h : Reachable step init s)
    (hstart : P init) (hstep : ∀ {a s s'}, P s → step a s = some s' → P s') : P s := by
  induction h with
  | start => exact hstart
  | next _ hs ih => exact hstep ih hs

theorem Reachable.trans {r s t : S} (hrs : Reachable step r s) (hst : Reachable step s t) :
    Reachable step r t :=
  hst.invariant hrs fun h hstep => h.next hstep

theorem Reachable.run {init s s' : S} {as : List A} (h : Reachable step init s)
    (hrun : runActions step as s = some s') : Reachable step init s' := by
  induction as generalizing s with
  | nil =>
      obtain rfl := Option.some.inj hrun
      exact h
  | cons a as ih =>
      obtain ⟨t, ht, hrest⟩ := Option.bind_eq_some_iff.mp hrun
      exact ih (h.next ht) hrest

/-! ## Termination

A measure that every step lowers bounds the length of a run, and so every run
can be driven on until it is stuck. -/

section Measure

variable {μ : S → Nat} (hlower : ∀ {a s s'}, step a s = some s' → μ s' < μ s)
include hlower

theorem length_runActions_le {s s' : S} {as : List A} (hrun : runActions step as s = some s') :
    as.length + μ s' ≤ μ s := by
  induction as generalizing s with
  | nil =>
      obtain rfl := Option.some.inj hrun
      simp
  | cons a as ih =>
      obtain ⟨t, ht, hrest⟩ := Option.bind_eq_some_iff.mp hrun
      have hstep := hlower ht
      have htail := ih hrest
      rw [List.length_cons]
      omega

theorem Reachable.exists_stuck {init s : S} (h : Reachable step init s) :
    ∃ t, Reachable step init t ∧ Stuck step t := by
  generalize hn : μ s = n
  induction n using Nat.strongRecOn generalizing s with
  | ind n ih =>
      by_cases hstuck : Stuck step s
      · exact ⟨s, h, hstuck⟩
      · obtain ⟨a, ha⟩ := Classical.not_forall.mp hstuck
        obtain ⟨s', hs'⟩ := Option.ne_none_iff_exists'.mp ha
        exact ih (μ s') (hn ▸ hlower hs') (h.next hs') rfl

end Measure

end Transition
