import Mathlib.Data.Finset.Card
import Mathlib.Data.Finset.Range
import Mathlib.Data.Nat.Find
import Mathlib.Logic.Function.Iterate
import Mathlib.Logic.Relation

/-!
# Runs of a transition system

The states a system can be in are those its steps reach from an initial one.
The induction over runs is done here once; a client shows what one step
preserves.  `Reachable.guarded` serves invariants that hold as long as a bound
is respected: a guard that no step can restore once it is broken need only be
assumed of the last state.  Where the steps are a function on `0 .. n - 1`, a
run that meets a property does so within `n` states.
-/

namespace UnifiedOS.Foundation

variable {State : Type*}

/-- The states reached from `init` by finitely many steps. -/
inductive Reachable (init : State → Prop) (step : State → State → Prop) :
    State → Prop where
  | start {s : State} (hinit : init s) : Reachable init step s
  | next {s s' : State} (hreach : Reachable init step s) (hstep : step s s') :
      Reachable init step s'

def Scheduled {Agent : Type*} (guard : State → Agent → Prop) (next : State → Agent → State) :
    State → List Agent → Prop
  | _, [] => True
  | s, agent :: schedule => guard s agent ∧ Scheduled guard next (next s agent) schedule

instance {Agent : Type*} (guard : State → Agent → Prop) (next : State → Agent → State)
    [∀ s agent, Decidable (guard s agent)] : (s : State) → (schedule : List Agent) →
    Decidable (Scheduled guard next s schedule)
  | _, [] => .isTrue trivial
  | s, agent :: schedule =>
      have := instDecidableScheduled guard next (next s agent) schedule
      inferInstanceAs (Decidable (_ ∧ _))

namespace Reachable

variable {init : State → Prop} {step : State → State → Prop}
  {Inv Guard : State → Prop} {s : State}

theorem invariant (hreach : Reachable init step s)
    (hinit : ∀ s, init s → Inv s)
    (hpreserved : ∀ s s', Inv s → step s s' → Inv s') : Inv s := by
  induction hreach with
  | start hs => exact hinit _ hs
  | next _ hstep ih => exact hpreserved _ _ ih hstep

/-- An invariant that needs a guard, where a broken guard stays broken. -/
theorem guarded (hreach : Reachable init step s) (hguard : Guard s)
    (hback : ∀ s s', step s s' → Guard s' → Guard s)
    (hinit : ∀ s, init s → Guard s → Inv s)
    (hpreserved : ∀ s s', Inv s → Guard s' → step s s' → Inv s') : Inv s := by
  induction hreach with
  | start hs => exact hinit _ hs hguard
  | next _ hstep ih =>
      exact hpreserved _ _ (ih (hback _ _ hstep hguard)) hguard hstep

theorem mono {step' : State → State → Prop} (hreach : Reachable init step s)
    (hstep : ∀ s s', step s s' → step' s s') : Reachable init step' s := by
  induction hreach with
  | start hs => exact start hs
  | next _ hs ih => exact next ih (hstep _ _ hs)

theorem trans {s' : State} (hreach : Reachable init step s)
    (hrest : Reachable (· = s) step s') : Reachable init step s' := by
  induction hrest with
  | start hs => exact hs ▸ hreach
  | next _ hstep ih => exact next ih hstep

theorem of_scheduled {Agent : Type*} {guard : State → Agent → Prop}
    {next : State → Agent → State} {schedule : List Agent} (hinit : init s)
    (hschedule : Scheduled guard next s schedule) :
    Reachable init (fun s s' => ∃ agent, guard s agent ∧ s' = next s agent)
      (schedule.foldl next s) := by
  suffices hall : ∀ s, Reachable init (fun s s' => ∃ agent, guard s agent ∧ s' = next s agent) s →
      Scheduled guard next s schedule →
      Reachable init (fun s s' => ∃ agent, guard s agent ∧ s' = next s agent)
        (schedule.foldl next s) from hall s (.start hinit) hschedule
  clear hinit hschedule
  induction schedule with
  | nil => exact fun s hreach _ => hreach
  | cons agent schedule ih =>
      rintro s hreach ⟨hguard, hrest⟩
      exact ih _ (.next hreach ⟨agent, hguard, rfl⟩) hrest

end Reachable

/-! ## Runs of a function -/

/-- Up to the first state with `P` a run does not repeat itself. -/
theorem exists_iterate_lt {f : Nat → Nat} {P : Nat → Prop} {n x : Nat}
    (hmaps : ∀ y < n, f y < n) (hx : x < n) (h : ∃ k, P (f^[k] x)) : ∃ k < n, P (f^[k] x) := by
  classical
  refine ⟨Nat.find h, ?_, Nat.find_spec h⟩
  have hbelow : ∀ k, f^[k] x < n := by
    intro k
    induction k with
    | zero => exact hx
    | succ k ih =>
        rw [Function.iterate_succ_apply']
        exact hmaps _ ih
  have hinj : ∀ i j, i < j → j ≤ Nat.find h → f^[i] x ≠ f^[j] x := by
    intro i j hij hj hsame
    -- from equal states on the run goes the same way, so `P` holds earlier
    have hearlier : P (f^[Nat.find h - j + i] x) := by
      rw [Function.iterate_add_apply, hsame, ← Function.iterate_add_apply, Nat.sub_add_cancel hj]
      exact Nat.find_spec h
    exact Nat.find_min h (by omega) hearlier
  have hcard : (Finset.range (Nat.find h + 1)).card ≤ (Finset.range n).card := by
    refine Finset.card_le_card_of_injOn (fun k => f^[k] x) (fun k _ => ?_) ?_
    · exact Finset.mem_coe.mpr (Finset.mem_range.mpr (hbelow k))
    · intro i hi j hj hsame
      have hi : i < Nat.find h + 1 := Finset.mem_range.mp (Finset.mem_coe.mp hi)
      have hj : j < Nat.find h + 1 := Finset.mem_range.mp (Finset.mem_coe.mp hj)
      rcases Nat.lt_trichotomy i j with hlt | heq | hgt
      · exact absurd hsame (hinj i j hlt (by omega))
      · exact heq
      · exact absurd hsame.symm (hinj j i hgt (by omega))
  rw [Finset.card_range, Finset.card_range] at hcard
  omega

end UnifiedOS.Foundation
