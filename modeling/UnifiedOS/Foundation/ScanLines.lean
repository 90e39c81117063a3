import Mathlib.Data.List.Range
import Mathlib.Logic.Function.Basic

/-!
# Scan lines in a linear memory

A picture is stored row after row, `stride` cells apart.  Rows can be moved up in
place, first to last, where each row is blanked after it has been moved and is
then the target of a later one.
-/

namespace UnifiedOS.Foundation

section Loops

variable {State : Type*}

/-- What the body keeps from one index to the next, the loop keeps from start to end. -/
theorem foldl_range'_induction {P : Nat → State → Prop} {body : State → Nat → State}
    {start n : Nat} {s : State} (h : P start s)
    (hbody : ∀ i s, start ≤ i → i < start + n → P i s → P (i + 1) (body s i)) :
    P (start + n) ((List.range' start n).foldl body s) := by
  induction n with
  | zero => exact h
  | succ n ih =>
      have hprefix : P (start + n) ((List.range' start n).foldl body s) :=
        ih fun i s hi hlt => hbody i s hi (Nat.lt_succ_of_lt hlt)
      rw [List.range'_1_concat, List.foldl_append]
      exact hbody _ _ (Nat.le_add_right start n) (Nat.lt_succ_self _) hprefix

end Loops

namespace ScanLines

variable {α : Type*} {p : Nat → α} {blank : α} {stride n c c' y y' src dst : Nat}

theorem offset_inj (hc : c < stride) (hc' : c' < stride) :
    c + y * stride = c' + y' * stride ↔ c = c' ∧ y = y' := by
  constructor
  · intro h
    have hrow := congrArg (· / stride) h
    have hcolumn := congrArg (· % stride) h
    simp only [Nat.add_mul_div_right _ _ (Nat.zero_lt_of_lt hc), Nat.div_eq_of_lt hc,
      Nat.div_eq_of_lt hc', Nat.zero_add] at hrow
    simp only [Nat.add_mul_mod_self_right, Nat.mod_eq_of_lt hc, Nat.mod_eq_of_lt hc'] at hcolumn
    exact ⟨hcolumn, hrow⟩
  · rintro ⟨rfl, rfl⟩
    rfl

/-- A cell is copied from one row to another, then blanked. -/
def moveCell (p : Nat → α) (blank : α) (stride src dst c : Nat) : Nat → α :=
  let moved := Function.update p (c + dst * stride) (p (c + src * stride))
  Function.update moved (c + src * stride) blank

def moveRow (p : Nat → α) (blank : α) (stride n src dst : Nat) : Nat → α :=
  (List.range n).foldl (fun p c => moveCell p blank stride src dst c) p

/-- All rows below the first `k` move `k` rows up. -/
def moveUp (p : Nat → α) (blank : α) (stride n k height : Nat) : Nat → α :=
  (List.range' k (height - k)).foldl (fun p r => moveRow p blank stride n r (r - k)) p

theorem moveCell_at (hc' : c' < stride) (hc : c < stride) :
    moveCell p blank stride src dst c' (c + y * stride) =
      if c = c' ∧ y = src then blank
      else if c = c' ∧ y = dst then p (c + src * stride) else p (c + y * stride) := by
  by_cases hcolumn : c = c'
  · subst hcolumn
    simp only [moveCell, Function.update_apply, offset_inj hc hc, true_and]
  · simp [moveCell, offset_inj hc hc', hcolumn]

theorem moveRow_at (hn : n ≤ stride) (hc : c < stride) :
    moveRow p blank stride n src dst (c + y * stride) =
      if c < n ∧ y = src then blank
      else if c < n ∧ y = dst then p (c + src * stride) else p (c + y * stride) := by
  induction n generalizing y with
  | zero => simp [moveRow]
  | succ n ih =>
      have hlast : moveRow p blank stride (n + 1) src dst =
          moveCell (moveRow p blank stride n src dst) blank stride src dst n := by
        rw [moveRow, List.range_succ, List.foldl_append]
        rfl
      rw [hlast, moveCell_at (by omega) hc, ih (by omega), ih (by omega)]
      by_cases hcn : c = n
      · subst hcn
        simp
      · have hlt : c < n + 1 ↔ c < n := by omega
        simp [hcn, hlt]

/-- The rows as they are when those before `r` have been moved. -/
def Moved (p : Nat → α) (blank : α) (stride n k r : Nat) (p' : Nat → α) : Prop :=
  ∀ c < stride, ∀ y, p' (c + y * stride) =
    if c < n ∧ y + k < r then p (c + (y + k) * stride)
    else if c < n ∧ k ≤ y ∧ y < r then blank else p (c + y * stride)

theorem moveUp_moved (p : Nat → α) (blank : α) {k height : Nat} (hn : n ≤ stride) (hk : 0 < k)
    (hheight : k ≤ height) :
    Moved p blank stride n k height (moveUp p blank stride n k height) := by
  have hloop : Moved p blank stride n k (k + (height - k))
      (moveUp p blank stride n k height) := by
    refine foldl_range'_induction (P := Moved p blank stride n k) ?_ ?_
    · intro c hc y
      rw [if_neg (by omega), if_neg (by omega)]
    · intro r p' hr _ h c hc y
      have hsource : p' (c + r * stride) = p (c + r * stride) := by
        rw [h c hc r, if_neg (by omega), if_neg (by omega)]
      rw [moveRow_at hn hc, hsource, h c hc y]
      by_cases hsrc : c < n ∧ y = r
      · rw [if_pos hsrc, if_neg (by omega), if_pos (by omega)]
      · rw [if_neg hsrc]
        by_cases hdst : c < n ∧ y = r - k
        · have hmoved : y + k = r := by omega
          rw [if_pos hdst, if_pos (by omega), hmoved]
        · rw [if_neg hdst]
          congr 1
          · simp only [eq_iff_iff]
            omega
          · congr 1
            simp only [eq_iff_iff]
            omega
  rwa [Nat.add_sub_cancel' hheight] at hloop

/-- With `2 * k` rows or more, the lowest `k` are blank in the end and the others `k` rows up. -/
theorem moveUp_at {k height : Nat} (hn : n ≤ stride) (hk : 0 < k) (hheight : 2 * k ≤ height)
    (hc : c < n) (hy : y < height) :
    moveUp p blank stride n k height (c + y * stride) =
      if y < height - k then p (c + (y + k) * stride) else blank := by
  rw [moveUp_moved p blank hn hk (by omega) c (by omega) y]
  by_cases hmoved : y < height - k
  · rw [if_pos (by omega), if_pos hmoved]
  · rw [if_neg (by omega), if_pos (by omega), if_neg hmoved]

theorem moveUp_beside {k height : Nat} (hn : n ≤ stride) (hk : 0 < k) (hheight : k ≤ height)
    (hcn : n ≤ c) (hc : c < stride) :
    moveUp p blank stride n k height (c + y * stride) = p (c + y * stride) := by
  rw [moveUp_moved p blank hn hk hheight c hc y, if_neg (by omega), if_neg (by omega)]

end ScanLines

end UnifiedOS.Foundation
