import Mathlib.Data.Finset.Basic
import Mathlib.Data.Finset.Filter
import Mathlib.Tactic.Common

/-!
# The blocks obtained from a heap

A ledger says which blocks have been obtained from a heap and not been given
back.  Blocks are numbered in the order in which they are obtained, and no
number is used twice.  `kept` are the blocks obtained between two moments that
are still there at the second, and a computation is free of leaks when what it
returns leads to all of them.
-/

namespace UnifiedOS.Foundation

structure Ledger where
  next : Nat
  live : Finset Nat
  live_lt : ∀ b ∈ live, b < next

namespace Ledger

def malloc (l : Ledger) : Nat × Ledger :=
  (l.next, ⟨l.next + 1, insert l.next l.live, by
    intro b hb
    rcases Finset.mem_insert.mp hb with rfl | hb
    · exact Nat.lt_succ_self _
    · exact Nat.lt_succ_of_lt (l.live_lt b hb)⟩)

def free (l : Ledger) (b : Nat) : Ledger :=
  ⟨l.next, l.live.erase b, fun c hc => l.live_lt c (Finset.mem_of_mem_erase hc)⟩

def kept (l l' : Ledger) : Finset Nat := l'.live.filter fun b => l.next ≤ b

/-- Every block obtained since `l` has been given back or is `reachable`. -/
def LeakFree (l l' : Ledger) (reachable : List Nat) : Prop :=
  ∀ b ∈ kept l l', b ∈ reachable

instance (l l' : Ledger) (reachable : List Nat) : Decidable (LeakFree l l' reachable) :=
  inferInstanceAs (Decidable (∀ b ∈ kept l l', b ∈ reachable))

variable {l l' : Ledger} {b c : Nat} {reachable : List Nat}

@[simp] theorem malloc_fst : l.malloc.1 = l.next := rfl
@[simp] theorem malloc_next : l.malloc.2.next = l.next + 1 := rfl
@[simp] theorem free_next : (l.free b).next = l.next := rfl

@[simp] theorem mem_live_malloc : c ∈ l.malloc.2.live ↔ c = l.next ∨ c ∈ l.live :=
  Finset.mem_insert

@[simp] theorem mem_live_free : c ∈ (l.free b).live ↔ c ≠ b ∧ c ∈ l.live :=
  Finset.mem_erase

theorem mem_kept : b ∈ kept l l' ↔ b ∈ l'.live ∧ l.next ≤ b := Finset.mem_filter

theorem kept_self : b ∉ kept l l := fun h =>
  Nat.not_lt.mpr (mem_kept.mp h).2 (l.live_lt b (mem_kept.mp h).1)

theorem mem_kept_malloc (h : l.next ≤ l'.next) :
    b ∈ kept l l'.malloc.2 ↔ b = l'.next ∨ b ∈ kept l l' := by
  rw [mem_kept, mem_kept, mem_live_malloc, or_and_right]
  refine or_congr_left ⟨And.left, ?_⟩
  rintro rfl
  exact ⟨rfl, h⟩

theorem mem_kept_free : b ∈ kept l (l'.free c) ↔ b ≠ c ∧ b ∈ kept l l' := by
  rw [mem_kept, mem_kept, mem_live_free, and_assoc]

theorem live_ne_next (h : b ∈ l.live) : b ≠ l.next := Nat.ne_of_lt (l.live_lt b h)

theorem not_leakFree (hlive : b ∈ l'.live) (hnew : l.next ≤ b) (hlost : b ∉ reachable) :
    ¬ LeakFree l l' reachable := fun h => hlost (h b (mem_kept.mpr ⟨hlive, hnew⟩))

end Ledger

end UnifiedOS.Foundation
