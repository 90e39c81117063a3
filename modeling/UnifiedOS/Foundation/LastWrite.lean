import Mathlib.Data.List.Induction
import Mathlib.Data.List.Nodup
import Mathlib.Logic.Function.Basic

/-!
# Tables that are written entry by entry

A table is a function on its keys.  After a list of writes an entry holds the
value that was written to it last, or what it held before.
-/

namespace UnifiedOS.Foundation

variable {Key Value : Type*} [DecidableEq Key]

def writeAll (table : Key → Value) (writes : List (Key × Value)) : Key → Value :=
  writes.foldl (fun table write => Function.update table write.1 write.2) table

def lastWrite (key : Key) (writes : List (Key × Value)) : Option Value :=
  writes.foldl (fun last write => if write.1 = key then some write.2 else last) none

variable {table : Key → Value} {key : Key} {value : Value} {writes writes' : List (Key × Value)}

theorem writeAll_append :
    writeAll table (writes ++ writes') = writeAll (writeAll table writes) writes' :=
  List.foldl_append

theorem lastWrite_append :
    lastWrite key (writes ++ writes') = (lastWrite key writes').or (lastWrite key writes) := by
  have hfrom : ∀ last : Option Value,
      writes'.foldl (fun last write => if write.1 = key then some write.2 else last) last =
        (lastWrite key writes').or last := by
    intro last
    induction writes' using List.reverseRecOn with
    | nil => rfl
    | append_singleton writes' write ih =>
        rw [lastWrite, List.foldl_append, List.foldl_append, ih]
        by_cases hkey : write.1 = key
        · simp [hkey]
        · simp [hkey, lastWrite]
  rw [lastWrite, List.foldl_append]
  exact hfrom _

theorem lastWrite_singleton (write : Key × Value) :
    lastWrite key [write] = if write.1 = key then some write.2 else none :=
  rfl

theorem lastWrite_cons (write : Key × Value) : lastWrite key (write :: writes) =
    (lastWrite key writes).or (if write.1 = key then some write.2 else none) :=
  @lastWrite_append _ _ _ key [write] writes

theorem writeAll_apply : writeAll table writes key = (lastWrite key writes).getD (table key) := by
  induction writes using List.reverseRecOn with
  | nil => rfl
  | append_singleton writes write ih =>
      rw [writeAll_append, lastWrite_append, lastWrite_singleton, writeAll, List.foldl_cons,
        List.foldl_nil]
      by_cases hkey : write.1 = key
      · subst hkey
        simp
      · rw [Function.update_of_ne (Ne.symm hkey), if_neg hkey, Option.none_or, ih]

theorem lastWrite_eq_none_iff : lastWrite key writes = none ↔ ∀ write ∈ writes, write.1 ≠ key := by
  induction writes using List.reverseRecOn with
  | nil => simp [lastWrite]
  | append_singleton writes write ih =>
      rw [lastWrite_append, lastWrite_singleton, List.forall_mem_append, List.forall_mem_singleton,
        ← ih]
      by_cases hkey : write.1 = key
      · simp [hkey]
      · simp [hkey]

theorem mem_of_lastWrite (h : lastWrite key writes = some value) : (key, value) ∈ writes := by
  induction writes using List.reverseRecOn with
  | nil => contradiction
  | append_singleton writes write ih =>
      rw [lastWrite_append, lastWrite_singleton] at h
      by_cases hkey : write.1 = key
      · rw [if_pos hkey, Option.some_or, Option.some.injEq] at h
        rw [← hkey, ← h]
        exact List.mem_append_right _ (List.mem_singleton_self write)
      · rw [if_neg hkey, Option.none_or] at h
        exact List.mem_append_left _ (ih h)

/-- Every write lasts exactly if no two of them disagree about an entry. -/
theorem writeAll_lasts_iff : (∀ write ∈ writes, writeAll table writes write.1 = write.2) ↔
    ∀ write ∈ writes, ∀ other ∈ writes, write.1 = other.1 → write.2 = other.2 := by
  constructor
  · intro hlasts write hwrite other hother hkey
    rw [← hlasts write hwrite, ← hlasts other hother, hkey]
  · intro hagree write hwrite
    rw [writeAll_apply]
    cases hlast : lastWrite write.1 writes with
    | none => exact absurd rfl (lastWrite_eq_none_iff.mp hlast write hwrite)
    | some value => exact (hagree write hwrite _ (mem_of_lastWrite hlast) rfl).symm

theorem lastWrite_map_value {Value' : Type*} (f : Value → Value') :
    lastWrite key (writes.map fun write => (write.1, f write.2)) =
      (lastWrite key writes).map f := by
  induction writes using List.reverseRecOn with
  | nil => rfl
  | append_singleton writes write ih =>
      rw [List.map_append, List.map_singleton, lastWrite_append, lastWrite_append,
        lastWrite_singleton, lastWrite_singleton, ih]
      by_cases hkey : write.1 = key
      · simp [hkey]
      · simp [hkey]

theorem lastWrite_map {keys : List Key} (f : Key → Value) :
    lastWrite key (keys.map fun key => (key, f key)) =
      if key ∈ keys then some (f key) else none := by
  induction keys using List.reverseRecOn with
  | nil => rfl
  | append_singleton keys last ih =>
      rw [List.map_append, List.map_singleton, lastWrite_append, lastWrite_singleton, ih]
      by_cases hkey : last = key
      · subst hkey
        simp
      · by_cases hmem : key ∈ keys
        · simp [hkey, hmem]
        · simp [hkey, hmem, Ne.symm hkey]

end UnifiedOS.Foundation
