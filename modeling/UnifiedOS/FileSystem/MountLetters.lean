import UnifiedOS.FileSystem.VolumeManager

/-!
# Paths and mount letters

A path begins with the letter of its partition.  The volume manager looks the
letter up in its table and forwards the path, and the partition compares the
letter with the one it was told when it was mounted.
-/

namespace UnifiedOS.FileSystem

open UnifiedOS.Foundation

/-! ## Paths -/

/-- `Path[0]`; `char` is signed. -/
def firstChar (path : List (BitVec 8)) : Int := (path.getD 0 0).toInt

structure Dispatch (Partition : Type*) where
  indices : List Int
  forwarded : Option Partition
  deriving DecidableEq

section Dispatch

variable {Partition : Type*} (table : Int → Option Partition) (path : List (BitVec 8))

/-- `if(Partitions[index]) return Partitions[index]->...`, with the memory around the table. -/
def dispatchAt (index : Int) : Dispatch Partition :=
  if (table index).isSome then ⟨[index, index], table index⟩ else ⟨[index], none⟩

def resolveFile : Dispatch Partition :=
  if firstChar path - 0x41 < 0x1A then dispatchAt table (firstChar path - 0x41)
  else ⟨[], none⟩

def resolveDir : Dispatch Partition :=
  if firstChar path - 0x41 < 0x1A then dispatchAt table (firstChar path) else ⟨[], none⟩

def mountedAt : Option Partition :=
  if 0x41 ≤ firstChar path ∧ firstChar path ≤ 0x5A then table (firstChar path - 0x41) else none

/-- Only the table is indexed, and the path goes to the partition at its letter. -/
def DispatchSafe (d : Dispatch Partition) : Prop :=
  (∀ i ∈ d.indices, 0 ≤ i ∧ i ≤ 25) ∧ d.forwarded = mountedAt table path

variable {table path}

theorem dispatchAt_forwarded (index : Int) : (dispatchAt table index).forwarded = table index := by
  unfold dispatchAt
  cases htable : table index with
  | none => rfl
  | some partition => rfl

theorem dispatchAt_indices (index : Int) (P : Int → Prop) :
    (∀ i ∈ (dispatchAt table index).indices, P i) ↔ P index := by
  unfold dispatchAt
  cases htable : table index with
  | none => simp
  | some partition => simp

/-- `ResolveFile` has no lower bound on the letter. -/
theorem resolveFile_safe_iff :
    DispatchSafe table path (resolveFile table path) ↔ 0x41 ≤ firstChar path := by
  unfold DispatchSafe resolveFile mountedAt
  by_cases hbelow : firstChar path - 0x41 < 0x1A
  · rw [if_pos hbelow, dispatchAt_indices, dispatchAt_forwarded]
    constructor
    · intro h
      omega
    · intro h
      rw [if_pos (by omega)]
      exact ⟨by omega, rfl⟩
  · rw [if_neg hbelow, if_neg (by omega)]
    simp only [List.not_mem_nil, false_implies, implies_true, true_and, true_iff]
    omega

/-- `ResolveDir` indexes the table by the character itself. -/
theorem resolveDir_safe_iff :
    DispatchSafe table path (resolveDir table path) ↔
      0x5B ≤ firstChar path ∨
        (0 ≤ firstChar path ∧ firstChar path ≤ 25 ∧ table (firstChar path) = none) := by
  unfold DispatchSafe resolveDir mountedAt
  by_cases hbelow : firstChar path - 0x41 < 0x1A
  · rw [if_pos hbelow, dispatchAt_indices, dispatchAt_forwarded]
    constructor
    · rintro ⟨hindex, hforwarded⟩
      rw [if_neg (by omega)] at hforwarded
      exact .inr ⟨hindex.1, hindex.2, hforwarded⟩
    · intro h
      rw [if_neg (by omega)]
      cases h with
      | inl hhigh => omega
      | inr hsmall => exact ⟨⟨hsmall.1, hsmall.2.1⟩, hsmall.2.2⟩
  · rw [if_neg hbelow, if_neg (by omega)]
    simp only [List.not_mem_nil, false_implies, implies_true, true_and, true_iff]
    exact .inl (by omega)

end Dispatch

/--
Both functions are safe exactly on paths that name no letter and lie above the
letters; `ResolveFile` alone also on those that name one.
-/
theorem path_dispatch_safe_iff {Partition : Type*} (table : Int → Option Partition)
    (path : List (BitVec 8)) :
    ((DispatchSafe table path (resolveFile table path) ∧
        DispatchSafe table path (resolveDir table path)) ↔ 0x5B ≤ firstChar path) ∧
      (DispatchSafe table path (resolveFile table path) ↔ 0x41 ≤ firstChar path) ∧
      (DispatchSafe table path (resolveDir table path) ↔
        0x5B ≤ firstChar path ∨
          (0 ≤ firstChar path ∧ firstChar path ≤ 25 ∧ table (firstChar path) = none)) := by
  refine ⟨?_, resolveFile_safe_iff, resolveDir_safe_iff⟩
  rw [resolveFile_safe_iff, resolveDir_safe_iff]
  omega

/-- `ResolveDir` of a path on drive `A` reads `Partitions[65]`. -/
theorem resolveDir_unsafe :
    ¬ DispatchSafe (fun i : Int => if i = 0 then some true else none) [0x41, 0x3A]
      (resolveDir (fun i : Int => if i = 0 then some true else none) [0x41, 0x3A]) := by
  intro hsafe
  have hindex := hsafe.1 65 (by decide)
  omega

/-! ## The two copies of the letter -/

namespace VolumeManager

open MountTable

variable {Disk Partition : Type*} [DecidableEq Partition] {vm : VolumeManager Disk Partition}

/-- The mount check of a partition's own `ResolveFile`. -/
def passesMountCheck (mounting : Mounting) (path : List (BitVec 8)) : Prop :=
  firstChar path = (mounting.mount.toNat : Int) + 0x41

def partitionTable (vm : VolumeManager Disk Partition) (around : Int → Option Partition)
    (i : Int) : Option Partition :=
  if 0 ≤ i ∧ i < 26 then vm.partitions.slots i.toNat else around i

inductive MountCall (vm : VolumeManager Disk Partition) (partition : Partition)
    (mPoint : BitVec 8) : VolumeManager Disk Partition → Prop where
  | call (hfirst : ∀ i < 26, vm.partitions.slots i ≠ some partition) :
      MountCall vm partition mPoint (vm.mountPartition partition mPoint).1

/-- The call chooses the letter itself, or the letter it is given cannot be had. -/
def NoExplicitMount (vm : VolumeManager Disk Partition) (mPoint : BitVec 8) : Prop :=
  mPoint = 0xFF ∨ 25 < mPoint.toNat ∨ vm.partitions.slots mPoint.toNat ≠ none

def KnowsLetter (vm : VolumeManager Disk Partition) : Prop :=
  ∀ m < 26, ∀ partition, vm.partitions.slots m = some partition →
    (vm.mountings partition).mounted = true ∧ (vm.mountings partition).mount.toNat = m

theorem MountCall.knowsLetter {vm' : VolumeManager Disk Partition} {partition : Partition}
    {mPoint : BitVec 8} (hcall : MountCall vm partition mPoint vm')
    (hletter : NoExplicitMount vm mPoint) (hcursors : CursorsInRange vm)
    (h : KnowsLetter vm) : KnowsLetter vm' := by
  cases hcall with
  | call hfirst =>
      by_cases hauto : mPoint = 0xFF
      · subst hauto
        cases (mountPartition_auto hcursors partition).2 with
        | inl hmounted =>
            obtain ⟨i, hi, -, -, hslots, hmountings⟩ := hmounted
            intro m hm other hslot
            rw [hslots] at hslot
            rw [hmountings]
            by_cases hsame : m = i
            · subst hsame
              rw [Function.update_self, Option.some.injEq] at hslot
              rw [← hslot, Function.update_self]
              refine ⟨rfl, ?_⟩
              rw [BitVec.toNat_ofNat]
              exact Nat.mod_eq_of_lt (by omega)
            · rw [Function.update_of_ne hsame] at hslot
              have hother : other ≠ partition := by
                rintro rfl
                exact hfirst m hm hslot
              rw [Function.update_of_ne hother]
              exact h m hm other hslot
        | inr hfull =>
            obtain ⟨-, -, hslots, hmountings⟩ := hfull
            intro m hm other hslot
            rw [hslots] at hslot
            rw [hmountings]
            exact h m hm other hslot
      · cases mountPartition_explicit vm partition hauto with
        | inl hfree =>
            cases hletter with
            | inl hcontra => exact absurd hcontra hauto
            | inr hrefused =>
                cases hrefused with
                | inl hhigh => omega
                | inr htaken => exact absurd hfree.2.1 htaken
        | inr hno =>
            rw [hno.2]
            exact h

/-- What `MountPartition` calls lead to; the calls may be restricted. -/
def ReachableByCalls (allowed : VolumeManager Disk Partition → BitVec 8 → Prop) :
    VolumeManager Disk Partition → Prop :=
  Reachable (fun vm => ∃ mountings, vm = initial mountings)
    fun vm vm' => ∃ partition mPoint, allowed vm mPoint ∧ MountCall vm partition mPoint vm'

def LettersAgree (vm : VolumeManager Disk Partition) : Prop :=
  ∀ m < 26, ∀ partition, vm.partitions.slots m = some partition →
    (vm.mountings partition).mounted = true ∧
    (vm.mountings partition).mount.toNat = m ∧
    ∀ around path, firstChar path = 0x41 + (m : Int) →
      (resolveFile (vm.partitionTable around) path).forwarded = some partition ∧
      passesMountCheck (vm.mountings partition) path

omit [DecidableEq Partition] in
theorem KnowsLetter.agree (h : KnowsLetter vm) : LettersAgree vm := by
  intro m hm partition hslot
  obtain ⟨hmounted, hmount⟩ := h m hm partition hslot
  refine ⟨hmounted, hmount, fun around path hpath => ⟨?_, ?_⟩⟩
  · have hindex : firstChar path - 0x41 = (m : Int) := by omega
    rw [resolveFile, if_pos (by omega), dispatchAt_forwarded, hindex, partitionTable,
      if_pos (by omega), Int.toNat_natCast, hslot]
  · rw [passesMountCheck, hmount, hpath]
    omega

/-- As long as no explicit mount succeeds, table and partitions agree on the letters. -/
theorem mounted_partitions_know_letter (vm : VolumeManager Disk Partition)
    (h : ReachableByCalls NoExplicitMount vm) : LettersAgree vm := by
  have hinv : CursorsInRange vm ∧ KnowsLetter vm := by
    apply Reachable.invariant h
    · rintro _ ⟨mountings, rfl⟩
      exact ⟨⟨Nat.zero_le _, Nat.zero_le _⟩, fun m hm partition hslot => by contradiction⟩
    · rintro vm vm' ⟨hcursors, hknows⟩ ⟨partition, mPoint, hletter, hcall⟩
      refine ⟨?_, hcall.knowsLetter hletter hcursors hknows⟩
      cases hcall with
      | call hfirst => exact mountPartition_cursors hcursors partition mPoint
  exact hinv.2.agree

/-- Two automatic mounts. -/
theorem mounted_partitions_know_letter_twice :
    LettersAgree ((((initial fun _ => ⟨0, false⟩ : VolumeManager Unit Bool).mountPartition true
      0xFF).1.mountPartition false 0xFF).1) := by
  apply mounted_partitions_know_letter
  refine .next (.next (.start ⟨_, rfl⟩) ⟨true, 0xFF, .inl rfl, .call ?_⟩)
    ⟨false, 0xFF, .inl rfl, .call ?_⟩
  · intro i hi
    decide +revert
  · intro i hi
    decide +revert

/-- An explicit mount at `D` does not tell the partition. -/
theorem explicit_mount_forgets_letter :
    ¬ ∀ vm : VolumeManager Unit Bool, ReachableByCalls (fun _ _ => True) vm →
      LettersAgree vm := by
  intro hagree
  have hreach : ReachableByCalls (fun _ _ => True)
      ((initial fun _ => ⟨0, false⟩ : VolumeManager Unit Bool).mountPartition true 3).1 :=
    .next (.start ⟨_, rfl⟩) ⟨true, 3, trivial, .call fun i hi => by decide +revert⟩
  have hmounted := (hagree _ hreach 3 (by decide) true (by decide)).1
  revert hmounted
  decide

end VolumeManager

end UnifiedOS.FileSystem
