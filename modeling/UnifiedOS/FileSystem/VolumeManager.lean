import Mathlib.Logic.Function.Basic
import Mathlib.Tactic.Set
import UnifiedOS.Foundation.TransitionSystem

/-!
# The volume manager

Disks and partitions are mounted at the 26 letters, each kind in a table of its
own with a cursor at which the search for a free letter starts.  A partition
also keeps its letter itself.  Both `GetNextFree` functions are one search.
-/

namespace UnifiedOS.FileSystem

open UnifiedOS.Foundation

structure MountTable (Device : Type*) where
  slots : Nat → Option Device
  nextFree : Nat

namespace MountTable

variable {Device : Type*}

def empty : MountTable Device := ⟨fun _ => none, 0⟩

def isMountFree (t : MountTable Device) (mount : Nat) : Bool := (t.slots mount).isNone

def rewind (nextFree : Nat) : Nat := if 26 ≤ nextFree then nextFree - 26 else nextFree

/-- At most `remaining` further iterations of the search; `0xFF` if none is free. -/
def search (t : MountTable Device) : Nat → MountTable Device × Nat
  | 0 => (t, 0xFF)
  | remaining + 1 =>
      let next := rewind t.nextFree
      if t.isMountFree next then ({ t with nextFree := next }, next)
      else search { t with nextFree := (next + 1) % 256 } remaining

/-- `GetNextFreeDiskMount`, `GetNextFreePartitonMount`: only the first test moves on. -/
def getNextFree (t : MountTable Device) : MountTable Device × Nat :=
  let next := rewind t.nextFree
  if t.isMountFree next then ({ t with nextFree := (next + 1) % 256 }, next)
  else search { t with nextFree := next } 26

def place (t : MountTable Device) (mount : Nat) (device : Device) : MountTable Device :=
  { t with slots := Function.update t.slots mount (some device) }

end MountTable

structure Mounting where
  mount : BitVec 8
  mounted : Bool
  deriving DecidableEq, Repr

structure Volume (Disk : Type*) where
  mountPoint : Nat
  disk : Disk

structure VolumeManager (Disk Partition : Type*) where
  volumes : MountTable (Volume Disk)
  partitions : MountTable Partition
  /-- The members of the partitions, wherever they are. -/
  mountings : Partition → Mounting

namespace VolumeManager

variable {Disk Partition : Type*}

def getNextFreeDiskMount (vm : VolumeManager Disk Partition) :
    MountTable (Volume Disk) × Nat := vm.volumes.getNextFree

def getNextFreePartitonMount (vm : VolumeManager Disk Partition) :
    MountTable Partition × Nat := vm.partitions.getNextFree

variable [DecidableEq Partition]

def mountPartition (vm : VolumeManager Disk Partition) (partition : Partition)
    (mPoint : BitVec 8) : VolumeManager Disk Partition × Bool :=
  if mPoint = 0xFF then
    let (table, m) := vm.getNextFreePartitonMount
    if m ≠ 0xFF ∧ m < 26 then
      ({ vm with
          partitions := table.place m partition
          -- `PartitionDevice::MountPartition`
          mountings := Function.update vm.mountings partition ⟨BitVec.ofNat 8 m, true⟩ }, true)
    else ({ vm with partitions := table }, false)
  else if 25 < mPoint.toNat then (vm, false)
  else if vm.partitions.isMountFree mPoint.toNat then
    ({ vm with partitions := vm.partitions.place mPoint.toNat partition }, true)
  else (vm, false)

/--
`VolumeManager::MountVolume`; `found` are the partitions that
`InitializePartitions` finds on the disk and mounts.
-/
def mountVolume (vm : VolumeManager Disk Partition) (disk : Disk) (found : List Partition) :
    VolumeManager Disk Partition × Bool :=
  let (table, m) := vm.getNextFreeDiskMount
  if m ≠ 0xFF then
    (found.foldl (fun vm partition => (vm.mountPartition partition 0xFF).1)
      { vm with volumes := table.place m ⟨m, disk⟩ }, true)
  else ({ vm with volumes := table }, false)

def initial (mountings : Partition → Mounting) : VolumeManager Disk Partition :=
  ⟨.empty, .empty, mountings⟩

inductive MountStep : VolumeManager Disk Partition → VolumeManager Disk Partition → Prop where
  | partition (vm : VolumeManager Disk Partition) (partition : Partition) (mPoint : BitVec 8) :
      MountStep vm (vm.mountPartition partition mPoint).1
  | volume (vm : VolumeManager Disk Partition) (disk : Disk) (found : List Partition) :
      MountStep vm (vm.mountVolume disk found).1

end VolumeManager

/-! ## The search -/

namespace MountTable

variable {Device : Type*} {t : MountTable Device}

theorem rewind_eq_mod {next : Nat} (h : next ≤ 26) : rewind next = next % 26 := by
  unfold rewind
  split <;> omega

/-- What a search from `t` gives back: a free letter, or none of the letters it saw was free. -/
structure Found (t : MountTable Device) (remaining : Nat)
    (result : MountTable Device × Nat) : Prop where
  slots : result.1.slots = t.slots
  cursor : result.1.nextFree ≤ 26
  outcome : (result.2 < 26 ∧ t.slots result.2 = none) ∨
    (result.2 = 0xFF ∧ ∀ k < remaining, t.slots ((t.nextFree + k) % 26) ≠ none)

theorem isMountFree_iff {mount : Nat} : t.isMountFree mount = true ↔ t.slots mount = none :=
  Option.isNone_iff_eq_none

theorem search_found (remaining : Nat) (h : t.nextFree ≤ 26) :
    Found t remaining (t.search remaining) := by
  induction remaining generalizing t with
  | zero => exact ⟨rfl, h, .inr ⟨rfl, fun k hk => absurd hk (Nat.not_lt_zero k)⟩⟩
  | succ remaining ih =>
      have hmod := rewind_eq_mod h
      have hlt : rewind t.nextFree < 26 := hmod ▸ Nat.mod_lt _ (by decide)
      simp only [search]
      by_cases hfree : t.isMountFree (rewind t.nextFree) = true
      · rw [if_pos hfree]
        exact ⟨rfl, Nat.le_of_lt hlt, .inl ⟨hlt, isMountFree_iff.mp hfree⟩⟩
      · rw [if_neg hfree, Nat.mod_eq_of_lt (by omega)]
        have hrest := ih (t := { t with nextFree := rewind t.nextFree + 1 }) hlt
        refine ⟨hrest.slots, hrest.cursor, ?_⟩
        cases hrest.outcome with
        | inl hfound => exact .inl hfound
        | inr hnone =>
            refine .inr ⟨hnone.1, fun k hk => ?_⟩
            cases k with
            | zero =>
                rw [Nat.add_zero, ← hmod]
                exact fun hslot => hfree (isMountFree_iff.mpr hslot)
            | succ k =>
                have hnext := hnone.2 k (by omega)
                have hindex : (rewind t.nextFree + 1 + k) % 26 =
                    (t.nextFree + (k + 1)) % 26 := by
                  omega
                rwa [hindex] at hnext

theorem getNextFree_spec (h : t.nextFree ≤ 26) :
    t.getNextFree.1.slots = t.slots ∧ t.getNextFree.1.nextFree ≤ 26 ∧
      ((t.getNextFree.2 < 26 ∧ t.slots t.getNextFree.2 = none) ∨
        (t.getNextFree.2 = 0xFF ∧ ∀ i < 26, t.slots i ≠ none)) := by
  have hmod := rewind_eq_mod h
  have hlt : rewind t.nextFree < 26 := hmod ▸ Nat.mod_lt _ (by decide)
  simp only [getNextFree]
  by_cases hfree : t.isMountFree (rewind t.nextFree) = true
  · rw [if_pos hfree, Nat.mod_eq_of_lt (by omega)]
    exact ⟨rfl, hlt, .inl ⟨hlt, isMountFree_iff.mp hfree⟩⟩
  · rw [if_neg hfree]
    have hfound := search_found (t := { t with nextFree := rewind t.nextFree }) 26
      (Nat.le_of_lt hlt)
    refine ⟨hfound.slots, hfound.cursor, ?_⟩
    cases hfound.outcome with
    | inl hfree => exact .inl hfree
    | inr hnone =>
        refine .inr ⟨hnone.1, fun i hi => ?_⟩
        have hseen := hnone.2 ((i + 26 - rewind t.nextFree) % 26) (Nat.mod_lt _ (by decide))
        have hindex : (rewind t.nextFree + (i + 26 - rewind t.nextFree) % 26) % 26 = i := by
          omega
        rwa [hindex] at hseen

def Fills (t t' : MountTable Device) (device : Nat → Device) : Prop :=
  ∃ i < 26, t.slots i = none ∧ t'.slots = Function.update t.slots i (some (device i))

def Keeps (t t' : MountTable Device) : Prop :=
  ∀ i device, t.slots i = some device → t'.slots i = some device

theorem Keeps.refl (t : MountTable Device) : Keeps t t := fun _ _ h => h

theorem Keeps.trans {t t' t'' : MountTable Device} (h : Keeps t t') (h' : Keeps t' t'') :
    Keeps t t'' := fun i device hslot => h' i device (h i device hslot)

theorem Keeps.of_eq {t t' : MountTable Device} (h : t'.slots = t.slots) : Keeps t t' := by
  intro i device hslot
  rw [h, hslot]

theorem Fills.keeps {t t' : MountTable Device} (device : Nat → Device)
    (h : Fills t t' device) : Keeps t t' := by
  obtain ⟨i, -, hfree, hslots⟩ := h
  intro j other hslot
  have hne : j ≠ i := by
    rintro rfl
    rw [hfree] at hslot
    contradiction
  rw [hslots, Function.update_of_ne hne, hslot]

end MountTable

/-! ## Mounting -/

namespace VolumeManager

open MountTable

variable {Disk Partition : Type*} {vm vm' : VolumeManager Disk Partition}

structure CursorsInRange (vm : VolumeManager Disk Partition) : Prop where
  volumes : vm.volumes.nextFree ≤ 26
  partitions : vm.partitions.nextFree ≤ 26

variable [DecidableEq Partition]

theorem mountPartition_auto (h : CursorsInRange vm) (partition : Partition) :
    (vm.mountPartition partition 0xFF).1.partitions.nextFree ≤ 26 ∧
    ((∃ i < 26, vm.partitions.slots i = none ∧
      (vm.mountPartition partition 0xFF).2 = true ∧
      (vm.mountPartition partition 0xFF).1.partitions.slots =
        Function.update vm.partitions.slots i (some partition) ∧
      (vm.mountPartition partition 0xFF).1.mountings =
        Function.update vm.mountings partition ⟨BitVec.ofNat 8 i, true⟩) ∨
    ((∀ i < 26, vm.partitions.slots i ≠ none) ∧
      (vm.mountPartition partition 0xFF).2 = false ∧
      (vm.mountPartition partition 0xFF).1.partitions.slots = vm.partitions.slots ∧
      (vm.mountPartition partition 0xFF).1.mountings = vm.mountings)) := by
  obtain ⟨hslots, hcursor, hfound⟩ := getNextFree_spec h.partitions
  set m := vm.partitions.getNextFree.2
  cases hfound with
  | inl hfree =>
      have hmount : vm.mountPartition partition 0xFF =
          ({ vm with
              partitions := vm.partitions.getNextFree.1.place m partition
              mountings := Function.update vm.mountings partition ⟨BitVec.ofNat 8 m, true⟩ },
            true) := by
        simp only [mountPartition, if_true, getNextFreePartitonMount]
        exact if_pos ⟨by omega, hfree.1⟩
      rw [hmount]
      refine ⟨hcursor, .inl ⟨m, hfree.1, hfree.2, rfl, ?_, rfl⟩⟩
      simp only [place, hslots]
  | inr hnone =>
      have hmount : vm.mountPartition partition 0xFF =
          ({ vm with partitions := vm.partitions.getNextFree.1 }, false) := by
        simp only [mountPartition, if_true, getNextFreePartitonMount]
        exact if_neg (by omega)
      rw [hmount]
      exact ⟨hcursor, .inr ⟨hnone.2, rfl, hslots, rfl⟩⟩

theorem mountPartition_explicit (vm : VolumeManager Disk Partition) (partition : Partition)
    {mPoint : BitVec 8} (h : mPoint ≠ 0xFF) :
    (mPoint.toNat < 26 ∧ vm.partitions.slots mPoint.toNat = none ∧
      vm.mountPartition partition mPoint =
        ({ vm with partitions := vm.partitions.place mPoint.toNat partition }, true)) ∨
    (¬ (mPoint.toNat < 26 ∧ vm.partitions.slots mPoint.toNat = none) ∧
      vm.mountPartition partition mPoint = (vm, false)) := by
  simp only [mountPartition, if_neg h]
  by_cases hhigh : 25 < mPoint.toNat
  · rw [if_pos hhigh]
    exact .inr ⟨by omega, rfl⟩
  · rw [if_neg hhigh]
    by_cases hfree : vm.partitions.isMountFree mPoint.toNat = true
    · rw [if_pos hfree]
      exact .inl ⟨by omega, isMountFree_iff.mp hfree, rfl⟩
    · rw [if_neg hfree]
      exact .inr ⟨fun hslot => hfree (isMountFree_iff.mpr hslot.2), rfl⟩

theorem mountPartition_volumes (partition : Partition) (mPoint : BitVec 8) :
    (vm.mountPartition partition mPoint).1.volumes = vm.volumes := by
  simp only [mountPartition]
  split
  · split <;> rfl
  · split
    · rfl
    · split <;> rfl

theorem mountPartition_cursors (h : CursorsInRange vm) (partition : Partition)
    (mPoint : BitVec 8) : CursorsInRange (vm.mountPartition partition mPoint).1 := by
  constructor
  · rw [mountPartition_volumes]
    exact h.volumes
  · by_cases hauto : mPoint = 0xFF
    · subst hauto
      exact (mountPartition_auto h partition).1
    · cases mountPartition_explicit vm partition hauto with
      | inl hfree =>
          rw [hfree.2.2]
          exact h.partitions
      | inr hno =>
          rw [hno.2]
          exact h.partitions

theorem mountPartition_keeps (h : CursorsInRange vm) (partition : Partition)
    (mPoint : BitVec 8) :
    Keeps vm.partitions (vm.mountPartition partition mPoint).1.partitions := by
  by_cases hauto : mPoint = 0xFF
  · subst hauto
    cases (mountPartition_auto h partition).2 with
    | inl hmounted =>
        obtain ⟨i, hi, hfree, -, hslots, -⟩ := hmounted
        exact Fills.keeps (fun _ => partition) ⟨i, hi, hfree, hslots⟩
    | inr hfull => exact Keeps.of_eq hfull.2.2.1
  · cases mountPartition_explicit vm partition hauto with
    | inl hfree =>
        rw [hfree.2.2]
        exact Fills.keeps (fun _ => partition) ⟨_, hfree.1, hfree.2.1, rfl⟩
    | inr hno =>
        rw [hno.2]
        exact Keeps.refl _

theorem mountFound_spec (h : CursorsInRange vm) (found : List Partition) :
    let vm' := found.foldl (fun vm partition => (vm.mountPartition partition 0xFF).1) vm
    vm'.volumes = vm.volumes ∧ CursorsInRange vm' ∧ Keeps vm.partitions vm'.partitions := by
  induction found generalizing vm with
  | nil => exact ⟨rfl, h, Keeps.refl _⟩
  | cons partition found ih =>
      obtain ⟨hvolumes, hcursors, hkeeps⟩ := ih (mountPartition_cursors h partition 0xFF)
      exact ⟨hvolumes.trans (mountPartition_volumes partition 0xFF), hcursors,
        (mountPartition_keeps h partition 0xFF).trans hkeeps⟩

theorem mountVolume_spec (h : CursorsInRange vm) (disk : Disk) (found : List Partition) :
    CursorsInRange (vm.mountVolume disk found).1 ∧
    Keeps vm.partitions (vm.mountVolume disk found).1.partitions ∧
    ((∃ i < 26, vm.volumes.slots i = none ∧ (vm.mountVolume disk found).2 = true ∧
        (vm.mountVolume disk found).1.volumes.slots =
          Function.update vm.volumes.slots i (some ⟨i, disk⟩)) ∨
      ((∀ i < 26, vm.volumes.slots i ≠ none) ∧ (vm.mountVolume disk found).2 = false ∧
        (vm.mountVolume disk found).1.volumes.slots = vm.volumes.slots)) := by
  obtain ⟨hslots, hcursor, hfound⟩ := getNextFree_spec h.volumes
  set m := vm.volumes.getNextFree.2
  cases hfound with
  | inl hfree =>
      set placed : VolumeManager Disk Partition :=
        { vm with volumes := vm.volumes.getNextFree.1.place m ⟨m, disk⟩ }
      have hmount : vm.mountVolume disk found =
          (found.foldl (fun vm partition => (vm.mountPartition partition 0xFF).1) placed,
            true) := by
        simp only [mountVolume, getNextFreeDiskMount]
        exact if_pos (show m ≠ 0xFF by omega)
      rw [hmount]
      have hplaced : CursorsInRange placed := ⟨hcursor, h.partitions⟩
      obtain ⟨hvolumes, hcursors, hkeeps⟩ := mountFound_spec hplaced found
      refine ⟨hcursors, hkeeps, .inl ⟨_, hfree.1, hfree.2, rfl, ?_⟩⟩
      rw [hvolumes]
      simp only [placed, place, hslots]
  | inr hnone =>
      have hmount : vm.mountVolume disk found =
          ({ vm with volumes := vm.volumes.getNextFree.1 }, false) := by
        simp only [mountVolume, getNextFreeDiskMount]
        exact if_neg (show ¬ m ≠ 0xFF by omega)
      rw [hmount]
      exact ⟨⟨hcursor, h.partitions⟩, Keeps.refl _, .inr ⟨hnone.2, rfl, hslots⟩⟩

theorem MountStep.keeps (hstep : MountStep vm vm') (h : CursorsInRange vm) :
    CursorsInRange vm' ∧ Keeps vm.partitions vm'.partitions ∧
      Keeps vm.volumes vm'.volumes := by
  cases hstep with
  | partition partition mPoint =>
      refine ⟨mountPartition_cursors h partition mPoint, mountPartition_keeps h partition mPoint,
        ?_⟩
      rw [mountPartition_volumes]
      exact Keeps.refl _
  | volume disk found =>
      obtain ⟨hcursors, hkeeps, houtcome⟩ := mountVolume_spec h disk found
      refine ⟨hcursors, hkeeps, ?_⟩
      cases houtcome with
      | inl hmounted =>
          obtain ⟨i, hi, hfree, -, hslots⟩ := hmounted
          exact Fills.keeps (fun i => ⟨i, disk⟩) ⟨i, hi, hfree, hslots⟩
      | inr hfull => exact Keeps.of_eq hfull.2.2

def ReachableByMounts : VolumeManager Disk Partition → Prop :=
  Reachable (fun vm => ∃ mountings, vm = initial mountings) MountStep

theorem ReachableByMounts.cursors (h : ReachableByMounts vm) : CursorsInRange vm := by
  apply Reachable.invariant h
  · rintro _ ⟨mountings, rfl⟩
    exact ⟨Nat.zero_le _, Nat.zero_le _⟩
  · intro _ _ hcursors hstep
    exact (hstep.keeps hcursors).1

/--
In every reachable state a mount succeeds exactly if a letter is free, fills one
free slot and changes no other, and what is mounted is never displaced.
-/
theorem mount_tables_safe (vm : VolumeManager Disk Partition) (h : ReachableByMounts vm) :
    (∀ partition,
      ((vm.mountPartition partition 0xFF).2 = true ↔ ∃ i < 26, vm.partitions.slots i = none) ∧
      ((vm.mountPartition partition 0xFF).2 = true →
        Fills vm.partitions (vm.mountPartition partition 0xFF).1.partitions fun _ => partition) ∧
      ((vm.mountPartition partition 0xFF).2 = false →
        (vm.mountPartition partition 0xFF).1.partitions.slots = vm.partitions.slots)) ∧
    (∀ disk found,
      ((vm.mountVolume disk found).2 = true ↔ ∃ i < 26, vm.volumes.slots i = none) ∧
      ((vm.mountVolume disk found).2 = true →
        Fills vm.volumes (vm.mountVolume disk found).1.volumes fun i => ⟨i, disk⟩) ∧
      ((vm.mountVolume disk found).2 = false →
        (vm.mountVolume disk found).1.volumes.slots = vm.volumes.slots)) ∧
    ∀ vm', Relation.ReflTransGen MountStep vm vm' →
      Keeps vm.partitions vm'.partitions ∧ Keeps vm.volumes vm'.volumes := by
  have hcursors := h.cursors
  refine ⟨fun partition => ?_, fun disk found => ?_, fun vm' hrun => ?_⟩
  · cases (mountPartition_auto hcursors partition).2 with
    | inl hmounted =>
        obtain ⟨i, hi, hfree, hok, hslots, -⟩ := hmounted
        simp only [hok, true_iff, true_implies, Bool.true_eq_false, false_implies, and_true]
        exact ⟨⟨i, hi, hfree⟩, i, hi, hfree, hslots⟩
    | inr hfull =>
        obtain ⟨hnone, hok, hslots, -⟩ := hfull
        simp only [hok, Bool.false_eq_true, false_iff, false_implies, true_and, true_implies]
        exact ⟨fun ⟨i, hi, hfree⟩ => hnone i hi hfree, hslots⟩
  · obtain ⟨-, -, houtcome⟩ := mountVolume_spec hcursors disk found
    cases houtcome with
    | inl hmounted =>
        obtain ⟨i, hi, hfree, hok, hslots⟩ := hmounted
        simp only [hok, true_iff, true_implies, Bool.true_eq_false, false_implies, and_true]
        exact ⟨⟨i, hi, hfree⟩, i, hi, hfree, hslots⟩
    | inr hfull =>
        obtain ⟨hnone, hok, hslots⟩ := hfull
        simp only [hok, Bool.false_eq_true, false_iff, false_implies, true_and, true_implies]
        exact ⟨fun ⟨i, hi, hfree⟩ => hnone i hi hfree, hslots⟩
  · have hkept : CursorsInRange vm' ∧ Keeps vm.partitions vm'.partitions ∧
        Keeps vm.volumes vm'.volumes := by
      induction hrun with
      | refl => exact ⟨hcursors, Keeps.refl _, Keeps.refl _⟩
      | tail _ hstep ih =>
          obtain ⟨hmid, hpartitions, hvolumes⟩ := ih
          obtain ⟨hlast, hpartitions', hvolumes'⟩ := hstep.keeps hmid
          exact ⟨hlast, hpartitions.trans hpartitions', hvolumes.trans hvolumes'⟩
    exact hkept.2

/-- The tables after a disk with one partition was mounted. -/
theorem mount_tables_safe_mounted :
    let vm : VolumeManager Bool Bool :=
      (mountVolume (initial fun _ => ⟨0, false⟩) true [true]).1
    ((vm.mountPartition false 0xFF).2 = true ↔ ∃ i < 26, vm.partitions.slots i = none) ∧
      vm.partitions.slots 0 = some true := by
  refine ⟨?_, by decide⟩
  exact ((mount_tables_safe _ (.next (.start ⟨fun _ => ⟨0, false⟩, rfl⟩)
    (.volume _ true [true]))).1 false).1

end VolumeManager

end UnifiedOS.FileSystem
