import UnifiedOS.FileSystem.VolumeManager

/-!
# The order of the letters

As long as nothing else is mounted, disks and the partitions found on them take the
letters from the first on in the order in which they are mounted, and those that come
after the last letter are left out.
-/

namespace UnifiedOS.FileSystem

namespace MountTable

/-- The devices have the letters from the first on, as far as there are letters. -/
structure Filled {Device : Type*} (t : MountTable Device) (devices : List Device) : Prop where
  slots : ∀ i, t.slots i = if i < 26 then devices[i]? else none
  next : devices.length < 26 → t.nextFree = devices.length
  cursor : t.nextFree ≤ 26

variable {Device : Type*} {t t' : MountTable Device} {devices : List Device} {device : Device}

theorem filled_empty : Filled (empty : MountTable Device) [] :=
  ⟨fun i => by simp [empty], fun _ => rfl, Nat.zero_le _⟩

theorem Filled.getNextFree (h : Filled t devices) (hroom : devices.length < 26) :
    t.getNextFree = ({ t with nextFree := devices.length + 1 }, devices.length) := by
  have hnext : rewind t.nextFree = devices.length := by
    rw [rewind, h.next hroom, if_neg (by omega)]
  have hfree : t.isMountFree devices.length = true := by
    rw [isMountFree_iff, h.slots, if_pos hroom, List.getElem?_eq_none (le_refl _)]
  rw [MountTable.getNextFree, hnext, if_pos hfree, Nat.mod_eq_of_lt (by omega)]

theorem Filled.place (h : Filled t devices) (hroom : devices.length < 26) (device : Device) :
    Filled (t.getNextFree.1.place devices.length device) (devices ++ [device]) := by
  rw [h.getNextFree hroom]
  refine ⟨fun i => ?_, fun _ => ?_, ?_⟩
  · dsimp only [MountTable.place]
    rcases Nat.lt_trichotomy i devices.length with hlt | heq | hgt
    · rw [Function.update_of_ne (by omega), h.slots, List.getElem?_append_left hlt]
    · rw [heq, Function.update_self, if_pos hroom, List.getElem?_concat_length]
    · rw [Function.update_of_ne (by omega), h.slots, List.getElem?_eq_none (by omega),
        List.getElem?_eq_none (by simp; omega)]
  · rw [List.length_append, List.length_singleton]
    rfl
  · exact hroom

theorem Filled.full (h : Filled t devices) (hfull : 26 ≤ devices.length) :
    t.getNextFree.2 = 0xFF ∧ Filled t.getNextFree.1 (devices ++ [device]) := by
  obtain ⟨hslots, hcursor, hfound⟩ := getNextFree_spec h.cursor
  have htaken : ∀ i < 26, t.slots i ≠ none := fun i hi => by
    rw [h.slots, if_pos hi, List.getElem?_eq_getElem (by omega)]
    exact Option.some_ne_none _
  rcases hfound with hfree | hnone
  · exact absurd hfree.2 (htaken _ hfree.1)
  · refine ⟨hnone.1, fun i => ?_, fun hroom => ?_, hcursor⟩
    · rw [hslots, h.slots]
      split
      · rw [List.getElem?_append_left (by omega)]
      · rfl
    · rw [List.length_append] at hroom
      omega

end MountTable

namespace VolumeManager

open MountTable

variable {Disk Partition : Type*} [DecidableEq Partition] {vm : VolumeManager Disk Partition}
  {disks : List Disk} {partitions found : List Partition}

theorem mountPartition_filled (h : Filled vm.partitions partitions) (partition : Partition) :
    Filled (vm.mountPartition partition 0xFF).1.partitions (partitions ++ [partition]) := by
  rw [mountPartition, if_pos rfl]
  rcases Nat.lt_or_ge partitions.length 26 with hroom | hfull
  · have hletter : vm.getNextFreePartitonMount.2 = partitions.length := by
      rw [getNextFreePartitonMount, h.getNextFree hroom]
    have hvalid : partitions.length ≠ 0xFF ∧ partitions.length < 26 := by omega
    simp only [hletter, if_pos hvalid]
    exact h.place hroom partition
  · obtain ⟨hletter, hfilled⟩ := @Filled.full _ _ _ partition h hfull
    have hnone : ¬ (vm.getNextFreePartitonMount.2 ≠ 0xFF ∧ vm.getNextFreePartitonMount.2 < 26) :=
      fun hvalid => hvalid.1 hletter
    simp only [if_neg hnone]
    exact hfilled

theorem mountFound_filled (h : Filled vm.partitions partitions) (found : List Partition) :
    Filled (found.foldl (fun vm partition => (vm.mountPartition partition 0xFF).1) vm).partitions
      (partitions ++ found) := by
  induction found generalizing vm partitions with
  | nil =>
      rw [List.append_nil]
      exact h
  | cons partition found ih =>
      have hrest := ih (mountPartition_filled h partition)
      rw [List.append_assoc, List.singleton_append] at hrest
      exact hrest

structure InOrder (vm : VolumeManager Disk Partition) (disks : List Disk)
    (partitions : List Partition) : Prop where
  volumes : Filled vm.volumes (disks.mapIdx Volume.mk)
  partitions : Filled vm.partitions partitions
  cursors : CursorsInRange vm

theorem InOrder.mountVolume (h : InOrder vm disks partitions) (disk : Disk)
    (found : List Partition) :
    InOrder (vm.mountVolume disk found).1 (disks ++ [disk])
      (partitions ++ if disks.length < 26 then found else []) := by
  have hcursors := (mountVolume_spec h.cursors disk found).1
  have hlength : (disks.mapIdx Volume.mk).length = disks.length := List.length_mapIdx
  have hvolumes := h.volumes
  have hpartitions := h.partitions
  have happend : (disks ++ [disk]).mapIdx Volume.mk =
      disks.mapIdx Volume.mk ++ [⟨disks.length, disk⟩] := by
    simp
  rw [VolumeManager.mountVolume] at hcursors ⊢
  rcases Nat.lt_or_ge disks.length 26 with hroom | hfull
  · have hletter : vm.getNextFreeDiskMount.2 = disks.length := by
      rw [getNextFreeDiskMount, hvolumes.getNextFree (by omega), hlength]
    have hvalid : disks.length ≠ 0xFF := by omega
    have hplaced := hvolumes.place (by omega) (⟨disks.length, disk⟩ : Volume Disk)
    rw [hlength, ← happend] at hplaced
    simp only [hletter, if_pos hvalid, if_pos hroom] at hcursors ⊢
    set placed : VolumeManager Disk Partition := { vm with
      volumes := vm.volumes.getNextFree.1.place disks.length ⟨disks.length, disk⟩ }
    have hplacedCursors : CursorsInRange placed := ⟨hplaced.cursor, h.cursors.partitions⟩
    refine ⟨?_, @mountFound_filled _ _ _ placed partitions hpartitions found, hcursors⟩
    have hsame := (mountFound_spec hplacedCursors found).1
    exact hsame ▸ hplaced
  · obtain ⟨hletter, hfilled⟩ := @Filled.full _ _ _ ⟨disks.length, disk⟩ hvolumes (by omega)
    rw [← happend] at hfilled
    have hletter' : vm.getNextFreeDiskMount.2 = 0xFF := hletter
    simp only [hletter', ne_eq, not_true_eq_false, if_false, if_neg (Nat.not_lt_of_le hfull),
      List.append_nil] at hcursors ⊢
    exact ⟨hfilled, hpartitions, hcursors⟩

theorem InOrder.mountVolumes (h : InOrder vm disks partitions) (found : Disk → List Partition)
    (more : List Disk) :
    InOrder (more.foldl (fun vm disk => (vm.mountVolume disk (found disk)).1) vm) (disks ++ more)
      (partitions ++ (more.take (26 - disks.length)).flatMap found) := by
  induction more generalizing vm disks partitions with
  | nil =>
      rw [List.append_nil, List.take_nil, List.flatMap_nil, List.append_nil]
      exact h
  | cons disk more ih =>
      have hrest := ih (h.mountVolume disk (found disk))
      rw [List.append_assoc, List.singleton_append, List.append_assoc] at hrest
      have htaken : ((disk :: more).take (26 - disks.length)).flatMap found =
          (if disks.length < 26 then found disk else []) ++
            (more.take (26 - (disks ++ [disk]).length)).flatMap found := by
        rw [List.length_append, List.length_singleton]
        split
        · have hroom : 26 - disks.length = 26 - (disks.length + 1) + 1 := by omega
          rw [hroom, List.take_succ_cons, List.flatMap_cons]
        · rw [Nat.sub_eq_zero_of_le (by omega), Nat.sub_eq_zero_of_le (by omega), List.take_zero,
            List.take_zero]
          rfl
      rw [List.foldl_cons, htaken]
      exact hrest

end VolumeManager

end UnifiedOS.FileSystem
