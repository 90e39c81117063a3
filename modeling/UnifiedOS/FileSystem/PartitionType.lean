import UnifiedOS.FileSystem.PartitionTable
import UnifiedOS.FileSystem.ByteInteraction

/-!
# The type of a partition

An entry of the partition table names its type by a GUID, whose last numbers are
stored with the highest byte first.  `GetGUIDType` compares it with the GUIDs it
knows, one after the other.
-/

namespace UnifiedOS.FileSystem.GPT

open UnifiedOS.Foundation

inductive GPTTypes where
  | unsusedEntry
  | mbrPartitionScheme
  | efiSystemPartition
  | biosBootParititon
  | intelFastFlashPartition
  | microsoftReservedParititon
  | basicDataParititon
  | storageSpacesPartition
  | linuxFilesystemData
  | linuxRoot
  | linuxBoot
  | linuxSwap
  | linuxHome
  | apfsContainer
  | apfsRecovery
  deriving DecidableEq, Repr

structure GUID where
  entry1 : BitVec 32
  entry2 : BitVec 16
  entry3 : BitVec 16
  entry4 : BitVec 16
  entry5H : BitVec 16
  entry5L : BitVec 32
  deriving DecidableEq, Repr

def GPTTypes.guid : GPTTypes → GUID
  | unsusedEntry => ⟨0x00000000, 0x0000, 0x0000, 0x0000, 0x0000, 0x00000000⟩
  | mbrPartitionScheme => ⟨0x024DEE41, 0x33E7, 0x11D3, 0x9D69, 0x0008, 0xC781F39F⟩
  | efiSystemPartition => ⟨0xC12A7328, 0xF81F, 0x11D2, 0xBA4B, 0x00A0, 0xC93EC93B⟩
  | biosBootParititon => ⟨0x21686148, 0x6449, 0x6E6F, 0x744E, 0x6565, 0x64454649⟩
  | intelFastFlashPartition => ⟨0xD3BFE2DE, 0x3DAF, 0x11DF, 0xBA40, 0xE3A5, 0x56D89593⟩
  | microsoftReservedParititon => ⟨0xE3C9E316, 0x0B5C, 0x4DB8, 0x817D, 0xF92D, 0xF00215AE⟩
  | basicDataParititon => ⟨0xEBD0A0A2, 0xB9E5, 0x4433, 0x87C0, 0x68B6, 0xB72699C7⟩
  | storageSpacesPartition => ⟨0xE75CAF8F, 0xF680, 0x4CEE, 0xAFA3, 0xB001, 0xE56EFC2D⟩
  | linuxFilesystemData => ⟨0x0FC63DAF, 0x8483, 0x4772, 0x8E79, 0x3D69, 0xD8477DE4⟩
  | linuxRoot => ⟨0x4F68BCE3, 0xE8CD, 0x4DB1, 0x96E7, 0xFBCA, 0xF984B709⟩
  | linuxBoot => ⟨0xBC13C2FF, 0x59E6, 0x4262, 0xA352, 0xB275, 0xFD6F7172⟩
  | linuxSwap => ⟨0x0657FD6D, 0xA4AB, 0x43C4, 0x84E5, 0x0933, 0xC84B4F4F⟩
  | linuxHome => ⟨0x933AC7E1, 0x2EB4, 0x4F13, 0xB844, 0x0E14, 0xE2AEF915⟩
  | apfsContainer => ⟨0x7C3457EF, 0x0000, 0x11AA, 0xAA11, 0x0030, 0x6543ECAC⟩
  | apfsRecovery => ⟨0x52637672, 0x7900, 0x11AA, 0xAA11, 0x0030, 0x6543ECAC⟩

namespace GUID

def u16At (bytes : List Byte) (i : Nat) : BitVec 16 :=
  bytes.getD (2 * i + 1) 0#8 ++ bytes.getD (2 * i) 0#8

def u32At (bytes : List Byte) (i : Nat) : BitVec 32 :=
  u16At bytes (2 * i + 1) ++ u16At bytes (2 * i)

def ofBytes (bytes : List Byte) : GUID where
  entry1 := u32At bytes 0
  entry2 := u16At bytes 2
  entry3 := u16At bytes 3
  entry4 := bigEndian16 (u16At bytes 4)
  entry5H := bigEndian16 (u16At bytes 5)
  entry5L := bigEndian32 (u32At bytes 3)

def knownTypes : List GPTTypes :=
  [.unsusedEntry, .mbrPartitionScheme, .efiSystemPartition, .biosBootParititon,
    .intelFastFlashPartition, .microsoftReservedParititon, .basicDataParititon,
    .storageSpacesPartition, .linuxFilesystemData, .linuxBoot, .linuxRoot, .linuxSwap, .linuxHome,
    .apfsContainer, .apfsRecovery]

def getGUIDType (g : GUID) : GPTTypes :=
  (knownTypes.find? fun type => g = type.guid).getD .unsusedEntry

end GUID

theorem getGUIDType_guid (type : GPTTypes) : type.guid.getGUIDType = type := by
  cases type <;> decide

theorem getGUIDType_iff {g : GUID} {type : GPTTypes} (htype : type ≠ .unsusedEntry) :
    g.getGUIDType = type ↔ g = type.guid := by
  constructor
  · intro h
    unfold GUID.getGUIDType at h
    cases hfind : GUID.knownTypes.find? fun type => g = type.guid with
    | none =>
        rw [hfind] at h
        exact absurd h.symm htype
    | some found =>
        rw [hfind] at h
        have hfound := List.find?_some hfind
        rw [← h]
        simpa using hfound
  · rintro rfl
    exact getGUIDType_guid type

def basicDataGUID : List Byte :=
  [0xA2, 0xA0, 0xD0, 0xEB, 0xE5, 0xB9, 0x33, 0x44, 0x87, 0xC0, 0x68, 0xB6, 0xB7, 0x26, 0x99, 0xC7]

theorem getGUIDType_basicData :
    (GUID.ofBytes basicDataGUID).getGUIDType = .basicDataParititon := by
  decide

end UnifiedOS.FileSystem.GPT
