import UnifiedOS.Foundation.ByteMemory
import UnifiedOS.Paging.PageDirectoryEntry

/-!
# Page tables in memory

`MapMemory` descends three levels of tables, creating the ones that are
missing, and writes the leaf.  The source spells the descent out once for each
level; here it is `nextTable`, called with each level's index.  `RequestPage`
answers from a sequence `pages`, one pointer per call.
-/

namespace UnifiedOS.Paging

open UnifiedOS.Foundation
open PageDirectoryEntry

structure PageMapIndexer where
  pI : Nat
  ptI : Nat
  pdI : Nat
  pdpI : Nat
  deriving DecidableEq, Repr

def PageMapIndexer.ofAddress (virtualAddress : BitVec 64) : PageMapIndexer :=
  let virtualAddress := virtualAddress.toNat >>> 12
  let pI := virtualAddress &&& 0x1ff
  let virtualAddress := virtualAddress >>> 9
  let ptI := virtualAddress &&& 0x1ff
  let virtualAddress := virtualAddress >>> 9
  let pdI := virtualAddress &&& 0x1ff
  let virtualAddress := virtualAddress >>> 9
  let pdpI := virtualAddress &&& 0x1ff
  ⟨pI, ptI, pdI, pdpI⟩

def entry (m : ByteMemory) (table i : Nat) : PageDirectoryEntry :=
  ⟨BitVec.ofNat 64 (m.load (table + 8 * i) 8)⟩

def setEntry (m : ByteMemory) (table i : Nat) (e : PageDirectoryEntry) : ByteMemory :=
  m.store (table + 8 * i) 8 e.value.toNat

/-- Memory, with the number of `RequestPage` calls made so far. -/
structure PageTables where
  mem : ByteMemory
  requests : Nat

/-- One level of `MapMemory`: the table below entry `i`, created when not present. -/
def nextTable (pages : Nat → Nat) (s : PageTables) (table i : Nat) : Nat × PageTables :=
  let pde := entry s.mem table i
  if pde.getFlag PTFlag.Present = false then
    let next := pages s.requests
    let m := s.mem.fill next 0x1000 0
    let pde := pde.setAddress (BitVec.ofNat 64 next >>> 12)
    let pde := pde.setFlag PTFlag.Present true
    let pde := pde.setFlag PTFlag.ReadWrite true
    (next, ⟨setEntry m table i pde, s.requests + 1⟩)
  else ((pde.getAddress <<< 12).toNat, s)

def mapMemory (pages : Nat → Nat) (pml4 : Nat) (s : PageTables)
    (virtualMemory physicalMemory : BitVec 64) : PageTables :=
  let indexer := PageMapIndexer.ofAddress virtualMemory
  let (pdp, s) := nextTable pages s pml4 indexer.pdpI
  let (pd, s) := nextTable pages s pdp indexer.pdI
  let (pt, s) := nextTable pages s pd indexer.ptI
  let pde := entry s.mem pt indexer.pI
  let pde := pde.setAddress (physicalMemory >>> 12)
  let pde := pde.setFlag PTFlag.Present true
  let pde := pde.setFlag PTFlag.ReadWrite true
  { s with mem := setEntry s.mem pt indexer.pI pde }

def follow (m : ByteMemory) (table i : Nat) : Option PageDirectoryEntry :=
  if (entry m table i).getFlag PTFlag.Present then some (entry m table i) else none

def PageDirectoryEntry.table (e : PageDirectoryEntry) : Nat :=
  (e.value &&& addressMask).toNat

/-- The walk of the processor: the leaf entry, if every entry on the way is present. -/
def walk (m : ByteMemory) (pml4 : Nat) (v : BitVec 64) : Option PageDirectoryEntry :=
  let indexer := PageMapIndexer.ofAddress v
  (follow m pml4 indexer.pdpI).bind fun e₃ =>
    (follow m e₃.table indexer.pdI).bind fun e₂ =>
      (follow m e₂.table indexer.ptI).bind fun e₁ => follow m e₁.table indexer.pI

def pageNumber (v : BitVec 64) : Nat := v.toNat / 4096 % 2 ^ 36

theorem indexer_eq (v : BitVec 64) :
    PageMapIndexer.ofAddress v =
      ⟨pageNumber v % 512, pageNumber v / 512 % 512, pageNumber v / 512 / 512 % 512,
        pageNumber v / 512 / 512 / 512⟩ := by
  have hmask : ∀ x : Nat, x &&& 0x1ff = x % 512 := fun x => Nat.and_two_pow_sub_one_eq_mod x 9
  simp only [PageMapIndexer.ofAddress, pageNumber, hmask, Nat.shiftRight_eq_div_pow,
    PageMapIndexer.mk.injEq]
  omega

section Entries

variable {m : ByteMemory} {table table' i i' next : Nat} {e : PageDirectoryEntry}

theorem entry_setEntry_same : entry (setEntry m table i e) table i = e := by
  have hvalue : e.value.toNat % 256 ^ 8 = e.value.toNat :=
    Nat.mod_eq_of_lt (lt_of_lt_of_eq e.value.isLt (by norm_num))
  rw [entry, setEntry, ByteMemory.load_store_same, hvalue, BitVec.ofNat_toNat,
    BitVec.setWidth_eq]

theorem entry_setEntry_other
    (h : table + 8 * i + 8 ≤ table' + 8 * i' ∨ table' + 8 * i' + 8 ≤ table + 8 * i) :
    entry (setEntry m table i e) table' i' = entry m table' i' := by
  rw [entry, setEntry, ByteMemory.load_store_disjoint _ h]
  rfl

theorem entry_fill_other (hi : i < 512)
    (h : next + 0x1000 ≤ table ∨ table + 0x1000 ≤ next) :
    entry (m.fill next 0x1000 0) table i = entry m table i := by
  rw [entry, ByteMemory.load_fill_disjoint _ (by omega)]
  rfl

theorem getFlag_entry_fill (hi : i < 512) :
    (entry (m.fill next 0x1000 0) next i).getFlag PTFlag.Present = false := by
  rw [entry, ByteMemory.load_fill_zero _ (by omega) (by omega)]
  decide

end Entries

end UnifiedOS.Paging
