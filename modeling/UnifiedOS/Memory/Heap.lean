import UnifiedOS.Foundation.ByteMemory
import UnifiedOS.Foundation.MachineInt

/-!
# The kernel heap

The definitions follow `memory/heap.cpp` statement by statement.  Block headers
lie in byte memory where the structure layout puts their fields, so a store
through a wrong pointer lands on whatever is at that address.  The two
services the heap calls are reduced to what it can see of them: the answers of
`RequestPage` are a sequence `pages`, one pointer per call, and `MapMemory`
records the pair it was given.  Every address counts as writable; on the
machine a store to an unmapped page faults instead.
-/

namespace UnifiedOS.Memory

open UnifiedOS.Foundation

def nullptr : Nat := 0

def headerSize : Nat := 32

namespace HeapBlockHeader

def length (m : ByteMemory) (this : Nat) : Nat := m.load this 8

def next (m : ByteMemory) (this : Nat) : Nat := m.load (this + 8) 8

def prev (m : ByteMemory) (this : Nat) : Nat := m.load (this + 16) 8

def free (m : ByteMemory) (this : Nat) : Bool := m (this + 24) != 0

def setLength (m : ByteMemory) (this value : Nat) : ByteMemory :=
  m.store this 8 value

def setNext (m : ByteMemory) (this value : Nat) : ByteMemory :=
  m.store (this + 8) 8 value

def setPrev (m : ByteMemory) (this value : Nat) : ByteMemory :=
  m.store (this + 16) 8 value

def setFree (m : ByteMemory) (this : Nat) (value : Bool) : ByteMemory :=
  m.store (this + 24) 1 value.toNat

end HeapBlockHeader

open HeapBlockHeader

/-- The heap's globals, with the memory they point into. -/
structure Heap where
  mem : ByteMemory
  heapStart : Nat
  heapEnd : Nat
  lastHdr : Nat
  /-- Calls of `RequestPage` made so far. -/
  requests : Nat
  /-- Calls `MapMemory(virtual, physical)` made so far. -/
  mapped : List (Nat × Nat)

namespace Heap

def withMem (s : Heap) (mem : ByteMemory) : Heap := { s with mem := mem }

def requestPage (pages : Nat → Nat) (s : Heap) : Nat × Heap :=
  (pages s.requests, { s with requests := s.requests + 1 })

def mapMemory (s : Heap) (virtualMemory physicalMemory : Nat) : Heap :=
  { s with mapped := s.mapped ++ [(virtualMemory, physicalMemory)] }

/-! ## Block headers -/

def combineForward (s : Heap) (this : Nat) : Heap :=
  if next s.mem this = nullptr then s
  else if free s.mem (next s.mem this) = false then s
  else
    let lastHdr := if next s.mem this = s.lastHdr then this else s.lastHdr
    let m :=
      if next s.mem (next s.mem this) ≠ nullptr then
        setPrev s.mem (next s.mem (next s.mem this)) this
      else s.mem
    let m := setLength m this
      (wrap64 (length m this + length m (next m this) + headerSize))
    let m := setNext m this (next m (next m this))
    { s with mem := m, lastHdr := lastHdr }

def combineBackward (s : Heap) (this : Nat) : Heap :=
  if prev s.mem this ≠ nullptr ∧ free s.mem (prev s.mem this) = true then
    s.combineForward (prev s.mem this)
  else s

/--
`HeapBlockHeader::Split`, with the returned header.  `Next->Prev` is stored
whether or not `Next` is null; a null `Next` puts the store at address 16.
-/
def split (s : Heap) (this splitLength : Nat) : Nat × Heap :=
  if splitLength < 0x10 then (nullptr, s)
  else
    let splitSegLength := sub64 (sub64 (length s.mem this) splitLength) headerSize
    if toInt64 splitSegLength < 0x10 then (nullptr, s)
    else
      let newSplitHdr := wrap64 (this + splitLength + headerSize)
      let m := setPrev s.mem (next s.mem this) newSplitHdr
      let m := setNext m newSplitHdr (next m this)
      let m := setNext m this newSplitHdr
      let m := setPrev m newSplitHdr this
      let m := setLength m newSplitHdr splitSegLength
      let m := setFree m newSplitHdr (free m this)
      let m := setLength m this splitLength
      (newSplitHdr,
        { s with
          mem := m
          lastHdr := if s.lastHdr = this then newSplitHdr else s.lastHdr })

/-! ## Setting up and growing -/

def mapInitialPages (pages : Nat → Nat) : Nat → Nat → Heap → Heap
  | 0, _, s => s
  | pageCount + 1, pos, s =>
      let (page, s) := s.requestPage pages
      mapInitialPages pages pageCount (wrap64 (pos + 0x1000)) (s.mapMemory pos page)

def initialiseHeap (pages : Nat → Nat) (s : Heap) (heapAddress pageCount : Nat) :
    Heap :=
  let s := mapInitialPages pages pageCount heapAddress s
  let heapLength := wrap64 (pageCount * 0x1000)
  let startSeg := heapAddress
  let m := setLength s.mem startSeg (sub64 heapLength headerSize)
  let m := setNext m startSeg nullptr
  let m := setPrev m startSeg nullptr
  let m := setFree m startSeg true
  { s with
    mem := m
    heapStart := heapAddress
    heapEnd := wrap64 (heapAddress + heapLength)
    lastHdr := startSeg }

/-- The page loop of `ExpandHeap`; a page that is not granted is skipped. -/
def attachPages (pages : Nat → Nat) : Nat → Heap → Heap
  | 0, s => s
  | pageCount + 1, s =>
      let (page, s) := s.requestPage pages
      attachPages pages pageCount
        (if page ≠ nullptr then
          { s.mapMemory s.heapEnd page with heapEnd := wrap64 (s.heapEnd + 0x1000) }
        else s)

def roundUp (unit length : Nat) : Nat :=
  if length % unit > 0 then wrap64 (length - length % unit + unit) else length

theorem roundUp_spec {unit length : Nat} (hunit : 0 < unit)
    (hfits : length + unit ≤ 2 ^ 64) :
    unit ∣ roundUp unit length ∧ length ≤ roundUp unit length ∧
      roundUp unit length < length + unit := by
  have hmod := Nat.mod_lt length hunit
  have hle := Nat.mod_le length unit
  unfold roundUp
  by_cases hrest : length % unit > 0
  · rw [if_pos hrest, wrap64_of_lt (by omega)]
    refine ⟨?_, by omega, by omega⟩
    exact Nat.dvd_add (Nat.dvd_sub_mod length) (Nat.dvd_refl unit)
  · rw [if_neg hrest]
    exact ⟨Nat.dvd_of_mod_eq_zero (by omega), Nat.le_refl _, by omega⟩

theorem roundUp_of_dvd {unit length : Nat} (h : unit ∣ length) :
    roundUp unit length = length := by
  rw [roundUp, if_neg]
  simp [Nat.mod_eq_zero_of_dvd h]

def expandHeap (pages : Nat → Nat) (s : Heap) (length : Nat) : Heap :=
  let length := roundUp 0x1000 length
  let pageCount := length / 0x1000
  let newSegment := s.heapEnd
  let s := attachPages pages pageCount s
  let m := setFree s.mem newSegment true
  let m := setPrev m newSegment s.lastHdr
  let m := setNext m s.lastHdr newSegment
  let m := setNext m newSegment nullptr
  let m := setLength m newSegment (sub64 length headerSize)
  combineBackward { s with mem := m, lastHdr := newSegment } newSegment

/-! ## Allocating and freeing -/

/--
The search loop of `malloc` from the block `current` on, for at most `fuel`
blocks.  `some none` is the `break` at the end of the chain.
-/
def findBlock (s : Heap) (size : Nat) : Nat → Nat → Option (Option (Nat × Heap))
  | 0, _ => none
  | fuel + 1, current =>
      if free s.mem current ∧ length s.mem current > size then
        let s := (s.split current size).2
        some (some (wrap64 (current + headerSize),
          s.withMem (setFree s.mem current false)))
      else if free s.mem current ∧ length s.mem current = size then
        some (some (wrap64 (current + headerSize),
          s.withMem (setFree s.mem current false)))
      else if next s.mem current = nullptr then some none
      else findBlock s size fuel (next s.mem current)

/--
`Memory::malloc`.  `fuel` bounds both the blocks one search visits and the
number of searches; `none` means it ran out.
-/
def malloc (pages : Nat → Nat) : Nat → Heap → Nat → Option (Nat × Heap)
  | 0, _, _ => none
  | fuel + 1, s, size =>
      let size := roundUp 0x10 size
      if size = 0 then some (nullptr, s)
      else
        match findBlock s size (fuel + 1) s.heapStart with
        | none => none
        | some (some found) => some found
        | some none => malloc pages fuel (s.expandHeap pages size) size

def free (s : Heap) (address : Nat) : Heap :=
  let segment := sub64 address headerSize
  let s := s.withMem (setFree s.mem segment true)
  let s := s.combineForward segment
  s.combineBackward segment

end Heap

end UnifiedOS.Memory
