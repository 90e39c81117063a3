import UnifiedOS.Memory.MemoryCopy

/-!
# Disk devices

`DiskDevice` moves data between memory and a drive through eight bounce
buffers of one page each.  Byte `k` of sector `lba` is byte `512 * lba + k` of
`disk`.  A command that fails moves nothing; which ones fail is given by
`succeeds`, and every command issued is recorded, the latest first.
-/

namespace UnifiedOS.FileSystem

open UnifiedOS.Foundation UnifiedOS.Memory

structure DiskCommand where
  isWrite : Bool
  lba : Nat
  count : Nat
  buffer : Nat
  succeeded : Bool
  deriving DecidableEq, Repr

structure DiskDevice where
  /-- `Buffer[8]`; from index 8 on, what lies behind the array. -/
  buffer : Nat → Nat
  blocksize : BitVec 32
  /-- The outcome of each command, by its number. -/
  succeeds : Nat → Bool

structure DiskState where
  mem : ByteMemory
  disk : ByteMemory
  bufferLock : BitVec 8
  commands : List DiskCommand

def DiskState.copy (s : DiskState) (dest src size : Nat) : DiskState :=
  { s with mem := memcpy s.mem dest src size }

namespace DiskDevice

def freeBuffer (bufferLock : BitVec 8) : Option Nat :=
  (List.range 8).find? fun i => ((bufferLock >>> i) &&& 1#8) == 0#8

def getBuffer (s : DiskState) : Int × DiskState :=
  match freeBuffer s.bufferLock with
  | some i => (i, { s with bufferLock := s.bufferLock ||| (1#8 <<< i) })
  | none => (-1, s)

def relieveBuffer (index : BitVec 8) (s : DiskState) : DiskState :=
  { s with bufferLock := s.bufferLock &&& ~~~ (1#8 <<< index.toNat) }

def readDiskBlock (dev : DiskDevice) (lba count buffer : Nat) (s : DiskState) :
    Bool × DiskState :=
  let ok := dev.succeeds s.commands.length
  let mem := if ok then s.mem.blit buffer (512 * count) fun k => s.disk (512 * lba + k)
    else s.mem
  (ok, { s with mem := mem, commands := ⟨false, lba, count, buffer, ok⟩ :: s.commands })

def writeDiskBlock (dev : DiskDevice) (lba count buffer : Nat) (s : DiskState) :
    Bool × DiskState :=
  let ok := dev.succeeds s.commands.length
  let disk := if ok then s.disk.blit (512 * lba) (512 * count) fun k => s.mem (buffer + k)
    else s.disk
  (ok, { s with disk := disk, commands := ⟨true, lba, count, buffer, ok⟩ :: s.commands })

/-! ## `Read` and `Write` -/

/-- The second half of the loop body: two blocks, or one. -/
def transferLast {State : Type*} (blocks : Nat)
    (transfer : BitVec 32 → Nat → State → State) (i : BitVec 32) (s : State) :
    BitVec 32 × State :=
  if sub64 blocks (intToU64 i) > 2 then (i + 1, transfer i 2 s)
  else (i, transfer i 1 s)

/--
The body of the loop `Read` and `Write` run over the whole blocks.  After 8 or
4 blocks it goes on with the last of them.
-/
def transferStep {State : Type*} (blocks : Nat)
    (transfer : BitVec 32 → Nat → State → State) (i : BitVec 32) (s : State) :
    BitVec 32 × State :=
  if sub64 blocks (intToU64 i) > 8 then
    transferLast blocks transfer (i + 7) (transfer i 8 s)
  else if sub64 blocks (intToU64 i) > 4 then
    transferLast blocks transfer (i + 3) (transfer i 4 s)
  else transferLast blocks transfer i s

def transferBlocks {State : Type*} (blocks : Nat)
    (transfer : BitVec 32 → Nat → State → State) (s : State) : State :=
  forIntBy blocks (transferStep blocks transfer) s

/-- Read `count` blocks into the bounce buffer and copy `size` bytes of them out. -/
def fetch (dev : DiskDevice) (lba count tempBuffer offset dest size : Nat)
    (s : DiskState) : DiskState :=
  let (_, s) := dev.readDiskBlock lba count tempBuffer s
  s.copy dest (tempBuffer + offset) size

/-- Fill the bounce buffer and write `count` blocks of it. -/
def flush (dev : DiskDevice) (lba count tempBuffer src size : Nat) (s : DiskState) :
    DiskState :=
  let s := s.copy tempBuffer src size
  (dev.writeDiskBlock lba count tempBuffer s).2

def modify (dev : DiskDevice) (lba tempBuffer offset src size : Nat) (s : DiskState) :
    DiskState :=
  let (_, s) := dev.readDiskBlock lba 1 tempBuffer s
  let s := s.copy (tempBuffer + offset) src size
  (dev.writeDiskBlock lba 1 tempBuffer s).2

def read (dev : DiskDevice) (off size buffer : Nat) (s : DiskState) : Int × DiskState :=
  let (bufferNumber, s) := getBuffer s
  if bufferNumber = -1 then (0, s)
  else
    let tempBuffer := dev.buffer bufferNumber.toNat
    let blocksize := intToU64 dev.blocksize
    let startLBA := off / blocksize
    let offsetInLBA := off % blocksize
    let sizeWithinFirstLBA := sub64 blocksize offsetInLBA
    let s := dev.fetch startLBA 1 tempBuffer offsetInLBA buffer sizeWithinFirstLBA s
    let blocks := sub64 size sizeWithinFirstLBA / blocksize
    let excess := sub64 (sub64 size sizeWithinFirstLBA) (wrap64 (blocksize * blocks))
    -- `i * blocksize` is an `int` and wraps before it is added to the pointer
    let s := transferBlocks blocks
      (fun i count =>
        dev.fetch (wrap64 (startLBA + 1 + intToU64 i)) count tempBuffer 0
          (buffer + sizeWithinFirstLBA + intToU64 (i * dev.blocksize))
          (intToU64 (dev.blocksize * BitVec.ofNat 32 count))) s
    let s :=
      if excess > 0 then
        dev.fetch (wrap64 (startLBA + 1 + blocks)) 1 tempBuffer 0
          (buffer + sizeWithinFirstLBA + wrap64 (blocks * blocksize)) excess s
      else s
    (1, relieveBuffer (BitVec.ofInt 8 bufferNumber) s)

def write (dev : DiskDevice) (off size buffer : Nat) (s : DiskState) : Int × DiskState :=
  let (bufferNumber, s) := getBuffer s
  if bufferNumber = -1 then (-1, s)
  else
    let tempBuffer := dev.buffer bufferNumber.toNat
    let blocksize := intToU64 dev.blocksize
    let startLBA := off / blocksize
    let offsetInLBA := sub64 off (wrap64 (off / blocksize * blocksize))
    let sizeWithinFirstLBA := sub64 blocksize offsetInLBA
    let s := dev.modify startLBA tempBuffer offsetInLBA buffer sizeWithinFirstLBA s
    let blocks := sub64 size sizeWithinFirstLBA / blocksize
    let excess := sub64 (sub64 size sizeWithinFirstLBA) (wrap64 (blocksize * blocks))
    let s := transferBlocks blocks
      (fun i count =>
        dev.flush (wrap64 (startLBA + 1 + intToU64 i)) count tempBuffer
          (buffer + sizeWithinFirstLBA + intToU64 (i * dev.blocksize))
          (intToU64 (dev.blocksize * BitVec.ofNat 32 count))) s
    -- the last block takes its bytes from the start of `buffer`
    let s :=
      if excess > 0 then
        dev.modify (wrap64 (startLBA + 1 + blocks)) tempBuffer 0 buffer excess s
      else s
    (1, relieveBuffer (BitVec.ofInt 8 bufferNumber) s)

/-! ## `ReadBlocks` and `WriteBlocks` -/

/-- At most `fuel` iterations of `for (; count - pos >= step; pos += step) body`. -/
def stepLoop {State : Type*} (count step : Nat) (body : Nat → State → State) :
    Nat → Nat → State → Nat × State
  | 0, pos, s => (pos, s)
  | fuel + 1, pos, s =>
      if sub64 count pos ≥ step then
        stepLoop count step body fuel (wrap64 (pos + step)) (body pos s)
      else (pos, s)

/-- The four loops of `ReadBlocks` and `WriteBlocks`; `count` iterations are enough for each. -/
def stepBlocks {State : Type*} (count : Nat) (transfer : Nat → Nat → State → State)
    (s : State) : State :=
  let (lbapos, s) := stepLoop count 8 (fun lbapos => transfer lbapos 8) count 0 s
  let (lbapos, s) := stepLoop count 4 (fun lbapos => transfer lbapos 4) count lbapos s
  let (lbapos, s) := stepLoop count 2 (fun lbapos => transfer lbapos 2) count lbapos s
  (stepLoop count 1 (fun lbapos => transfer lbapos 1) count lbapos s).2

/--
`DiskDevice::ReadBlocks`.  The result of `GetBuffer` is kept in a `uint8_t`, so
the test for `-1` never succeeds.  After the last loop the function ends without
a `return`: the result is then `none`.
-/
def readBlocks (dev : DiskDevice) (lba count buffer : Nat) (s : DiskState) :
    Option Int × DiskState :=
  let (number, s) := getBuffer s
  let bufNum := BitVec.ofInt 8 number
  if (bufNum.toNat : Int) = -1 then (some (-1), s)
  else
    (none, stepBlocks count
      (fun lbapos n =>
        dev.fetch (wrap64 (lba + lbapos)) n (dev.buffer bufNum.toNat) 0
          (buffer + wrap64 (lbapos * 512)) (intToU64 (dev.blocksize * BitVec.ofNat 32 n))) s)

def writeBlocks (dev : DiskDevice) (lba count buffer : Nat) (s : DiskState) :
    Option Int × DiskState :=
  let (number, s) := getBuffer s
  let bufNum := BitVec.ofInt 8 number
  if (bufNum.toNat : Int) = -1 then (some (-1), s)
  else
    (none, stepBlocks count
      (fun lbapos n =>
        dev.flush (wrap64 (lba + lbapos)) n (dev.buffer bufNum.toNat)
          (buffer + wrap64 (lbapos * 512)) (intToU64 (dev.blocksize * BitVec.ofNat 32 n))) s)

end DiskDevice

end UnifiedOS.FileSystem
