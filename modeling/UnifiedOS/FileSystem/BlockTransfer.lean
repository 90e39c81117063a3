import UnifiedOS.FileSystem.DiskCommands

/-!
# `ReadBlocks` and `WriteBlocks` move whole sectors

Four loops of 8, 4, 2 and 1 sectors hand one position to another.  Each part
moves the sectors at its position, so the four together do what a loop over
single sectors does.
-/

namespace UnifiedOS.FileSystem

open UnifiedOS.Foundation UnifiedOS.Memory
open DiskDevice

namespace DiskDevice

def readEach (dev : DiskDevice) (lba tempBuffer buffer : Nat) : Nat → DiskState → DiskState
  | 0, s => s
  | count + 1, s =>
      dev.fetch (lba + count) 1 tempBuffer 0 (buffer + 512 * count) 512
        (readEach dev lba tempBuffer buffer count s)

def writeEach (dev : DiskDevice) (lba tempBuffer buffer : Nat) : Nat → DiskState → DiskState
  | 0, s => s
  | count + 1, s =>
      dev.flush (lba + count) 1 tempBuffer (buffer + 512 * count) 512
        (writeEach dev lba tempBuffer buffer count s)

end DiskDevice

/-- `ReadBlocks` delivers the sectors and changes nothing else, as single reads would. -/
structure BlocksRead (dev : DiskDevice) (s : DiskState) (tempBuffer lba count buffer : Nat) :
    Prop where
  delivered : ∀ k < 512 * count,
    (dev.readBlocks lba count buffer s).2.mem (buffer + k) = s.disk (512 * lba + k)
  rest : ∀ x, (x < buffer ∨ buffer + 512 * count ≤ x) →
    (x < tempBuffer ∨ tempBuffer + 0x1000 ≤ x) →
    (dev.readBlocks lba count buffer s).2.mem x = s.mem x
  disk : (dev.readBlocks lba count buffer s).2.disk = s.disk
  each : ∀ x, (x < tempBuffer ∨ tempBuffer + 0x1000 ≤ x) →
    (dev.readBlocks lba count buffer s).2.mem x =
      (dev.readEach lba tempBuffer buffer count s).mem x

structure BlocksWritten (dev : DiskDevice) (s : DiskState) (tempBuffer lba count buffer : Nat) :
    Prop where
  stored : ∀ y, (dev.writeBlocks lba count buffer s).2.disk y =
    if 512 * lba ≤ y ∧ y < 512 * lba + 512 * count then s.mem (buffer + (y - 512 * lba))
    else s.disk y
  rest : ∀ x, (x < tempBuffer ∨ tempBuffer + 0x1000 ≤ x) →
    (dev.writeBlocks lba count buffer s).2.mem x = s.mem x
  each : (dev.writeBlocks lba count buffer s).2.disk =
    (dev.writeEach lba tempBuffer buffer count s).disk

/--
A `ReadBlocks` that finds the disk as `WriteBlocks` left it returns the bytes
that were written, wherever it reads to and whichever buffer it gets.
-/
def ReturnsWritten (dev : DiskDevice) (s : DiskState) (lba count buffer : Nat) : Prop :=
  ∀ t j dest, t.disk = (dev.writeBlocks lba count buffer s).2.disk →
    freeBuffer t.bufferLock = some j → dev.buffer j + 0x1000 ≤ 2 ^ 64 →
    OffPage (dev.buffer j) dest (512 * count) → ∀ k < 512 * count,
      (dev.readBlocks lba count dest t).2.mem (dest + k) = s.mem (buffer + k)

section Blocks

variable {dev : DiskDevice} {s s₀ s' : DiskState} {lba count buffer tempBuffer off size i : Nat}

theorem readBlocks_eq (hb : dev.blocksize = 512) (hfree : freeBuffer s.bufferLock = some i) :
    (dev.readBlocks lba count buffer s).2 =
      stepBlocks count
        (fun lbapos n => dev.fetch (wrap64 (lba + lbapos)) n (dev.buffer i) 0
          (buffer + wrap64 (lbapos * 512)) (intToU64 (512 * BitVec.ofNat 32 n)))
        { s with bufferLock := s.bufferLock ||| (1#8 <<< i) } := by
  have hi := (freeBuffer_some hfree).1
  rw [readBlocks, getBuffer, hfree]
  dsimp only
  rw [if_neg (by omega), toNat_bufferNumber hi, hb]

theorem writeBlocks_eq (hb : dev.blocksize = 512) (hfree : freeBuffer s.bufferLock = some i) :
    (dev.writeBlocks lba count buffer s).2 =
      stepBlocks count
        (fun lbapos n => dev.flush (wrap64 (lba + lbapos)) n (dev.buffer i)
          (buffer + wrap64 (lbapos * 512)) (intToU64 (512 * BitVec.ofNat 32 n)))
        { s with bufferLock := s.bufferLock ||| (1#8 <<< i) } := by
  have hi := (freeBuffer_some hfree).1
  rw [writeBlocks, getBuffer, hfree]
  dsimp only
  rw [if_neg (by omega), toNat_bufferNumber hi, hb]

theorem fetched_start (lock : BitVec 8) :
    Fetched s { s with bufferLock := lock } tempBuffer off size buffer 0 :=
  ⟨rfl, fun _ hk => absurd hk (Nat.not_lt_zero _), fun _ _ _ => rfl⟩

theorem stored_start (lock : BitVec 8) :
    Stored s { s with bufferLock := lock } tempBuffer off buffer 0 :=
  ⟨fun _ => by rw [if_neg (by omega)], fun _ _ => rfl⟩

theorem readBlocks_fetched (lba count : Nat) (hb : dev.blocksize = 512)
    (hok : ∀ n, dev.succeeds n = true) (hfree : freeBuffer s.bufferLock = some i)
    (hpage : dev.buffer i + 0x1000 ≤ 2 ^ 64)
    (hbuffer : OffPage (dev.buffer i) buffer (512 * count)) (hlba : lba + count ≤ 2 ^ 64) :
    Fetched s (dev.readBlocks lba count buffer s).2 (dev.buffer i) (512 * lba) (512 * count)
      buffer (512 * count) := by
  have hrange := hbuffer.inMemory
  rw [readBlocks_eq hb hfree]
  refine @stepBlocks_rule DiskState (fun pos s' => Fetched s s' (dev.buffer i) (512 * lba)
    (512 * count) buffer (512 * pos)) count _ _ (by omega) ?_ (fetched_start _)
  intro pos n s' _ hn hend h
  rw [length_eq hn, wrap64_of_lt (by omega), wrap64_of_lt (by omega), Nat.mul_comm pos,
    Nat.mul_add]
  exact h.next hok hpage hbuffer hn (by omega) (by omega) (Nat.le_refl _) (by omega)

theorem writeBlocks_stored (lba count : Nat) (hb : dev.blocksize = 512)
    (hok : ∀ n, dev.succeeds n = true) (hfree : freeBuffer s.bufferLock = some i)
    (hpage : dev.buffer i + 0x1000 ≤ 2 ^ 64)
    (hbuffer : OffPage (dev.buffer i) buffer (512 * count)) (hlba : lba + count ≤ 2 ^ 64) :
    Stored s (dev.writeBlocks lba count buffer s).2 (dev.buffer i) (512 * lba) buffer
      (512 * count) := by
  have hrange := hbuffer.inMemory
  rw [writeBlocks_eq hb hfree]
  refine @stepBlocks_rule DiskState (fun pos s' => Stored s s' (dev.buffer i) (512 * lba)
    buffer (512 * pos)) count _ _ (by omega) ?_ (stored_start _)
  intro pos n s' _ hn hend h
  rw [length_eq hn, wrap64_of_lt (by omega), wrap64_of_lt (by omega), Nat.mul_comm pos,
    Nat.mul_add]
  exact h.next hok hpage hbuffer hn (by omega) (Nat.le_refl _) (by omega) (by omega)

theorem readEach_fetched (hok : ∀ n, dev.succeeds n = true)
    (hpage : tempBuffer + 0x1000 ≤ 2 ^ 64) (hbuffer : OffPage tempBuffer buffer size)
    (hcount : 512 * count ≤ size) :
    Fetched s (dev.readEach lba tempBuffer buffer count s) tempBuffer (512 * lba) size buffer
      (512 * count) := by
  induction count with
  | zero => exact fetched_start s.bufferLock
  | succ count ih =>
      rw [readEach, Nat.mul_succ]
      exact (ih (by omega)).next hok hpage hbuffer (by norm_num) (by omega) (by omega)
        (Nat.le_refl _) (by omega)

theorem writeEach_stored (hok : ∀ n, dev.succeeds n = true)
    (hpage : tempBuffer + 0x1000 ≤ 2 ^ 64) (hbuffer : OffPage tempBuffer buffer size)
    (hcount : 512 * count ≤ size) :
    Stored s (dev.writeEach lba tempBuffer buffer count s) tempBuffer (512 * lba) buffer
      (512 * count) := by
  induction count with
  | zero => exact stored_start s.bufferLock
  | succ count ih =>
      rw [writeEach, Nat.mul_succ]
      exact (ih (by omega)).next hok hpage hbuffer (by norm_num) (by omega) (Nat.le_refl _)
        (by omega) (by omega)

theorem Fetched.unique (h : Fetched s₀ s tempBuffer off size buffer size)
    (h' : Fetched s₀ s' tempBuffer off size buffer size) {x : Nat}
    (hx : x < tempBuffer ∨ tempBuffer + 0x1000 ≤ x) : s.mem x = s'.mem x := by
  by_cases hin : buffer ≤ x ∧ x < buffer + size
  · obtain ⟨k, rfl⟩ := Nat.exists_eq_add_of_le hin.1
    rw [h.data k (by omega), h'.data k (by omega)]
  · rw [h.rest x (by omega) hx, h'.rest x (by omega) hx]

/--
With a free buffer and commands that succeed, `ReadBlocks` and `WriteBlocks` are
the loops over single sectors, and what was written is read back.
-/
theorem blocks_transferred (hb : dev.blocksize = 512) (hok : ∀ n, dev.succeeds n = true)
    (hfree : freeBuffer s.bufferLock = some i) (hpage : dev.buffer i + 0x1000 ≤ 2 ^ 64)
    (hbuffer : OffPage (dev.buffer i) buffer (512 * count)) (hlba : lba + count ≤ 2 ^ 64) :
    BlocksRead dev s (dev.buffer i) lba count buffer ∧
      BlocksWritten dev s (dev.buffer i) lba count buffer ∧
      ReturnsWritten dev s lba count buffer := by
  have hread := readBlocks_fetched lba count hb hok hfree hpage hbuffer hlba
  have hwrite := writeBlocks_stored lba count hb hok hfree hpage hbuffer hlba
  refine ⟨⟨hread.data, hread.rest, hread.disk, fun x hx => ?_⟩,
    ⟨hwrite.disk, hwrite.rest, ?_⟩, ?_⟩
  · exact hread.unique (readEach_fetched hok hpage hbuffer (Nat.le_refl _)) hx
  · funext y
    rw [hwrite.disk, (writeEach_stored hok hpage hbuffer (Nat.le_refl _)).disk]
  · intro t j dest hdisk hfree' hpage' hdest k hk
    have hback := readBlocks_fetched lba count hb hok hfree' hpage' hdest hlba
    rw [hback.data k hk, hdisk, hwrite.disk, if_pos (by omega), Nat.add_sub_cancel_left]

theorem blocks_transferred_fifteen :
    BlocksRead idleDevice idleState (idleDevice.buffer 0) 3 15 0x100000 ∧
      BlocksWritten idleDevice idleState (idleDevice.buffer 0) 3 15 0x100000 ∧
      ReturnsWritten idleDevice idleState 3 15 0x100000 :=
  blocks_transferred rfl (fun _ => rfl) (by decide) (by decide) ⟨by decide, by decide⟩
    (by norm_num)

end Blocks

end UnifiedOS.FileSystem
