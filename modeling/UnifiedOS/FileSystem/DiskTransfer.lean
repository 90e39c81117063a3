import UnifiedOS.FileSystem.BufferPool

/-!
# What `Read` and `Write` transfer

With blocks of 512 bytes and commands that succeed, each part of a transfer
moves one range of bytes: the end of the first block, some of the whole blocks,
the start of the last.  `Fetched` and `Stored` say how far a `Read` and a
`Write` have come.  `Write` takes the bytes of the last block from the start of
the buffer instead of its end, and in both functions the `int` product
`i * blocksize` leaves its range from block `2 ^ 22` on.
-/

namespace UnifiedOS.FileSystem

open UnifiedOS.Foundation UnifiedOS.Memory
open DiskDevice

/-! ## The loop over the whole blocks -/

section Loop

variable {State : Type*} {Inv : Nat → State → Prop} {blocks : Nat}
  {transfer : BitVec 32 → Nat → State → State}

/-- `transfer` moves `count` blocks from `i` on, the last block only on its own. -/
def Advances (Inv : Nat → State → Prop) (blocks : Nat)
    (transfer : BitVec 32 → Nat → State → State) : Prop :=
  ∀ done i count s, i ≤ done → done ≤ i + count → i + count ≤ blocks → 0 < count →
    count ≤ 8 → (i + count = blocks → count = 1) → Inv done s →
      Inv (i + count) (transfer (BitVec.ofNat 32 i) count s)

theorem remaining_eq {i : Nat} (hblocks : blocks < 2 ^ 64) (hi : i < blocks)
    (hint : i < 2 ^ 31) : sub64 blocks (intToU64 (BitVec.ofNat 32 i)) = blocks - i := by
  rw [intToU64_ofNat (by omega), if_pos hint, sub64_of_le (by omega) hblocks]

private theorem transferLast_rule (hblocks : blocks ≤ 2 ^ 31)
    (htransfer : Advances Inv blocks transfer) {done i : Nat} {s : State} (hi : i < blocks)
    (hle : i ≤ done) (hdone : done ≤ i + 1) (h : Inv done s) :
    ∃ i', i < i' ∧ i' ≤ blocks ∧
      (transferLast blocks transfer (BitVec.ofNat 32 i) s).1 + 1 = BitVec.ofNat 32 i' ∧
      Inv i' (transferLast blocks transfer (BitVec.ofNat 32 i) s).2 := by
  unfold transferLast
  rw [remaining_eq (by omega) hi (by omega)]
  by_cases h2 : blocks - i > 2
  · rw [if_pos h2]
    refine ⟨i + 2, by omega, by omega, ?_, ?_⟩
    · rw [show i + 2 = i + 1 + 1 from rfl, BitVec.ofNat_add (i + 1), BitVec.ofNat_add i]
      rfl
    · exact htransfer done i 2 s hle (by omega) (by omega) (by norm_num) (by norm_num)
        (by omega) h
  · rw [if_neg h2]
    refine ⟨i + 1, by omega, by omega, ?_, ?_⟩
    · rw [BitVec.ofNat_add i]
      rfl
    · exact htransfer done i 1 s hle hdone (by omega) (by norm_num) (by norm_num)
        (fun _ => rfl) h

theorem transferBlocks_rule {s : State} (hblocks : blocks ≤ 2 ^ 31)
    (htransfer : Advances Inv blocks transfer) (h : Inv 0 s) :
    Inv blocks (transferBlocks blocks transfer s) := by
  unfold transferBlocks
  refine forIntBy_rule (by omega) ?_ h
  intro i s hi h
  unfold transferStep
  rw [remaining_eq (by omega) hi (by omega)]
  by_cases h8 : blocks - i > 8
  · rw [if_pos h8]
    have hnext := htransfer i i 8 s (Nat.le_refl _) (by omega) (by omega) (by norm_num)
      (by norm_num) (by omega) h
    have hi7 : BitVec.ofNat 32 i + 7 = BitVec.ofNat 32 (i + 7) := (BitVec.ofNat_add i 7).symm
    rw [hi7]
    obtain ⟨i', hlt, hle, hcounter, hinv⟩ := transferLast_rule hblocks htransfer
      (show i + 7 < blocks by omega) (by omega) (by omega) hnext
    exact ⟨i', by omega, hle, hcounter, hinv⟩
  · rw [if_neg h8]
    by_cases h4 : blocks - i > 4
    · rw [if_pos h4]
      have hnext := htransfer i i 4 s (Nat.le_refl _) (by omega) (by omega) (by norm_num)
        (by norm_num) (by omega) h
      have hi3 : BitVec.ofNat 32 i + 3 = BitVec.ofNat 32 (i + 3) := (BitVec.ofNat_add i 3).symm
      rw [hi3]
      obtain ⟨i', hlt, hle, hcounter, hinv⟩ := transferLast_rule hblocks htransfer
        (show i + 3 < blocks by omega) (by omega) (by omega) hnext
      exact ⟨i', by omega, hle, hcounter, hinv⟩
    · rw [if_neg h4]
      exact transferLast_rule hblocks htransfer hi (Nat.le_refl _) (by omega) h

end Loop

/-! ## One part -/

structure OffPage (tempBuffer a n : Nat) : Prop where
  inMemory : a + n ≤ 2 ^ 64
  apart : a + n ≤ tempBuffer ∨ tempBuffer + 0x1000 ≤ a

section Parts

variable {dev : DiskDevice} {s : DiskState}
  {lba count tempBuffer offset dest src size : Nat}

theorem fetch_outside {x : Nat} (hcount : count ≤ 8)
    (hcopy : ∀ k < size, wrap64 (dest + k) ≠ x)
    (hx : x < tempBuffer ∨ tempBuffer + 0x1000 ≤ x) :
    (dev.fetch lba count tempBuffer offset dest size s).mem x = s.mem x := by
  unfold DiskDevice.fetch readDiskBlock DiskState.copy
  dsimp only
  rw [memcpy_outside hcopy]
  split
  · exact ByteMemory.blit_outside _ (by omega)
  · rfl

theorem fetch_data (hok : dev.succeeds s.commands.length = true)
    (hpage : tempBuffer + 0x1000 ≤ 2 ^ 64) (hcount : count ≤ 8)
    (hfit : offset + size ≤ 512 * count) (hdest : OffPage tempBuffer dest size) {k : Nat}
    (hk : k < size) :
    (dev.fetch lba count tempBuffer offset dest size s).mem (dest + k) =
      s.disk (512 * lba + offset + k) := by
  have hrange := hdest.inMemory
  have hapart := hdest.apart
  unfold DiskDevice.fetch readDiskBlock DiskState.copy
  dsimp only
  rw [hok, if_pos rfl, memcpy_apart hrange (by omega) (by omega),
    ByteMemory.blit_inside _ hk, Nat.add_assoc, ByteMemory.blit_inside _ (by omega),
    Nat.add_assoc]

theorem flush_outside {x : Nat} (hpage : tempBuffer + 0x1000 ≤ 2 ^ 64) (hsize : size ≤ 0x1000)
    (hx : x < tempBuffer ∨ tempBuffer + 0x1000 ≤ x) :
    (dev.flush lba count tempBuffer src size s).mem x = s.mem x := by
  have hcopy : ∀ k < size, wrap64 (tempBuffer + k) ≠ x := by
    intro k hk
    rw [wrap64_of_lt (by omega)]
    omega
  exact memcpy_outside hcopy

theorem flush_disk (hok : dev.succeeds s.commands.length = true)
    (hpage : tempBuffer + 0x1000 ≤ 2 ^ 64) (hcount : count ≤ 8)
    (hsrc : OffPage tempBuffer src (512 * count)) (y : Nat) :
    (dev.flush lba count tempBuffer src (512 * count) s).disk y =
      if 512 * lba ≤ y ∧ y < 512 * lba + 512 * count then s.mem (src + (y - 512 * lba))
      else s.disk y := by
  have hrange := hsrc.inMemory
  have hapart := hsrc.apart
  unfold DiskDevice.flush writeDiskBlock DiskState.copy
  dsimp only
  rw [hok, if_pos rfl, ByteMemory.blit]
  by_cases hin : 512 * lba ≤ y ∧ y < 512 * lba + 512 * count
  · rw [if_pos hin, if_pos hin, memcpy_apart (by omega) hrange (by omega),
      ByteMemory.blit_inside _ (by omega)]
  · rw [if_neg hin, if_neg hin]

theorem modify_outside {x : Nat} (hpage : tempBuffer + 0x1000 ≤ 2 ^ 64)
    (hfit : offset + size ≤ 512) (hx : x < tempBuffer ∨ tempBuffer + 0x1000 ≤ x) :
    (dev.modify lba tempBuffer offset src size s).mem x = s.mem x := by
  have hcopy : ∀ k < size, wrap64 (tempBuffer + offset + k) ≠ x := by
    intro k hk
    rw [wrap64_of_lt (by omega)]
    omega
  unfold DiskDevice.modify readDiskBlock writeDiskBlock DiskState.copy
  dsimp only
  rw [memcpy_outside hcopy]
  split
  · exact ByteMemory.blit_outside _ (by omega)
  · rfl

theorem modify_disk (hok : ∀ n, dev.succeeds n = true)
    (hpage : tempBuffer + 0x1000 ≤ 2 ^ 64) (hfit : offset + size ≤ 512)
    (hsrc : OffPage tempBuffer src size) (y : Nat) :
    (dev.modify lba tempBuffer offset src size s).disk y =
      if 512 * lba + offset ≤ y ∧ y < 512 * lba + offset + size then
        s.mem (src + (y - (512 * lba + offset)))
      else s.disk y := by
  have hrange := hsrc.inMemory
  have hapart := hsrc.apart
  unfold DiskDevice.modify readDiskBlock writeDiskBlock DiskState.copy
  dsimp only
  rw [hok, hok, if_pos rfl, if_pos rfl, memcpy_apart (by omega) hrange (by omega),
    ByteMemory.blit]
  by_cases hblock : 512 * lba ≤ y ∧ y < 512 * lba + 512 * 1
  · rw [if_pos hblock]
    by_cases hin : 512 * lba + offset ≤ y ∧ y < 512 * lba + offset + size
    · rw [if_pos hin, ByteMemory.blit, if_pos (by omega), ByteMemory.blit_outside _ (by omega)]
      congr 1
      omega
    · rw [if_neg hin, ByteMemory.blit_outside _ (by omega), ByteMemory.blit_inside _ (by omega)]
      congr 1
      omega
  · rw [if_neg hblock, if_neg (by omega)]

end Parts

/-! ## A request over its parts -/

def firstSize (off : Nat) : Nat := 512 - off % 512

def wholeBlocks (off size : Nat) : Nat := (size - firstSize off) / 512

def excess (off size : Nat) : Nat := (size - firstSize off) % 512

theorem size_eq {off size : Nat} (hreach : 512 ≤ off % 512 + size) :
    size = firstSize off + 512 * wholeBlocks off size + excess off size := by
  unfold wholeBlocks excess firstSize
  omega

theorem firstSize_add (off : Nat) : firstSize off + off % 512 = 512 := by
  unfold firstSize
  omega

theorem excess_lt (off size : Nat) : excess off size < 512 := Nat.mod_lt _ (by norm_num)

structure Fetched (s₀ s : DiskState) (tempBuffer off size buffer done : Nat) : Prop where
  disk : s.disk = s₀.disk
  data : ∀ k < done, s.mem (buffer + k) = s₀.disk (off + k)
  rest : ∀ x, (x < buffer ∨ buffer + size ≤ x) → (x < tempBuffer ∨ tempBuffer + 0x1000 ≤ x) →
    s.mem x = s₀.mem x

structure Stored (s₀ s : DiskState) (tempBuffer off buffer done : Nat) : Prop where
  disk : ∀ y, s.disk y =
    if off ≤ y ∧ y < off + done then s₀.mem (buffer + (y - off)) else s₀.disk y
  rest : ∀ x, (x < tempBuffer ∨ tempBuffer + 0x1000 ≤ x) → s.mem x = s₀.mem x

section Request

variable {dev : DiskDevice} {s s₀ : DiskState}
  {tempBuffer off size buffer done a n lba count offset : Nat}

theorem Fetched.next (h : Fetched s₀ s tempBuffer off size buffer done)
    (hok : ∀ n, dev.succeeds n = true) (hpage : tempBuffer + 0x1000 ≤ 2 ^ 64)
    (hbuffer : OffPage tempBuffer buffer size) (hcount : count ≤ 8)
    (hfit : offset + n ≤ 512 * count) (hlba : 512 * lba + offset = off + a) (ha : a ≤ done)
    (hn : a + n ≤ size) :
    Fetched s₀ (dev.fetch lba count tempBuffer offset (buffer + a) n s) tempBuffer off size
      buffer (a + n) := by
  have hrange := hbuffer.inMemory
  have hapart := hbuffer.apart
  have hcopy : ∀ x, (x < buffer + a ∨ buffer + a + n ≤ x) →
      ∀ k < n, wrap64 (buffer + a + k) ≠ x := by
    intro x hx k hk
    rw [wrap64_of_lt (by omega)]
    omega
  refine ⟨h.disk, ?_, ?_⟩
  · intro k hk
    by_cases hpart : a ≤ k
    · obtain ⟨j, rfl⟩ := Nat.exists_eq_add_of_le hpart
      rw [← Nat.add_assoc, fetch_data (hok _) hpage hcount hfit ⟨by omega, by omega⟩ (by omega),
        hlba, h.disk, Nat.add_assoc]
    · rw [fetch_outside hcount (hcopy _ (by omega)) (by omega)]
      exact h.data k (by omega)
  · intro x hx hx'
    rw [fetch_outside hcount (hcopy _ (by omega)) hx']
    exact h.rest x hx hx'

theorem Stored.next (h : Stored s₀ s tempBuffer off buffer done)
    (hok : ∀ n, dev.succeeds n = true) (hpage : tempBuffer + 0x1000 ≤ 2 ^ 64)
    (hbuffer : OffPage tempBuffer buffer size) (hcount : count ≤ 8)
    (hlba : 512 * lba = off + a) (ha : a ≤ done) (hdone : done ≤ a + 512 * count)
    (hn : a + 512 * count ≤ size) :
    Stored s₀ (dev.flush lba count tempBuffer (buffer + a) (512 * count) s) tempBuffer off
      buffer (a + 512 * count) := by
  have hrange := hbuffer.inMemory
  have hapart := hbuffer.apart
  constructor
  · intro y
    rw [flush_disk (hok _) hpage hcount ⟨by omega, by omega⟩, hlba]
    by_cases hpart : off + a ≤ y ∧ y < off + a + 512 * count
    · rw [if_pos hpart, if_pos (by omega), h.rest _ (by omega)]
      congr 1
      omega
    · rw [if_neg hpart, h.disk]
      by_cases hbefore : off ≤ y ∧ y < off + done
      · rw [if_pos hbefore, if_pos (by omega)]
      · rw [if_neg hbefore, if_neg (by omega)]
  · intro x hx
    rw [flush_outside hpage (by omega) hx]
    exact h.rest x hx

theorem offset_eq {i : Nat} (hi : i < 2 ^ 22) :
    intToU64 (BitVec.ofNat 32 i * 512) = 512 * i := by
  have hproduct : BitVec.ofNat 32 i * 512 = BitVec.ofNat 32 (512 * i) := by
    rw [Nat.mul_comm, BitVec.ofNat_mul]
    rfl
  rw [hproduct, intToU64_ofNat (by omega), if_pos (by omega)]

theorem length_eq (hcount : count ≤ 8) :
    intToU64 (512 * BitVec.ofNat 32 count) = 512 * count := by
  rw [BitVec.mul_comm]
  exact offset_eq (by omega)

theorem request_eq (hsize : size < 2 ^ 64) (hreach : 512 ≤ off % 512 + size) :
    sub64 512 (off % 512) = firstSize off ∧
    sub64 size (firstSize off) / 512 = wholeBlocks off size ∧
    sub64 (sub64 size (firstSize off)) (wrap64 (512 * wholeBlocks off size)) =
      excess off size := by
  have hle : firstSize off ≤ size := by
    unfold firstSize
    omega
  have hrest : sub64 size (firstSize off) = size - firstSize off := sub64_of_le hle hsize
  have hwhole : 512 * wholeBlocks off size ≤ size - firstSize off := by
    unfold wholeBlocks
    omega
  refine ⟨sub64_of_le (by omega) (by norm_num), by rw [hrest, wholeBlocks], ?_⟩
  rw [hrest, wrap64_of_lt (by omega), sub64_of_le hwhole (by omega)]
  unfold wholeBlocks excess
  omega

theorem read_eq {i : Nat} (hb : dev.blocksize = 512) (hfree : freeBuffer s.bufferLock = some i)
    (hsize : size < 2 ^ 64) (hreach : 512 ≤ off % 512 + size) :
    (dev.read off size buffer s).2 =
      let s₁ := dev.fetch (off / 512) 1 (dev.buffer i) (off % 512) buffer (firstSize off)
        { s with bufferLock := s.bufferLock ||| (1#8 <<< i) }
      let s₂ := transferBlocks (wholeBlocks off size)
        (fun j count => dev.fetch (wrap64 (off / 512 + 1 + intToU64 j)) count (dev.buffer i) 0
          (buffer + firstSize off + intToU64 (j * 512))
          (intToU64 (512 * BitVec.ofNat 32 count))) s₁
      relieveBuffer (BitVec.ofInt 8 i)
        (if excess off size > 0 then
          dev.fetch (wrap64 (off / 512 + 1 + wholeBlocks off size)) 1 (dev.buffer i) 0
            (buffer + firstSize off + wrap64 (wholeBlocks off size * 512)) (excess off size) s₂
        else s₂) := by
  obtain ⟨hfirst, hwhole, hexcess⟩ := request_eq hsize hreach
  have h512 : intToU64 512 = 512 := by decide
  rw [DiskDevice.read, getBuffer, hfree]
  dsimp only
  rw [if_neg (by omega), hb, h512, hfirst, hwhole, hexcess, Int.toNat_natCast]

@[simp] theorem relieveBuffer_mem {index : BitVec 8} : (relieveBuffer index s).mem = s.mem :=
  rfl

@[simp] theorem relieveBuffer_disk {index : BitVec 8} :
    (relieveBuffer index s).disk = s.disk := rfl

theorem fetched_relieve {index : BitVec 8}
    (h : Fetched s₀ s tempBuffer off size buffer done) :
    Fetched s₀ (relieveBuffer index s) tempBuffer off size buffer done :=
  ⟨h.disk, h.data, h.rest⟩

theorem Fetched.blocks (h : Fetched s₀ s tempBuffer off size buffer (firstSize off))
    (hok : ∀ n, dev.succeeds n = true) (hpage : tempBuffer + 0x1000 ≤ 2 ^ 64)
    (hbuffer : OffPage tempBuffer buffer size) (hoff : off < 2 ^ 64)
    (hreach : 512 ≤ off % 512 + size) (hblocks : wholeBlocks off size ≤ 2 ^ 22) :
    Fetched s₀ (transferBlocks (wholeBlocks off size)
      (fun j count => dev.fetch (wrap64 (off / 512 + 1 + intToU64 j)) count tempBuffer 0
        (buffer + firstSize off + intToU64 (j * 512))
        (intToU64 (512 * BitVec.ofNat 32 count))) s)
      tempBuffer off size buffer (firstSize off + 512 * wholeBlocks off size) := by
  have hsizeEq := size_eq hreach
  have hfirstLe := firstSize_add off
  have hadvances : Advances
      (fun done s₁ => Fetched s₀ s₁ tempBuffer off size buffer (firstSize off + 512 * done))
      (wholeBlocks off size)
      (fun j count => dev.fetch (wrap64 (off / 512 + 1 + intToU64 j)) count tempBuffer 0
        (buffer + firstSize off + intToU64 (j * 512))
        (intToU64 (512 * BitVec.ofNat 32 count))) := by
    intro done j count s₁ hj hdone hle hpos hcount hlast h
    dsimp only
    rw [offset_eq (by omega), length_eq hcount, intToU64_ofNat (by omega), if_pos (by omega),
      wrap64_of_lt (by omega), Nat.add_assoc buffer, Nat.mul_add,
      ← Nat.add_assoc (firstSize off)]
    exact h.next hok hpage hbuffer hcount (by omega) (by omega) (by omega) (by omega)
  exact transferBlocks_rule (by omega) hadvances h

theorem read_fetched {i : Nat} (hb : dev.blocksize = 512) (hok : ∀ n, dev.succeeds n = true)
    (hfree : freeBuffer s.bufferLock = some i) (hpage : dev.buffer i + 0x1000 ≤ 2 ^ 64)
    (hbuffer : OffPage (dev.buffer i) buffer size) (hoff : off < 2 ^ 64)
    (hreach : 512 ≤ off % 512 + size) (hblocks : wholeBlocks off size ≤ 2 ^ 22) :
    Fetched s (dev.read off size buffer s).2 (dev.buffer i) off size buffer size := by
  have hsizeEq := size_eq hreach
  have hexcessLt := excess_lt off size
  have hfirstLe := firstSize_add off
  have hstart : Fetched s { s with bufferLock := s.bufferLock ||| (1#8 <<< i) }
      (dev.buffer i) off size buffer 0 :=
    ⟨rfl, fun k hk => absurd hk (Nat.not_lt_zero k), fun _ _ _ => rfl⟩
  rw [read_eq hb hfree (by omega) hreach]
  dsimp only
  apply fetched_relieve
  have hhead : Fetched s (dev.fetch (off / 512) 1 (dev.buffer i) (off % 512) (buffer + 0)
      (firstSize off) { s with bufferLock := s.bufferLock ||| (1#8 <<< i) })
      (dev.buffer i) off size buffer (0 + firstSize off) :=
    hstart.next hok hpage hbuffer (by norm_num) (by omega) (by omega) (Nat.le_refl _)
      (by omega)
  rw [Nat.add_zero, Nat.zero_add] at hhead
  have hmiddle := hhead.blocks hok hpage hbuffer hoff hreach hblocks
  by_cases htail : excess off size > 0
  · rw [if_pos htail, wrap64_of_lt (show wholeBlocks off size * 512 < 2 ^ 64 by omega),
      wrap64_of_lt (show off / 512 + 1 + wholeBlocks off size < 2 ^ 64 by omega),
      Nat.add_assoc buffer, Nat.mul_comm (wholeBlocks off size)]
    have hend := hmiddle.next hok hpage hbuffer (Nat.one_le_two_pow : 1 ≤ 2 ^ 3)
      (show 0 + excess off size ≤ 512 * 1 by omega)
      (show 512 * (off / 512 + 1 + wholeBlocks off size) + 0 =
        off + (firstSize off + 512 * wholeBlocks off size) by omega)
      (Nat.le_refl _) (by omega)
    rw [← hsizeEq] at hend
    exact hend
  · rw [if_neg htail]
    have hexact : firstSize off + 512 * wholeBlocks off size = size := by omega
    rw [hexact] at hmiddle
    exact hmiddle

theorem write_eq {i : Nat} (hb : dev.blocksize = 512)
    (hfree : freeBuffer s.bufferLock = some i) (hoff : off < 2 ^ 64) (hsize : size < 2 ^ 64)
    (hreach : 512 ≤ off % 512 + size) :
    (dev.write off size buffer s).2 =
      let s₁ := dev.modify (off / 512) (dev.buffer i) (off % 512) buffer (firstSize off)
        { s with bufferLock := s.bufferLock ||| (1#8 <<< i) }
      let s₂ := transferBlocks (wholeBlocks off size)
        (fun j count => dev.flush (wrap64 (off / 512 + 1 + intToU64 j)) count (dev.buffer i)
          (buffer + firstSize off + intToU64 (j * 512))
          (intToU64 (512 * BitVec.ofNat 32 count))) s₁
      relieveBuffer (BitVec.ofInt 8 i)
        (if excess off size > 0 then
          dev.modify (wrap64 (off / 512 + 1 + wholeBlocks off size)) (dev.buffer i) 0 buffer
            (excess off size) s₂
        else s₂) := by
  obtain ⟨hfirst, hwhole, hexcess⟩ := request_eq hsize hreach
  have h512 : intToU64 512 = 512 := by decide
  have hoffset : sub64 off (wrap64 (off / 512 * 512)) = off % 512 := by
    rw [wrap64_of_lt (by omega), sub64_of_le (by omega) hoff]
    omega
  rw [DiskDevice.write, getBuffer, hfree]
  dsimp only
  rw [if_neg (by omega), hb, h512, hoffset, hfirst, hwhole, hexcess, Int.toNat_natCast]

private theorem stored_first (hok : ∀ n, dev.succeeds n = true)
    (hpage : tempBuffer + 0x1000 ≤ 2 ^ 64) (hbuffer : OffPage tempBuffer buffer size)
    (hfirst : firstSize off ≤ size) :
    Stored s (dev.modify (off / 512) tempBuffer (off % 512) buffer (firstSize off) s)
      tempBuffer off buffer (firstSize off) := by
  have hrange := hbuffer.inMemory
  have hapart := hbuffer.apart
  have hfit : off % 512 + firstSize off ≤ 512 := by
    unfold firstSize
    omega
  constructor
  · intro y
    rw [modify_disk hok hpage hfit ⟨by omega, by omega⟩, Nat.div_add_mod]
  · intro x hx
    exact modify_outside hpage hfit hx

theorem Stored.blocks (h : Stored s₀ s tempBuffer off buffer (firstSize off))
    (hok : ∀ n, dev.succeeds n = true) (hpage : tempBuffer + 0x1000 ≤ 2 ^ 64)
    (hbuffer : OffPage tempBuffer buffer size) (hoff : off < 2 ^ 64)
    (hreach : 512 ≤ off % 512 + size) (hblocks : wholeBlocks off size ≤ 2 ^ 22) :
    Stored s₀ (transferBlocks (wholeBlocks off size)
      (fun j count => dev.flush (wrap64 (off / 512 + 1 + intToU64 j)) count tempBuffer
        (buffer + firstSize off + intToU64 (j * 512))
        (intToU64 (512 * BitVec.ofNat 32 count))) s)
      tempBuffer off buffer (firstSize off + 512 * wholeBlocks off size) := by
  have hsizeEq := size_eq hreach
  have hfirstLe := firstSize_add off
  have hadvances : Advances
      (fun done s₁ => Stored s₀ s₁ tempBuffer off buffer (firstSize off + 512 * done))
      (wholeBlocks off size)
      (fun j count => dev.flush (wrap64 (off / 512 + 1 + intToU64 j)) count tempBuffer
        (buffer + firstSize off + intToU64 (j * 512))
        (intToU64 (512 * BitVec.ofNat 32 count))) := by
    intro done j count s₁ hj hdone hle hpos hcount hlast h
    dsimp only
    rw [offset_eq (by omega), length_eq hcount, intToU64_ofNat (by omega), if_pos (by omega),
      wrap64_of_lt (by omega), Nat.add_assoc buffer, Nat.mul_add,
      ← Nat.add_assoc (firstSize off)]
    exact h.next hok hpage hbuffer hcount (by omega) (by omega) (by omega) (by omega)
  exact transferBlocks_rule (by omega) hadvances h

theorem write_disk {i : Nat} (hb : dev.blocksize = 512) (hok : ∀ n, dev.succeeds n = true)
    (hfree : freeBuffer s.bufferLock = some i) (hpage : dev.buffer i + 0x1000 ≤ 2 ^ 64)
    (hbuffer : OffPage (dev.buffer i) buffer size) (hoff : off < 2 ^ 64)
    (hreach : 512 ≤ off % 512 + size) (hblocks : wholeBlocks off size ≤ 2 ^ 22) (y : Nat) :
    (dev.write off size buffer s).2.disk y =
      if off ≤ y ∧ y < off + (size - excess off size) then s.mem (buffer + (y - off))
      else if off + (size - excess off size) ≤ y ∧ y < off + size then
        s.mem (buffer + (y - (off + (size - excess off size))))
      else s.disk y := by
  have hrange := hbuffer.inMemory
  have hapart := hbuffer.apart
  have hsizeEq := size_eq hreach
  have hexcessLt := excess_lt off size
  have hfirstLe := firstSize_add off
  rw [write_eq hb hfree hoff (by omega) hreach]
  dsimp only
  generalize hlocked : ({ s with bufferLock := s.bufferLock ||| (1#8 <<< i) } : DiskState) = s₁
  have hmem : s₁.mem = s.mem := by rw [← hlocked]
  have hdisk : s₁.disk = s.disk := by rw [← hlocked]
  have hhead : Stored s₁ (dev.modify (off / 512) (dev.buffer i) (off % 512) buffer
      (firstSize off) s₁) (dev.buffer i) off buffer (firstSize off) :=
    stored_first hok hpage hbuffer (by omega)
  have hmiddle := hhead.blocks hok hpage hbuffer hoff hreach hblocks
  have hdone : firstSize off + 512 * wholeBlocks off size = size - excess off size := by omega
  rw [hdone] at hmiddle
  by_cases htail : excess off size > 0
  · rw [if_pos htail,
      wrap64_of_lt (show off / 512 + 1 + wholeBlocks off size < 2 ^ 64 by omega)]
    rw [relieveBuffer_disk, modify_disk hok hpage (by omega) ⟨by omega, by omega⟩,
      show 512 * (off / 512 + 1 + wholeBlocks off size) + 0 =
        off + (size - excess off size) by omega, hmiddle.disk, hmem, hdisk]
    by_cases hend : off + (size - excess off size) ≤ y ∧
        y < off + (size - excess off size) + excess off size
    · rw [if_pos hend, if_neg (by omega), if_pos (by omega), hmiddle.rest _ (by omega), hmem]
    · rw [if_neg hend]
      congr 1
      rw [if_neg (by omega)]
  · rw [if_neg htail]
    rw [relieveBuffer_disk, hmiddle.disk, hmem, hdisk]
    congr 1
    rw [if_neg (by omega)]

/--
From block `2 ^ 22` on the product wraps: `Read` then copies no part to the place
of the last whole block.
-/
theorem read_misses {i : Nat} (hb : dev.blocksize = 512)
    (hfree : freeBuffer s.bufferLock = some i) (hbuffer : OffPage (dev.buffer i) buffer size)
    (hreach : 512 ≤ off % 512 + size) (hsize : size / 512 < 2 ^ 31)
    (hblocks : 2 ^ 22 < wholeBlocks off size) :
    (dev.read off size buffer s).2.mem
        (buffer + (firstSize off + 512 * (wholeBlocks off size - 1))) =
      s.mem (buffer + (firstSize off + 512 * (wholeBlocks off size - 1))) := by
  have hrange := hbuffer.inMemory
  have hapart := hbuffer.apart
  have hsizeEq := size_eq hreach
  have hexcessLt := excess_lt off size
  have hfirstLe := firstSize_add off
  rw [read_eq hb hfree (by omega) hreach]
  dsimp only
  generalize hplace : buffer + (firstSize off + 512 * (wholeBlocks off size - 1)) = place
  generalize wholeBlocks off size = blocks at *
  generalize firstSize off = first at *
  have hadvances : Advances (fun _ s₁ => DiskState.mem s₁ place = s.mem place) blocks
      (fun j count => dev.fetch (wrap64 (off / 512 + 1 + intToU64 j)) count (dev.buffer i) 0
        (buffer + first + intToU64 (j * 512)) (intToU64 (512 * BitVec.ofNat 32 count))) := by
    intro done j count s₁ hj hdone hle hpos hcount hlast h
    dsimp only
    rw [length_eq hcount]
    rw [fetch_outside hcount _ (by omega)]
    · exact h
    · intro k hk
      -- the offset as the machine computes it
      have hproduct : BitVec.ofNat 32 j * 512 = BitVec.ofNat 32 (512 * j % 2 ^ 32) := by
        rw [Nat.mul_comm]
        apply BitVec.eq_of_toNat_eq
        simp
      have hlow : 512 * j % 2 ^ 32 < 2 ^ 32 := Nat.mod_lt _ (by norm_num)
      have hdiv := Nat.div_add_mod (512 * j) (2 ^ 32)
      rw [hproduct, intToU64_ofNat hlow]
      generalize 512 * j % 2 ^ 32 = low at *
      generalize 512 * j / 2 ^ 32 = high at *
      unfold wrap64
      split
      · rw [Nat.mod_eq_of_lt (by omega)]
        omega
      · omega
  have hhead : (dev.fetch (off / 512) 1 (dev.buffer i) (off % 512) buffer first
      { s with bufferLock := s.bufferLock ||| (1#8 <<< i) }).mem place = s.mem place := by
    rw [fetch_outside (by norm_num) _ (by omega)]
    intro k hk
    rw [wrap64_of_lt (by omega)]
    omega
  have hmiddle := transferBlocks_rule (by omega) hadvances hhead
  by_cases htail : excess off size > 0
  · rw [if_pos htail]
    rw [relieveBuffer_mem, fetch_outside (by norm_num) _ (by omega)]
    · exact hmiddle
    · intro k hk
      rw [wrap64_of_lt (show blocks * 512 < 2 ^ 64 by omega), wrap64_of_lt (by omega)]
      omega
  · rw [if_neg htail]
    exact hmiddle

end Request

/-! ## `Write`, and `Read` after it -/

/--
`Write` puts the bytes of the buffer on the disk and changes no others, and a
`Read` of the same range that follows returns them, wherever it reads to and
whatever memory holds by then.
-/
structure WriteFaithful (dev : DiskDevice) (s : DiskState) (tempBuffer off size buffer : Nat) :
    Prop where
  stored : ∀ y, (dev.write off size buffer s).2.disk y =
    if off ≤ y ∧ y < off + size then s.mem (buffer + (y - off)) else s.disk y
  returned : ∀ (m : ByteMemory) (dest : Nat), OffPage tempBuffer dest size → ∀ k < size,
    (dev.read off size dest { (dev.write off size buffer s).2 with mem := m }).2.mem (dest + k) =
      s.mem (buffer + k)

section WriteFaithful

variable {dev : DiskDevice} {s : DiskState} {off size buffer i : Nat}

/--
`Write` is faithful exactly when there are at most `2 ^ 22` whole blocks and the
bytes for the last, partial block happen to equal the first ones of the buffer.
-/
theorem writeFaithful_iff (hb : dev.blocksize = 512) (hok : ∀ n, dev.succeeds n = true)
    (hfree : freeBuffer s.bufferLock = some i) (hpage : dev.buffer i + 0x1000 ≤ 2 ^ 64)
    (hbuffer : OffPage (dev.buffer i) buffer size) (hoff : off < 2 ^ 64)
    (hreach : 512 ≤ off % 512 + size) (hsize : size / 512 < 2 ^ 31) :
    WriteFaithful dev s (dev.buffer i) off size buffer ↔
      wholeBlocks off size ≤ 2 ^ 22 ∧
      ∀ k < excess off size,
        s.mem (buffer + k) = s.mem (buffer + (size - excess off size + k)) := by
  have hsizeEq := size_eq hreach
  have hfree' : ∀ m : ByteMemory, freeBuffer
      ({ (dev.write off size buffer s).2 with mem := m } : DiskState).bufferLock = some i := by
    intro m
    dsimp only
    rw [write_bufferLock]
    exact hfree
  constructor
  · intro h
    have hblocks : wholeBlocks off size ≤ 2 ^ 22 := by
      by_contra hlarge
      -- a memory that holds another byte where the last whole block belongs
      have hmissed := read_misses hb (hfree' fun _ => s.mem (buffer + (firstSize off +
        512 * (wholeBlocks off size - 1))) + 1) hbuffer hreach hsize (by omega)
      rw [h.returned _ buffer hbuffer _ (by omega)] at hmissed
      dsimp only at hmissed
      generalize s.mem (buffer + (firstSize off + 512 * (wholeBlocks off size - 1))) = byte
        at hmissed
      revert hmissed
      revert byte
      decide
    refine ⟨hblocks, fun k hk => ?_⟩
    have hstored := h.stored (off + (size - excess off size + k))
    rw [write_disk hb hok hfree hpage hbuffer hoff hreach hblocks, if_neg (by omega),
      if_pos (by omega), if_pos (by omega)] at hstored
    rw [show off + (size - excess off size + k) - (off + (size - excess off size)) = k by omega,
      show off + (size - excess off size + k) - off = size - excess off size + k by omega]
      at hstored
    exact hstored
  · rintro ⟨hblocks, htail⟩
    have hstored : ∀ y, (dev.write off size buffer s).2.disk y =
        if off ≤ y ∧ y < off + size then s.mem (buffer + (y - off)) else s.disk y := by
      intro y
      rw [write_disk hb hok hfree hpage hbuffer hoff hreach hblocks]
      by_cases hfront : off ≤ y ∧ y < off + (size - excess off size)
      · rw [if_pos hfront, if_pos (by omega)]
      · rw [if_neg hfront]
        by_cases hback : off + (size - excess off size) ≤ y ∧ y < off + size
        · rw [if_pos hback, if_pos (by omega), htail _ (by omega)]
          congr 1
          omega
        · rw [if_neg hback, if_neg (by omega)]
    refine ⟨hstored, fun m dest hdest k hk => ?_⟩
    have hfetched := read_fetched hb hok (hfree' m) hpage hdest hoff hreach hblocks
    rw [hfetched.data k hk]
    dsimp only
    rw [hstored, if_pos (by omega), Nat.add_sub_cancel_left]

end WriteFaithful

/-- Every byte holds its sector's number, so that the last one differs from the first. -/
def numberedState : DiskState :=
  ⟨fun x => BitVec.ofNat 8 (x / 512), fun _ => 0, 0, []⟩

/-- 513 bytes to sector 0: the last byte on the disk is the first of the buffer. -/
theorem write_repeats_first_byte :
    ¬ WriteFaithful idleDevice numberedState (idleDevice.buffer 0) 0 513 0x100000 := by
  intro h
  have hlast := h.stored 512
  revert hlast
  decide +kernel

theorem writeFaithful_whole_sectors :
    WriteFaithful idleDevice numberedState (idleDevice.buffer 0) 1024 5120 0x100000 :=
  (writeFaithful_iff rfl (fun _ => rfl) (by decide) (by decide) ⟨by decide, by decide⟩
    (by norm_num) (by norm_num) (by norm_num)).mpr
    ⟨by decide, fun k hk => absurd hk (by simp [excess, firstSize])⟩

end UnifiedOS.FileSystem
