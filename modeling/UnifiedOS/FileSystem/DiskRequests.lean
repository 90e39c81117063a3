import UnifiedOS.FileSystem.DiskCommands

/-!
# Long and short requests

A `Read` that reaches the end of its first sector delivers what it should up to
`2 ^ 22` whole blocks.  A request that ends before underflows instead: the
bytes after the first sector come to almost `2 ^ 64`, and both functions go on
with the sectors that follow.
-/

namespace UnifiedOS.FileSystem

open UnifiedOS.Foundation UnifiedOS.Memory
open DiskDevice

/-! ## Requests that reach the end of their first sector -/

/-- From `s₀` on only reads were issued, of at most 8 blocks each and into `tempBuffer`. -/
def ReadsSince (s₀ : DiskState) (tempBuffer : Nat) (s : DiskState) : Prop :=
  ∃ issued, s.commands = issued ++ s₀.commands ∧
    ∀ command ∈ issued, command.isWrite = false ∧ command.count ≤ 8 ∧
      command.buffer = tempBuffer

/-- What a `Read` promises, whatever memory holds before it. -/
structure ReadFaithful (dev : DiskDevice) (s : DiskState) (tempBuffer off size buffer : Nat) :
    Prop where
  delivered : ∀ m : ByteMemory, ∀ k < size,
    (dev.read off size buffer { s with mem := m }).2.mem (buffer + k) = s.disk (off + k)
  rest : ∀ (m : ByteMemory) (x : Nat), (x < buffer ∨ buffer + size ≤ x) →
    (x < tempBuffer ∨ tempBuffer + 0x1000 ≤ x) →
    (dev.read off size buffer { s with mem := m }).2.mem x = m x
  reads : ∀ m : ByteMemory,
    ReadsSince s tempBuffer (dev.read off size buffer { s with mem := m }).2

section ReadFaithful

variable {dev : DiskDevice} {s s₀ : DiskState}
  {lba count tempBuffer offset dest off size buffer n i : Nat}

theorem ReadsSince.fetch (h : ReadsSince s₀ tempBuffer s) (hcount : count ≤ 8) :
    ReadsSince s₀ tempBuffer (dev.fetch lba count tempBuffer offset dest n s) := by
  obtain ⟨issued, hcommands, hreads⟩ := h
  refine ⟨⟨false, lba, count, tempBuffer, dev.succeeds s.commands.length⟩ :: issued, ?_, ?_⟩
  · rw [List.cons_append, ← hcommands]
    rfl
  · intro command hmem
    cases List.mem_cons.mp hmem with
    | inl heq =>
        subst heq
        exact ⟨rfl, hcount, rfl⟩
    | inr hbefore => exact hreads command hbefore

theorem ReadsSince.relieve {index : BitVec 8} (h : ReadsSince s₀ tempBuffer s) :
    ReadsSince s₀ tempBuffer (relieveBuffer index s) := h

theorem read_readsSince (hb : dev.blocksize = 512) (hfree : freeBuffer s.bufferLock = some i)
    (hreach : 512 ≤ off % 512 + size) (hsize : size / 512 < 2 ^ 31) :
    ReadsSince s (dev.buffer i) (dev.read off size buffer s).2 := by
  have hsizeEq := size_eq hreach
  rw [read_eq hb hfree (by omega) hreach]
  dsimp only
  have hhead : ReadsSince s (dev.buffer i) (dev.fetch (off / 512) 1 (dev.buffer i) (off % 512)
      buffer (firstSize off) { s with bufferLock := s.bufferLock ||| (1#8 <<< i) }) :=
    ReadsSince.fetch ⟨[], rfl, by simp⟩ (by norm_num)
  have hadvances : Advances (fun _ s₁ => ReadsSince s (dev.buffer i) s₁)
      (wholeBlocks off size)
      (fun j count => dev.fetch (wrap64 (off / 512 + 1 + intToU64 j)) count (dev.buffer i) 0
        (buffer + firstSize off + intToU64 (j * 512))
        (intToU64 (512 * BitVec.ofNat 32 count))) := by
    intro _ _ count _ _ _ _ _ hcount _ h
    exact h.fetch hcount
  have hmiddle := transferBlocks_rule (by omega) hadvances hhead
  apply ReadsSince.relieve
  by_cases htail : excess off size > 0
  · rw [if_pos htail]
    exact hmiddle.fetch (by norm_num)
  · rw [if_neg htail]
    exact hmiddle

theorem ReadFaithful.wholeBlocks_le (h : ReadFaithful dev s (dev.buffer i) off size buffer)
    (hb : dev.blocksize = 512) (hfree : freeBuffer s.bufferLock = some i)
    (hbuffer : OffPage (dev.buffer i) buffer size) (hreach : 512 ≤ off % 512 + size)
    (hsize : size / 512 < 2 ^ 31) : wholeBlocks off size ≤ 2 ^ 22 := by
  have hsizeEq := size_eq hreach
  by_contra hlarge
  -- a memory that holds another byte where the last whole block belongs
  have hmissed := @read_misses dev { s with mem := fun _ => s.disk (off + (firstSize off +
    512 * (wholeBlocks off size - 1))) + 1 } off size buffer i hb hfree hbuffer hreach hsize
    (by omega)
  rw [h.delivered _ _ (by omega)] at hmissed
  dsimp only at hmissed
  generalize s.disk (off + (firstSize off + 512 * (wholeBlocks off size - 1))) = byte
    at hmissed
  revert hmissed
  revert byte
  decide

/-- `Read` is faithful exactly when there are at most `2 ^ 22` whole blocks. -/
theorem readFaithful_iff (hb : dev.blocksize = 512) (hok : ∀ n, dev.succeeds n = true)
    (hfree : freeBuffer s.bufferLock = some i) (hpage : dev.buffer i + 0x1000 ≤ 2 ^ 64)
    (hbuffer : OffPage (dev.buffer i) buffer size) (hoff : off < 2 ^ 64)
    (hreach : 512 ≤ off % 512 + size) (hsize : size / 512 < 2 ^ 31) :
    ReadFaithful dev s (dev.buffer i) off size buffer ↔ wholeBlocks off size ≤ 2 ^ 22 := by
  constructor
  · intro h
    exact h.wholeBlocks_le hb hfree hbuffer hreach hsize
  · intro hblocks
    have hfetched : ∀ m : ByteMemory, Fetched { s with mem := m }
        (dev.read off size buffer { s with mem := m }).2 (dev.buffer i) off size buffer size :=
      fun m => read_fetched hb hok hfree hpage hbuffer hoff hreach hblocks
    exact ⟨fun m => (hfetched m).data, fun m x hx hx' => (hfetched m).rest x hx hx',
      fun m => read_readsSince (s := { s with mem := m }) hb hfree hreach hsize⟩

end ReadFaithful

/-- 2 GiB and two sectors: the last block is copied below the buffer. -/
theorem read_misses_last_block :
    ¬ ReadFaithful idleDevice idleState (idleDevice.buffer 0) 0 (512 * (2 ^ 22 + 2))
      0x100000 := by
  intro h
  have hblocks := h.wholeBlocks_le rfl (by decide) ⟨by decide, by decide⟩ (by norm_num)
    (by norm_num)
  exact absurd hblocks (by decide)

theorem readFaithful_inside_limit :
    ReadFaithful idleDevice idleState (idleDevice.buffer 0) 100 5000 0x100000 :=
  (readFaithful_iff rfl (fun _ => rfl) (by decide) (by decide) ⟨by decide, by decide⟩
    (by norm_num) (by norm_num) (by norm_num)).mpr (by decide)

/-! ## Requests that end before -/

/-- Both functions move the bytes of the request and stay in their sector. -/
structure ShortRequestKept (dev : DiskDevice) (s : DiskState) (off size buffer : Nat) : Prop where
  delivered : ∀ k < size, (dev.read off size buffer s).2.mem (buffer + k) = s.disk (off + k)
  rest : ∀ x, (x < buffer ∨ buffer + size ≤ x) →
    (∀ i < 8, x < dev.buffer i ∨ dev.buffer i + 0x1000 ≤ x) →
    (dev.read off size buffer s).2.mem x = s.mem x
  stored : ∀ y, (dev.write off size buffer s).2.disk y =
    if off ≤ y ∧ y < off + size then s.mem (buffer + (y - off)) else s.disk y
  readSector : ∀ issued, (dev.read off size buffer s).2.commands = issued ++ s.commands →
    ∀ command ∈ issued, command.sectors = {off / 512}
  writeSector : ∀ issued, (dev.write off size buffer s).2.commands = issued ++ s.commands →
    ∀ command ∈ issued, command.sectors = {off / 512}

section ShortRequest

variable {dev : DiskDevice} {s s' : DiskState} {off size : Nat}

/-- The bytes after the first sector underflow, so that the loop goes on with the next. -/
theorem next_mem_requestSectors (hoff : off < 2 ^ 64) (hshort : off % 512 + size < 512) :
    off / 512 + 1 ∈ requestSectors off size := by
  have hafter : afterFirst off size = 2 ^ 64 - (512 - off % 512 - size) := by
    unfold afterFirst sub64
    omega
  have hfirst : 0 ∈ loopBlocks (afterFirst off size / 512) := by
    rw [loopBlocks_eq (by omega)]
    refine Or.inl ?_
    have hreach := le_loopReach (show 2 ^ 31 < afterFirst off size / 512 by omega)
    exact Nat.lt_of_lt_of_le (by norm_num) hreach
  refine Or.inl (Or.inr ⟨0, hfirst, ?_⟩)
  rw [Nat.add_zero, wrap64_of_lt (by omega)]

theorem leaves_sector (h : Addresses s s' (requestSectors off size)) (hoff : off < 2 ^ 64)
    (hshort : off % 512 + size < 512) :
    ∃ issued, s'.commands = issued ++ s.commands ∧
      ∃ command ∈ issued, command.sectors ≠ {off / 512} := by
  obtain ⟨issued, hcommands, hsectors⟩ := h.commands
  obtain ⟨command, hmem, hnext⟩ :=
    (hsectors _).mp (next_mem_requestSectors hoff hshort)
  refine ⟨issued, hcommands, command, hmem, fun hsingle => ?_⟩
  rw [hsingle, Set.mem_singleton_iff] at hnext
  omega

/--
A short request stays in its sector only if it is refused.  With every buffer
locked nothing moves, so the bytes must have been the same before.
-/
theorem shortRequestKept_iff (hb : dev.blocksize = 512) (hoff : off < 2 ^ 64)
    (hshort : off % 512 + size < 512) (buffer : Nat) :
    ShortRequestKept dev s off size buffer ↔
      s.bufferLock = 0xFF#8 ∧ ∀ k < size, s.mem (buffer + k) = s.disk (off + k) := by
  constructor
  · intro h
    have hfull : s.bufferLock = 0xFF#8 := by
      by_contra hfree
      obtain ⟨issued, hcommands, command, hmem, hleaves⟩ :=
        leaves_sector (@read_addresses dev s off size hb hfree buffer) hoff hshort
      exact hleaves (h.readSector issued hcommands command hmem)
    refine ⟨hfull, fun k hk => ?_⟩
    have hdelivered := h.delivered k hk
    rw [read_of_full hfull] at hdelivered
    exact hdelivered
  · rintro ⟨hfull, hsame⟩
    have hread : (dev.read off size buffer s).2 = s := read_of_full hfull buffer
    have hwrite : (dev.write off size buffer s).2 = s := write_of_full hfull buffer
    have hnone : ∀ issued, s.commands = issued ++ s.commands →
        ∀ command ∈ issued, command.sectors = {off / 512} := by
      intro issued hcommands command hmem
      have hempty : issued = [] := by simpa using hcommands
      rw [hempty] at hmem
      exact absurd hmem (List.not_mem_nil)
    refine ⟨fun k hk => ?_, fun x _ _ => ?_, fun y => ?_, ?_, ?_⟩
    · rw [hread]
      exact hsame k hk
    · rw [hread]
    · rw [hwrite]
      split
      · have hbyte := hsame (y - off) (by omega)
        rw [hbyte]
        congr 1
        omega
      · rfl
    · rw [hread]
      exact hnone
    · rw [hwrite]
      exact hnone

theorem shortRequestKept_refused :
    ShortRequestKept idleDevice { idleState with bufferLock := 0xFF#8 } 100 10 0x100000 :=
  (shortRequestKept_iff rfl (by norm_num) (by norm_num) 0x100000).mpr ⟨rfl, fun _ _ => rfl⟩

/-- One byte from the start of the disk: `Read` goes on with sector 1. -/
theorem short_request_leaves_sector : ¬ ShortRequestKept idleDevice idleState 0 1 0x100000 := by
  intro h
  obtain ⟨issued, hcommands, command, hmem, hleaves⟩ :=
    leaves_sector (@read_addresses idleDevice idleState 0 1 rfl (by decide) 0x100000)
      (by norm_num) (by norm_num)
  exact hleaves (h.readSector issued hcommands command hmem)

end ShortRequest

end UnifiedOS.FileSystem
