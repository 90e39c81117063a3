import UnifiedOS.FileSystem.DiskTransfer

/-!
# The sectors a call addresses

Sector numbers are of type `uint64_t`, so a command for `count` sectors goes on
with sector 0 after the last one.  `Addresses` collects the sectors of all the
commands between two states.  The disk changes in no other.
-/

namespace UnifiedOS.FileSystem

open UnifiedOS.Foundation UnifiedOS.Memory
open DiskDevice

/-! ## Commands and their sectors -/

def sectorsFrom (lba count : Nat) : Set Nat :=
  {x | ∃ k < count, wrap64 (lba + k) = x}

def DiskCommand.sectors (command : DiskCommand) : Set Nat :=
  sectorsFrom command.lba command.count

structure Addresses (s s' : DiskState) (A : Set Nat) : Prop where
  commands : ∃ issued, s'.commands = issued ++ s.commands ∧
    ∀ x, x ∈ A ↔ ∃ command ∈ issued, x ∈ command.sectors
  disk : ∀ y < 512 * 2 ^ 64, y / 512 ∉ A → s'.disk y = s.disk y

namespace Addresses

variable {s s' s'' : DiskState} {A B : Set Nat}

theorem empty (hcommands : s'.commands = s.commands) (hdisk : s'.disk = s.disk) :
    Addresses s s' ∅ := by
  constructor
  · exact ⟨[], by simpa using hcommands, by simp⟩
  · intro y _ _
    rw [hdisk]

theorem trans (h : Addresses s s' A) (h' : Addresses s' s'' B) :
    Addresses s s'' (A ∪ B) := by
  constructor
  · obtain ⟨issued, hcommands, hsectors⟩ := h.commands
    obtain ⟨issued', hcommands', hsectors'⟩ := h'.commands
    refine ⟨issued' ++ issued, by rw [hcommands', hcommands, List.append_assoc], ?_⟩
    intro x
    rw [Set.mem_union, hsectors, hsectors']
    constructor
    · rintro (⟨command, hmem, hx⟩ | ⟨command, hmem, hx⟩)
      · exact ⟨command, List.mem_append_right _ hmem, hx⟩
      · exact ⟨command, List.mem_append_left _ hmem, hx⟩
    · rintro ⟨command, hmem, hx⟩
      cases List.mem_append.mp hmem with
      | inl hmem => exact Or.inr ⟨command, hmem, hx⟩
      | inr hmem => exact Or.inl ⟨command, hmem, hx⟩
  · intro y hy hout
    rw [Set.mem_union, not_or] at hout
    rw [h'.disk y hy hout.2, h.disk y hy hout.1]

/-- Steps in memory and in the pool do not count. -/
theorem next (h : Addresses s s' A) (hcommands : s''.commands = s'.commands)
    (hdisk : s''.disk = s'.disk) : Addresses s s'' A := by
  simpa using h.trans (empty hcommands hdisk)

end Addresses

section Parts

variable {dev : DiskDevice} {s : DiskState}
  (lba count tempBuffer offset dest src size : Nat)

theorem readDiskBlock_addresses :
    Addresses s (dev.readDiskBlock lba count tempBuffer s).2 (sectorsFrom lba count) := by
  constructor
  · refine ⟨[⟨false, lba, count, tempBuffer, dev.succeeds s.commands.length⟩], rfl, ?_⟩
    intro x
    simp [DiskCommand.sectors]
  · intro y _ _
    rfl

theorem writeDiskBlock_addresses :
    Addresses s (dev.writeDiskBlock lba count tempBuffer s).2 (sectorsFrom lba count) := by
  constructor
  · refine ⟨[⟨true, lba, count, tempBuffer, dev.succeeds s.commands.length⟩], rfl, ?_⟩
    intro x
    simp [DiskCommand.sectors]
  · intro y hy hout
    unfold writeDiskBlock
    dsimp only
    split
    · refine ByteMemory.blit_outside _ ?_
      by_contra hin
      -- a byte the command writes lies in one of its sectors
      apply hout
      refine ⟨y / 512 - lba, by omega, ?_⟩
      rw [wrap64_of_lt (by omega)]
      omega
    · rfl

theorem fetch_addresses :
    Addresses s (dev.fetch lba count tempBuffer offset dest size s) (sectorsFrom lba count) :=
  (readDiskBlock_addresses lba count tempBuffer).next rfl rfl

theorem flush_addresses :
    Addresses s (dev.flush lba count tempBuffer src size s) (sectorsFrom lba count) := by
  have hcopy : Addresses s (s.copy tempBuffer src size) ∅ := Addresses.empty rfl rfl
  simpa [DiskDevice.flush] using hcopy.trans (writeDiskBlock_addresses lba count tempBuffer)

theorem modify_addresses :
    Addresses s (dev.modify lba tempBuffer offset src size s) (sectorsFrom lba 1) := by
  have hread : Addresses s ((dev.readDiskBlock lba 1 tempBuffer s).2.copy
      (tempBuffer + offset) src size) (sectorsFrom lba 1) :=
    (readDiskBlock_addresses lba 1 tempBuffer).next rfl rfl
  simpa [DiskDevice.modify] using hread.trans (writeDiskBlock_addresses lba 1 tempBuffer)

end Parts

/-! ## The loop over the whole blocks -/

section Loop

variable {State State' : Type*} {R : State → State' → Prop} {blocks : Nat}
  {transfer : BitVec 32 → Nat → State → State}
  {transfer' : BitVec 32 → Nat → State' → State'}

private theorem transferLast_simulates
    (htransfer : ∀ i count s s', R s s' → R (transfer i count s) (transfer' i count s'))
    (i : BitVec 32) {s : State} {s' : State'} (h : R s s') :
    (transferLast blocks transfer i s).1 = (transferLast blocks transfer' i s').1 ∧
    R (transferLast blocks transfer i s).2 (transferLast blocks transfer' i s').2 := by
  unfold transferLast
  split
  · exact ⟨rfl, htransfer _ _ _ _ h⟩
  · exact ⟨rfl, htransfer _ _ _ _ h⟩

theorem transferBlocks_simulates
    (htransfer : ∀ i count s s', R s s' → R (transfer i count s) (transfer' i count s'))
    {s : State} {s' : State'} (h : R s s') :
    R (transferBlocks blocks transfer s) (transferBlocks blocks transfer' s') := by
  refine forIntBy_simulates ?_ h
  intro i s s' h
  unfold transferStep
  split
  · exact transferLast_simulates htransfer _ (htransfer _ _ _ _ h)
  · split
    · exact transferLast_simulates htransfer _ (htransfer _ _ _ _ h)
    · exact transferLast_simulates htransfer _ h

def blocksFrom (i : BitVec 32) (count : Nat) : Set Nat :=
  {j | ∃ k < count, intToU64 i + k = j}

def loopBlocks (blocks : Nat) : Set Nat :=
  transferBlocks blocks (fun i count A => A ∪ blocksFrom i count) ∅

theorem wrap64_wrap64_add (a b : Nat) : wrap64 (wrap64 a + b) = wrap64 (a + b) :=
  Nat.mod_add_mod a _ b

theorem transferBlocks_addresses {first : Nat} {s : DiskState}
    {transfer : BitVec 32 → Nat → DiskState → DiskState}
    (htransfer : ∀ i count s, Addresses s (transfer i count s)
      (sectorsFrom (wrap64 (first + intToU64 i)) count)) :
    Addresses s (transferBlocks blocks transfer s)
      {x | ∃ j ∈ loopBlocks blocks, wrap64 (first + j) = x} := by
  refine transferBlocks_simulates
    (R := fun s' A => Addresses s s' {x | ∃ j ∈ A, wrap64 (first + j) = x}) ?_ ?_
  · intro i count s' A h
    have hnext := h.trans (htransfer i count s')
    have hunion : {x | ∃ j ∈ A ∪ blocksFrom i count, wrap64 (first + j) = x} =
        {x | ∃ j ∈ A, wrap64 (first + j) = x} ∪
          sectorsFrom (wrap64 (first + intToU64 i)) count := by
      ext x
      simp only [sectorsFrom, blocksFrom, Set.mem_union, Set.mem_ofPred_eq, or_and_right,
        exists_or, wrap64_wrap64_add, Nat.add_assoc]
      simp
    rw [hunion]
    exact hnext
  · simpa using Addresses.empty (s := s) rfl rfl

private theorem union_blocksFrom {done i count : Nat} (hi : i < 2 ^ 31) (hle : i ≤ done)
    (hdone : done ≤ i + count) :
    {j | j < done} ∪ blocksFrom (BitVec.ofNat 32 i) count = {j | j < i + count} := by
  ext j
  rw [blocksFrom, intToU64_ofNat (by omega), if_pos hi]
  simp only [Set.mem_union, Set.mem_ofPred_eq]
  constructor
  · rintro (hj | ⟨k, hk, rfl⟩)
    · omega
    · omega
  · intro hj
    by_cases hbefore : j < done
    · exact Or.inl hbefore
    · exact Or.inr ⟨j - i, by omega, by omega⟩

/-- How many blocks the loop comes by: from `2 ^ 31` on the counter is negative. -/
def loopReach (blocks : Nat) : Nat :=
  if blocks ≤ 2 ^ 31 then blocks
  else if blocks ≤ 2 ^ 31 + 2 then 2 ^ 31
  else if blocks ≤ 2 ^ 31 + 6 then 2 ^ 31 + 2
  else 2 ^ 31 + 6

def strayBlocks (blocks : Nat) : Set Nat :=
  if blocks ≤ 2 ^ 31 + 2 then ∅ else blocksFrom (BitVec.ofNat 32 (loopReach blocks - 1)) 2

theorem loopReach_lt (blocks : Nat) : loopReach blocks < 2 ^ 32 := by
  unfold loopReach
  split_ifs <;> omega

theorem le_loopReach (hlong : 2 ^ 31 < blocks) : 2 ^ 31 ≤ loopReach blocks := by
  unfold loopReach
  split_ifs <;> omega

theorem mem_strayBlocks {j : Nat} : j ∈ strayBlocks blocks ↔
    2 ^ 31 + 2 < blocks ∧ ∃ k < 2, loopReach blocks - 1 + (2 ^ 64 - 2 ^ 32) + k = j := by
  unfold strayBlocks
  split
  · exact iff_of_false (Set.notMem_empty j) (by omega)
  · rename_i hstray
    have hlt := loopReach_lt blocks
    have hle : 2 ^ 31 ≤ loopReach blocks - 1 := by
      unfold loopReach
      split_ifs <;> omega
    rw [blocksFrom, intToU64_ofNat (by omega), if_neg (by omega)]
    exact ⟨fun h => ⟨by omega, h⟩, fun h => h.2⟩

private theorem loopBlocks_int (hblocks : blocks ≤ 2 ^ 31) :
    loopBlocks blocks = {j | j < blocks} := by
  refine @transferBlocks_rule (Set Nat) (fun done A => A = {j | j < done}) blocks _ ∅ hblocks
    ?_ (by simp)
  rintro done i count A hle hdone hend hpos - - rfl
  exact union_blocksFrom (by omega) hle hdone

private theorem remaining_negative {i : Nat} (hblocks : blocks ≤ 2 ^ 63) (hi : 2 ^ 31 ≤ i)
    (hlt : i < 2 ^ 32) : sub64 blocks (intToU64 (BitVec.ofNat 32 i)) = blocks + 2 ^ 32 - i := by
  rw [intToU64_ofNat hlt, if_neg (by omega), sub64]
  omega

section Step

variable {transfer : BitVec 32 → Nat → State → State} {i : Nat} {s : State}

private theorem ofNat_succ (i : Nat) : BitVec.ofNat 32 i + 1 = BitVec.ofNat 32 (i + 1) :=
  (BitVec.ofNat_add i 1).symm

private theorem transferStep_eight (h8 : sub64 blocks (intToU64 (BitVec.ofNat 32 i)) > 8)
    (h2 : sub64 blocks (intToU64 (BitVec.ofNat 32 (i + 7))) > 2) :
    transferStep blocks transfer (BitVec.ofNat 32 i) s = (BitVec.ofNat 32 (i + 8),
      transfer (BitVec.ofNat 32 (i + 7)) 2 (transfer (BitVec.ofNat 32 i) 8 s)) := by
  have hseven : BitVec.ofNat 32 i + 7 = BitVec.ofNat 32 (i + 7) := (BitVec.ofNat_add i 7).symm
  rw [transferStep, if_pos h8, transferLast, hseven, if_pos h2, ofNat_succ]

private theorem transferStep_four (h8 : ¬ sub64 blocks (intToU64 (BitVec.ofNat 32 i)) > 8)
    (h4 : sub64 blocks (intToU64 (BitVec.ofNat 32 i)) > 4)
    (h2 : sub64 blocks (intToU64 (BitVec.ofNat 32 (i + 3))) > 2) :
    transferStep blocks transfer (BitVec.ofNat 32 i) s = (BitVec.ofNat 32 (i + 4),
      transfer (BitVec.ofNat 32 (i + 3)) 2 (transfer (BitVec.ofNat 32 i) 4 s)) := by
  have hthree : BitVec.ofNat 32 i + 3 = BitVec.ofNat 32 (i + 3) := (BitVec.ofNat_add i 3).symm
  rw [transferStep, if_neg h8, if_pos h4, transferLast, hthree, if_pos h2, ofNat_succ]

private theorem transferStep_two (h4 : ¬ sub64 blocks (intToU64 (BitVec.ofNat 32 i)) > 4)
    (h2 : sub64 blocks (intToU64 (BitVec.ofNat 32 i)) > 2) :
    transferStep blocks transfer (BitVec.ofNat 32 i) s =
      (BitVec.ofNat 32 (i + 1), transfer (BitVec.ofNat 32 i) 2 s) := by
  rw [transferStep, if_neg (by omega), if_neg h4, transferLast, if_pos h2, ofNat_succ]

end Step

/-- Where the loop is when its counter is `i`, for more blocks than `int`s. -/
private def LongLoop (blocks i : Nat) (A : Set Nat) : Prop :=
  if i < 2 ^ 31 then 9 ∣ i ∧ A = {j | j < i}
  else A = {j | j < loopReach blocks} ∪ strayBlocks blocks

private theorem longLoop_last {i count : Nat} (hlong : 2 ^ 31 + 2 < blocks) (hi : i < 2 ^ 31)
    (hend : 2 ^ 31 ≤ i + count + 1) (hpos : 0 < count) (hreach : i + count = loopReach blocks) :
    LongLoop blocks (i + count + 1) ({j | j < i} ∪ blocksFrom (BitVec.ofNat 32 i) count ∪
      blocksFrom (BitVec.ofNat 32 (i + (count - 1))) 2) := by
  rw [LongLoop, if_neg (by omega), union_blocksFrom hi (Nat.le_refl _) (by omega), hreach,
    strayBlocks, if_neg (by omega), ← hreach, Nat.add_sub_assoc hpos]

private theorem longLoop_step (hlong : 2 ^ 31 < blocks) (hblocks : blocks ≤ 2 ^ 63)
    {i : Nat} {A : Set Nat} (hi : i < 2 ^ 31) (h : LongLoop blocks i A) :
    ∃ i', i < i' ∧ i' < 2 ^ 32 ∧
      (transferStep blocks (fun i count A => A ∪ blocksFrom i count)
        (BitVec.ofNat 32 i) A).1 + 1 = BitVec.ofNat 32 i' ∧
      LongLoop blocks i' (transferStep blocks (fun i count A => A ∪ blocksFrom i count)
        (BitVec.ofNat 32 i) A).2 := by
  rw [LongLoop, if_pos hi] at h
  obtain ⟨hnine, rfl⟩ := h
  have hremaining := remaining_eq (by omega : blocks < 2 ^ 64) (by omega) hi
  by_cases hlast : i + 2 < 2 ^ 31
  · -- 8 blocks, and 2 from the last of them on
    have hseven := remaining_eq (i := i + 7) (by omega : blocks < 2 ^ 64) (by omega) (by omega)
    rw [transferStep_eight (by omega) (by omega)]
    refine ⟨i + 9, by omega, by omega, ofNat_succ _, ?_⟩
    rw [union_blocksFrom hi (Nat.le_refl _) (by omega),
      union_blocksFrom (by omega) (by omega) (by omega), LongLoop, if_pos (by omega)]
    exact ⟨by omega, rfl⟩
  · by_cases h8 : blocks - i > 8
    · have hseven := remaining_negative (i := i + 7) hblocks (by omega) (by omega)
      rw [transferStep_eight (by omega) (by omega)]
      refine ⟨i + 8 + 1, by omega, by omega, ofNat_succ _, ?_⟩
      refine longLoop_last (by omega) hi (by omega) (by norm_num) ?_
      rw [loopReach, if_neg (by omega), if_neg (by omega), if_neg (by omega)]
      omega
    · by_cases h4 : blocks - i > 4
      · have hthree := remaining_negative (i := i + 3) hblocks (by omega) (by omega)
        rw [transferStep_four (by omega) (by omega) (by omega)]
        refine ⟨i + 4 + 1, by omega, by omega, ofNat_succ _, ?_⟩
        refine longLoop_last (by omega) hi (by omega) (by norm_num) ?_
        rw [loopReach, if_neg (by omega), if_neg (by omega), if_pos (by omega)]
        omega
      · rw [transferStep_two (by omega) (by omega)]
        refine ⟨i + 2, by omega, by omega, ofNat_succ _, ?_⟩
        have hreach : i + 2 = loopReach blocks := by
          rw [loopReach, if_neg (by omega), if_pos (by omega)]
          omega
        rw [union_blocksFrom hi (Nat.le_refl _) (by omega), LongLoop, if_neg (by omega),
          strayBlocks, if_pos (by omega), Set.union_empty, hreach]

theorem loopBlocks_eq (hblocks : blocks ≤ 2 ^ 63) :
    loopBlocks blocks = {j | j < loopReach blocks} ∪ strayBlocks blocks := by
  by_cases hint : blocks ≤ 2 ^ 31
  · rw [loopBlocks_int hint, loopReach, if_pos hint, strayBlocks, if_pos (by omega),
      Set.union_empty]
  · have hstart : LongLoop blocks 0 (∅ : Set Nat) := by
      rw [LongLoop, if_pos (by norm_num)]
      exact ⟨Nat.dvd_zero _, by simp⟩
    obtain ⟨i, hend, -, h⟩ := forIntBy_exits hblocks
      (fun i A _ hi h => longLoop_step (by omega) hblocks hi h) hstart
    rwa [LongLoop, if_neg (by omega)] at h

end Loop

/-! ## `ReadBlocks` and `WriteBlocks` -/

section Blocks

variable {State : Type*} {Inv : Nat → State → Prop} {count : Nat}

private theorem stepLoop_rule {step : Nat} {body : Nat → State → State}
    (hcount : count < 2 ^ 64) (hstep : 0 < step)
    (hbody : ∀ pos s, pos + step ≤ count → Inv pos s → Inv (pos + step) (body pos s))
    (fuel pos : Nat) (s : State) (hpos : pos ≤ count) (hfuel : count ≤ pos + fuel)
    (h : Inv pos s) :
    ∃ pos' s', stepLoop count step body fuel pos s = (pos', s') ∧ pos' ≤ count ∧
      count < pos' + step ∧ Inv pos' s' := by
  induction fuel generalizing pos s with
  | zero => exact ⟨pos, s, rfl, hpos, by omega, h⟩
  | succ fuel ih =>
      rw [stepLoop, sub64_of_le hpos hcount]
      split
      · rw [wrap64_of_lt (by omega)]
        exact ih _ _ (by omega) (by omega) (hbody pos s (by omega) h)
      · exact ⟨pos, s, rfl, hpos, by omega, h⟩

theorem stepBlocks_rule {transfer : Nat → Nat → State → State} {s : State}
    (hcount : count < 2 ^ 64)
    (htransfer : ∀ pos n s, 0 < n → n ≤ 8 → pos + n ≤ count → Inv pos s →
      Inv (pos + n) (transfer pos n s))
    (h : Inv 0 s) : Inv count (stepBlocks count transfer s) := by
  obtain ⟨pos, s, h8, hpos, -, h⟩ := stepLoop_rule hcount (by norm_num : 0 < 8)
    (fun pos s => htransfer pos 8 s (by norm_num) (by norm_num)) count 0 s (by omega) (by omega) h
  obtain ⟨pos, s, h4, hpos, -, h⟩ := stepLoop_rule hcount (by norm_num : 0 < 4)
    (fun pos s => htransfer pos 4 s (by norm_num) (by norm_num)) count pos s hpos (by omega) h
  obtain ⟨pos, s, h2, hpos, -, h⟩ := stepLoop_rule hcount (by norm_num : 0 < 2)
    (fun pos s => htransfer pos 2 s (by norm_num) (by norm_num)) count pos s hpos (by omega) h
  obtain ⟨pos, s, h1, hpos, hend, h⟩ := stepLoop_rule hcount (by norm_num : 0 < 1)
    (fun pos s => htransfer pos 1 s (by norm_num) (by norm_num)) count pos s hpos (by omega) h
  have hlast : pos = count := by omega
  simp only [stepBlocks, h8, h4, h2, h1]
  exact hlast ▸ h

theorem sectorsFrom_add (lba n m : Nat) :
    sectorsFrom lba (n + m) = sectorsFrom lba n ∪ sectorsFrom (wrap64 (lba + n)) m := by
  ext x
  simp only [sectorsFrom, Set.mem_union, Set.mem_ofPred_eq, wrap64_wrap64_add]
  constructor
  · rintro ⟨k, hk, rfl⟩
    by_cases hfirst : k < n
    · exact Or.inl ⟨k, hfirst, rfl⟩
    · refine Or.inr ⟨k - n, by omega, ?_⟩
      congr 1
      omega
  · rintro (⟨k, hk, rfl⟩ | ⟨k, hk, rfl⟩)
    · exact ⟨k, by omega, rfl⟩
    · exact ⟨n + k, by omega, by rw [Nat.add_assoc]⟩

theorem stepBlocks_addresses {lba : Nat} {transfer : Nat → Nat → DiskState → DiskState}
    {s : DiskState} (hcount : count < 2 ^ 64)
    (htransfer : ∀ pos n s, Addresses s (transfer pos n s) (sectorsFrom (wrap64 (lba + pos)) n)) :
    Addresses s (stepBlocks count transfer s) (sectorsFrom lba count) := by
  refine @stepBlocks_rule DiskState (fun pos s' => Addresses s s' (sectorsFrom lba pos)) count
    transfer s hcount ?_ ?_
  · intro pos n s' _ _ _ h
    rw [sectorsFrom_add]
    exact h.trans (htransfer pos n s')
  · simpa [sectorsFrom] using Addresses.empty (s := s) rfl rfl

variable {dev : DiskDevice} {s : DiskState} {lba : Nat}

private theorem getBuffer_addresses : Addresses s (getBuffer s).2 ∅ := by
  rcases getBuffer_cases s with ⟨i, -, -, hget⟩ | ⟨-, hget⟩
  · rw [hget]
    exact Addresses.empty rfl rfl
  · rw [hget]
    exact Addresses.empty rfl rfl

theorem readBlocks_addresses (hcount : count < 2 ^ 64) (buffer : Nat) :
    Addresses s (dev.readBlocks lba count buffer s).2 (sectorsFrom lba count) := by
  unfold readBlocks
  dsimp only
  rw [if_neg (by omega)]
  simpa using getBuffer_addresses.trans
    (stepBlocks_addresses hcount fun pos n s => fetch_addresses _ _ _ _ _ _)

theorem writeBlocks_addresses (hcount : count < 2 ^ 64) (buffer : Nat) :
    Addresses s (dev.writeBlocks lba count buffer s).2 (sectorsFrom lba count) := by
  unfold writeBlocks
  dsimp only
  rw [if_neg (by omega)]
  simpa using getBuffer_addresses.trans
    (stepBlocks_addresses hcount fun pos n s => flush_addresses _ _ _ _ _)

end Blocks

/-! ## `Read` and `Write` -/

/-- What the functions take to follow the first block; it wraps for a small request. -/
def afterFirst (off size : Nat) : Nat := sub64 size (512 - off % 512)

/-- The sectors of a request: the first, those of the loop, and the last, partial one. -/
def requestSectors (off size : Nat) : Set Nat :=
  sectorsFrom (off / 512) 1 ∪
    {x | ∃ j ∈ loopBlocks (afterFirst off size / 512), wrap64 (off / 512 + 1 + j) = x} ∪
    if afterFirst off size % 512 = 0 then ∅
    else sectorsFrom (wrap64 (off / 512 + 1 + afterFirst off size / 512)) 1

section Bytes

variable {dev : DiskDevice} {s : DiskState} {off size : Nat}

theorem numbers_eq (hb : dev.blocksize = 512) (off size : Nat) :
    intToU64 dev.blocksize = 512 ∧ sub64 512 (off % 512) = 512 - off % 512 ∧
    sub64 (afterFirst off size) (wrap64 (512 * (afterFirst off size / 512))) =
      afterFirst off size % 512 := by
  have hlt : afterFirst off size < 2 ^ 64 := sub64_lt _ _
  refine ⟨by rw [hb]; decide, sub64_of_le (by omega) (by norm_num), ?_⟩
  rw [wrap64_of_lt (by omega), sub64_of_le (by omega) hlt]
  omega

private theorem request_addresses {s₁ s₂ s₃ : DiskState} (index : BitVec 8)
    (hhead : Addresses { s with bufferLock := s.bufferLock ||| (1#8 <<< index.toNat) } s₁
      (sectorsFrom (off / 512) 1))
    (hloop : Addresses s₁ s₂
      {x | ∃ j ∈ loopBlocks (afterFirst off size / 512), wrap64 (off / 512 + 1 + j) = x})
    (htail : Addresses s₂ s₃
      (sectorsFrom (wrap64 (off / 512 + 1 + afterFirst off size / 512)) 1)) :
    Addresses s (relieveBuffer index (if afterFirst off size % 512 > 0 then s₃ else s₂))
      (requestSectors off size) := by
  have hlock : Addresses s { s with bufferLock := s.bufferLock ||| (1#8 <<< index.toNat) } ∅ :=
    Addresses.empty rfl rfl
  have hmiddle := (hlock.trans hhead).trans hloop
  rw [Set.empty_union] at hmiddle
  unfold requestSectors
  by_cases hzero : afterFirst off size % 512 = 0
  · rw [if_pos hzero, if_neg (by omega), Set.union_empty]
    exact hmiddle.next rfl rfl
  · rw [if_neg hzero, if_pos (by omega)]
    exact (hmiddle.trans htail).next rfl rfl

theorem read_addresses (hb : dev.blocksize = 512) (hfree : s.bufferLock ≠ 0xFF#8)
    (buffer : Nat) : Addresses s (dev.read off size buffer s).2 (requestSectors off size) := by
  obtain ⟨hblock, hfirst, hexcess⟩ := numbers_eq hb off size
  obtain ⟨i, hi, hget⟩ := getBuffer_of_free hfree
  rw [DiskDevice.read, hget]
  dsimp only
  rw [if_neg (by omega), hblock, hfirst, ← afterFirst, hexcess]
  exact request_addresses _ ((toNat_bufferNumber hi).symm ▸ fetch_addresses _ _ _ _ _ _)
    (transferBlocks_addresses fun i count s => fetch_addresses _ _ _ _ _ _)
    (fetch_addresses _ _ _ _ _ _)

theorem write_addresses (hb : dev.blocksize = 512) (hfree : s.bufferLock ≠ 0xFF#8)
    (hoff : off < 2 ^ 64) (buffer : Nat) :
    Addresses s (dev.write off size buffer s).2 (requestSectors off size) := by
  obtain ⟨hblock, hfirst, hexcess⟩ := numbers_eq hb off size
  have hoffset : sub64 off (wrap64 (off / 512 * 512)) = off % 512 := by
    rw [wrap64_of_lt (by omega), sub64_of_le (by omega) hoff]
    omega
  obtain ⟨i, hi, hget⟩ := getBuffer_of_free hfree
  rw [DiskDevice.write, hget]
  dsimp only
  rw [if_neg (by omega), hblock, hoffset, hfirst, ← afterFirst, hexcess]
  exact request_addresses _ ((toNat_bufferNumber hi).symm ▸ modify_addresses _ _ _ _ _)
    (transferBlocks_addresses fun i count s => flush_addresses _ _ _ _ _)
    (modify_addresses _ _ _ _ _)

theorem read_result_of_full (hfull : s.bufferLock = 0xFF#8) (buffer : Nat) :
    dev.read off size buffer s = (0, s) := by
  rw [DiskDevice.read, getBuffer_of_full hfull]
  rfl

theorem write_result_of_full (hfull : s.bufferLock = 0xFF#8) (buffer : Nat) :
    dev.write off size buffer s = (-1, s) := by
  rw [DiskDevice.write, getBuffer_of_full hfull]
  rfl

theorem read_of_full (hfull : s.bufferLock = 0xFF#8) (buffer : Nat) :
    (dev.read off size buffer s).2 = s := by
  rw [read_result_of_full hfull]

theorem write_of_full (hfull : s.bufferLock = 0xFF#8) (buffer : Nat) :
    (dev.write off size buffer s).2 = s := by
  rw [write_result_of_full hfull]

end Bytes

end UnifiedOS.FileSystem
