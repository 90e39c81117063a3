import UnifiedOS.FileSystem.DiskDevice
import Mathlib.Data.List.Induction

/-!
# The bounce buffer pool over whole runs

`Read` and `Write` give back the buffer they took.  `ReadBlocks` and
`WriteBlocks` keep it, so the pool is conserved only by runs without them, or
when it had no buffer to give in the first place.
-/

namespace UnifiedOS.FileSystem

open UnifiedOS.Foundation
open DiskDevice

/-! ## One buffer -/

section Lock

variable {bufferLock : BitVec 8} {i : Nat} {s : DiskState}

private theorem shift_and_one (i : Nat) :
    ((bufferLock >>> i) &&& 1#8) = 0#8 ↔ bufferLock.getLsbD i = false := by
  constructor
  · intro hzero
    have hbit := congrArg (fun byte : BitVec 8 => byte.getLsbD 0) hzero
    simpa using hbit
  · intro hclear
    apply BitVec.eq_of_getLsbD_eq
    intro j hj
    rw [BitVec.getLsbD_and, BitVec.getLsbD_ushiftRight, BitVec.getLsbD_one]
    by_cases hfirst : j = 0
    · simp [hfirst, hclear]
    · simp [hfirst]

theorem freeBuffer_some (h : freeBuffer bufferLock = some i) :
    i < 8 ∧ bufferLock.getLsbD i = false := by
  have hmem := List.mem_of_find?_eq_some h
  have hclear := List.find?_some h
  rw [beq_iff_eq, shift_and_one] at hclear
  exact ⟨List.mem_range.mp hmem, hclear⟩

theorem freeBuffer_eq_none : freeBuffer bufferLock = none ↔ bufferLock = 0xFF#8 := by
  rw [freeBuffer, List.find?_eq_none]
  constructor
  · intro h
    apply BitVec.eq_of_getLsbD_eq
    intro j hj
    have hset := h j (List.mem_range.mpr hj)
    rw [beq_iff_eq, shift_and_one, Bool.not_eq_false] at hset
    rw [hset]
    clear hset h
    revert j
    decide
  · rintro rfl
    decide

private theorem getLsbD_shiftLeft_one {j : Nat} (hj : j < 8) :
    (1#8 <<< i).getLsbD j = decide (i = j) := by
  change (BitVec.twoPow 8 i).getLsbD j = _
  rw [BitVec.getLsbD_twoPow]
  by_cases heq : i = j
  · simp [heq, hj]
  · simp [heq]

theorem relieve_lock (hclear : bufferLock.getLsbD i = false) :
    (bufferLock ||| (1#8 <<< i)) &&& ~~~ (1#8 <<< i) = bufferLock := by
  apply BitVec.eq_of_getLsbD_eq
  intro j hj
  rw [BitVec.getLsbD_and, BitVec.getLsbD_or, BitVec.getLsbD_not, getLsbD_shiftLeft_one hj]
  by_cases heq : i = j
  · subst heq
    simp [hclear]
  · simp [heq, hj]

theorem lock_ne (hi : i < 8) (hclear : bufferLock.getLsbD i = false) :
    bufferLock ||| (1#8 <<< i) ≠ bufferLock := by
  intro heq
  have hbit := congrArg (fun byte : BitVec 8 => byte.getLsbD i) heq
  rw [BitVec.getLsbD_or, getLsbD_shiftLeft_one hi, hclear] at hbit
  simp at hbit

theorem getBuffer_cases (s : DiskState) :
    (∃ i : Nat, i < 8 ∧ s.bufferLock.getLsbD i = false ∧
      getBuffer s = ((i : Int), { s with bufferLock := s.bufferLock ||| (1#8 <<< i) })) ∨
    (s.bufferLock = 0xFF#8 ∧ getBuffer s = (-1, s)) := by
  cases hfree : freeBuffer s.bufferLock with
  | some i =>
      obtain ⟨hi, hclear⟩ := freeBuffer_some hfree
      refine Or.inl ⟨i, hi, hclear, ?_⟩
      rw [getBuffer, hfree]
  | none =>
      refine Or.inr ⟨freeBuffer_eq_none.mp hfree, ?_⟩
      rw [getBuffer, hfree]

theorem getBuffer_of_free {s : DiskState} (hfree : s.bufferLock ≠ 0xFF#8) : ∃ i : Nat, i < 8 ∧
    getBuffer s = ((i : Int), { s with bufferLock := s.bufferLock ||| (1#8 <<< i) }) := by
  rcases getBuffer_cases s with ⟨i, hi, -, hget⟩ | ⟨hfull, -⟩
  · exact ⟨i, hi, hget⟩
  · exact absurd hfull hfree

theorem getBuffer_of_full {s : DiskState} (hfull : s.bufferLock = 0xFF#8) :
    getBuffer s = (-1, s) := by
  rw [getBuffer, freeBuffer_eq_none.mpr hfull]

end Lock

/-! ## The lock in each call -/

section Calls

variable {dev : DiskDevice} {s : DiskState}

private theorem transferLast_preserves {State : Type*} {P : State → Prop} {blocks : Nat}
    {transfer : BitVec 32 → Nat → State → State}
    (htransfer : ∀ i count s, P s → P (transfer i count s)) (i : BitVec 32) (s : State)
    (h : P s) : P (transferLast blocks transfer i s).2 := by
  unfold transferLast
  by_cases h2 : sub64 blocks (intToU64 i) > 2
  · rw [if_pos h2]
    exact htransfer _ _ _ h
  · rw [if_neg h2]
    exact htransfer _ _ _ h

private theorem transferStep_preserves {State : Type*} {P : State → Prop} {blocks : Nat}
    {transfer : BitVec 32 → Nat → State → State}
    (htransfer : ∀ i count s, P s → P (transfer i count s)) (i : BitVec 32) (s : State)
    (h : P s) : P (transferStep blocks transfer i s).2 := by
  unfold transferStep
  by_cases h8 : sub64 blocks (intToU64 i) > 8
  · rw [if_pos h8]
    exact transferLast_preserves htransfer _ _ (htransfer _ _ _ h)
  · rw [if_neg h8]
    by_cases h4 : sub64 blocks (intToU64 i) > 4
    · rw [if_pos h4]
      exact transferLast_preserves htransfer _ _ (htransfer _ _ _ h)
    · rw [if_neg h4]
      exact transferLast_preserves htransfer _ _ h

theorem transferBlocks_preserves {State : Type*} {P : State → Prop} {blocks : Nat}
    {transfer : BitVec 32 → Nat → State → State} {s : State}
    (htransfer : ∀ i count s, P s → P (transfer i count s)) (h : P s) :
    P (transferBlocks blocks transfer s) := by
  unfold transferBlocks
  exact forIntBy_preserves (transferStep_preserves htransfer) h

private theorem stepLoop_preserves {State : Type*} {P : State → Prop} {count step : Nat}
    {body : Nat → State → State} (hbody : ∀ pos s, P s → P (body pos s))
    (fuel pos : Nat) (s : State) (h : P s) : P (stepLoop count step body fuel pos s).2 := by
  induction fuel generalizing pos s with
  | zero => exact h
  | succ fuel ih =>
      rw [stepLoop]
      split
      · exact ih _ _ (hbody _ _ h)
      · exact h

theorem stepBlocks_preserves {State : Type*} {P : State → Prop} {count : Nat}
    {transfer : Nat → Nat → State → State} {s : State}
    (htransfer : ∀ pos n s, P s → P (transfer pos n s)) (h : P s) :
    P (stepBlocks count transfer s) := by
  unfold stepBlocks
  dsimp only
  apply stepLoop_preserves fun pos => htransfer pos 1
  apply stepLoop_preserves fun pos => htransfer pos 2
  apply stepLoop_preserves fun pos => htransfer pos 4
  exact stepLoop_preserves (fun pos => htransfer pos 8) _ _ _ h

@[simp] theorem fetch_bufferLock (lba count tempBuffer offset dest size : Nat) :
    (dev.fetch lba count tempBuffer offset dest size s).bufferLock = s.bufferLock := rfl

@[simp] theorem modify_bufferLock (lba tempBuffer offset src size : Nat) :
    (dev.modify lba tempBuffer offset src size s).bufferLock = s.bufferLock := rfl

@[simp] theorem fetchBlocks_bufferLock (blocks tempBuffer offset : Nat)
    (lba dest : BitVec 32 → Nat) (size : Nat → Nat) :
    (transferBlocks blocks (fun i count =>
      dev.fetch (lba i) count tempBuffer offset (dest i) (size count)) s).bufferLock =
        s.bufferLock :=
  transferBlocks_preserves (P := fun s₁ : DiskState => s₁.bufferLock = s.bufferLock)
    (fun _ _ _ h => h) rfl

@[simp] theorem flushBlocks_bufferLock (blocks tempBuffer : Nat)
    (lba src : BitVec 32 → Nat) (size : Nat → Nat) :
    (transferBlocks blocks (fun i count =>
      dev.flush (lba i) count tempBuffer (src i) (size count)) s).bufferLock =
        s.bufferLock :=
  transferBlocks_preserves (P := fun s₁ : DiskState => s₁.bufferLock = s.bufferLock)
    (fun _ _ _ h => h) rfl

theorem toNat_bufferNumber {i : Nat} (hi : i < 8) : (BitVec.ofInt 8 i).toNat = i := by
  rw [BitVec.ofInt_natCast, BitVec.toNat_ofNat, Nat.mod_eq_of_lt (by omega)]

theorem relieveBuffer_bufferLock {i : Nat} {bufferLock : BitVec 8} (hi : i < 8)
    (hclear : bufferLock.getLsbD i = false)
    (hlocked : s.bufferLock = bufferLock ||| (1#8 <<< i)) :
    (relieveBuffer (BitVec.ofInt 8 i) s).bufferLock = bufferLock := by
  rw [relieveBuffer, toNat_bufferNumber hi, hlocked]
  exact relieve_lock hclear

theorem read_bufferLock (off size buffer : Nat) :
    (dev.read off size buffer s).2.bufferLock = s.bufferLock := by
  rcases getBuffer_cases s with ⟨i, hi, hclear, hget⟩ | ⟨-, hget⟩
  · rw [DiskDevice.read, hget]
    dsimp only
    rw [if_neg (by omega)]
    apply relieveBuffer_bufferLock hi hclear
    split
    · rw [fetch_bufferLock, fetchBlocks_bufferLock, fetch_bufferLock]
    · rw [fetchBlocks_bufferLock, fetch_bufferLock]
  · rw [DiskDevice.read, hget]
    rfl

theorem write_bufferLock (off size buffer : Nat) :
    (dev.write off size buffer s).2.bufferLock = s.bufferLock := by
  rcases getBuffer_cases s with ⟨i, hi, hclear, hget⟩ | ⟨-, hget⟩
  · rw [DiskDevice.write, hget]
    dsimp only
    rw [if_neg (by omega)]
    apply relieveBuffer_bufferLock hi hclear
    split
    · rw [modify_bufferLock, flushBlocks_bufferLock, modify_bufferLock]
    · rw [flushBlocks_bufferLock, modify_bufferLock]
  · rw [DiskDevice.write, hget]
    rfl

theorem readBlocks_bufferLock (lba count buffer : Nat) :
    (dev.readBlocks lba count buffer s).2.bufferLock = (getBuffer s).2.bufferLock := by
  unfold readBlocks
  dsimp only
  rw [if_neg (by omega)]
  exact stepBlocks_preserves (P := fun s₁ : DiskState => s₁.bufferLock = (getBuffer s).2.bufferLock)
    (fun _ _ _ h => h) rfl

theorem writeBlocks_bufferLock (lba count buffer : Nat) :
    (dev.writeBlocks lba count buffer s).2.bufferLock = (getBuffer s).2.bufferLock := by
  unfold writeBlocks
  dsimp only
  rw [if_neg (by omega)]
  exact stepBlocks_preserves (P := fun s₁ : DiskState => s₁.bufferLock = (getBuffer s).2.bufferLock)
    (fun _ _ _ h => h) rfl

theorem getBuffer_bufferLock :
    (getBuffer s).2.bufferLock = s.bufferLock ↔ s.bufferLock = 0xFF#8 := by
  rcases getBuffer_cases s with ⟨i, hi, hclear, hget⟩ | ⟨hfull, hget⟩
  · rw [hget]
    constructor
    · intro heq
      exact absurd heq (lock_ne hi hclear)
    · intro hfull
      rw [hfull] at hclear
      exfalso
      clear hfull hget
      revert i
      decide
  · rw [hget]
    exact iff_of_true rfl hfull

end Calls

/-! ## Runs -/

inductive DiskCall where
  | read (off size buffer : Nat)
  | write (off size buffer : Nat)
  | readBlocks (lba count buffer : Nat)
  | writeBlocks (lba count buffer : Nat)
  deriving DecidableEq, Repr

namespace DiskCall

def run (dev : DiskDevice) (call : DiskCall) (s : DiskState) : DiskState :=
  match call with
  | read off size buffer => (dev.read off size buffer s).2
  | write off size buffer => (dev.write off size buffer s).2
  | readBlocks lba count buffer => (dev.readBlocks lba count buffer s).2
  | writeBlocks lba count buffer => (dev.writeBlocks lba count buffer s).2

def ofBytes : DiskCall → Bool
  | read .. => true
  | write .. => true
  | readBlocks .. => false
  | writeBlocks .. => false

def runAll (dev : DiskDevice) (calls : List DiskCall) (s : DiskState) : DiskState :=
  calls.foldl (fun s call => call.run dev s) s

end DiskCall

section Runs

variable {dev : DiskDevice} {s : DiskState} {calls : List DiskCall}

theorem run_bufferLock (call : DiskCall) :
    (call.run dev s).bufferLock = s.bufferLock ↔
      call.ofBytes = true ∨ s.bufferLock = 0xFF#8 := by
  cases call with
  | read off size buffer => exact iff_of_true (read_bufferLock off size buffer) (Or.inl rfl)
  | write off size buffer => exact iff_of_true (write_bufferLock off size buffer) (Or.inl rfl)
  | readBlocks lba count buffer =>
      rw [DiskCall.run, readBlocks_bufferLock, getBuffer_bufferLock]
      simp [DiskCall.ofBytes]
  | writeBlocks lba count buffer =>
      rw [DiskCall.run, writeBlocks_bufferLock, getBuffer_bufferLock]
      simp [DiskCall.ofBytes]

theorem runAll_append (calls calls' : List DiskCall) :
    DiskCall.runAll dev (calls ++ calls') s =
      DiskCall.runAll dev calls' (DiskCall.runAll dev calls s) :=
  List.foldl_append

theorem runAll_bufferLock
    (h : s.bufferLock = 0xFF#8 ∨ ∀ call ∈ calls, call.ofBytes = true) :
    (DiskCall.runAll dev calls s).bufferLock = s.bufferLock := by
  induction calls using List.reverseRecOn with
  | nil => rfl
  | append_singleton calls call ih =>
      have hbefore : (DiskCall.runAll dev calls s).bufferLock = s.bufferLock := by
        apply ih
        rcases h with h | h
        · exact Or.inl h
        · exact Or.inr fun call' hmem => h call' (List.mem_append_left _ hmem)
      rw [runAll_append]
      change (call.run dev (DiskCall.runAll dev calls s)).bufferLock = _
      rw [← hbefore, run_bufferLock, hbefore]
      rcases h with h | h
      · exact Or.inr h
      · exact Or.inl (h call (by simp))

def Conserves (dev : DiskDevice) (calls : List DiskCall) (s : DiskState) : Prop :=
  ∀ earlier call later, calls = earlier ++ call :: later →
    (call.run dev (DiskCall.runAll dev earlier s)).bufferLock =
      (DiskCall.runAll dev earlier s).bufferLock

/--
A run conserves the pool exactly when no buffer was free at its start or it has
no `ReadBlocks` and no `WriteBlocks`; the pool is then after the run as before.
-/
theorem conserves_iff (dev : DiskDevice) (calls : List DiskCall) (s : DiskState) :
    (Conserves dev calls s ↔ s.bufferLock = 0xFF#8 ∨ ∀ call ∈ calls, call.ofBytes = true) ∧
    (Conserves dev calls s → (DiskCall.runAll dev calls s).bufferLock = s.bufferLock) := by
  have hiff : Conserves dev calls s ↔
      s.bufferLock = 0xFF#8 ∨ ∀ call ∈ calls, call.ofBytes = true := by
    constructor
    · intro hconserves
      by_contra hnot
      obtain ⟨hfree, hblocks⟩ := not_or.mp hnot
      -- the first call that is neither `Read` nor `Write` breaks the pool
      obtain ⟨earlier, call, later, hcalls, hearlier, hcall⟩ :
          ∃ earlier call later, calls = earlier ++ call :: later ∧
            (∀ c ∈ earlier, c.ofBytes = true) ∧ ¬ call.ofBytes = true := by
        clear hconserves hnot hfree
        induction calls with
        | nil => exact absurd (fun _ hmem => absurd hmem (List.not_mem_nil)) hblocks
        | cons call rest ih =>
            by_cases hcall : call.ofBytes = true
            · have hrest : ¬ ∀ c ∈ rest, c.ofBytes = true := fun hall =>
                hblocks (List.forall_mem_cons.mpr ⟨hcall, hall⟩)
              obtain ⟨earlier, call', later, rfl, hearlier, hcall'⟩ := ih hrest
              exact ⟨call :: earlier, call', later, rfl,
                List.forall_mem_cons.mpr ⟨hcall, hearlier⟩, hcall'⟩
            · exact ⟨[], call, rest, rfl, fun _ hmem => absurd hmem (List.not_mem_nil), hcall⟩
      have hlock := hconserves earlier call later hcalls
      rw [run_bufferLock, runAll_bufferLock (Or.inr hearlier)] at hlock
      rcases hlock with hlock | hlock
      · exact hcall hlock
      · exact hfree hlock
    · rintro h earlier call later rfl
      rw [run_bufferLock, runAll_bufferLock]
      · rcases h with h | h
        · exact Or.inr h
        · exact Or.inl (h call (by simp))
      · rcases h with h | h
        · exact Or.inl h
        · exact Or.inr fun c hmem => h c (List.mem_append_left _ hmem)
  exact ⟨hiff, fun hconserves => runAll_bufferLock (hiff.mp hconserves)⟩

/-- A device with its pool in the pages from `0x1000` on, all of them free. -/
def idleDevice : DiskDevice := ⟨fun i => 0x1000 * (i + 1), 512, fun _ => true⟩

def idleState : DiskState := ⟨fun _ => 0, fun _ => 0, 0, []⟩

/-- One `ReadBlocks` leaves its buffer locked; eight of them take the whole pool. -/
theorem readBlocks_drains_pool :
    ¬ Conserves idleDevice [.readBlocks 0 1 0x100000] idleState ∧
    (DiskCall.runAll idleDevice (List.replicate 8 (.readBlocks 0 1 0x100000))
      idleState).bufferLock = 0xFF#8 := by
  constructor
  · intro hconserves
    have hlock := hconserves [] _ [] rfl
    revert hlock
    decide +kernel
  · decide +kernel

end Runs

end UnifiedOS.FileSystem
