import UnifiedOS.FileSystem.DiskCommands

/-!
# What a call reports

`GetBuffer` answers -1 when the pool is exhausted.  `Read` and `Write` test for
it; `ReadBlocks` and `WriteBlocks` have it in a `uint8_t` by then and go on with
buffer 255.  None of the four looks at the outcome of a command.
-/

namespace UnifiedOS.FileSystem

open UnifiedOS.Foundation
open DiskDevice

/-! ## An exhausted pool -/

namespace DiskCall

def result (dev : DiskDevice) (call : DiskCall) (s : DiskState) : Option Int :=
  match call with
  | read off size buffer => some (dev.read off size buffer s).1
  | write off size buffer => some (dev.write off size buffer s).1
  | readBlocks lba count buffer => (dev.readBlocks lba count buffer s).1
  | writeBlocks lba count buffer => (dev.writeBlocks lba count buffer s).1

def errorValue : DiskCall → Int
  | read .. => 0
  | write .. => -1
  | readBlocks .. => -1
  | writeBlocks .. => -1

end DiskCall

/--
With every buffer locked the call returns its error value and does nothing; in
any case it makes no difference to it what lies behind the eight buffers.
-/
structure ReportsExhaustion (dev : DiskDevice) (call : DiskCall) (s : DiskState) : Prop where
  refused : s.bufferLock = 0xFF#8 →
    call.result dev s = some call.errorValue ∧ call.run dev s = s
  inside : ∀ buffer' : Nat → Nat, (∀ i < 8, buffer' i = dev.buffer i) →
    call.result { dev with buffer := buffer' } s = call.result dev s ∧
      call.run { dev with buffer := buffer' } s = call.run dev s

section Exhaustion

variable {dev : DiskDevice} {s : DiskState} {off size buffer lba count : Nat}

theorem readBlocks_result : (dev.readBlocks lba count buffer s).1 = none := by
  unfold readBlocks
  dsimp only
  rw [if_neg (by omega)]

theorem writeBlocks_result : (dev.writeBlocks lba count buffer s).1 = none := by
  unfold writeBlocks
  dsimp only
  rw [if_neg (by omega)]

theorem call_inside (call : DiskCall) (hfree : s.bufferLock ≠ 0xFF#8) {buffer' : Nat → Nat}
    (hsame : ∀ i < 8, buffer' i = dev.buffer i) :
    call.result { dev with buffer := buffer' } s = call.result dev s ∧
      call.run { dev with buffer := buffer' } s = call.run dev s := by
  obtain ⟨i, hi, hget⟩ := getBuffer_of_free hfree
  have hnumber := toNat_bufferNumber hi
  have hbuffer := hsame i hi
  cases call with
  | read off size buffer =>
      simp only [DiskCall.result, DiskCall.run, DiskDevice.read, hget, Int.toNat_natCast, hbuffer]
      exact ⟨rfl, rfl⟩
  | write off size buffer =>
      simp only [DiskCall.result, DiskCall.run, DiskDevice.write, hget, Int.toNat_natCast,
        hbuffer]
      exact ⟨rfl, rfl⟩
  | readBlocks lba count buffer =>
      simp only [DiskCall.result, DiskCall.run, readBlocks, hget, hnumber, hbuffer]
      exact ⟨rfl, rfl⟩
  | writeBlocks lba count buffer =>
      simp only [DiskCall.result, DiskCall.run, writeBlocks, hget, hnumber, hbuffer]
      exact ⟨rfl, rfl⟩

/-- Exhaustion is reported by `Read` and `Write`, and by no other call. -/
theorem reportsExhaustion_iff (dev : DiskDevice) (call : DiskCall) (s : DiskState) :
    ReportsExhaustion dev call s ↔ call.ofBytes = true ∨ s.bufferLock ≠ 0xFF#8 := by
  by_cases hfull : s.bufferLock = 0xFF#8
  · cases call with
    | read off size buffer =>
        refine iff_of_true ⟨fun _ => ?_, fun buffer' _ => ?_⟩ (Or.inl rfl)
        · simp [DiskCall.result, DiskCall.run, DiskCall.errorValue, read_result_of_full hfull]
        · simp [DiskCall.result, DiskCall.run, read_result_of_full hfull]
    | write off size buffer =>
        refine iff_of_true ⟨fun _ => ?_, fun buffer' _ => ?_⟩ (Or.inl rfl)
        · simp [DiskCall.result, DiskCall.run, DiskCall.errorValue, write_result_of_full hfull]
        · simp [DiskCall.result, DiskCall.run, write_result_of_full hfull]
    | readBlocks lba count buffer =>
        refine iff_of_false (fun h => ?_) (by simp [DiskCall.ofBytes, hfull])
        have hresult := (h.refused hfull).1
        rw [DiskCall.result, readBlocks_result] at hresult
        contradiction
    | writeBlocks lba count buffer =>
        refine iff_of_false (fun h => ?_) (by simp [DiskCall.ofBytes, hfull])
        have hresult := (h.refused hfull).1
        rw [DiskCall.result, writeBlocks_result] at hresult
        contradiction
  · refine iff_of_true ⟨fun h => absurd h hfull, fun buffer' hsame => ?_⟩ (Or.inr hfull)
    exact call_inside call hfull hsame

/-- With every buffer locked, `ReadBlocks` reads a sector into what lies at `Buffer[255]`. -/
theorem readBlocks_ignores_exhaustion :
    ¬ ReportsExhaustion idleDevice (.readBlocks 0 1 0x100000)
        { idleState with bufferLock := 0xFF#8 } ∧
      ((DiskCall.readBlocks 0 1 0x100000).run idleDevice
        { idleState with bufferLock := 0xFF#8 }).commands =
          [⟨false, 0, 1, idleDevice.buffer 255, true⟩] := by
  constructor
  · intro h
    have hresult := (h.refused rfl).1
    rw [DiskCall.result, readBlocks_result] at hresult
    contradiction
  · decide +kernel

end Exhaustion

/-! ## Commands that fail -/

/-- A call that returns 1 issued no command that failed. -/
def ReportsErrors (call : DiskState → Int × DiskState) (s : DiskState) : Prop :=
  (call s).1 = 1 → ∀ issued, (call s).2.commands = issued ++ s.commands →
    ∀ command ∈ issued, command.succeeded = true

def loopCommands (blocks : Nat) : Nat := transferBlocks blocks (fun _ _ n => n + 1) 0

def requestCommands (partialBlock off size : Nat) : Nat :=
  partialBlock + loopCommands (afterFirst off size / 512) +
    if afterFirst off size % 512 = 0 then 0 else partialBlock

def AllSucceed (dev : DiskDevice) (first count : Nat) : Prop :=
  ∀ n, first ≤ n → n < first + count → dev.succeeds n = true

def Issues (dev : DiskDevice) (s s' : DiskState) (count : Nat) : Prop :=
  ∃ issued, s'.commands = issued ++ s.commands ∧ issued.length = count ∧
    ((∀ command ∈ issued, command.succeeded = true) ↔
      AllSucceed dev s.commands.length count)

section Errors

variable {dev : DiskDevice} {s s' s'' : DiskState} {n m off size buffer : Nat}

theorem allSucceed_add (first n m : Nat) :
    AllSucceed dev first (n + m) ↔
      AllSucceed dev first n ∧ AllSucceed dev (first + n) m := by
  constructor
  · intro h
    exact ⟨fun k hlo hhi => h k hlo (by omega), fun k hlo hhi => h k (by omega) (by omega)⟩
  · rintro ⟨h, h'⟩ k hlo hhi
    by_cases hk : k < first + n
    · exact h k hlo hk
    · exact h' k (by omega) (by omega)

theorem Issues.none (hcommands : s'.commands = s.commands) : Issues dev s s' 0 :=
  ⟨[], by simpa using hcommands, rfl, by simp [AllSucceed]; omega⟩

theorem Issues.trans (h : Issues dev s s' n) (h' : Issues dev s' s'' m) :
    Issues dev s s'' (n + m) := by
  obtain ⟨issued, hcommands, hlength, hiff⟩ := h
  obtain ⟨issued', hcommands', hlength', hiff'⟩ := h'
  have hcount : s'.commands.length = s.commands.length + n := by
    rw [hcommands, List.length_append, hlength, Nat.add_comm]
  refine ⟨issued' ++ issued, by rw [hcommands', hcommands, List.append_assoc], ?_, ?_⟩
  · rw [List.length_append, hlength, hlength', Nat.add_comm]
  · rw [List.forall_mem_append, hiff, hiff', allSucceed_add, hcount, and_comm]

theorem Issues.take (lock : BitVec 8) (h : Issues dev { s with bufferLock := lock } s' n) :
    Issues dev s s' n := by
  obtain ⟨issued, hcommands, hlength, hiff⟩ := h
  exact ⟨issued, hcommands, hlength, hiff⟩

theorem Issues.relieve (index : BitVec 8) (h : Issues dev s s' n) :
    Issues dev s (relieveBuffer index s') n := by
  obtain ⟨issued, hcommands, hlength, hiff⟩ := h
  exact ⟨issued, hcommands, hlength, hiff⟩

theorem issues_of_cons {command : DiskCommand}
    (hcommands : s'.commands = command :: s.commands)
    (houtcome : command.succeeded = dev.succeeds s.commands.length) : Issues dev s s' 1 := by
  refine ⟨[command], hcommands, rfl, ?_⟩
  rw [List.forall_mem_singleton, houtcome]
  constructor
  · intro hok k hlo hhi
    obtain rfl : k = s.commands.length := by omega
    exact hok
  · exact fun h => h _ (Nat.le_refl _) (Nat.lt_succ_self _)

theorem fetch_issues (lba count tempBuffer offset dest n : Nat) :
    Issues dev s (dev.fetch lba count tempBuffer offset dest n s) 1 :=
  issues_of_cons rfl rfl

theorem flush_issues (lba count tempBuffer src n : Nat) :
    Issues dev s (dev.flush lba count tempBuffer src n s) 1 :=
  issues_of_cons rfl rfl

theorem modify_issues (lba tempBuffer offset src n : Nat) :
    Issues dev s (dev.modify lba tempBuffer offset src n s) 2 := by
  have hread : Issues dev s ((dev.readDiskBlock lba 1 tempBuffer s).2.copy
      (tempBuffer + offset) src n) 1 := issues_of_cons rfl rfl
  exact hread.trans (issues_of_cons rfl rfl)

theorem transferBlocks_issues {blocks : Nat}
    {transfer : BitVec 32 → Nat → DiskState → DiskState}
    (htransfer : ∀ i count s, Issues dev s (transfer i count s) 1) :
    Issues dev s (transferBlocks blocks transfer s) (loopCommands blocks) :=
  transferBlocks_simulates (R := fun s' n => Issues dev s s' n)
    (fun i count s' _ h => h.trans (htransfer i count s')) (Issues.none rfl)

private theorem request_issues {s₁ s₂ s₃ : DiskState} {partialBlock : Nat}
    (lock index : BitVec 8)
    (hhead : Issues dev { s with bufferLock := lock } s₁ partialBlock)
    (hloop : Issues dev s₁ s₂ (loopCommands (afterFirst off size / 512)))
    (htail : Issues dev s₂ s₃ partialBlock) :
    Issues dev s (relieveBuffer index (if afterFirst off size % 512 > 0 then s₃ else s₂))
      (requestCommands partialBlock off size) := by
  have hmiddle := (hhead.take lock).trans hloop
  unfold requestCommands
  by_cases hzero : afterFirst off size % 512 = 0
  · rw [if_pos hzero, if_neg (by omega), Nat.add_zero]
    exact hmiddle.relieve index
  · rw [if_neg hzero, if_pos (by omega)]
    exact (hmiddle.trans htail).relieve index

theorem read_issues (hb : dev.blocksize = 512) (hfree : s.bufferLock ≠ 0xFF#8) :
    Issues dev s (dev.read off size buffer s).2 (requestCommands 1 off size) := by
  obtain ⟨hblock, hfirst, hexcess⟩ := numbers_eq hb off size
  obtain ⟨i, -, hget⟩ := getBuffer_of_free hfree
  rw [DiskDevice.read, hget]
  dsimp only
  rw [if_neg (by omega), hblock, hfirst, ← afterFirst, hexcess]
  exact request_issues _ _ (fetch_issues _ _ _ _ _ _)
    (transferBlocks_issues fun i count s => fetch_issues _ _ _ _ _ _)
    (fetch_issues _ _ _ _ _ _)

theorem write_issues (hb : dev.blocksize = 512) (hfree : s.bufferLock ≠ 0xFF#8)
    (hoff : off < 2 ^ 64) :
    Issues dev s (dev.write off size buffer s).2 (requestCommands 2 off size) := by
  obtain ⟨hblock, hfirst, hexcess⟩ := numbers_eq hb off size
  have hoffset : sub64 off (wrap64 (off / 512 * 512)) = off % 512 := by
    rw [wrap64_of_lt (by omega), sub64_of_le (by omega) hoff]
    omega
  obtain ⟨i, -, hget⟩ := getBuffer_of_free hfree
  rw [DiskDevice.write, hget]
  dsimp only
  rw [if_neg (by omega), hblock, hoffset, hfirst, ← afterFirst, hexcess]
  exact request_issues _ _ (modify_issues _ _ _ _ _)
    (transferBlocks_issues fun i count s => flush_issues _ _ _ _ _)
    (modify_issues _ _ _ _ _)

theorem read_returns (hfree : s.bufferLock ≠ 0xFF#8) :
    (dev.read off size buffer s).1 = 1 := by
  obtain ⟨i, -, hget⟩ := getBuffer_of_free hfree
  rw [DiskDevice.read, hget]
  dsimp only
  rw [if_neg (by omega)]

theorem write_returns (hfree : s.bufferLock ≠ 0xFF#8) :
    (dev.write off size buffer s).1 = 1 := by
  obtain ⟨i, -, hget⟩ := getBuffer_of_free hfree
  rw [DiskDevice.write, hget]
  dsimp only
  rw [if_neg (by omega)]

theorem reportsErrors_iff {call : DiskState → Int × DiskState}
    (hreturns : (call s).1 = 1) (h : Issues dev s (call s).2 n) :
    ReportsErrors call s ↔ AllSucceed dev s.commands.length n := by
  obtain ⟨issued, hcommands, -, hiff⟩ := h
  rw [← hiff]
  constructor
  · exact fun hreports => hreports hreturns issued hcommands
  · intro hall _ issued' hcommands'
    rwa [List.append_cancel_right (hcommands'.symm.trans hcommands)]

/-- A caller's `!Disk->Read(..)` holds where the pool is exhausted, and nowhere else. -/
theorem read_eq_zero_iff :
    (dev.read off size buffer s).1 = 0 ↔ s.bufferLock = 0xFF#8 := by
  constructor
  · intro hzero
    by_contra hfree
    rw [read_returns hfree] at hzero
    contradiction
  · intro hfull
    rw [read_result_of_full hfull]

/--
`Read` and `Write` report what they came by exactly when nothing went wrong:
either the pool had no buffer, or all the commands of the request succeed.
-/
theorem errors_reported_iff (hb : dev.blocksize = 512) (hoff : off < 2 ^ 64)
    (s : DiskState) (size buffer : Nat) :
    (ReportsErrors (dev.read off size buffer) s ↔ s.bufferLock = 0xFF#8 ∨
        AllSucceed dev s.commands.length (requestCommands 1 off size)) ∧
      (ReportsErrors (dev.write off size buffer) s ↔ s.bufferLock = 0xFF#8 ∨
        AllSucceed dev s.commands.length (requestCommands 2 off size)) ∧
      ((dev.read off size buffer s).1 = 0 ↔ s.bufferLock = 0xFF#8) := by
  by_cases hfull : s.bufferLock = 0xFF#8
  · refine ⟨iff_of_true (fun hone => ?_) (Or.inl hfull),
      iff_of_true (fun hone => ?_) (Or.inl hfull), read_eq_zero_iff⟩
    · simp [read_result_of_full hfull] at hone
    · simp [write_result_of_full hfull] at hone
  · refine ⟨?_, ?_, read_eq_zero_iff⟩
    · rw [reportsErrors_iff (read_returns hfull) (read_issues hb hfull)]
      exact (or_iff_right hfull).symm
    · rw [reportsErrors_iff (write_returns hfull) (write_issues hb hfull hoff)]
      exact (or_iff_right hfull).symm

end Errors

def failingDevice : DiskDevice := { idleDevice with succeeds := fun _ => false }

theorem errors_reported_idle :
    (ReportsErrors (idleDevice.read 300 700 0x100000) idleState ↔
        idleState.bufferLock = 0xFF#8 ∨ AllSucceed idleDevice 0 (requestCommands 1 300 700)) ∧
      (ReportsErrors (idleDevice.write 300 700 0x100000) idleState ↔
        idleState.bufferLock = 0xFF#8 ∨ AllSucceed idleDevice 0 (requestCommands 2 300 700)) ∧
      ((idleDevice.read 300 700 0x100000 idleState).1 = 0 ↔ idleState.bufferLock = 0xFF#8) :=
  errors_reported_iff rfl (by decide) idleState 700 0x100000

/-- Reading a sector from the failing device returns 1. -/
theorem read_swallows_failure :
    ¬ ReportsErrors (failingDevice.read 0 512 0x100000) idleState := by
  have hfree : idleState.bufferLock ≠ 0xFF#8 := by decide
  rw [reportsErrors_iff (read_returns hfree) (read_issues rfl hfree)]
  intro hall
  have hfirst := hall 0 (Nat.le_refl 0) (by unfold requestCommands; omega)
  contradiction

end UnifiedOS.FileSystem
