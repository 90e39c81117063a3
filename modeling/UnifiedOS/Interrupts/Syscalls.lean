import UnifiedOS.Interrupts.Frames

/-!
# System calls

`int 0x80` leads to `SyscallHandler`, which finds the number of the call in the
`rax` of its frame and writes the result back there.  Most of the calls do nothing
yet.  What `printf` and `ResolveFile` do to the memory is given.
-/

namespace UnifiedOS.Interrupts

open UnifiedOS.Foundation ByteMemory

def SYSCALL_COUNT : Nat := 999

inductive Syscall where
  | sysPrint
  | sysExec
  | sysFork
  | sysYeild
  | sysExit
  | sysKill
  | sysResolveFile
  | sysResolveDir
  | sysCreateFile
  | sysCreateDir
  | sysUpdateFile
  | sysUpdateDir
  deriving DecidableEq, Repr

/-- `SyscallHandler::SyscallResults`; the entries behind these are null. -/
def syscallResults : List Syscall :=
  [.sysPrint, .sysExec, .sysFork, .sysYeild, .sysExit, .sysKill, .sysResolveFile, .sysResolveDir,
    .sysCreateFile, .sysCreateDir, .sysUpdateFile, .sysUpdateDir]

/-- What the calls use: the memory after `printf`, and after `ResolveFile` with its file. -/
structure Services where
  printf : ByteMemory → Word → ByteMemory
  resolveFile : ByteMemory → Word → ByteMemory × Word

structure Services.Spare (services : Services) (first last : Nat) : Prop where
  printf : ∀ memory arg x, first ≤ x → x < last → services.printf memory arg x = memory x
  resolveFile : ∀ memory arg x, first ≤ x → x < last →
    (services.resolveFile memory arg).1 x = memory x

def raxOffset : Nat := 112

/-- The functions of `syscalls.cpp`; their first argument is in `rdx`. -/
def Syscall.call (services : Services) (memory : ByteMemory) (rsp : Nat) : Syscall → ByteMemory
  | sysPrint => services.printf memory (InterruptRegistersStack.ofMemory memory rsp).rdx
  | sysResolveFile =>
      let result := services.resolveFile memory (InterruptRegistersStack.ofMemory memory rsp).rdx
      result.1.storeWord (rsp + raxOffset) result.2
  | _ => memory

def syscallHandler (services : Services) (memory : ByteMemory) (rsp : Nat) : ByteMemory :=
  let rax := (InterruptRegistersStack.ofMemory memory rsp).rax.toNat
  if rax ≥ SYSCALL_COUNT then memory
  else
    match syscallResults[rax]? with
    | none => memory
    | some syscall => syscall.call services memory rsp

/-- `int 0x80`; the handler may change the registers that are on the stack. -/
def Machine.syscall (services : Services) (m : Machine) (stack entry : Word)
    (interruptnumber : Nat) (changed : GPR → Word) : Machine :=
  m.interrupt stack none entry interruptnumber 0x80 fun entered =>
    { entered with
      gpr := changed
      memory := syscallHandler services entered.memory (entered.gpr .rsi).toNat }

/-! ## What a call leaves in its frame -/

section Frame

variable {services : Services} {memory memory' : ByteMemory} {rsp : Nat}

theorem ofMemory_congr (h : ∀ x, rsp ≤ x → x < rsp + 160 → memory x = memory' x) :
    InterruptRegistersStack.ofMemory memory rsp = InterruptRegistersStack.ofMemory memory' rsp := by
  apply ofMemory_eq
  rw [toWords_ofMemory]
  exact words_congr fun x hlow hhigh => h x hlow (by omega)

theorem ofMemory_storeWord (value : Word) :
    InterruptRegistersStack.ofMemory (memory.storeWord (rsp + raxOffset) value) rsp =
      { InterruptRegistersStack.ofMemory memory rsp with rax := value } := by
  simp (disch := omega) only [InterruptRegistersStack.ofMemory, raxOffset, word_storeWord_same,
    word_storeWord_disjoint]

theorem syscallResults_resolveFile {number : Nat} :
    syscallResults[number]? = some .sysResolveFile ↔ number = 6 := by
  constructor
  · intro hcall
    have hlt : number < 12 := (List.getElem?_eq_some_iff.mp hcall).1
    have hentries : ∀ n < 12, syscallResults[n]? = some .sysResolveFile → n = 6 := by decide
    exact hentries number hlt hcall
  · rintro rfl
    rfl

theorem syscallHandler_frame (hspare : services.Spare rsp (rsp + 160)) :
    InterruptRegistersStack.ofMemory (syscallHandler services memory rsp) rsp =
      { InterruptRegistersStack.ofMemory memory rsp with
        rax :=
          if (InterruptRegistersStack.ofMemory memory rsp).rax = 6 then
            (services.resolveFile memory (InterruptRegistersStack.ofMemory memory rsp).rdx).2
          else (InterruptRegistersStack.ofMemory memory rsp).rax } := by
  obtain ⟨frame, hframe⟩ : ∃ frame, InterruptRegistersStack.ofMemory memory rsp = frame :=
    ⟨_, rfl⟩
  have hnumber : frame.rax.toNat = 6 ↔ frame.rax = 6 := by
    constructor
    · intro heq
      exact BitVec.eq_of_toNat_eq heq
    · rintro heq
      rw [heq]
      rfl
  unfold syscallHandler
  rw [hframe]
  dsimp only
  by_cases hbound : frame.rax.toNat ≥ SYSCALL_COUNT
  · have hother : frame.rax ≠ 6 := by
      intro heq
      rw [heq] at hbound
      exact absurd hbound (by decide)
    rw [if_pos hbound, if_neg hother, hframe]
  · rw [if_neg hbound]
    cases hcall : syscallResults[frame.rax.toNat]? with
    | none =>
        have hother : frame.rax ≠ 6 := by
          intro heq
          rw [heq] at hcall
          contradiction
        rw [if_neg hother]
        exact hframe
    | some syscall =>
        by_cases hresolve : syscall = .sysResolveFile
        · subst hresolve
          rw [if_pos (hnumber.mp (syscallResults_resolveFile.mp hcall))]
          have hkept : InterruptRegistersStack.ofMemory
              (services.resolveFile memory frame.rdx).1 rsp = frame :=
            (ofMemory_congr (hspare.resolveFile memory frame.rdx)).trans hframe
          simp only [Syscall.call]
          rw [ofMemory_storeWord, hframe, hkept]
        · have hother : frame.rax ≠ 6 := by
            intro heq
            apply hresolve
            have hsix := syscallResults_resolveFile.mpr (hnumber.mpr heq)
            rw [hcall] at hsix
            exact Option.some.inj hsix
          rw [if_neg hother]
          dsimp only
          cases syscall with
          | sysPrint => exact (ofMemory_congr (hspare.printf memory _)).trans hframe
          | sysResolveFile => contradiction
          | sysExec | sysFork | sysYeild | sysExit | sysKill | sysResolveDir | sysCreateFile |
            sysCreateDir | sysUpdateFile | sysUpdateDir => exact hframe

end Frame

/--
A system call returns to where it was made with all registers as they were but
`rax`, and that changes only for `SysResolveFile`: then it is the file found for
the argument in `rdx`.  Numbers that mean nothing change nothing.
-/
theorem syscall_returns (services : Services) (m : Machine) (stack entry : Word)
    (interruptnumber : Nat) (changed : GPR → Word) (hroom : frameSize none ≤ stack.toNat)
    (hapart : Apart interruptnumber stack none)
    (hspare : services.Spare (stack.toNat - frameSize none) stack.toNat) :
    (m.syscall services stack entry interruptnumber changed).registers =
      { m.registers with
        rax :=
          if m.gpr .rax = 6 then
            (services.resolveFile (m.entered stack none entry interruptnumber 0x80).memory
              (m.gpr .rdx)).2
          else m.gpr .rax } := by
  have htop : (m.entered stack none entry interruptnumber 0x80).rsp.toNat =
      stack.toNat - frameSize none := (enterStub_deliver hroom).1
  have hargument : (m.entered stack none entry interruptnumber 0x80).gpr .rsi =
      (m.entered stack none entry interruptnumber 0x80).rsp :=
    (enterStub_arguments hroom hapart).2
  have hframe : InterruptRegistersStack.ofMemory
      (m.entered stack none entry interruptnumber 0x80).memory
      (m.entered stack none entry interruptnumber 0x80).rsp.toNat = m.registers :=
    enterStub_frame hroom hapart
  have hspare' : services.Spare (m.entered stack none entry interruptnumber 0x80).rsp.toNat
      ((m.entered stack none entry interruptnumber 0x80).rsp.toNat + 160) := by
    have hlast : stack.toNat - frameSize none + 160 = stack.toNat := Nat.sub_add_cancel hroom
    rw [htop, hlast]
    exact hspare
  have hreturn := @interrupt_registers m stack entry none interruptnumber 0x80
    (fun entered => { entered with
      gpr := changed
      memory := syscallHandler services entered.memory (entered.gpr .rsi).toNat }) hroom rfl
  dsimp only at hreturn
  rw [Machine.syscall, hreturn, hargument, syscallHandler_frame hspare', hframe]
  rfl

def filesByArgument : Services := ⟨fun memory _ => memory, fun memory arg => (memory, 0x7000 + arg)⟩

/-- The number 6 is in `rax` and the argument in `rdx`, three places behind it. -/
theorem syscall_returns_resolveFile :
    ((numberedMachine 6).syscall filesByArgument 0x9000 0x5000 0x100 fun _ => 0).registers =
      { (numberedMachine 6).registers with rax := 0x7009 } := by
  rw [syscall_returns filesByArgument _ 0x9000 0x5000 0x100 _ (by decide) (.inl (by decide))
    ⟨fun _ _ _ _ _ => rfl, fun _ _ _ _ _ => rfl⟩]
  rfl

end UnifiedOS.Interrupts
