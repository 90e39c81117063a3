import Mathlib.Logic.Function.Basic
import UnifiedOS.Foundation.WordStack
import UnifiedOS.Interrupts.DescriptorTable

/-!
# The registers on the stack

The processor pushes five words when it takes an interrupt, and for some
exceptions an error code.  `int_bottom` pushes the general registers below them
and takes them back off when the handler has returned; `ProcessSwitch` takes them
off a saved context instead.  The kernel is built without a red zone.
-/

namespace UnifiedOS.Interrupts

open UnifiedOS.Foundation ByteMemory

/-! ## The machine -/

inductive GPR where
  | rax | rbx | rcx | rdx | rsi | rdi | rbp
  | r8 | r9 | r10 | r11 | r12 | r13 | r14 | r15
  deriving DecidableEq, Repr

structure Machine where
  gpr : GPR → Word
  rip : Word
  cs : Word
  rflags : Word
  rsp : Word
  ss : Word
  memory : ByteMemory

/-- `InterruptRegistersStack`, and as well `ProcessContext` and `Registers`. -/
structure InterruptRegistersStack where
  r15 : Word
  r14 : Word
  r13 : Word
  r12 : Word
  r11 : Word
  r10 : Word
  r9 : Word
  r8 : Word
  rbp : Word
  rdi : Word
  rsi : Word
  rdx : Word
  rcx : Word
  rbx : Word
  rax : Word
  rip : Word
  cs : Word
  rflags : Word
  rsp : Word
  ss : Word
  deriving DecidableEq

def InterruptRegistersStack.ofMemory (m : ByteMemory) (addr : Nat) : InterruptRegistersStack where
  r15 := m.word addr
  r14 := m.word (addr + 8)
  r13 := m.word (addr + 16)
  r12 := m.word (addr + 24)
  r11 := m.word (addr + 32)
  r10 := m.word (addr + 40)
  r9 := m.word (addr + 48)
  r8 := m.word (addr + 56)
  rbp := m.word (addr + 64)
  rdi := m.word (addr + 72)
  rsi := m.word (addr + 80)
  rdx := m.word (addr + 88)
  rcx := m.word (addr + 96)
  rbx := m.word (addr + 104)
  rax := m.word (addr + 112)
  rip := m.word (addr + 120)
  cs := m.word (addr + 128)
  rflags := m.word (addr + 136)
  rsp := m.word (addr + 144)
  ss := m.word (addr + 152)

def InterruptRegistersStack.toWords (r : InterruptRegistersStack) : List Word :=
  [r.r15, r.r14, r.r13, r.r12, r.r11, r.r10, r.r9, r.r8, r.rbp, r.rdi, r.rsi, r.rdx, r.rcx,
    r.rbx, r.rax, r.rip, r.cs, r.rflags, r.rsp, r.ss]

def Machine.registers (m : Machine) : InterruptRegistersStack :=
  ⟨m.gpr .r15, m.gpr .r14, m.gpr .r13, m.gpr .r12, m.gpr .r11, m.gpr .r10, m.gpr .r9, m.gpr .r8,
    m.gpr .rbp, m.gpr .rdi, m.gpr .rsi, m.gpr .rdx, m.gpr .rcx, m.gpr .rbx, m.gpr .rax, m.rip,
    m.cs, m.rflags, m.rsp, m.ss⟩

/--
What the frame of an interrupt holds: the registers of the interrupted code, or with
an error code the code in place of `rip` and each register above it one place up.
-/
def Machine.frame (m : Machine) : Option Word → InterruptRegistersStack
  | none => m.registers
  | some code =>
      { m.registers with
        rip := code
        cs := m.rip
        rflags := m.cs
        rsp := m.rflags
        ss := m.rsp }

namespace Machine

def push (m : Machine) (value : Word) : Machine :=
  { m with rsp := m.rsp - 8, memory := m.memory.storeWord (m.rsp - 8).toNat value }

def pop (m : Machine) (r : GPR) : Machine :=
  { m with
    gpr := Function.update m.gpr r (m.memory.word m.rsp.toNat)
    rsp := m.rsp + 8 }

def pushes (m : Machine) (values : List Word) : Machine := values.foldl push m

def pops (m : Machine) (rs : List GPR) : Machine := rs.foldl pop m

end Machine

def pushaq : List GPR :=
  [.rax, .rbx, .rcx, .rdx, .rsi, .rdi, .rbp, .r8, .r9, .r10, .r11, .r12, .r13, .r14, .r15]

def popaq : List GPR :=
  [.r15, .r14, .r13, .r12, .r11, .r10, .r9, .r8, .rbp, .rdi, .rsi, .rdx, .rcx, .rbx, .rax]

/-- The macro `popaq` of `switch.asm`, which leaves `rax` for later. -/
def popaqButRax : List GPR :=
  [.r15, .r14, .r13, .r12, .r11, .r10, .r9, .r8, .rbp, .rdi, .rsi, .rdx, .rcx, .rbx]

def Machine.delivered (m : Machine) (error : Option Word) : List Word :=
  [m.ss, m.rsp, m.rflags, m.cs, m.rip] ++ error.toList

/-- The processor takes an interrupt through a gate of the kernel, which masks others. -/
def Machine.deliver (m : Machine) (stack : Word) (error : Option Word) (entry : Word) : Machine :=
  { { m with rsp := stack }.pushes (m.delivered error) with
    rip := entry
    cs := 0x08
    rflags := m.rflags &&& ~~~0x200 }

def Machine.iretq (m : Machine) : Machine :=
  { m with
    rip := m.memory.word m.rsp.toNat
    cs := m.memory.word (m.rsp.toNat + 8)
    rflags := m.memory.word (m.rsp.toNat + 16)
    rsp := m.memory.word (m.rsp.toNat + 24)
    ss := m.memory.word (m.rsp.toNat + 32) }

/-- The stub stores its number, and `int_bottom` pushes the registers and sets the arguments. -/
def Machine.enterStub (m : Machine) (interruptnumber : Nat) (number : Byte) : Machine :=
  let m := { m with memory := m.memory.poke interruptnumber number }
  let m := m.pushes (pushaq.map m.gpr)
  let gpr := Function.update m.gpr .rdi (m.memory.word interruptnumber)
  let gpr := Function.update gpr .rsi m.rsp
  let gpr := Function.update gpr .rdx 0
  { m with gpr := Function.update gpr .rbp 0 }

/-- The end of `int_bottom`, after the call of `HandleInterrupt`. -/
def Machine.leaveStub (m : Machine) : Machine :=
  let m := m.pops popaq
  { m with rflags := m.rflags ||| 0x200 }.iretq

def Machine.processSwitch (m : Machine) (context pml4 : Word) : Machine :=
  let m := { m with rsp := context, gpr := Function.update m.gpr .rax pml4 }
  ((m.pops popaqButRax).pop .rax).iretq

/-! ## Pushing and popping -/

section Stack

variable {m : Machine} {values : List Word} {rs : List GPR} {f : GPR → Word}

theorem pushes_eq (hroom : 8 * values.length ≤ m.rsp.toNat) : m.pushes values =
    { m with
      rsp := m.rsp - BitVec.ofNat 64 (8 * values.length)
      memory := m.memory.pushWords m.rsp.toNat values } := by
  induction values generalizing m with
  | nil => simp [Machine.pushes, pushWords]
  | cons value values ih =>
      rw [List.length_cons] at hroom
      have hrsp : (m.rsp - 8).toNat = m.rsp.toNat - 8 := by
        rw [BitVec.toNat_sub_of_le]
        · rfl
        · rw [BitVec.le_def]
          change 8 ≤ m.rsp.toNat
          omega
      have hsub : m.rsp - 8 - BitVec.ofNat 64 (8 * values.length) =
          m.rsp - BitVec.ofNat 64 (8 * (values.length + 1)) := by
        rw [BitVec.sub_sub, Nat.mul_succ, BitVec.ofNat_add, BitVec.add_comm]
        rfl
      have hstep : m.pushes (value :: values) = (m.push value).pushes values := rfl
      rw [hstep, ih (by rw [Machine.push, hrsp]; omega), List.length_cons]
      simp only [Machine.push]
      rw [hsub, hrsp, pushWords]

theorem pops_eq (hnodup : rs.Nodup) (hroom : m.rsp.toNat + 8 * rs.length < 2 ^ 64)
    (hwords : m.memory.words m.rsp.toNat rs.length = rs.map f) : m.pops rs =
      { m with
        gpr := fun r => if r ∈ rs then f r else m.gpr r
        rsp := m.rsp + BitVec.ofNat 64 (8 * rs.length) } := by
  induction rs generalizing m with
  | nil => simp [Machine.pops]
  | cons r rs ih =>
      rw [List.length_cons] at hroom hwords
      rw [words, List.map_cons, List.cons.injEq] at hwords
      obtain ⟨hfirst, hrest⟩ := hwords
      obtain ⟨hr, hnodup⟩ := List.nodup_cons.mp hnodup
      have hrsp : (m.rsp + 8).toNat = m.rsp.toNat + 8 := by
        rw [BitVec.toNat_add]
        exact Nat.mod_eq_of_lt (by change m.rsp.toNat + 8 < 2 ^ 64; omega)
      have hadd : m.rsp + 8 + BitVec.ofNat 64 (8 * rs.length) =
          m.rsp + BitVec.ofNat 64 (8 * (rs.length + 1)) := by
        rw [BitVec.add_assoc, Nat.mul_succ, BitVec.ofNat_add, BitVec.add_comm 8]
        rfl
      have hstep : m.pops (r :: rs) = (m.pop r).pops rs := rfl
      rw [hstep, ih hnodup (by rw [Machine.pop, hrsp]; omega)
        (by rw [Machine.pop, hrsp]; exact hrest), List.length_cons]
      simp only [Machine.pop]
      rw [hadd, hfirst]
      congr 1
      funext other
      by_cases hother : other ∈ rs
      · rw [if_pos hother, if_pos (List.mem_cons_of_mem r hother)]
      · rw [if_neg hother]
        by_cases hsame : other = r
        · subst hsame
          rw [Function.update_self, if_pos List.mem_cons_self]
        · rw [Function.update_of_ne hsame, if_neg]
          simp [hsame, hother]

theorem popaq_eq_reverse : popaq = pushaq.reverse := rfl

theorem mem_popaq (r : GPR) : r ∈ popaq := by
  cases r <;> decide

theorem registers_iretq_pops (hroom : m.rsp.toNat + 160 < 2 ^ 64) (rflags : Word) :
    ({ m.pops popaq with rflags := rflags } : Machine).iretq.registers =
        InterruptRegistersStack.ofMemory m.memory m.rsp.toNat ∧
      ({ m.pops popaq with rflags := rflags } : Machine).iretq.memory = m.memory := by
  have hlength : popaq.length = 15 := rfl
  have hrsp : (m.rsp + BitVec.ofNat 64 (8 * 15)).toNat = m.rsp.toNat + 120 := by
    rw [BitVec.toNat_add]
    exact Nat.mod_eq_of_lt (by change m.rsp.toNat + 120 < 2 ^ 64; omega)
  have hwords : m.memory.words m.rsp.toNat popaq.length =
      popaq.map fun r => m.memory.word (m.rsp.toNat + 8 * popaq.idxOf r) := rfl
  rw [pops_eq (by decide) (by rw [hlength]; omega) hwords, hlength]
  refine ⟨?_, rfl⟩
  simp only [Machine.registers, Machine.iretq, mem_popaq, if_true, hrsp]
  rfl

theorem leaveStub_registers (hroom : m.rsp.toNat + 160 < 2 ^ 64) :
    m.leaveStub.registers = InterruptRegistersStack.ofMemory m.memory m.rsp.toNat ∧
      m.leaveStub.memory = m.memory :=
  registers_iretq_pops hroom _

theorem processSwitch_registers {context pml4 : Word} (hroom : context.toNat + 160 < 2 ^ 64) :
    (m.processSwitch context pml4).registers =
        InterruptRegistersStack.ofMemory m.memory context.toNat ∧
      (m.processSwitch context pml4).memory = m.memory :=
  registers_iretq_pops (m := { m with
    rsp := context, gpr := Function.update m.gpr .rax pml4 }) hroom m.rflags

end Stack

/-! ## Entering a stub -/

theorem toWords_ofMemory (m : ByteMemory) (addr : Nat) :
    (InterruptRegistersStack.ofMemory m addr).toWords = m.words addr 20 := rfl

theorem ofMemory_eq {m : ByteMemory} {addr : Nat} {r : InterruptRegistersStack}
    (h : m.words addr 20 = r.toWords) : InterruptRegistersStack.ofMemory m addr = r := by
  rw [← toWords_ofMemory] at h
  cases r
  simpa [InterruptRegistersStack.toWords, InterruptRegistersStack.ofMemory] using h

section Entry

variable {m : Machine} {stack entry : Word} {error : Option Word} {interruptnumber : Nat}
  {number : Byte}

def frameSize (error : Option Word) : Nat := 160 + 8 * error.toList.length

/-- The stub has its number for itself, outside of the stack. -/
def Apart (interruptnumber : Nat) (stack : Word) (error : Option Word) : Prop :=
  interruptnumber < stack.toNat - frameSize error ∨ stack.toNat ≤ interruptnumber

theorem length_delivered : (m.delivered error).length = 5 + error.toList.length :=
  List.length_append

theorem enterStub_deliver (hroom : frameSize error ≤ stack.toNat) :
    ((m.deliver stack error entry).enterStub interruptnumber number).rsp.toNat =
        stack.toNat - frameSize error ∧
      ((m.deliver stack error entry).enterStub interruptnumber number).memory =
        ((m.memory.pushWords stack.toNat (m.delivered error)).poke interruptnumber
          number).pushWords (stack.toNat - 8 * (m.delivered error).length)
            (pushaq.map m.gpr) := by
  have hlength := @length_delivered m error
  have hpushaq : (pushaq.map m.gpr).length = 15 := rfl
  unfold frameSize at hroom ⊢
  have hsub : ∀ k, k ≤ stack.toNat → (stack - BitVec.ofNat 64 k).toNat = stack.toNat - k := by
    intro k hk
    have hlt := stack.isLt
    have hvalue : (BitVec.ofNat 64 k).toNat = k := by
      rw [BitVec.toNat_ofNat]
      exact Nat.mod_eq_of_lt (by omega)
    rw [BitVec.toNat_sub_of_le, hvalue]
    rw [BitVec.le_def, hvalue]
    exact hk
  have hdelivered : 8 * (m.delivered error).length ≤ stack.toNat := by omega
  have hpushes : ({ m with rsp := stack } : Machine).pushes (m.delivered error) = _ :=
    pushes_eq hdelivered
  unfold Machine.enterStub Machine.deliver
  rw [hpushes]
  dsimp only
  rw [pushes_eq]
  · dsimp only
    rw [hsub _ hdelivered, hpushaq]
    refine ⟨?_, rfl⟩
    rw [BitVec.sub_sub, ← BitVec.ofNat_add, hsub _ (by omega)]
    omega
  · dsimp only
    rw [hsub _ hdelivered, hpushaq]
    omega

theorem words_enterStub (hroom : frameSize error ≤ stack.toNat)
    (hapart : Apart interruptnumber stack error) :
    ((m.deliver stack error entry).enterStub interruptnumber number).memory.words
        (stack.toNat - frameSize error) (15 + (5 + error.toList.length)) =
      popaq.map m.gpr ++ (m.delivered error).reverse := by
  have hlength := @length_delivered m error
  have hpushaq : (pushaq.map m.gpr).length = 15 := rfl
  unfold Apart at hapart
  unfold frameSize at hapart hroom ⊢
  set n := error.toList.length
  have hlow : stack.toNat - (160 + 8 * n) = stack.toNat - 8 * (5 + n) - 8 * 15 := by omega
  have hhigh : stack.toNat - 8 * (5 + n) - 8 * 15 + 8 * 15 = stack.toNat - 8 * (5 + n) := by omega
  have hgeneral := @words_pushWords ((m.memory.pushWords stack.toNat (m.delivered error)).poke
    interruptnumber number) (stack.toNat - 8 * (5 + n)) (pushaq.map m.gpr) (by omega)
  have hdelivered := @words_pushWords m.memory stack.toNat (m.delivered error) (by omega)
  rw [hpushaq, ← List.map_reverse, ← popaq_eq_reverse] at hgeneral
  rw [hlength] at hdelivered
  rw [(enterStub_deliver hroom).2, words_append, hlow, hhigh, hlength, hgeneral, ← hdelivered]
  refine congrArg _ (words_congr fun x hxlow hxhigh => ?_)
  rw [pushWords_outside (by omega) (.inr hxlow), poke_other]
  omega

theorem enterStub_frame (hroom : frameSize error ≤ stack.toNat)
    (hapart : Apart interruptnumber stack error) :
    InterruptRegistersStack.ofMemory
        ((m.deliver stack error entry).enterStub interruptnumber number).memory
        ((m.deliver stack error entry).enterStub interruptnumber number).rsp.toNat =
      m.frame error := by
  have hwords := @words_enterStub m stack entry error interruptnumber number hroom hapart
  rw [(enterStub_deliver hroom).1]
  cases error with
  | none => exact ofMemory_eq hwords
  | some code =>
      have hsplit : popaq.map m.gpr ++ (m.delivered (some code)).reverse =
          (m.frame (some code)).toWords ++ [m.ss] := rfl
      have htotal : 15 + (5 + (some code).toList.length) = 20 + 1 := rfl
      rw [hsplit, htotal, words_append] at hwords
      exact ofMemory_eq (List.append_inj_left' hwords length_words)

theorem word_setWidth (m : ByteMemory) (addr : Nat) : (m.word addr).setWidth 8 = m addr := by
  apply BitVec.eq_of_toNat_eq
  have hbyte := (m addr).isLt
  have hload : m.load addr 8 = (m addr).toNat + 256 * m.load (addr + 1) 7 := rfl
  rw [BitVec.toNat_setWidth, word, BitVec.toNat_ofNat, hload]
  omega

/-- The arguments of `HandleInterrupt`: the number that the stub stored, and the frame. -/
theorem enterStub_arguments (hroom : frameSize error ≤ stack.toNat)
    (hapart : Apart interruptnumber stack error) :
    (((m.deliver stack error entry).enterStub interruptnumber number).gpr .rdi).setWidth 8 =
        number ∧
      ((m.deliver stack error entry).enterStub interruptnumber number).gpr .rsi =
        ((m.deliver stack error entry).enterStub interruptnumber number).rsp := by
  have harguments : ∀ m : Machine, (m.enterStub interruptnumber number).gpr .rdi =
        (m.enterStub interruptnumber number).memory.word interruptnumber ∧
      (m.enterStub interruptnumber number).gpr .rsi = (m.enterStub interruptnumber number).rsp := by
    intro m
    simp [Machine.enterStub]
  obtain ⟨hmemory, hframe⟩ := harguments (m.deliver stack error entry)
  refine ⟨?_, hframe⟩
  have hlength := @length_delivered m error
  have hpushaq : (pushaq.map m.gpr).length = 15 := rfl
  unfold Apart at hapart
  unfold frameSize at hapart hroom
  rw [hmemory, word_setWidth, (enterStub_deliver hroom).2, pushWords_outside (by omega) (by omega),
    poke_same]

end Entry

/-! ## Whole interrupts -/

section Interrupt

variable {m : Machine} {stack entry : Word} {error : Option Word} {interruptnumber : Nat}
  {number : Byte} {handler : Machine → Machine}

def Machine.entered (m : Machine) (stack : Word) (error : Option Word) (entry : Word)
    (interruptnumber : Nat) (number : Byte) : Machine :=
  (m.deliver stack error entry).enterStub interruptnumber number

def Machine.interrupt (m : Machine) (stack : Word) (error : Option Word) (entry : Word)
    (interruptnumber : Nat) (number : Byte) (handler : Machine → Machine) : Machine :=
  (handler (m.entered stack error entry interruptnumber number)).leaveStub

theorem interrupt_registers (hroom : frameSize error ≤ stack.toNat)
    (hrsp : (handler (m.entered stack error entry interruptnumber number)).rsp =
      (m.entered stack error entry interruptnumber number).rsp) :
    (m.interrupt stack error entry interruptnumber number handler).registers =
      InterruptRegistersStack.ofMemory
        (handler (m.entered stack error entry interruptnumber number)).memory
        (m.entered stack error entry interruptnumber number).rsp.toNat := by
  have hstack := stack.isLt
  have htop : (m.entered stack error entry interruptnumber number).rsp.toNat =
      stack.toNat - frameSize error := (enterStub_deliver hroom).1
  have hframe : (handler (m.entered stack error entry interruptnumber number)).rsp.toNat + 160 <
      2 ^ 64 := by
    unfold frameSize at hroom htop
    rw [hrsp]
    omega
  rw [Machine.interrupt, (leaveStub_registers hframe).1, hrsp]

/--
A handler that returns and leaves its frame as it is goes unnoticed: the machine
continues with all the registers it was interrupted with.  With an error code the
stub, which never takes that off, returns to the code as an address instead.
-/
theorem interrupt_returns (hroom : frameSize error ≤ stack.toNat)
    (hapart : Apart interruptnumber stack error)
    (hrsp : (handler (m.entered stack error entry interruptnumber number)).rsp =
      (m.entered stack error entry interruptnumber number).rsp)
    (hframe : ∀ x, stack.toNat - frameSize error ≤ x → x < stack.toNat →
      (handler (m.entered stack error entry interruptnumber number)).memory x =
        (m.entered stack error entry interruptnumber number).memory x) :
    (m.interrupt stack error entry interruptnumber number handler).registers =
      m.frame error := by
  have htop : (m.entered stack error entry interruptnumber number).rsp.toNat =
      stack.toNat - frameSize error := (enterStub_deliver hroom).1
  have hsame : InterruptRegistersStack.ofMemory
        (handler (m.entered stack error entry interruptnumber number)).memory
        (m.entered stack error entry interruptnumber number).rsp.toNat =
      InterruptRegistersStack.ofMemory (m.entered stack error entry interruptnumber number).memory
        (m.entered stack error entry interruptnumber number).rsp.toNat := by
    apply ofMemory_eq
    rw [toWords_ofMemory]
    unfold frameSize at hframe hroom htop
    exact words_congr fun x hlow hhigh => hframe x (by omega) (by omega)
  rw [interrupt_registers hroom hrsp, hsame]
  exact enterStub_frame hroom hapart

/-- A machine with different values in its registers, from `first` on in the order of `pushaq`. -/
def numberedMachine (first : Nat) : Machine :=
  ⟨fun r => BitVec.ofNat 64 (first + pushaq.idxOf r), BitVec.ofNat 64 (0x1000 + first), 0x08, 0x202,
    0x9000, 0x10, fun _ => 0⟩

theorem interrupt_returns_numbered :
    ((numberedMachine 1).interrupt 0x9000 none 0x5000 0x100 0x20 id).registers =
      (numberedMachine 1).registers :=
  interrupt_returns (by decide) (.inl (by decide)) rfl fun _ _ _ => rfl

end Interrupt

end UnifiedOS.Interrupts
