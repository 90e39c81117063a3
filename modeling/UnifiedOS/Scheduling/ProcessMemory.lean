import UnifiedOS.Interrupts.Frames
import UnifiedOS.Paging.MemoryIsolation

/-!
# The memory of processes

`NewProcess` numbers its process and `ContextCreation` requests a stack of 32 pages and
a page for the FPU state.  Whatever else happens in the kernel's memory, these stay the
process's own.
-/

namespace UnifiedOS.Scheduling

open UnifiedOS.Foundation UnifiedOS.Interrupts UnifiedOS.Paging
open ByteMemory PageFrameAllocator

def kKernelCS : Word := 0x08
def kKernelSS : Word := 0x10

def DefaultStackBytes : Nat := 0x1000

structure CreatedProcess where
  pid : Word
  stack : Nat
  fxState : Nat
  context : InterruptRegistersStack
  deriving DecidableEq

namespace CreatedProcess

def grants (p : CreatedProcess) : List (Nat × Nat) := [(p.stack, 32), (p.fxState, 1)]

def Owns (p : CreatedProcess) (x : Nat) : Prop := ∃ g ∈ p.grants, Covers g (x / 4096)

end CreatedProcess

def initialContext (pid entry data : Word) (stack : Nat) : InterruptRegistersStack :=
  let stackEnd := BitVec.ofNat 64 (stack + DefaultStackBytes * 32)
  { InterruptRegistersStack.ofMemory (fun _ => 0) 0 with
    rflags := 0x202
    cs := kKernelCS
    ss := kKernelSS
    rsp := stackEnd
    rbp := stackEnd
    rip := entry
    rdi := pid
    rsi := data }

/-- The stores of `ContextCreation` to the FPU state; of the page only 8 bytes are cleared. -/
def initialiseFX (fxState : Nat) (m : ByteMemory) : ByteMemory :=
  let m := m.fill fxState 8 0
  let m := m.store (fxState + 24) 4 0x1F80
  let m := m.store (fxState + 28) 4 0xFFBF
  m.store fxState 2 0x33F

def contextCreation (pid entry data : Word) (s : PageFrameAllocator) :
    CreatedProcess × PageFrameAllocator :=
  let stack := (s.requestPages 32).1
  let s := (s.requestPages 32).2
  let s := { s with mem := s.mem.fill stack (DefaultStackBytes * 32) 0 }
  let fxState := s.requestPage.1
  let s := s.requestPage.2
  (⟨pid, stack, fxState, initialContext pid entry data stack⟩,
    { s with mem := initialiseFX fxState s.mem })

/-- The kernel's memory without the grants of processes, `NextPID`, and the processes. -/
structure ProcessRun where
  kernel : KernelRun
  nextPID : Word
  processes : List CreatedProcess

namespace ProcessRun

def processGrants (s : ProcessRun) : List (Nat × Nat) := s.processes.flatMap CreatedProcess.grants

def whole (s : ProcessRun) : KernelRun :=
  ⟨s.kernel.allocator, s.kernel.grants ++ s.processGrants, s.kernel.calls⟩

/-- `NewProcess` and `CreateIdleProcess`, as far as memory goes. -/
def newProcess (s : ProcessRun) (entry data : Word) : ProcessRun :=
  let created := contextCreation s.nextPID entry data s.kernel.allocator
  ⟨{ s.kernel with allocator := created.2 }, s.nextPID + 1, s.processes ++ [created.1]⟩

end ProcessRun

def CreationGranted (s : PageFrameAllocator) : Prop :=
  (s.requestPages 32).1 ≠ NULL ∧
    { (s.requestPages 32).2 with
      mem := (s.requestPages 32).2.mem.fill (s.requestPages 32).1 (DefaultStackBytes * 32)
        0 }.requestPage.1 ≠ NULL

/--
A process is created, or writes into its stack or its FPU state; or the kernel does
something that is not about the grants of processes.
-/
inductive ProcessStep (pml4 : BitVec 64) : ProcessRun → ProcessRun → Prop where
  | newProcess (s : ProcessRun) (entry data : Word)
      (hgranted : CreationGranted s.kernel.allocator) :
      ProcessStep pml4 s (s.newProcess entry data)
  | write (s : ProcessRun) (p : CreatedProcess) (hp : p ∈ s.processes) (x : Nat) (hx : p.Owns x)
      (byte : Byte) :
      ProcessStep pml4 s { s with
        kernel := s.kernel.withMem (s.kernel.allocator.mem.poke x byte) }
  | kernel (s : ProcessRun) (kernel : KernelRun) (hstep : KernelStep pml4 s.kernel kernel) :
      ProcessStep pml4 s { s with kernel := kernel }

/-! ## Creating a process -/

section Creation

variable {a : PageFrameAllocator} {pid entry data : Word} {m : ByteMemory} {fxState x : Nat}

theorem initialiseFX_outside (h : x < fxState ∨ fxState + 32 ≤ x) :
    initialiseFX fxState m x = m x := by
  simp only [initialiseFX]
  rw [store_outside _ (by omega), store_outside _ (by omega), store_outside _ (by omega),
    fill_outside _ (by omega)]

theorem initialiseFX_left {o : Nat} (h : (8 ≤ o ∧ o < 24) ∨ 32 ≤ o) :
    initialiseFX fxState m (fxState + o) = m (fxState + o) := by
  simp only [initialiseFX]
  rw [store_outside _ (by omega), store_outside _ (by omega), store_outside _ (by omega),
    fill_outside _ (by omega)]

theorem requestPages_page {n : Nat} (hphysical : a.limit ≤ 2 ^ 40) :
    (a.requestPages n).1 % 4096 = 0 := by
  rcases @requestPages_cases a n with ⟨i, -, hi, -, -, heq⟩ | ⟨-, heq⟩
  · have haddress : wrap64 (i * 4096) = i * 4096 := wrap64_of_lt (by omega)
    rw [heq, haddress]
    omega
  · rw [heq]
    rfl

/-- What `ContextCreation` does to memory: the bitmap, a cleared stack, and the FPU state. -/
theorem contextCreation_mem (haddressable : a.pageBitmap.Addressable) (hx : ¬ InBitmap a x) :
    (contextCreation pid entry data a).2.mem x =
      initialiseFX (contextCreation pid entry data a).1.fxState
        (a.mem.fill (contextCreation pid entry data a).1.stack (DefaultStackBytes * 32) 0) x := by
  have hstack : KeepsOutside a (a.requestPages 32).2 :=
    keepsOutside_requestPages haddressable (by norm_num)
  simp only [contextCreation]
  set b : PageFrameAllocator := { (a.requestPages 32).2 with
    mem := (a.requestPages 32).2.mem.fill (a.requestPages 32).1 (DefaultStackBytes * 32) 0 }
  have hfx : KeepsOutside b b.requestPage.2 := keepsOutside_requestPage (by
    rw [Bitmap.Addressable, show b.pageBitmap = a.pageBitmap from hstack.pageBitmap]
    exact haddressable)
  have hxb : ¬ InBitmap b x := by
    rw [InBitmap, show b.pageBitmap = a.pageBitmap from hstack.pageBitmap]
    exact hx
  have hsame : b.requestPage.2.mem x = a.mem.fill (a.requestPages 32).1 (DefaultStackBytes * 32)
      0 x := by
    rw [hfx.mem x hxb]
    simp only [b, fill, hstack.mem x hx]
  simp only [initialiseFX, store, fill, hsame]

end Creation

structure ProcessInv (pml4 : BitVec 64) (start : KernelRun) (firstPID : Word) (s : ProcessRun)
    (tables : List (Nat × Nat)) (node : TableTree) : Prop where
  run : RunInv pml4 start s.whole tables node
  next : s.nextPID = firstPID + BitVec.ofNat 64 s.processes.length
  pids : s.processes.map (·.pid) =
    (List.range s.processes.length).map fun k => firstPID + BitVec.ofNat 64 k
  aligned : ∀ p ∈ s.processes, p.stack % 4096 = 0 ∧ p.fxState % 4096 = 0
  top : ∀ p ∈ s.processes, p.context.rsp = BitVec.ofNat 64 (p.stack + DefaultStackBytes * 32)

section Processes

variable {pml4 : BitVec 64} {start kernel : KernelRun} {firstPID entry data : Word}
  {s s' : ProcessRun} {tables : List (Nat × Nat)} {node : TableTree} {p : CreatedProcess}
  {x : Nat}

theorem owns_of_stack (haligned : p.stack % 4096 = 0) (hlo : p.stack ≤ x)
    (hhi : x < p.stack + DefaultStackBytes * 32) : p.Owns x := by
  refine ⟨(p.stack, 32), List.mem_cons_self, ?_⟩
  unfold DefaultStackBytes at hhi
  simp only [Covers]
  omega

theorem owns_of_fxState (haligned : p.fxState % 4096 = 0) (hlo : p.fxState ≤ x)
    (hhi : x < p.fxState + 0x1000) : p.Owns x := by
  refine ⟨(p.fxState, 1), List.mem_cons_of_mem _ (List.mem_singleton_self _), ?_⟩
  simp only [Covers]
  omega

theorem ProcessRun.mem_processGrants (hp : p ∈ s.processes) {g : Nat × Nat} (hg : g ∈ p.grants) :
    g ∈ s.whole.grants :=
  List.mem_append_right _ (List.mem_flatMap.mpr ⟨p, hp, hg⟩)

theorem ProcessInv.newProcess (h : ProcessInv pml4 start firstPID s tables node)
    (hgranted : CreationGranted s.kernel.allocator) (entry data : Word) :
    ∃ tables' node',
      ProcessInv pml4 start firstPID (s.newProcess entry data) tables' node' := by
  have hphysical : s.kernel.allocator.limit ≤ 2 ^ 40 := h.run.memory.frames.physical
  have hstackPage := @requestPages_page s.kernel.allocator 32 hphysical
  obtain ⟨hstack, hfx⟩ := hgranted
  obtain ⟨tables₁, node₁, h₁⟩ := h.run.step
    (.frames s.whole _ (.requestPages _ 32 (by decide) (by norm_num)))
  dsimp only [ProcessRun.whole] at h₁
  rw [recordGrant, if_neg hstack] at h₁
  have h₂ := @RunInv.withMem _ _ _ _ _ ((s.kernel.allocator.requestPages 32).2.mem.fill
    (s.kernel.allocator.requestPages 32).1 (DefaultStackBytes * 32) 0) h₁ fun x hx => by
      refine ⟨_, List.mem_cons_self, ?_⟩
      by_contra hout
      refine hx (fill_outside _ ?_)
      simp only [Covers] at hout
      unfold DefaultStackBytes
      omega
  have hfxPage := (requestPage_page h₂.memory.frames.physical).1
  obtain ⟨tables₃, node₃, h₃⟩ := h₂.step (.frames _ _ (.requestPage _))
  dsimp only [KernelRun.withMem] at h₃ hfxPage
  rw [recordGrant, if_neg hfx] at h₃
  set b : PageFrameAllocator := { (s.kernel.allocator.requestPages 32).2 with
    mem := (s.kernel.allocator.requestPages 32).2.mem.fill (s.kernel.allocator.requestPages 32).1
      (DefaultStackBytes * 32) 0 }
  have h₄ := @RunInv.withMem _ _ _ _ _ (initialiseFX b.requestPage.1 b.requestPage.2.mem) h₃
    fun x hx => by
      refine ⟨_, List.mem_cons_self, ?_⟩
      by_contra hout
      refine hx (initialiseFX_outside ?_)
      simp only [Covers] at hout
      omega
  have hperm : ((b.requestPage.1, 1) :: ((s.kernel.allocator.requestPages 32).1, 32) ::
      (s.kernel.grants ++ s.processGrants)).Perm (s.kernel.grants ++ (s.processGrants ++
        [((s.kernel.allocator.requestPages 32).1, 32), (b.requestPage.1, 1)])) := by
    rw [← List.append_assoc]
    exact (@List.perm_append_comm _ [_, _] _).trans
      ((List.Perm.swap _ _ []).append_left _)
  have h₅ := h₄.perm hperm
  refine ⟨tables₃, node₃, ?_, ?_, ?_, fun p hp => ?_, fun p hp => ?_⟩
  · rw [ProcessRun.whole, ProcessRun.processGrants, ProcessRun.newProcess, List.flatMap_append,
      List.flatMap_singleton]
    exact h₅
  · rw [ProcessRun.newProcess, List.length_append, List.length_singleton, h.next, add_assoc]
    rw [BitVec.ofNat_add]
    rfl
  · rw [ProcessRun.newProcess, List.length_append, List.length_singleton, List.map_append,
      List.range_succ, List.map_append, h.pids, List.map_singleton, List.map_singleton, ← h.next]
    rfl
  · rcases List.mem_append.mp hp with hold | hnew
    · exact h.aligned p hold
    · rw [List.mem_singleton.mp hnew]
      exact ⟨hstackPage, hfxPage⟩
  · rcases List.mem_append.mp hp with hold | hnew
    · exact h.top p hold
    · rw [List.mem_singleton.mp hnew]
      rfl

theorem ProcessInv.step (h : ProcessInv pml4 start firstPID s tables node)
    (hstep : ProcessStep pml4 s s') :
    ∃ tables' node', ProcessInv pml4 start firstPID s' tables' node' := by
  cases hstep with
  | newProcess entry data hgranted => exact h.newProcess hgranted entry data
  | write p hp x hx byte =>
      obtain ⟨g, hg, hcovers⟩ := hx
      obtain ⟨tables', node', hrun⟩ := h.run.step
        (.write s.whole g (ProcessRun.mem_processGrants hp hg) x hcovers byte)
      exact ⟨tables', node', hrun, h.next, h.pids, h.aligned, h.top⟩
  | kernel kernel hstep =>
      have hall : KernelStep pml4 s.whole
          ⟨kernel.allocator, kernel.grants ++ s.processGrants, kernel.calls⟩ := hstep.append
      obtain ⟨tables', node', hrun⟩ := h.run.step hall
      exact ⟨tables', node', hrun, h.next, h.pids, h.aligned, h.top⟩

theorem ProcessInv.apart (h : ProcessInv pml4 start firstPID s tables node) :
    s.processes.Pairwise (fun p q => ∀ x, p.Owns x → ¬ q.Owns x) ∧
      ∀ p ∈ s.processes, ∀ x, p.Owns x → ∀ g ∈ s.kernel.grants, ¬ Covers g (x / 4096) := by
  have hexclusive := (List.pairwise_append.mp h.run.memory.frames.ledger.exclusive).1
  obtain ⟨-, hprocesses, hkernel⟩ := List.pairwise_append.mp hexclusive
  constructor
  · refine (List.pairwise_flatMap.mp hprocesses).2.imp fun hpq x => ?_
    rintro ⟨g, hg, hx⟩ ⟨g', hg', hx'⟩
    exact hpq g hg g' hg' _ hx hx'
  · rintro p hp x ⟨g, hg, hx⟩ g' hg' hx'
    exact hkernel g' hg' g (List.mem_flatMap.mpr ⟨p, hp, hg⟩) _ hx' hx

theorem ProcessInv.not_inBitmap (h : ProcessInv pml4 start firstPID s tables node)
    (hp : p ∈ s.processes) (hx : p.Owns x) : ¬ InBitmap s.kernel.allocator x := by
  obtain ⟨g, hg, hcovers⟩ := hx
  exact h.run.memory.frames.not_inBitmap
    (List.mem_append_left _ (ProcessRun.mem_processGrants hp hg)) hcovers

theorem ProcessInv.kept (h : ProcessInv pml4 start firstPID s tables node)
    (hstep : ProcessStep pml4 s s') (hp : p ∈ s.processes) (hx : p.Owns x) :
    s'.kernel.allocator.mem x = s.kernel.allocator.mem x ∨
      ∃ byte, s' = { s with kernel := s.kernel.withMem (s.kernel.allocator.mem.poke x byte) } := by
  cases hstep with
  | newProcess entry data hgranted =>
      obtain ⟨tables', node', h'⟩ := h.newProcess hgranted entry data
      set created := (contextCreation s.nextPID entry data s.kernel.allocator).1
      have hmem : created ∈ (s.newProcess entry data).processes :=
        List.mem_append_right _ (List.mem_singleton_self _)
      have hother : ¬ created.Owns x :=
        (List.pairwise_append.mp h'.apart.1).2.2 p hp created (List.mem_singleton_self _) x hx
      obtain ⟨hstack, hfx⟩ := h'.aligned created hmem
      have houtStack : x < created.stack ∨ created.stack + DefaultStackBytes * 32 ≤ x := by
        by_contra hin
        exact hother (owns_of_stack hstack (by omega) (by omega))
      have houtFX : x < created.fxState ∨ created.fxState + 32 ≤ x := by
        by_contra hin
        exact hother (owns_of_fxState hfx (by omega) (by omega))
      have hchanged := @contextCreation_mem s.kernel.allocator s.nextPID entry data x
        h.run.memory.frames.addressable (h.not_inBitmap hp hx)
      rw [initialiseFX_outside houtFX, fill_outside _ houtStack] at hchanged
      exact Or.inl hchanged
  | write q hq y hy byte =>
      by_cases hsame : x = y
      · exact Or.inr ⟨byte, by rw [hsame]⟩
      · exact Or.inl (poke_other _ _ hsame)
  | kernel kernel hstep =>
      left
      obtain ⟨g, hg, hcovers⟩ := hx
      rcases h.run.mem_step hstep with ⟨g', hg', y, byte, hy, rfl⟩ | hkept
      · apply poke_other
        rintro rfl
        exact h.apart.2 p hp x ⟨g, hg, hcovers⟩ g' hg' hy
      · exact hkept g (ProcessRun.mem_processGrants hp hg) x hcovers

theorem ProcessInv.owns_below_top (h : ProcessInv pml4 start firstPID s tables node)
    (hp : p ∈ s.processes) {k : Nat} (hpos : 1 ≤ k) (hk : k ≤ DefaultStackBytes * 32) :
    p.Owns (p.context.rsp.toNat - k) := by
  have hgrant : (p.stack, 32) ∈ s.whole.grants :=
    ProcessRun.mem_processGrants hp List.mem_cons_self
  have hinside := h.run.memory.frames.ledger.start _ (List.mem_append_left tables hgrant)
  have hphysical := h.run.memory.frames.physical
  have hsize : DefaultStackBytes * 32 = 0x20000 := rfl
  simp only at hinside
  have htop : p.context.rsp.toNat = p.stack + DefaultStackBytes * 32 := by
    rw [h.top p hp, BitVec.toNat_ofNat, Nat.mod_eq_of_lt (by omega)]
  rw [htop]
  exact owns_of_stack (h.aligned p hp).1 (by omega) (by omega)

/-- What a new process finds: a cleared stack, and an FPU state with what the page held before. -/
theorem ProcessInv.created (h : ProcessInv pml4 start firstPID s tables node)
    (hgranted : CreationGranted s.kernel.allocator) :
    ∃ p, (s.newProcess entry data).processes = s.processes ++ [p] ∧
      (∀ x, p.stack ≤ x → x < p.stack + DefaultStackBytes * 32 →
        (s.newProcess entry data).kernel.allocator.mem x = 0) ∧
      ∀ o, (8 ≤ o ∧ o < 24) ∨ (32 ≤ o ∧ o < 0x1000) →
        (s.newProcess entry data).kernel.allocator.mem (p.fxState + o) =
          s.kernel.allocator.mem (p.fxState + o) := by
  obtain ⟨tables', node', h'⟩ := h.newProcess hgranted entry data
  set created := (contextCreation s.nextPID entry data s.kernel.allocator).1
  have hmem : created ∈ (s.newProcess entry data).processes :=
    List.mem_append_right _ (List.mem_singleton_self _)
  obtain ⟨hstack, hfx⟩ := h'.aligned created hmem
  have hapart : ∀ x, Covers (created.stack, 32) (x / 4096) →
      ¬ Covers (created.fxState, 1) (x / 4096) := by
    have hexclusive := (List.pairwise_append.mp h'.run.memory.frames.ledger.exclusive).1
    have hown := (List.pairwise_flatMap.mp (List.pairwise_append.mp hexclusive).2.1).1 _ hmem
    exact fun x => (List.pairwise_cons.mp hown).1 _ (List.mem_singleton_self _) _
  have hchanged : ∀ x, created.Owns x → (s.newProcess entry data).kernel.allocator.mem x =
      initialiseFX created.fxState
        (s.kernel.allocator.mem.fill created.stack (DefaultStackBytes * 32) 0) x := by
    intro x hx
    apply contextCreation_mem h.run.memory.frames.addressable
    have hout := h'.not_inBitmap hmem hx
    have hbitmap : (s.newProcess entry data).kernel.allocator.pageBitmap =
        s.kernel.allocator.pageBitmap := h'.run.pageBitmap.trans h.run.pageBitmap.symm
    rwa [InBitmap, hbitmap] at hout
  refine ⟨created, rfl, fun x hlo hhi => ?_, fun o ho => ?_⟩
  · have hx := owns_of_stack hstack hlo hhi
    have hcovers : Covers (created.stack, 32) (x / 4096) := by
      unfold DefaultStackBytes at hhi
      simp only [Covers]
      omega
    have hout := hapart x hcovers
    simp only [Covers] at hout
    rw [hchanged x hx, initialiseFX_outside (by omega), fill, if_pos ⟨hlo, hhi⟩]
  · have hx : created.Owns (created.fxState + o) := owns_of_fxState hfx (by omega) (by omega)
    have hout : ¬ Covers (created.stack, 32) ((created.fxState + o) / 4096) := fun hin =>
      hapart _ hin (by simp only [Covers]; omega)
    simp only [Covers] at hout
    rw [hchanged _ hx, initialiseFX_left (by omega), fill_outside _ (by
      unfold DefaultStackBytes
      omega)]

/--
In every run PIDs are given out in order; no byte of a stack or an FPU state belongs to
another process or to the rest of the kernel; a process pushes into its own stack from
the start; and a byte of a process changes only when a process writes this byte.  What a
process is created with is a cleared stack, and an FPU state that holds, but for the
control words, what its page held before.
-/
theorem processes_private (hstart : Started pml4 start)
    (hkernel : Reachable (· = start) (KernelStep pml4) kernel)
    (hreach : Reachable (· = ⟨kernel, firstPID, []⟩) (ProcessStep pml4) s) :
    (s.processes.map (·.pid) =
      (List.range s.processes.length).map fun k => firstPID + BitVec.ofNat 64 k) ∧
    s.processes.Pairwise (fun p q => ∀ x, p.Owns x → ¬ q.Owns x) ∧
    (∀ p ∈ s.processes, ∀ x, p.Owns x → ∀ g ∈ s.kernel.grants, ¬ Covers g (x / 4096)) ∧
    (∀ p ∈ s.processes, ∀ k, 1 ≤ k → k ≤ DefaultStackBytes * 32 →
      p.Owns (p.context.rsp.toNat - k)) ∧
    (∀ s', ProcessStep pml4 s s' → ∀ p ∈ s.processes, ∀ x, p.Owns x →
      s'.kernel.allocator.mem x = s.kernel.allocator.mem x ∨
        ∃ byte, s' =
          { s with kernel := s.kernel.withMem (s.kernel.allocator.mem.poke x byte) }) ∧
    ∀ entry data, CreationGranted s.kernel.allocator →
      ∃ p, (s.newProcess entry data).processes = s.processes ++ [p] ∧
        (∀ x, p.stack ≤ x → x < p.stack + DefaultStackBytes * 32 →
          (s.newProcess entry data).kernel.allocator.mem x = 0) ∧
        ∀ o, (8 ≤ o ∧ o < 24) ∨ (32 ≤ o ∧ o < 0x1000) →
          (s.newProcess entry data).kernel.allocator.mem (p.fxState + o) =
            s.kernel.allocator.mem (p.fxState + o) := by
  have hinv : ∃ tables node, ProcessInv pml4 start firstPID s tables node := by
    apply hreach.invariant
    · rintro s rfl
      obtain ⟨tables, node, hrun⟩ := runInv_of_reachable hstart hkernel
      refine ⟨tables, node, ?_, (BitVec.add_zero _).symm, rfl, by simp, by simp⟩
      rw [ProcessRun.whole, ProcessRun.processGrants, List.flatMap_nil, List.append_nil]
      exact hrun
    · rintro s s' ⟨tables, node, h⟩ hstep
      exact h.step hstep
  obtain ⟨tables, node, h⟩ := hinv
  exact ⟨h.pids, h.apart.1, h.apart.2, fun p hp k hpos hk => h.owns_below_top hp hpos hk,
    fun s' hstep p hp x hx => h.kept hstep hp hx, fun entry data hgranted => h.created hgranted⟩

/-- Two processes in 128 frames. -/
theorem processes_private_two :
    ∃ s : ProcessRun, s.processes.map (fun p => (p.pid, p.stack, p.fxState)) =
        [(7, 0x3000, 0x23000), (8, 0x24000, 0x44000)] ∧
      s.processes.Pairwise (fun p q => ∀ x, p.Owns x → ¬ q.Owns x) := by
  have hstart : Reachable (· = ⟨kernelOfSize 16, 7, []⟩) (ProcessStep 0x2000)
      ⟨kernelOfSize 16, 7, []⟩ := .start rfl
  have htwo := (hstart.next (.newProcess _ 0x9000 1 ⟨by decide +kernel, by decide +kernel⟩)).next
    (.newProcess _ 0x9000 2 ⟨by decide +kernel, by decide +kernel⟩)
  exact ⟨_, by decide +kernel, (processes_private (started_ofSize (by decide) (by decide))
    (Reachable.start rfl : Reachable (· = kernelOfSize 16) (KernelStep 0x2000) _) htwo).2.1⟩

end Processes

end UnifiedOS.Scheduling
