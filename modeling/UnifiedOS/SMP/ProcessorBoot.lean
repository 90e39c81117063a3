import UnifiedOS.Paging.FrameOwnership
import Mathlib.Logic.Function.Basic

/-!
# Starting the application processors

`InitializeCPU` writes the CPU id and the stack of the processor it boots to a
mailbox at a fixed address, starts the processor, and sees from the magic word
and from `doneInit` how far it has come.  The trampoline reads the mailbox and
calls `SMPEntry`.  The mailbox and `doneInit` serve all processors in turn, and
`InitializeCPU` gives up when the magic word stays clear for too long.
-/

namespace UnifiedOS.SMP

open UnifiedOS.Foundation UnifiedOS.Paging

def smpMagic : BitVec 16 := 0xB33F#16

/-- What the boot code writes of a `CPU`; `Queue` is `none` until it is created. -/
structure CPU where
  id : BitVec 64
  gdt : Option Nat
  currentProcess : Option Nat
  queueLock : BitVec 32
  queue : Option (List Nat)

inductive Stage where
  | newCPU
  | clearMagic
  | writeID
  | requestStack
  | raiseStack
  | sendInit
  | firstCheck
  | secondCheck
  | thirdCheck
  | awaitInit
  | clearInit
  deriving DecidableEq, Repr

/-- Where an application processor is, with its `rsp` and the id it was passed. -/
inductive Startup where
  | waiting
  | startup
  | flagged
  | stacked (rsp : Nat)
  | entered (id : BitVec 16) (rsp : Nat)
  | described (id : BitVec 16) (rsp : Nat)
  | queued (id : BitVec 16) (rsp : Nat)
  | running (id : BitVec 16) (rsp : Nat)
  deriving DecidableEq, Repr

/-- What is observed of a boot, the latest event first. -/
inductive BootEvent where
  | prepared (p : BitVec 8) (stack : Nat)
  | entered (p : BitVec 8) (id : BitVec 16) (stack : Nat)
  | queued (p : BitVec 8) (id : BitVec 16)
  | booted (p : BitVec 8)
  | failed (p : BitVec 8)
  deriving DecidableEq, Repr

structure BootState where
  todo : List (BitVec 8)
  boot : Option (Stage × BitVec 8)
  processors : BitVec 8 → Startup
  magic : BitVec 16
  smpID : BitVec 16
  smpStack : Nat
  doneInit : Bool
  cpus : BitVec 16 → Option CPU
  activeCPUs : BitVec 8
  frames : FrameRun
  log : List BootEvent

namespace BootState

def requestPage (s : BootState) : BootState :=
  { s with
    frames := ⟨s.frames.allocator.requestPage.2,
      recordGrant s.frames.allocator.requestPage.1 1 s.frames.grants⟩ }

def setProcessor (s : BootState) (p : BitVec 8) (phase : Startup) : BootState :=
  { s with processors := Function.update s.processors p phase }

def modifyCPU (s : BootState) (id : BitVec 16) (f : CPU → CPU) : BootState :=
  { s with cpus := Function.update s.cpus id ((s.cpus id).map f) }

/-- `InitializeCPU`, one access to the shared data at a time. -/
def initializeCPU (s : BootState) (id : BitVec 8) : Stage → BootState
  | .newCPU =>
      { s with
        cpus := Function.update s.cpus (id.setWidth 16)
          (some ⟨id.setWidth 64, none, none, 0, none⟩)
        boot := some (.clearMagic, id) }
  | .clearMagic => { s with magic := 0, boot := some (.writeID, id) }
  | .writeID => { s with smpID := id.setWidth 16, boot := some (.requestStack, id) }
  | .requestStack =>
      { s.requestPage with
        smpStack := s.frames.allocator.requestPage.1
        boot := some (.raiseStack, id) }
  | .raiseStack =>
      { s with
        smpStack := wrap64 (s.smpStack + 0x1000)
        boot := some (.sendInit, id)
        log := .prepared id (wrap64 (s.smpStack + 0x1000)) :: s.log }
  | .sendInit => { s.setProcessor id .waiting with boot := some (.firstCheck, id) }
  | .firstCheck =>
      if s.magic ≠ smpMagic ∧ s.processors id = .waiting then
        { s.setProcessor id .startup with boot := some (.secondCheck, id) }
      else { s with boot := some (.secondCheck, id) }
  -- this check only decides on another delay
  | .secondCheck => { s with boot := some (.thirdCheck, id) }
  | .thirdCheck =>
      if s.magic ≠ smpMagic then { s with boot := none, log := .failed id :: s.log }
      else { s with boot := some (.awaitInit, id) }
  | .awaitInit => if s.doneInit then { s with boot := some (.clearInit, id) } else s
  | .clearInit =>
      { s with
        doneInit := false
        activeCPUs := s.activeCPUs + 1
        boot := none
        log := .booted id :: s.log }

/-- The boot loop of `SMP::Intitialise`, which leaves out the boot processor itself. -/
def bootNext (bootID : BitVec 8) (s : BootState) : BootState :=
  match s.boot with
  | some (stage, id) => s.initializeCPU id stage
  | none =>
      match s.todo with
      | [] => s
      | id :: todo =>
          if id = bootID then { s with todo := todo }
          else { s with todo := todo, boot := some (.newCPU, id) }

/-- The trampoline and `SMPEntry` on processor `p`. -/
def processorNext (p : BitVec 8) (s : BootState) : BootState :=
  match s.processors p with
  | .waiting => s
  | .startup => { s.setProcessor p .flagged with magic := smpMagic }
  | .flagged => s.setProcessor p (.stacked s.smpStack)
  | .stacked rsp =>
      { s.setProcessor p (.entered s.smpID rsp) with log := .entered p s.smpID rsp :: s.log }
  | .entered id rsp =>
      (s.requestPage.modifyCPU id fun cpu =>
        { cpu with
          currentProcess := none
          queueLock := 0
          gdt := some s.frames.allocator.requestPage.1 }).setProcessor p (.described id rsp)
  | .described id rsp =>
      { (s.modifyCPU id fun cpu => { cpu with queue := some [] }).setProcessor p
          (.queued id rsp) with
        log := .queued p id :: s.log }
  | .queued id rsp => { s.setProcessor p (.running id rsp) with doneInit := true }
  | .running _ _ => s

end BootState

/-- Who takes the next step; `heap` is a page taken by the kernel heap. -/
inductive BootAgent where
  | bootProcessor
  | processor (p : BitVec 8)
  | heap
  deriving DecidableEq, Repr

def bootStep (bootID : BitVec 8) (s : BootState) : BootAgent → BootState
  | .bootProcessor => s.bootNext bootID
  | .processor p => s.processorNext p
  | .heap => s.requestPage

def bootRun (bootID : BitVec 8) (s : BootState) (schedule : List BootAgent) : BootState :=
  schedule.foldl (bootStep bootID) s

/-- Before the boot loop: no processor is started and nothing is granted yet. -/
structure PoweredOn (s : BootState) : Prop where
  boot : s.boot = none
  processors : ∀ p, s.processors p = .waiting
  doneInit : s.doneInit = false
  bitmap : s.frames.allocator.pageBitmap.Addressable
  grants : s.frames.grants = []
  log : s.log = []

/-! ## The hand-over -/

def preparedStack (p : BitVec 8) : List BootEvent → Option Nat
  | [] => none
  | .prepared q stack :: log => if q = p then some stack else preparedStack p log
  | .entered _ _ _ :: log => preparedStack p log
  | .queued _ _ :: log => preparedStack p log
  | .booted _ :: log => preparedStack p log
  | .failed _ :: log => preparedStack p log

def QueuedSince (p : BitVec 8) : List BootEvent → Prop
  | [] => False
  | .prepared q _ :: log => q ≠ p ∧ QueuedSince p log
  | .queued q id :: log => (q = p ∧ id = p.setWidth 16) ∨ QueuedSince p log
  | .entered _ _ _ :: log => QueuedSince p log
  | .booted _ :: log => QueuedSince p log
  | .failed _ :: log => QueuedSince p log

/--
Each processor enters with its own id on the stack prepared for it, which no
other processor has entered on, and a boot succeeds only after the processor
has set up its queue.
-/
def HandOver : List BootEvent → Prop
  | [] => True
  | .prepared _ _ :: log => HandOver log
  | .entered p id stack :: log =>
      id = p.setWidth 16 ∧ preparedStack p log = some stack ∧
        (∀ q id', q ≠ p → .entered q id' stack ∉ log) ∧ HandOver log
  | .queued _ _ :: log => HandOver log
  | .booted p :: log => QueuedSince p log ∧ HandOver log
  | .failed _ :: log => HandOver log

/--
A processor starts before its own `InitializeCPU` has given up, or after the
last one, which was its own; and there is a page for each stack.
-/
def OnTime (bootID : BitVec 8) (s : BootState) : BootAgent → Prop
  | .bootProcessor => ∀ id, s.boot = some (.requestStack, id) →
      s.frames.allocator.requestPage.1 ≠ NULL
  | .processor p => s.processors p = .startup →
      s.boot = some (.secondCheck, p) ∨ s.boot = some (.thirdCheck, p) ∨
        (s.boot = none ∧ (∀ id ∈ s.todo, id = bootID) ∧ s.smpID = p.setWidth 16)
  | .heap => True

instance (bootID : BitVec 8) (s : BootState) : (agent : BootAgent) →
    Decidable (OnTime bootID s agent)
  | .bootProcessor =>
      decidable_of_iff (s.boot.map Prod.fst = some .requestStack →
        s.frames.allocator.requestPage.1 ≠ NULL) <| by
          simp only [OnTime, Option.map_eq_some_iff, Prod.exists, exists_and_right,
            exists_eq_right, forall_exists_index]
  | .processor _ => inferInstanceAs (Decidable (_ → _ ∨ _ ∨ (_ ∧ _ ∧ _)))
  | .heap => .isTrue trivial

end UnifiedOS.SMP
