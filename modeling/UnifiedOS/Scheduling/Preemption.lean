import UnifiedOS.Interrupts.Frames
import UnifiedOS.Scheduling.Processors

/-!
# Preemption

`Schedule` is called with the frame that the stub of its interrupt has pushed, and
copies it into the process that it swaps out; `ProcessSwitch` loads the registers
from there.  With what the scheduler keeps this carries over to the registers of
the machine.
-/

namespace UnifiedOS.Scheduling

open UnifiedOS.Foundation UnifiedOS.Interrupts Configuration ByteMemory

/-- An interrupt of the scheduler that stops a machine, or what else the scheduler sees. -/
inductive KernelEvent (FX : Type*) where
  | interrupted (m : Machine) (stack entry : Word) (interruptnumber : Nat) (number : Byte) (fx : FX)
      (locked : Bool)
  | newProcess (p : Pid) (process : Process InterruptRegistersStack FX)
  | setState (p : Pid) (state : ProcessState)

namespace KernelEvent

variable {FX : Type*}

/-- `Schedule` works on the frame in memory that `HandleInterrupt` is given. -/
def event : KernelEvent FX → Event InterruptRegistersStack FX
  | interrupted m stack entry interruptnumber number fx locked =>
      let entered := m.entered stack none entry interruptnumber number
      .schedule (.ofMemory entered.memory (entered.gpr .rsi).toNat) fx locked
  | newProcess p process => .newProcess p process
  | setState p state => .setState p state

/-- The interrupt finds room for its frame, apart from the number of the stub. -/
def Fits : KernelEvent FX → Prop
  | interrupted _ stack _ interruptnumber _ _ _ =>
      frameSize none ≤ stack.toNat ∧ Apart interruptnumber stack none
  | newProcess _ _ => True
  | setState _ _ => True

theorem event_interrupted {m : Machine} {stack entry : Word} {interruptnumber : Nat}
    {number : Byte} {fx : FX} {locked : Bool}
    (h : (interrupted m stack entry interruptnumber number fx locked).Fits) :
    (interrupted m stack entry interruptnumber number fx locked).event =
      .schedule m.registers fx locked := by
  obtain ⟨hroom, hapart⟩ := h
  have hargument : (m.entered stack none entry interruptnumber number).gpr .rsi =
      (m.entered stack none entry interruptnumber number).rsp :=
    (enterStub_arguments hroom hapart).2
  have hframe : InterruptRegistersStack.ofMemory
      (m.entered stack none entry interruptnumber number).memory
      (m.entered stack none entry interruptnumber number).rsp.toNat = m.registers :=
    enterStub_frame hroom hapart
  simp only [event]
  rw [hargument, hframe]

end KernelEvent

section Runs

variable {Core FX : Type*} [DecidableEq Core] {owner : Pid → Core}
  {s : Processors Core InterruptRegistersStack FX} {schedule : List (Core × KernelEvent FX)}
  {p : Pid}

def eventsOf (schedule : List (Core × KernelEvent FX)) :
    List (Core × Event InterruptRegistersStack FX) :=
  schedule.map fun event => (event.1, event.2.event)

def KernelEvent.stops (event : KernelEvent FX) (cpu : CPU InterruptRegistersStack FX) (p : Pid)
    (left : Option InterruptRegistersStack) : Option InterruptRegistersStack :=
  match event with
  | interrupted m _ _ _ _ fx locked =>
      if cpu.currentProcess = some p ∧ (cpu.schedule m.registers fx locked).2.isSome then
        some m.registers
      else left
  | newProcess q process => if q = p then some process.context else left
  | setState _ _ => left

/--
The registers a process is to go on with: its initial ones, or those of the machine
that was stopped last, on any processor, while the process was current there and had
to make room.
-/
def stoppedWith (p : Pid) : List (Core × KernelEvent FX) →
    Processors Core InterruptRegistersStack FX → Option InterruptRegistersStack →
    Option InterruptRegistersStack
  | [], _, left => left
  | (core, event) :: schedule, s, left =>
      stoppedWith p schedule (s.perform Event.next core event.event)
        (event.stops (view s core) p left)

/-- What the scheduler keeps of a process are the registers it was stopped with. -/
theorem stoppedWith_eq (hfits : ∀ event ∈ schedule, event.2.Fits)
    (left : Option InterruptRegistersStack) :
    stoppedWith p schedule s left = lastLeft p (eventsOf schedule) s left := by
  induction schedule generalizing s left with
  | nil => rfl
  | cons first schedule ih =>
      obtain ⟨core, event⟩ := first
      obtain ⟨hfirst, hrest⟩ := List.forall_mem_cons.mp hfits
      have hcons : eventsOf ((core, event) :: schedule) =
        (core, event.event) :: eventsOf schedule := rfl
      rw [stoppedWith, ih hrest, hcons, lastLeft]
      congr 1
      cases event with
      | interrupted m stack entry interruptnumber number fx locked =>
          rw [KernelEvent.event_interrupted hfirst]
          rfl
      | newProcess q process => rfl
      | setState q state => rfl

/--
A process that gets a processor back goes on with exactly the registers its machine
was stopped with, whatever ran in between and wherever: from the interrupt through
the stack, the saved context and `ProcessSwitch` nothing is lost or mixed up.
-/
theorem preempted_process_resumes (hstart : AllStarted s)
    (hplaced : Placed owner s (eventsOf schedule)) (hfits : ∀ event ∈ schedule, event.2.Fits)
    (core : Core) (m : Machine) (stack entry : Word) (interruptnumber : Nat) (number : Byte)
    (fx : FX) (locked : Bool) (loaded : Loaded InterruptRegistersStack FX)
    (hlast : (KernelEvent.interrupted m stack entry interruptnumber number fx locked).Fits)
    (hswitch : ((view (s.run Event.next (eventsOf schedule)) core).schedule m.registers fx
      locked).2 = some loaded)
    (hcurrent : ((view (s.run Event.next (eventsOf schedule)) core).schedule m.registers fx
      locked).1.currentProcess = some p)
    (hidle : p ≠ (s.state core).idleProcess)
    (m' : Machine) (context pml4 : Word) (hroom : context.toNat + 160 < 2 ^ 64)
    (hcontext : InterruptRegistersStack.ofMemory m'.memory context.toNat = loaded.context) :
    stoppedWith p (schedule ++ [(core, .interrupted m stack entry interruptnumber number fx
      locked)]) s none = some (m'.processSwitch context pml4).registers := by
  have hfits' : ∀ event ∈ schedule ++ [(core, KernelEvent.interrupted m stack entry
      interruptnumber number fx locked)], event.2.Fits := by
    intro event hevent
    rcases List.mem_append.mp hevent with hevent | hevent
    · exact hfits event hevent
    · rw [List.mem_singleton.mp hevent]
      exact hlast
  have hevents : eventsOf (schedule ++ [(core, KernelEvent.interrupted m stack entry
      interruptnumber number fx locked)]) =
        eventsOf schedule ++ [(core, Event.schedule m.registers fx locked)] := by
    rw [eventsOf, List.map_append, List.map_singleton, KernelEvent.event_interrupted hlast]
    rfl
  have hidle' : p ≠ (view (s.run Event.next (eventsOf schedule)) core).idleProcess := by
    rw [(run_agrees hstart hplaced core).idle, run_idle]
    exact hidle
  rw [stoppedWith_eq hfits', hevents, lastLeft_snoc, (processSwitch_registers hroom).1, hcontext]
  exact switch_loads (run_queues hstart hplaced core) (run_contexts hstart hplaced core) hswitch
    hcurrent hidle'

end Runs

/-! ## Two processes that share a processor -/

/-- Two processors at the start, with their idle processes at the addresses 0 and 1. -/
def twoMachines : Processors (Fin 2) InterruptRegistersStack Unit :=
  ⟨fun _ => Process.idleContextCreation (numberedMachine 0).registers () 0,
    fun core => ⟨none, core, []⟩⟩

def stoppedMachine (tick : Nat) : Machine := numberedMachine (0x100 * tick)

def tickEvent (tick : Nat) : KernelEvent Unit :=
  .interrupted (stoppedMachine tick) 0x9000 0x5000 0x100 0x20 () false

def clearedProcess (stack : Word) : Process InterruptRegistersStack Unit :=
  Process.contextCreation (.ofMemory (fun _ => 0) 0x8000) () stack

/-- Process 2 runs from tick 1 on and makes room for process 4 at tick 7. -/
def sharedMachineEvents : List (Fin 2 × KernelEvent Unit) :=
  [(firstCore, .newProcess 2 (clearedProcess 0x2000)),
   (firstCore, .newProcess 4 (clearedProcess 0x4000)), (secondCore, tickEvent 0)] ++
  (List.range 13).map fun tick => (firstCore, tickEvent tick)

theorem tickEvent_fits (tick : Nat) : (tickEvent tick).Fits := ⟨by decide, .inl (by decide)⟩

theorem tickEvent_event (tick : Nat) :
    (tickEvent tick).event = .schedule (stoppedMachine tick).registers () false :=
  KernelEvent.event_interrupted (tickEvent_fits tick)

theorem mem_sharedMachineEvents {event : Fin 2 × KernelEvent Unit}
    (h : event ∈ sharedMachineEvents) :
    event = (firstCore, .newProcess 2 (clearedProcess 0x2000)) ∨
      event = (firstCore, .newProcess 4 (clearedProcess 0x4000)) ∨
      ∃ core tick, event = (core, tickEvent tick) := by
  simp only [sharedMachineEvents, List.mem_append, List.mem_cons, List.not_mem_nil, or_false,
    List.mem_map] at h
  rcases h with (rfl | rfl | rfl) | ⟨tick, -, rfl⟩
  · exact .inl rfl
  · exact .inr (.inl rfl)
  · exact .inr (.inr ⟨secondCore, 0, rfl⟩)
  · exact .inr (.inr ⟨firstCore, tick, rfl⟩)

theorem sharedMachineEvents_fits : ∀ event ∈ sharedMachineEvents, event.2.Fits := by
  intro event hmem
  rcases mem_sharedMachineEvents hmem with rfl | rfl | ⟨core, tick, rfl⟩
  · trivial
  · trivial
  · exact tickEvent_fits tick

theorem sharedMachineEvents_placed :
    Placed parity twoMachines (eventsOf sharedMachineEvents) := by
  refine ⟨by decide, ?_, fun core => ⟨?_, ?_⟩⟩
  · intro event hevent
    obtain ⟨event, hmem, rfl⟩ := List.mem_map.mp hevent
    rcases mem_sharedMachineEvents hmem with rfl | rfl | ⟨core, tick, rfl⟩ <;> trivial
  · revert core
    decide
  · revert core
    decide

/-- At tick 13 process 4 has used up its slice. -/
theorem sharedMachineEvents_switch :
    let cpu := view (twoMachines.run Event.next (eventsOf sharedMachineEvents)) 0
    (cpu.schedule (stoppedMachine 13).registers () false).2 =
        some ⟨(), 0, 0x2000, (stoppedMachine 7).registers⟩ ∧
      (cpu.schedule (stoppedMachine 13).registers () false).1.currentProcess = some 2 := by
  have hevents : eventsOf sharedMachineEvents =
      [(firstCore, .newProcess 2 (clearedProcess 0x2000)),
       (firstCore, .newProcess 4 (clearedProcess 0x4000)),
       (secondCore, .schedule (stoppedMachine 0).registers () false)] ++
      (List.range 13).map fun tick =>
        (firstCore, .schedule (stoppedMachine tick).registers () false) := by
    simp only [eventsOf, sharedMachineEvents, List.map_append, List.map_map, List.map_cons,
      List.map_nil, Function.comp_def, tickEvent_event]
    rfl
  rw [hevents]
  exact ⟨rfl, rfl⟩

def contextMachine (context : InterruptRegistersStack) : Machine :=
  { numberedMachine 0 with memory := pushWords (fun _ => 0) 0x80A0 context.toWords.reverse }

theorem contextMachine_context (context : InterruptRegistersStack) :
    InterruptRegistersStack.ofMemory (contextMachine context).memory 0x8000 = context := by
  have hlength : context.toWords.reverse.length = 20 := rfl
  have hwords := @words_pushWords (fun _ => 0) 0x80A0 context.toWords.reverse
    (by rw [hlength]; decide)
  rw [hlength, List.reverse_reverse] at hwords
  exact ofMemory_eq hwords

/-- At tick 13 process 2 gets back the registers that tick 7 has stopped it with. -/
theorem preempted_process_resumes_two :
    let resumed := (contextMachine (stoppedMachine 7).registers).processSwitch 0x8000 0
    stoppedWith 2 (sharedMachineEvents ++ [(0, tickEvent 13)]) twoMachines none =
        some resumed.registers ∧
      resumed.registers = (stoppedMachine 7).registers := by
  have hresumed := (@processSwitch_registers (contextMachine (stoppedMachine 7).registers) 0x8000 0
    (by decide)).1
  refine ⟨?_, hresumed.trans (contextMachine_context _)⟩
  exact preempted_process_resumes (fun _ => ⟨rfl, rfl⟩) sharedMachineEvents_placed
    sharedMachineEvents_fits 0 (stoppedMachine 13) 0x9000 0x5000 0x100 0x20 () false _
    (tickEvent_fits 13) sharedMachineEvents_switch.1 sharedMachineEvents_switch.2 (by decide)
    (contextMachine (stoppedMachine 7).registers) 0x8000 0 (by decide) (contextMachine_context _)

end UnifiedOS.Scheduling
