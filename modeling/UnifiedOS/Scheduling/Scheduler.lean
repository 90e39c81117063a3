import Mathlib.Data.List.Induction
import Mathlib.Data.List.Nodup

/-!
# The scheduler of one processor

`Schedule` works on the queue, the current process and the idle process of the
processor it runs on.  Processes are named by their addresses; register frames
and FPU states are opaque values.  A call either returns to the interrupted
code or ends in `ProcessSwitch`, and then says what it loads.  Whether
`acquireTestLock` finds the queue locked is an argument.
-/

namespace UnifiedOS.Scheduling

inductive ProcessState where
  | dying
  | ready
  | sleeping
  | running
  deriving DecidableEq, Repr

structure Process (Frame FX : Type*) where
  context : Frame
  fxState : FX
  fsBase : BitVec 64
  stack : BitVec 64
  state : ProcessState
  activeTicks : BitVec 64
  defaultTimeSlice : Nat
  timeSlice : Nat

def DEFAUL_PROCESS_TICK_COUNT : Nat := 5

namespace Process

variable {Frame FX : Type*}

/-- `Process::ContextCreation`, given the registers and the stack it sets up. -/
def contextCreation (context : Frame) (fxState : FX) (stack : BitVec 64) : Process Frame FX :=
  { context := context
    fxState := fxState
    fsBase := 0
    stack := stack
    state := ProcessState.ready
    activeTicks := 0
    defaultTimeSlice := DEFAUL_PROCESS_TICK_COUNT
    timeSlice := DEFAUL_PROCESS_TICK_COUNT }

def idleContextCreation (context : Frame) (fxState : FX) (stack : BitVec 64) :
    Process Frame FX :=
  { contextCreation context fxState stack with
    defaultTimeSlice := 0
    timeSlice := 0 }

end Process

abbrev Pid := Nat

structure CPU (Frame FX : Type*) where
  currentProcess : Option Pid
  idleProcess : Pid
  queue : List Pid
  process : Pid → Process Frame FX

/-- What `Schedule` loads before `ProcessSwitch` leaves it. -/
structure Loaded (Frame FX : Type*) where
  fxState : FX
  fsBase : BitVec 64
  stack : BitVec 64
  context : Frame

namespace CPU

variable {Frame FX : Type*}

def update (cpu : CPU Frame FX) (p : Pid) (f : Process Frame FX → Process Frame FX) :
    CPU Frame FX :=
  { cpu with process := fun q => if q = p then f (cpu.process q) else cpu.process q }

/-- The tick of the current process, and whether its slice goes on. -/
def tick (cpu : CPU Frame FX) : CPU Frame FX × Bool :=
  match cpu.currentProcess with
  | none => (cpu, false)
  | some p =>
      let cpu := cpu.update p fun process =>
        { process with activeTicks := process.activeTicks + 1 }
      if (cpu.process p).timeSlice > 0 then
        (cpu.update p fun process => { process with timeSlice := process.timeSlice - 1 }, true)
      else (cpu, false)

/-- Save the process that is swapped out and put it at the back of the queue. -/
def swapOut (cpu : CPU Frame FX) (p : Pid) (rsp : Frame) (fx : FX) : CPU Frame FX :=
  let cpu := cpu.update p fun process =>
    { process with
      timeSlice := process.defaultTimeSlice
      fxState := fx
      context := rsp }
  { cpu with queue := cpu.queue.eraseIdx 0 ++ [p] }

def swapIn (cpu : CPU Frame FX) : CPU Frame FX :=
  match cpu.queue[0]? with
  | none => cpu
  | some p =>
      let cpu := { cpu with currentProcess := some p }
      cpu.update p fun process => { process with timeSlice := process.defaultTimeSlice }

def idle (cpu : CPU Frame FX) : CPU Frame FX :=
  { cpu with currentProcess := some cpu.idleProcess }

/-- The part of `Schedule` under the queue lock. -/
def choose (cpu : CPU Frame FX) (rsp : Frame) (fx : FX) : CPU Frame FX :=
  match cpu.currentProcess with
  | none => cpu.idle
  | some p =>
      if cpu.queue.length ≤ 0 then cpu.idle
      else if (cpu.process p).state = ProcessState.dying then
        { cpu with queue := cpu.queue.erase p }.idle
      else if p ≠ cpu.idleProcess then (cpu.swapOut p rsp fx).swapIn
      else cpu.swapIn

def load (cpu : CPU Frame FX) : Option (Loaded Frame FX) :=
  cpu.currentProcess.map fun p =>
    let process := cpu.process p
    ⟨process.fxState, process.fsBase, process.stack, process.context⟩

/-- `Scheduler::Schedule`; without a `Loaded` it returned to the interrupted code. -/
def schedule (cpu : CPU Frame FX) (rsp : Frame) (fx : FX) (locked : Bool) :
    CPU Frame FX × Option (Loaded Frame FX) :=
  let (cpu, goesOn) := cpu.tick
  if goesOn then (cpu, none)
  else if locked then (cpu, none)
  else
    let cpu := cpu.choose rsp fx
    (cpu, cpu.load)

/-- The end of `NewProcess`, on the processor it has chosen. -/
def addProcess (cpu : CPU Frame FX) (p : Pid) (process : Process Frame FX) : CPU Frame FX :=
  let cpu := cpu.update p fun _ => process
  { cpu with queue := cpu.queue ++ [p] }

def setState (cpu : CPU Frame FX) (p : Pid) (state : ProcessState) : CPU Frame FX :=
  cpu.update p fun process => { process with state := state }

end CPU

/-- What happens on a processor: `Schedule`, a new process, a change of a process's `State`. -/
inductive Event (Frame FX : Type*) where
  | schedule (rsp : Frame) (fx : FX) (locked : Bool)
  | newProcess (p : Pid) (process : Process Frame FX)
  | setState (p : Pid) (state : ProcessState)

section Runs

variable {Frame FX : Type*}

def Event.apply (event : Event Frame FX) (cpu : CPU Frame FX) : CPU Frame FX :=
  match event with
  | schedule rsp fx locked => (cpu.schedule rsp fx locked).1
  | newProcess p process => cpu.addProcess p process
  | setState p state => cpu.setState p state

def run (events : List (Event Frame FX)) (cpu : CPU Frame FX) : CPU Frame FX :=
  events.foldl (fun cpu event => event.apply cpu) cpu

def Event.created : Event Frame FX → List Pid
  | schedule .. => []
  | newProcess p _ => [p]
  | setState .. => []

def created (events : List (Event Frame FX)) : List Pid := events.flatMap Event.created

structure Started (cpu : CPU Frame FX) : Prop where
  current : cpu.currentProcess = none
  queue : cpu.queue = []

structure Fresh (idleProcess : Pid) (events : List (Event Frame FX)) : Prop where
  distinct : (created events).Nodup
  idle : idleProcess ∉ created events

end Runs

/-! ## What each step changes -/

namespace CPU

variable {Frame FX : Type*} {cpu : CPU Frame FX} {p q : Pid} {rsp : Frame} {fx : FX}
  {f : Process Frame FX → Process Frame FX} {process : Process Frame FX}
  {state : ProcessState}

@[simp] theorem update_same : (cpu.update p f).process p = f (cpu.process p) := if_pos rfl

theorem update_other (h : q ≠ p) : (cpu.update p f).process q = cpu.process q := if_neg h

theorem update_keeps {α : Type*} (field : Process Frame FX → α)
    (hfield : ∀ process, field (f process) = field process) (q : Pid) :
    field ((cpu.update p f).process q) = field (cpu.process q) := by
  by_cases hq : q = p
  · rw [hq, update_same, hfield]
  · rw [update_other hq]

@[simp] theorem idle_current : cpu.idle.currentProcess = some cpu.idleProcess := rfl
@[simp] theorem idle_idle : cpu.idle.idleProcess = cpu.idleProcess := rfl
@[simp] theorem idle_queue : cpu.idle.queue = cpu.queue := rfl
@[simp] theorem idle_process : cpu.idle.process = cpu.process := rfl

@[simp] theorem swapOut_idle : (cpu.swapOut p rsp fx).idleProcess = cpu.idleProcess := rfl
@[simp] theorem swapOut_queue :
    (cpu.swapOut p rsp fx).queue = cpu.queue.eraseIdx 0 ++ [p] := rfl

@[simp] theorem addProcess_current :
    (cpu.addProcess p process).currentProcess = cpu.currentProcess := rfl
@[simp] theorem addProcess_idle :
    (cpu.addProcess p process).idleProcess = cpu.idleProcess := rfl
@[simp] theorem addProcess_queue :
    (cpu.addProcess p process).queue = cpu.queue ++ [p] := rfl

@[simp] theorem swapIn_idle : cpu.swapIn.idleProcess = cpu.idleProcess := by
  unfold swapIn
  cases cpu.queue[0]? <;> rfl

@[simp] theorem swapIn_queue : cpu.swapIn.queue = cpu.queue := by
  unfold swapIn
  cases cpu.queue[0]? <;> rfl

theorem swapIn_current (h : cpu.queue[0]? = some p) : cpu.swapIn.currentProcess = some p := by
  rw [swapIn, h]
  rfl

theorem swapIn_keeps {α : Type*} (field : Process Frame FX → α)
    (hfield : ∀ process slice, field { process with timeSlice := slice } = field process)
    (q : Pid) : field (cpu.swapIn.process q) = field (cpu.process q) := by
  unfold swapIn
  cases cpu.queue[0]? with
  | none => rfl
  | some front => exact update_keeps field (fun _ => hfield _ _) q

theorem swapOut_keeps {α : Type*} (field : Process Frame FX → α)
    (hfield : ∀ process slice fx context, field { process with
      timeSlice := slice, fxState := fx, context := context } = field process)
    (q : Pid) : field ((cpu.swapOut p rsp fx).process q) = field (cpu.process q) := by
  unfold swapOut
  exact update_keeps field (fun _ => hfield _ _ _ _) q

theorem tick_cases (cpu : CPU Frame FX) :
    (cpu.currentProcess = none ∧ cpu.tick = (cpu, false)) ∨
    ∃ p, cpu.currentProcess = some p ∧
      ((0 < (cpu.process p).timeSlice ∧ cpu.tick = ((cpu.update p fun process =>
          { process with
            activeTicks := process.activeTicks + 1
            timeSlice := process.timeSlice - 1 }), true)) ∨
       ((cpu.process p).timeSlice = 0 ∧ cpu.tick = ((cpu.update p fun process =>
          { process with activeTicks := process.activeTicks + 1 }), false))) := by
  cases hcurrent : cpu.currentProcess with
  | none =>
      left
      rw [tick, hcurrent]
      exact ⟨rfl, rfl⟩
  | some p =>
      right
      refine ⟨p, rfl, ?_⟩
      rw [tick, hcurrent]
      dsimp only
      rw [update_same]
      by_cases hslice : (cpu.process p).timeSlice > 0
      · left
        refine ⟨hslice, ?_⟩
        rw [if_pos hslice]
        congr 1
        unfold update
        congr 1
        funext q
        by_cases hq : q = p <;> simp [hq]
      · right
        exact ⟨by omega, if_neg hslice⟩

@[simp] theorem tick_current : cpu.tick.1.currentProcess = cpu.currentProcess := by
  rcases tick_cases cpu with ⟨-, h⟩ | ⟨p, -, ⟨-, h⟩ | ⟨-, h⟩⟩ <;> rw [h] <;> rfl

@[simp] theorem tick_idle : cpu.tick.1.idleProcess = cpu.idleProcess := by
  rcases tick_cases cpu with ⟨-, h⟩ | ⟨p, -, ⟨-, h⟩ | ⟨-, h⟩⟩ <;> rw [h] <;> rfl

@[simp] theorem tick_queue : cpu.tick.1.queue = cpu.queue := by
  rcases tick_cases cpu with ⟨-, h⟩ | ⟨p, -, ⟨-, h⟩ | ⟨-, h⟩⟩ <;> rw [h] <;> rfl

theorem tick_process (q : Pid) : ∃ ticks slice, cpu.tick.1.process q =
    { cpu.process q with activeTicks := ticks, timeSlice := slice } := by
  rcases tick_cases cpu with ⟨-, h⟩ | ⟨p, -, ⟨-, h⟩ | ⟨-, h⟩⟩ <;> rw [h]
  · exact ⟨_, _, rfl⟩
  · by_cases hq : q = p
    · rw [hq, update_same]
      exact ⟨_, _, rfl⟩
    · rw [update_other hq]
      exact ⟨_, _, rfl⟩
  · by_cases hq : q = p
    · rw [hq, update_same]
      exact ⟨_, _, rfl⟩
    · rw [update_other hq]
      exact ⟨_, _, rfl⟩

@[simp] theorem tick_state : (cpu.tick.1.process q).state = (cpu.process q).state := by
  obtain ⟨ticks, slice, h⟩ := @tick_process _ _ cpu q
  rw [h]

@[simp] theorem tick_context : (cpu.tick.1.process q).context = (cpu.process q).context := by
  obtain ⟨ticks, slice, h⟩ := @tick_process _ _ cpu q
  rw [h]

theorem choose_cases (cpu : CPU Frame FX) (rsp : Frame) (fx : FX) :
    ((cpu.currentProcess = none ∨ cpu.queue = []) ∧ cpu.choose rsp fx = cpu.idle) ∨
    ∃ p, cpu.currentProcess = some p ∧ cpu.queue ≠ [] ∧
      (((cpu.process p).state = ProcessState.dying ∧
          cpu.choose rsp fx = { cpu with queue := cpu.queue.erase p }.idle) ∨
       ((cpu.process p).state ≠ ProcessState.dying ∧ p ≠ cpu.idleProcess ∧
          cpu.choose rsp fx = (cpu.swapOut p rsp fx).swapIn) ∨
       ((cpu.process p).state ≠ ProcessState.dying ∧ p = cpu.idleProcess ∧
          cpu.choose rsp fx = cpu.swapIn)) := by
  cases hcurrent : cpu.currentProcess with
  | none =>
      left
      rw [choose, hcurrent]
      exact ⟨Or.inl rfl, rfl⟩
  | some p =>
      rw [choose, hcurrent]
      dsimp only
      by_cases hqueue : cpu.queue = []
      · left
        rw [if_pos (by simp [hqueue])]
        exact ⟨Or.inr hqueue, rfl⟩
      · right
        have hlength : ¬ cpu.queue.length ≤ 0 := by
          rw [Nat.le_zero, List.length_eq_zero_iff]
          exact hqueue
        refine ⟨p, rfl, hqueue, ?_⟩
        rw [if_neg hlength]
        by_cases hdying : (cpu.process p).state = ProcessState.dying
        · left
          exact ⟨hdying, if_pos hdying⟩
        · right
          rw [if_neg hdying]
          by_cases hidle : p = cpu.idleProcess
          · right
            exact ⟨hdying, hidle, if_neg (not_not.mpr hidle)⟩
          · left
            exact ⟨hdying, hidle, if_pos hidle⟩

theorem schedule_cases (cpu : CPU Frame FX) (rsp : Frame) (fx : FX) (locked : Bool) :
    ((cpu.tick.2 = true ∨ locked = true) ∧
      cpu.schedule rsp fx locked = (cpu.tick.1, none)) ∨
    (cpu.tick.2 = false ∧ locked = false ∧
      cpu.schedule rsp fx locked =
        (cpu.tick.1.choose rsp fx, (cpu.tick.1.choose rsp fx).load)) := by
  unfold schedule
  cases hslice : cpu.tick.2 with
  | true =>
      left
      exact ⟨Or.inl rfl, by simp [hslice]⟩
  | false =>
      cases locked with
      | true =>
          left
          exact ⟨Or.inr rfl, by simp [hslice]⟩
      | false =>
          right
          exact ⟨rfl, rfl, by simp [hslice]⟩

end CPU

end UnifiedOS.Scheduling
