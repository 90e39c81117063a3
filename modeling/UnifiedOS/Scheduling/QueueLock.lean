import UnifiedOS.SMP.Spinlock
import UnifiedOS.Scheduling.Locality
import UnifiedOS.Scheduling.RunQueue

/-!
# The scheduler under its queue lock

`Schedule` and `NewProcess` in the steps that can be interleaved.  `Schedule`
counts its tick before it tries the queue lock, makes its decision and then one
write after the other under the lock, and loads the chosen process after it has
released the lock.  `NewProcess` builds the process before it waits for the lock.
The history lists the calls in the order in which they take effect.
-/

namespace UnifiedOS.Scheduling

open UnifiedOS.Foundation UnifiedOS.SMP

/-! ## The writes of `Schedule` -/

/-- A write that `Schedule` does while it holds the lock. -/
inductive Write (Frame FX : Type*) where
  | currentProcess (p : Pid)
  | remove (p : Pid)
  | timeSlice (p : Pid)
  | fxState (p : Pid) (fx : FX)
  | context (p : Pid) (rsp : Frame)
  | erase
  | addBack (p : Pid)
  | getAt
  | currentTimeSlice

section Model

variable {Thread Frame FX : Type*}

namespace Write

def apply (write : Write Frame FX) (cpu : CPU Frame FX) : CPU Frame FX :=
  match write with
  | currentProcess p => { cpu with currentProcess := some p }
  | remove p => { cpu with queue := cpu.queue.erase p }
  | timeSlice p =>
      cpu.update p fun process => { process with timeSlice := process.defaultTimeSlice }
  | fxState p fx => cpu.update p fun process => { process with fxState := fx }
  | context p rsp => cpu.update p fun process => { process with context := rsp }
  | erase => { cpu with queue := cpu.queue.eraseIdx 0 }
  | addBack p => { cpu with queue := cpu.queue ++ [p] }
  | getAt =>
      match cpu.queue[0]? with
      | none => cpu
      | some p => { cpu with currentProcess := some p }
  | currentTimeSlice =>
      match cpu.currentProcess with
      | none => cpu
      | some p =>
          cpu.update p fun process => { process with timeSlice := process.defaultTimeSlice }

def Names (own : Pid → Prop) : Write Frame FX → Prop
  | currentProcess p => own p
  | remove _ => True
  | timeSlice p => own p
  | fxState p _ => own p
  | context p _ => own p
  | erase => True
  | addBack p => own p
  | getAt => True
  | currentTimeSlice => True

end Write

namespace CPU

def writes (cpu : CPU Frame FX) (rsp : Frame) (fx : FX) : List (Write Frame FX) :=
  match cpu.currentProcess with
  | none => [.currentProcess cpu.idleProcess]
  | some p =>
      if cpu.queue.length ≤ 0 then [.currentProcess cpu.idleProcess]
      else if (cpu.process p).state = ProcessState.dying then
        [.remove p, .currentProcess cpu.idleProcess]
      else if p ≠ cpu.idleProcess then
        [.timeSlice p, .fxState p fx, .context p rsp, .erase, .addBack p, .getAt,
          .currentTimeSlice]
      else [.getAt, .currentTimeSlice]

def complete (cpu : CPU Frame FX) (writes : List (Write Frame FX)) : CPU Frame FX :=
  writes.foldl (fun cpu write => write.apply cpu) cpu

end CPU

/-! ## The steps -/

inductive SchedulePhase (Frame FX : Type*) where
  | outside
  | ticked (rsp : Frame) (fx : FX)
  | deciding (rsp : Frame) (fx : FX)
  | writing (rsp : Frame) (fx : FX) (rest : List (Write Frame FX))
  | loading (rsp : Frame) (fx : FX)

/-- Where a thread is in `NewProcess`; in the loop of `acquireLock`, with its counter. -/
inductive NewProcessPhase where
  | outside
  | testing (p : Pid) (i : BitVec 32)
  | counting (p : Pid) (i : BitVec 32)
  | adding (p : Pid)
  | releasing

/-- A processor with the lock of its queue and those at work on it. -/
structure LockedCPU (Thread Frame FX : Type*) where
  QueueLock : BitVec 32
  cpu : CPU Frame FX
  handler : SchedulePhase Frame FX
  thread : Thread → NewProcessPhase
  history : List (Event Frame FX)

inductive Micro (Thread Frame FX : Type*) where
  | interrupt (rsp : Frame) (fx : FX)
  | schedule
  | newProcess (t : Thread) (p : Pid) (process : Process Frame FX)
  | create (t : Thread)
  | setState (p : Pid) (state : ProcessState)

namespace LockedCPU

variable [DecidableEq Thread] (s : LockedCPU Thread Frame FX)

def start (cpu : CPU Frame FX) : LockedCPU Thread Frame FX :=
  ⟨0, cpu, .outside, fun _ => .outside, []⟩

/-- `Schedule` up to the lock; interrupts stay masked until it is left. -/
def interrupt (rsp : Frame) (fx : FX) : Option (LockedCPU Thread Frame FX) :=
  match s.handler with
  | .outside =>
      if s.cpu.tick.2 then
        some { s with cpu := s.cpu.tick.1, history := s.history ++ [.schedule rsp fx true] }
      else some { s with cpu := s.cpu.tick.1, handler := .ticked rsp fx }
  | _ => none

/-- The next step of `Schedule`, from `acquireTestLock` on. -/
def schedule : Option (LockedCPU Thread Frame FX) :=
  match s.handler with
  | .outside => none
  | .ticked rsp fx =>
      if s.QueueLock = 0 then some { s with QueueLock := 1, handler := .deciding rsp fx }
      else some { s with
        QueueLock := 1
        handler := .outside
        history := s.history ++ [.schedule rsp fx true] }
  | .deciding rsp fx => some { s with
      handler := .writing rsp fx (s.cpu.writes rsp fx)
      history := s.history ++ [.schedule rsp fx false] }
  | .writing rsp fx (write :: rest) =>
      some { s with cpu := write.apply s.cpu, handler := .writing rsp fx rest }
  | .writing rsp fx [] => some { s with QueueLock := 0, handler := .loading rsp fx }
  | .loading _ _ => some { s with handler := .outside }

/-- `NewProcess` up to the lock. -/
def newProcess (t : Thread) (p : Pid) (process : Process Frame FX) :
    Option (LockedCPU Thread Frame FX) :=
  match s.thread t with
  | .outside => some { s with
      cpu := s.cpu.update p fun _ => process
      thread := Function.update s.thread t (.testing p 0) }
  | _ => none

/-- The next step of `NewProcess`, from `acquireLock` on. -/
def create (t : Thread) : Option (LockedCPU Thread Frame FX) :=
  match s.thread t with
  | .outside => none
  | .testing p i => some { s with
      QueueLock := 1
      thread := Function.update s.thread t (if s.QueueLock = 0 then .adding p else .counting p i) }
  | .counting p i => some { s with
      thread := Function.update s.thread t
        (if checkDeadlock (i + 1) then .adding p else .testing p (i + 1)) }
  | .adding p => some { s with
      cpu := { s.cpu with queue := s.cpu.queue ++ [p] }
      thread := Function.update s.thread t .releasing
      history := s.history ++ [.newProcess p (s.cpu.process p)] }
  | .releasing => some { s with
      QueueLock := 0
      thread := Function.update s.thread t .outside }

def next (action : Micro Thread Frame FX) : Option (LockedCPU Thread Frame FX) :=
  match action with
  | .interrupt rsp fx => s.interrupt rsp fx
  | .schedule => s.schedule
  | .newProcess t p process => s.newProcess t p process
  | .create t => s.create t
  | .setState p state => some { s with
      cpu := s.cpu.setState p state
      history := s.history ++ [.setState p state] }

end LockedCPU

end Model

/-! ## Writes one after the other -/

section Writes

variable {Frame FX : Type*} {cpu cpu' : CPU Frame FX} {own : Pid → Prop} {p q : Pid}
  {rsp : Frame} {fx : FX} {state : ProcessState} {write : Write Frame FX}
  {writes : List (Write Frame FX)} {process : Process Frame FX}

theorem CPU.update_comm {f g : Process Frame FX → Process Frame FX}
    (h : ∀ process, f (g process) = g (f process)) :
    (cpu.update q g).update p f = (cpu.update p f).update q g := by
  unfold CPU.update
  congr 1
  funext r
  dsimp only
  by_cases hp : r = p
  · by_cases hq : r = q
    · rw [if_pos hp, if_pos hp, if_pos hq, if_pos hq, h]
    · rw [if_pos hp, if_pos hp, if_neg hq, if_neg hq]
  · rw [if_neg hp, if_neg hp]

theorem complete_writes (cpu : CPU Frame FX) (rsp : Frame) (fx : FX) :
    cpu.complete (cpu.writes rsp fx) = cpu.choose rsp fx := by
  unfold CPU.writes CPU.choose
  cases hcurrent : cpu.currentProcess with
  | none => rfl
  | some p =>
      dsimp only
      by_cases hqueue : cpu.queue.length ≤ 0
      · rw [if_pos hqueue, if_pos hqueue]
        rfl
      · rw [if_neg hqueue, if_neg hqueue]
        by_cases hdying : (cpu.process p).state = ProcessState.dying
        · rw [if_pos hdying, if_pos hdying]
          rfl
        · rw [if_neg hdying, if_neg hdying]
          -- the queue is not empty when its front is taken
          have hgetAt : ∀ cpu : CPU Frame FX, cpu.queue ≠ [] →
              cpu.complete [.getAt, .currentTimeSlice] = cpu.swapIn := by
            intro cpu hne
            obtain ⟨front, rest, hcons⟩ := List.exists_cons_of_ne_nil hne
            simp [CPU.complete, Write.apply, CPU.swapIn, hcons]
          by_cases hidle : p ≠ cpu.idleProcess
          · rw [if_pos hidle, if_pos hidle]
            have hswapOut : cpu.complete [.timeSlice p, .fxState p fx, .context p rsp, .erase,
                .addBack p] = cpu.swapOut p rsp fx := by
              simp only [CPU.complete, List.foldl_cons, List.foldl_nil, Write.apply, CPU.swapOut,
                CPU.update]
              congr 1
              funext q
              by_cases hq : q = p <;> simp [hq]
            rw [← hgetAt _ (by simp), ← hswapOut]
            rfl
          · rw [if_neg hidle, if_neg hidle]
            refine hgetAt cpu ?_
            rintro hnil
            exact hqueue (by simp [hnil])

theorem Agree.symm (h : Agree own cpu cpu') : Agree own cpu' cpu :=
  ⟨h.current.symm, h.idle.symm, h.queue.symm, fun p hp => (h.process p hp).symm⟩

theorem Agree.mono {own' : Pid → Prop} (h : Agree own cpu cpu') (hown : ∀ p, own' p → own p) :
    Agree own' cpu cpu' :=
  ⟨h.current, h.idle, h.queue, fun p hp => h.process p (hown p hp)⟩

theorem Agree.trans {cpu'' : CPU Frame FX} (h : Agree own cpu cpu') (h' : Agree own cpu' cpu'') :
    Agree own cpu cpu'' :=
  ⟨h.current.trans h'.current, h.idle.trans h'.idle, h.queue.trans h'.queue,
    fun p hp => (h.process p hp).trans (h'.process p hp)⟩

theorem Agree.applyWrite (h : Agree own cpu cpu') (write : Write Frame FX) :
    Agree own (write.apply cpu) (write.apply cpu') := by
  cases write with simp only [Write.apply]
  | currentProcess p => exact ⟨rfl, h.idle, h.queue, h.process⟩
  | remove p => exact ⟨h.current, h.idle, congrArg (List.erase · p) h.queue, h.process⟩
  | timeSlice p => exact h.update p _
  | fxState p fx => exact h.update p _
  | context p rsp => exact h.update p _
  | erase => exact ⟨h.current, h.idle, congrArg (List.eraseIdx · 0) h.queue, h.process⟩
  | addBack p => exact ⟨h.current, h.idle, congrArg (· ++ [p]) h.queue, h.process⟩
  | getAt =>
      have hfront : cpu'.queue[0]? = cpu.queue[0]? := by rw [h.queue]
      rw [hfront]
      cases cpu.queue[0]? with
      | none => exact h
      | some front => exact h.withCurrent (some front)
  | currentTimeSlice =>
      rw [← h.current]
      cases cpu.currentProcess with
      | none => exact h
      | some p => exact h.update p _

theorem Agree.complete (h : Agree own cpu cpu') (writes : List (Write Frame FX)) :
    Agree own (cpu.complete writes) (cpu'.complete writes) := by
  induction writes generalizing cpu cpu' with
  | nil => exact h
  | cons write rest ih => exact ih (h.applyWrite write)

theorem Within.applyWrite (h : Within own cpu) (hnames : write.Names own) :
    Within own (write.apply cpu) := by
  cases write with
  | currentProcess p =>
      refine ⟨fun q hq => ?_, h.idle, h.queue⟩
      exact Option.some.inj hq ▸ hnames
  | remove p => exact ⟨h.current, h.idle, fun q hq => h.queue q (List.mem_of_mem_erase hq)⟩
  | timeSlice p => exact ⟨h.current, h.idle, h.queue⟩
  | fxState p fx => exact ⟨h.current, h.idle, h.queue⟩
  | context p rsp => exact ⟨h.current, h.idle, h.queue⟩
  | erase => exact ⟨h.current, h.idle, fun q hq => h.queue q (List.mem_of_mem_eraseIdx hq)⟩
  | addBack p =>
      refine ⟨h.current, h.idle, fun q hq => ?_⟩
      rcases List.mem_append.mp hq with hq | hq
      · exact h.queue q hq
      · exact List.mem_singleton.mp hq ▸ hnames
  | getAt =>
      simp only [Write.apply]
      cases hfront : cpu.queue[0]? with
      | none => exact h
      | some front =>
          refine ⟨fun q hq => ?_, h.idle, h.queue⟩
          exact Option.some.inj hq ▸ h.queue front (List.mem_of_getElem? hfront)
  | currentTimeSlice =>
      simp only [Write.apply]
      cases hcurrent : cpu.currentProcess with
      | none => exact h
      | some p =>
          refine ⟨fun q hq => h.current q ?_, h.idle, h.queue⟩
          exact hq

theorem Within.complete (h : Within own cpu) (hnames : ∀ write ∈ writes, write.Names own) :
    Within own (cpu.complete writes) := by
  induction writes generalizing cpu with
  | nil => exact h
  | cons write rest ih =>
      obtain ⟨hfirst, hrest⟩ := List.forall_mem_cons.mp hnames
      exact ih (h.applyWrite hfirst) hrest

theorem Write.frame (h : Within own cpu) (hnames : write.Names own) (hq : ¬ own q) :
    (write.apply cpu).process q = cpu.process q := by
  have hother : ∀ p, own p → q ≠ p := fun p hp hsame => hq (hsame ▸ hp)
  cases write with simp only [Write.apply]
  | timeSlice p => exact CPU.update_other (hother p hnames)
  | fxState p fx => exact CPU.update_other (hother p hnames)
  | context p rsp => exact CPU.update_other (hother p hnames)
  | getAt => cases cpu.queue[0]? <;> rfl
  | currentTimeSlice =>
      cases hcurrent : cpu.currentProcess with
      | none => rfl
      | some p => exact CPU.update_other (hother p (h.current p hcurrent))

@[simp] theorem Write.apply_idle : (write.apply cpu).idleProcess = cpu.idleProcess := by
  cases write with
  | getAt =>
      simp only [Write.apply]
      cases cpu.queue[0]? <;> rfl
  | currentTimeSlice =>
      simp only [Write.apply]
      cases cpu.currentProcess <;> rfl
  | _ => rfl

theorem writes_names (h : Within own cpu) : ∀ write ∈ cpu.writes rsp fx, write.Names own := by
  unfold CPU.writes
  have hidle := h.idle
  cases hcurrent : cpu.currentProcess with
  | none => simpa [Write.Names] using hidle
  | some p =>
      have hp := h.current p hcurrent
      dsimp only
      split
      · simpa [Write.Names] using hidle
      · split
        · simpa [Write.Names] using hidle
        · split
          · simpa [Write.Names] using hp
          · simp [Write.Names]

/-! ## What commutes with them -/

theorem Write.apply_setState : write.apply (cpu.setState p state) =
    (write.apply cpu).setState p state := by
  cases write with simp only [Write.apply]
  | timeSlice q => exact CPU.update_comm fun _ => rfl
  | fxState q fx => exact CPU.update_comm fun _ => rfl
  | context q rsp => exact CPU.update_comm fun _ => rfl
  | getAt =>
      simp only [CPU.setState, CPU.update]
      cases cpu.queue[0]? <;> rfl
  | currentTimeSlice =>
      have hsame : (cpu.setState p state).currentProcess = cpu.currentProcess := rfl
      rw [hsame]
      cases cpu.currentProcess with
      | none => rfl
      | some q => exact CPU.update_comm fun _ => rfl
  | _ => rfl

theorem complete_setState :
    (cpu.setState p state).complete writes = (cpu.complete writes).setState p state := by
  refine List.foldl_hom (f := fun cpu : CPU Frame FX => cpu.setState p state) ?_
  intro cpu write
  exact Write.apply_setState

theorem tick_of_current (h : cpu.currentProcess = some p) :
    cpu.tick = (cpu.update p fun process => { process with
        activeTicks := process.activeTicks + 1
        timeSlice := process.timeSlice - 1 }, decide (0 < (cpu.process p).timeSlice)) := by
  rcases cpu.tick_cases with ⟨hnone, -⟩ | ⟨q, hq, hcase⟩
  · rw [h] at hnone
    contradiction
  · obtain rfl : p = q := Option.some.inj (h.symm.trans hq)
    rcases hcase with ⟨hslice, heq⟩ | ⟨hslice, heq⟩
    · rw [heq, decide_eq_true hslice]
    · rw [heq, decide_eq_false (by omega)]
      refine Prod.ext ?_ rfl
      unfold CPU.update
      dsimp only
      congr 1
      funext r
      by_cases hr : r = p
      · subst hr
        simp [hslice]
      · simp [hr]

theorem tick_of_none (h : cpu.currentProcess = none) : cpu.tick = (cpu, false) := by
  rw [CPU.tick, h]

theorem tick_setState :
    (cpu.setState p state).tick = (cpu.tick.1.setState p state, cpu.tick.2) := by
  have hsame : (cpu.setState p state).currentProcess = cpu.currentProcess := rfl
  cases hcurrent : cpu.currentProcess with
  | none => rw [tick_of_none hcurrent, tick_of_none (hsame.trans hcurrent)]
  | some q =>
      have hslice : ((cpu.setState p state).process q).timeSlice = (cpu.process q).timeSlice := by
        refine CPU.update_keeps Process.timeSlice ?_ q
        intro process
        rfl
      rw [tick_of_current hcurrent, tick_of_current (hsame.trans hcurrent), hslice]
      refine Prod.ext ?_ rfl
      dsimp only
      unfold CPU.setState
      exact CPU.update_comm fun _ => rfl

theorem schedule_locked : cpu.schedule rsp fx true = (cpu.tick.1, none) := by
  rcases cpu.schedule_cases rsp fx true with ⟨-, heq⟩ | ⟨-, hlocked, -⟩
  · exact heq
  · contradiction

theorem schedule_unlocked (h : cpu.tick.2 = false) :
    cpu.schedule rsp fx false = (cpu.tick.1.choose rsp fx, (cpu.tick.1.choose rsp fx).load) := by
  rcases cpu.schedule_cases rsp fx false with ⟨hstays, -⟩ | ⟨-, -, heq⟩
  · rcases hstays with hslice | hlocked
    · rw [h] at hslice
      contradiction
    · contradiction
  · exact heq

theorem load_setState : (cpu.setState p state).load = cpu.load := by
  unfold CPU.load
  have hsame : (cpu.setState p state).currentProcess = cpu.currentProcess := rfl
  rw [hsame]
  cases cpu.currentProcess with
  | none => rfl
  | some q =>
      by_cases hq : q = p
      · subst hq
        simp [CPU.setState]
      · simp [CPU.setState, CPU.update_other hq]

theorem tick_addProcess (hcurrent : cpu.currentProcess ≠ some p) :
    (cpu.addProcess p process).tick = (cpu.tick.1.addProcess p process, cpu.tick.2) := by
  have hsame : (cpu.addProcess p process).currentProcess = cpu.currentProcess := rfl
  cases hcase : cpu.currentProcess with
  | none => rw [tick_of_none hcase, tick_of_none (hsame.trans hcase)]
  | some q =>
      have hne : q ≠ p := fun heq => hcurrent (heq ▸ hcase)
      rw [tick_of_current hcase, tick_of_current (hsame.trans hcase)]
      refine Prod.ext ?_ ?_
      · unfold CPU.addProcess CPU.update
        dsimp only
        congr 1
        funext r
        by_cases hr : r = p
        · subst hr
          simp [Ne.symm hne]
        · by_cases hq : r = q
          · subst hq
            simp [hr]
          · simp [hr, hq]
      · rw [CPU.addProcess]
        dsimp only
        rw [CPU.update_other hne]

theorem Agree.addProcess (h : Agree own cpu cpu') :
    Agree (fun q => own q ∨ q = p) (cpu.addProcess p process) (cpu'.addProcess p process) := by
  refine ⟨h.current, h.idle, congrArg (· ++ [p]) h.queue, fun q hq => ?_⟩
  unfold CPU.addProcess
  dsimp only
  by_cases hsame : q = p
  · subst hsame
    rw [CPU.update_same, CPU.update_same]
  · rw [CPU.update_other hsame, CPU.update_other hsame]
    exact h.process q (hq.resolve_right hsame)

end Writes

end UnifiedOS.Scheduling
