import UnifiedOS.Scheduling.Scheduler

/-!
# Which processes a call comes to

`Schedule` reads and writes the current process, the idle process and those of
its queue.  On two processors that agree on these it does the same, and it leaves
all other processes as they are.
-/

namespace UnifiedOS.Scheduling

variable {Frame FX : Type*} {own : Pid → Prop} {cpu cpu' : CPU Frame FX} {p q : Pid}
  {rsp : Frame} {fx : FX} {locked : Bool} {event : Event Frame FX}

structure Agree (own : Pid → Prop) (cpu cpu' : CPU Frame FX) : Prop where
  current : cpu.currentProcess = cpu'.currentProcess
  idle : cpu.idleProcess = cpu'.idleProcess
  queue : cpu.queue = cpu'.queue
  process : ∀ p, own p → cpu.process p = cpu'.process p

structure Within (own : Pid → Prop) (cpu : CPU Frame FX) : Prop where
  current : ∀ p, cpu.currentProcess = some p → own p
  idle : own cpu.idleProcess
  queue : ∀ p ∈ cpu.queue, own p

theorem Agree.update (h : Agree own cpu cpu') (p : Pid)
    (f : Process Frame FX → Process Frame FX) : Agree own (cpu.update p f) (cpu'.update p f) := by
  refine ⟨h.current, h.idle, h.queue, fun q hq => ?_⟩
  by_cases hsame : q = p
  · subst hsame
    rw [CPU.update_same, CPU.update_same, h.process q hq]
  · rw [CPU.update_other hsame, CPU.update_other hsame, h.process q hq]

theorem Agree.toIdle (h : Agree own cpu cpu') : Agree own cpu.idle cpu'.idle :=
  ⟨congrArg some h.idle, h.idle, h.queue, h.process⟩

theorem Agree.withCurrent (h : Agree own cpu cpu') (current : Option Pid) :
    Agree own { cpu with currentProcess := current } { cpu' with currentProcess := current } :=
  ⟨rfl, h.idle, h.queue, h.process⟩

theorem Agree.withQueue (h : Agree own cpu cpu') (queue : List Pid) :
    Agree own { cpu with queue := queue } { cpu' with queue := queue } :=
  ⟨h.current, h.idle, rfl, h.process⟩

theorem Agree.swapOut (h : Agree own cpu cpu') :
    Agree own (cpu.swapOut p rsp fx) (cpu'.swapOut p rsp fx) := by
  have hqueue : (cpu.swapOut p rsp fx).queue = (cpu'.swapOut p rsp fx).queue := by
    rw [CPU.swapOut_queue, CPU.swapOut_queue, h.queue]
  exact ⟨h.current, h.idle, hqueue, (h.update p fun process => { process with
    timeSlice := process.defaultTimeSlice, fxState := fx, context := rsp }).process⟩

theorem Agree.swapIn (h : Agree own cpu cpu') : Agree own cpu.swapIn cpu'.swapIn := by
  unfold CPU.swapIn
  rw [h.queue]
  cases cpu'.queue[0]? with
  | none => exact h
  | some front =>
      dsimp only
      rw [← h.queue]
      exact ((h.withQueue cpu.queue).withCurrent (some front)).update front _

theorem Agree.tick (h : Agree own cpu cpu') (hwithin : Within own cpu) :
    Agree own cpu.tick.1 cpu'.tick.1 ∧ cpu.tick.2 = cpu'.tick.2 := by
  unfold CPU.tick
  rw [← h.current]
  cases hcurrent : cpu.currentProcess with
  | none => exact ⟨h, rfl⟩
  | some p =>
      have hp := h.process p (hwithin.current p hcurrent)
      dsimp only
      rw [CPU.update_same, CPU.update_same, hp]
      split
      · exact ⟨(h.update p _).update p fun process =>
          { process with timeSlice := process.timeSlice - 1 }, rfl⟩
      · exact ⟨h.update p fun process =>
          { process with activeTicks := process.activeTicks + 1 }, rfl⟩

theorem Agree.choose (h : Agree own cpu cpu') (hwithin : Within own cpu) :
    Agree own (cpu.choose rsp fx) (cpu'.choose rsp fx) := by
  unfold CPU.choose
  rw [← h.current, ← h.queue]
  cases hcurrent : cpu.currentProcess with
  | none => exact h.toIdle
  | some p =>
      dsimp only
      rw [h.process p (hwithin.current p hcurrent), h.idle]
      split
      · exact h.toIdle
      · split
        · exact ⟨rfl, rfl, rfl, h.process⟩
        · split
          · exact h.swapOut.swapIn
          · exact h.swapIn

theorem Agree.load (h : Agree own cpu cpu') (hwithin : Within own cpu) :
    cpu.load = cpu'.load := by
  unfold CPU.load
  rw [← h.current]
  cases hcurrent : cpu.currentProcess with
  | none => rfl
  | some p =>
      rw [Option.map_some, Option.map_some, h.process p (hwithin.current p hcurrent)]

theorem Within.tick (h : Within own cpu) : Within own cpu.tick.1 := by
  constructor
  · rw [CPU.tick_current]
    exact h.current
  · rw [CPU.tick_idle]
    exact h.idle
  · rw [CPU.tick_queue]
    exact h.queue

theorem Within.toIdle (h : Within own cpu) : Within own cpu.idle := by
  refine ⟨fun p hp => ?_, h.idle, h.queue⟩
  rw [CPU.idle_current, Option.some.injEq] at hp
  exact hp ▸ h.idle

theorem Within.swapIn (h : Within own cpu) : Within own cpu.swapIn := by
  refine ⟨fun p hp => ?_, ?_, ?_⟩
  · cases hfront : cpu.queue[0]? with
    | none =>
        rw [CPU.swapIn, hfront] at hp
        exact h.current p hp
    | some front =>
        rw [CPU.swapIn_current hfront, Option.some.injEq] at hp
        exact hp ▸ h.queue front (List.mem_of_getElem? hfront)
  · rw [CPU.swapIn_idle]
    exact h.idle
  · rw [CPU.swapIn_queue]
    exact h.queue

theorem Within.swapOut (h : Within own cpu) (hp : own p) : Within own (cpu.swapOut p rsp fx) := by
  refine ⟨h.current, h.idle, fun q hq => ?_⟩
  rw [CPU.swapOut_queue] at hq
  rcases List.mem_append.mp hq with hq | hq
  · exact h.queue q (List.mem_of_mem_eraseIdx hq)
  · rw [List.mem_singleton.mp hq]
    exact hp

theorem Within.choose (h : Within own cpu) : Within own (cpu.choose rsp fx) := by
  rcases cpu.choose_cases rsp fx with ⟨-, heq⟩ | ⟨p, hcurrent, -, hbranch⟩
  · rw [heq]
    exact h.toIdle
  · rcases hbranch with ⟨-, heq⟩ | ⟨-, -, heq⟩ | ⟨-, -, heq⟩
    · rw [heq]
      exact ⟨h.toIdle.current, h.idle, fun q hq => h.queue q (List.mem_of_mem_erase hq)⟩
    · rw [heq]
      exact (h.swapOut (h.current p hcurrent)).swapIn
    · rw [heq]
      exact h.swapIn

theorem Agree.schedule (h : Agree own cpu cpu') (hwithin : Within own cpu) :
    Agree own (cpu.schedule rsp fx locked).1 (cpu'.schedule rsp fx locked).1 ∧
      (cpu.schedule rsp fx locked).2 = (cpu'.schedule rsp fx locked).2 := by
  obtain ⟨htick, hslice⟩ := h.tick hwithin
  unfold CPU.schedule
  dsimp only
  rw [hslice]
  split
  · exact ⟨htick, rfl⟩
  · split
    · exact ⟨htick, rfl⟩
    · exact ⟨htick.choose hwithin.tick, (htick.choose hwithin.tick).load hwithin.tick.choose⟩

theorem Within.schedule (h : Within own cpu) :
    Within own (cpu.schedule rsp fx locked).1 := by
  rcases cpu.schedule_cases rsp fx locked with ⟨-, heq⟩ | ⟨-, -, heq⟩
  · rw [heq]
    exact h.tick
  · rw [heq]
    exact h.tick.choose

theorem schedule_frame (h : Within own cpu) (hq : ¬ own q) :
    (cpu.schedule rsp fx locked).1.process q = cpu.process q := by
  have htick : cpu.tick.1.process q = cpu.process q := by
    rcases cpu.tick_cases with ⟨-, heq⟩ | ⟨p, hcurrent, ⟨-, heq⟩ | ⟨-, heq⟩⟩
    · rw [heq]
    · have hne : q ≠ p := fun hsame => hq (hsame ▸ h.current p hcurrent)
      rw [heq, CPU.update_other hne]
    · have hne : q ≠ p := fun hsame => hq (hsame ▸ h.current p hcurrent)
      rw [heq, CPU.update_other hne]
  have hswapIn : ∀ cpu : CPU Frame FX, Within own cpu → cpu.swapIn.process q = cpu.process q := by
    intro cpu h
    unfold CPU.swapIn
    cases hfront : cpu.queue[0]? with
    | none => rfl
    | some front =>
        have hne : q ≠ front := fun hsame =>
          hq (hsame ▸ h.queue front (List.mem_of_getElem? hfront))
        exact CPU.update_other hne
  rcases cpu.schedule_cases rsp fx locked with ⟨-, heq⟩ | ⟨-, -, heq⟩
  · rw [heq, htick]
  · rw [heq]
    dsimp only
    rcases cpu.tick.1.choose_cases rsp fx with ⟨-, hchoose⟩ | ⟨p, hcurrent, -, hbranch⟩
    · rw [hchoose, CPU.idle_process, htick]
    · have hp : own p := h.tick.current p hcurrent
      rcases hbranch with ⟨-, hchoose⟩ | ⟨-, -, hchoose⟩ | ⟨-, -, hchoose⟩
      · rw [hchoose, CPU.idle_process, htick]
      · have hne : q ≠ p := fun hsame => hq (hsame ▸ hp)
        rw [hchoose, hswapIn _ (h.tick.swapOut hp), CPU.swapOut]
        dsimp only
        rw [CPU.update_other hne, htick]
      · rw [hchoose, hswapIn _ h.tick, htick]

end UnifiedOS.Scheduling
