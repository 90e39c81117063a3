import UnifiedOS.Scheduling.RunQueue

/-!
# Saved contexts

Only the branch of `Schedule` that swaps a live process out saves a context.
The queue invariant rules the other branches out for a process that will be
selected again, so what is loaded is always what was saved last.
-/

namespace UnifiedOS.Scheduling

variable {Frame FX : Type*} {cpu : CPU Frame FX} {events : List (Event Frame FX)}
  {event : Event Frame FX} {p q : Pid} {rsp : Frame} {fx : FX} {locked : Bool}
  {known : List Pid}

/--
What process `p` last left off with: its initial context, or the frame given to
the last `Schedule` call that found `p` current and ended in `ProcessSwitch`.
-/
def leftOff (p : Pid) : List (Event Frame FX) → CPU Frame FX → Option Frame → Option Frame
  | [], _, left => left
  | event :: events, cpu, left =>
      leftOff p events (event.apply cpu) <|
        match event with
        | .schedule rsp fx locked =>
            if cpu.currentProcess = some p ∧ (cpu.schedule rsp fx locked).2.isSome then some rsp
            else left
        | .newProcess q process => if q = p then some process.context else left
        | .setState _ _ => left

def Event.leaves (event : Event Frame FX) (cpu : CPU Frame FX) (p : Pid)
    (left : Option Frame) : Option Frame :=
  leftOff p [event] cpu left

theorem leftOff_snoc (earlier : List (Event Frame FX)) (event : Event Frame FX)
    (cpu : CPU Frame FX) (left : Option Frame) :
    leftOff p (earlier ++ [event]) cpu left =
      event.leaves (run earlier cpu) p (leftOff p earlier cpu left) := by
  induction earlier generalizing cpu left with
  | nil => rfl
  | cons first earlier ih => exact ih _ _

/-! ## Who is written -/

theorem swapIn_context (q : Pid) : (cpu.swapIn.process q).context = (cpu.process q).context :=
  CPU.swapIn_keeps Process.context (fun _ _ => rfl) q

theorem swapOut_context_self : ((cpu.swapOut p rsp fx).process p).context = rsp := by
  rw [CPU.swapOut]
  dsimp only
  rw [CPU.update_same]

theorem swapOut_context_other (h : q ≠ p) :
    ((cpu.swapOut p rsp fx).process q).context = (cpu.process q).context := by
  rw [CPU.swapOut]
  dsimp only
  rw [CPU.update_other h]

theorem schedule_context (h : cpu.currentProcess ≠ some q) :
    ((cpu.schedule rsp fx locked).1.process q).context = (cpu.process q).context := by
  rcases cpu.schedule_cases rsp fx locked with ⟨-, heq⟩ | ⟨-, -, heq⟩
  · rw [heq, CPU.tick_context]
  · rw [heq]
    dsimp only
    rcases cpu.tick.1.choose_cases rsp fx with ⟨-, hchoose⟩ | ⟨p, hcurrent, -, hbranch⟩
    · rw [hchoose, CPU.idle_process, CPU.tick_context]
    · have hqp : q ≠ p := by
        rintro rfl
        exact h (CPU.tick_current.symm.trans hcurrent)
      rcases hbranch with ⟨-, hchoose⟩ | ⟨-, -, hchoose⟩ | ⟨-, -, hchoose⟩
      · rw [hchoose, CPU.idle_process, CPU.tick_context]
      · rw [hchoose, swapIn_context, swapOut_context_other hqp, CPU.tick_context]
      · rw [hchoose, swapIn_context, CPU.tick_context]

theorem schedule_saves (h : QueueInv cpu known) (hcurrent : cpu.currentProcess = some p)
    (hidle : p ≠ cpu.idleProcess)
    (hswitch : (cpu.schedule rsp fx locked).2.isSome)
    (hkept : p ∈ (cpu.schedule rsp fx locked).1.queue) :
    ((cpu.schedule rsp fx locked).1.process p).context = rsp := by
  rcases cpu.schedule_cases rsp fx locked with ⟨-, heq⟩ | ⟨-, -, heq⟩
  · rw [heq] at hswitch
    contradiction
  · rw [heq] at hkept ⊢
    dsimp only at hkept ⊢
    have hcurrent' : cpu.tick.1.currentProcess = some p := CPU.tick_current.trans hcurrent
    have hidle' : p ≠ cpu.tick.1.idleProcess := by
      rw [CPU.tick_idle]
      exact hidle
    obtain ⟨rest, hqueue⟩ := h.tick.queue_eq hcurrent' hidle'
    rcases cpu.tick.1.choose_cases rsp fx with ⟨hbranch, -⟩ | ⟨q, hq, -, hbranch⟩
    · rcases hbranch with hnone | hnil
      · rw [hcurrent'] at hnone
        contradiction
      · rw [hqueue] at hnil
        contradiction
    · rw [hcurrent'] at hq
      obtain rfl := Option.some.inj hq
      rcases hbranch with ⟨-, hchoose⟩ | ⟨-, -, hchoose⟩ | ⟨-, hq, -⟩
      · -- the dying branch takes it out of the queue
        rw [hchoose, CPU.idle_queue] at hkept
        dsimp only at hkept
        exact absurd hkept (h.tick.nodup.not_mem_erase)
      · rw [hchoose, swapIn_context, swapOut_context_self]
      · exact absurd hq hidle'

/-! ## Runs -/

structure ContextInv (cpu : CPU Frame FX) (left : Pid → Option Frame) : Prop where
  waiting : ∀ p ∈ cpu.queue, cpu.currentProcess ≠ some p →
    left p = some (cpu.process p).context

theorem schedule_queue_subset (h : QueueInv cpu known)
    (hp : p ∈ (cpu.schedule rsp fx locked).1.queue) : p ∈ cpu.queue := by
  have hself : QueueInv cpu cpu.queue := ⟨h.nodup, h.idle, h.front, fun _ hmem => hmem⟩
  exact (hself.schedule rsp fx locked).known p hp

/-- After a switch every process of the queue, the new current one too, is as it left off. -/
theorem schedule_leaves (h : QueueInv cpu known) {left : Pid → Option Frame}
    (hleft : ContextInv cpu left) (hswitch : (cpu.schedule rsp fx locked).2.isSome)
    (hp : p ∈ (cpu.schedule rsp fx locked).1.queue) :
    (Event.schedule rsp fx locked).leaves cpu p (left p) =
      some ((cpu.schedule rsp fx locked).1.process p).context := by
  have hold := schedule_queue_subset h hp
  have hidle : p ≠ cpu.idleProcess := fun heq => h.idle (heq ▸ hold)
  rw [Event.leaves, leftOff, leftOff]
  by_cases hcurrent : cpu.currentProcess = some p
  · rw [if_pos ⟨hcurrent, hswitch⟩, schedule_saves h hcurrent hidle hswitch hp]
  · rw [if_neg fun hboth => hcurrent hboth.1, schedule_context hcurrent]
    exact hleft.waiting p hold hcurrent

theorem choose_load (cpu : CPU Frame FX) (rsp : Frame) (fx : FX) :
    (cpu.choose rsp fx).load.isSome = true := by
  rcases cpu.choose_cases rsp fx with ⟨-, hchoose⟩ | ⟨q, hq, hne, hbranch⟩
  · rw [hchoose]
    rfl
  · rcases hbranch with ⟨-, hchoose⟩ | ⟨-, -, hchoose⟩ | ⟨-, -, hchoose⟩
    · rw [hchoose]
      rfl
    · rw [hchoose, CPU.load, swapIn_front (by rw [CPU.swapOut_queue]; simp), CPU.swapIn_queue,
        CPU.swapOut_queue]
      cases cpu.queue.eraseIdx 0 <;> rfl
    · rw [hchoose, CPU.load, swapIn_front hne, CPU.swapIn_queue]
      cases hqueue : cpu.queue with
      | nil => exact absurd hqueue hne
      | cons front rest => rfl

theorem ContextInv.apply (h : QueueInv cpu known) {left : Pid → Option Frame}
    (hleft : ContextInv cpu left) :
    ContextInv (event.apply cpu) fun p => event.leaves cpu p (left p) := by
  constructor
  intro p hp hcurrent
  cases event with
  | schedule rsp fx locked =>
      rw [Event.apply] at hp hcurrent ⊢
      by_cases hswitch : (cpu.schedule rsp fx locked).2.isSome = true
      · exact schedule_leaves h hleft hswitch hp
      · rw [Event.leaves, leftOff, leftOff]
        rw [if_neg fun hboth => hswitch hboth.2]
        rcases cpu.schedule_cases rsp fx locked with ⟨-, heq⟩ | ⟨-, -, heq⟩
        · rw [heq] at hp hcurrent ⊢
          rw [CPU.tick_queue] at hp
          rw [CPU.tick_current] at hcurrent
          rw [CPU.tick_context]
          exact hleft.waiting p hp hcurrent
        · rw [heq] at hswitch
          exact absurd (choose_load cpu.tick.1 rsp fx) hswitch
  | newProcess q process =>
      rw [Event.leaves, leftOff, leftOff]
      rw [Event.apply] at hp hcurrent ⊢
      rw [CPU.addProcess_queue] at hp
      rw [CPU.addProcess_current] at hcurrent
      rw [CPU.addProcess]
      dsimp only
      by_cases hq : q = p
      · subst hq
        rw [if_pos rfl, CPU.update_same]
      · have hold : p ∈ cpu.queue := by
          rcases List.mem_append.mp hp with hold | hnew
          · exact hold
          · exact absurd (List.mem_singleton.mp hnew).symm hq
        rw [if_neg hq, CPU.update_other fun heq => hq heq.symm]
        exact hleft.waiting p hold hcurrent
  | setState q state =>
      have hwaiting := hleft.waiting p hp hcurrent
      rw [Event.leaves, leftOff, leftOff, Event.apply, CPU.setState]
      by_cases hq : p = q
      · subst hq
        rw [CPU.update_same]
        exact hwaiting
      · rw [CPU.update_other hq]
        exact hwaiting

theorem run_contextInv (hstart : Started cpu) (hfresh : Fresh cpu.idleProcess events) :
    ContextInv (run events cpu) fun p => leftOff p events cpu none := by
  induction events using List.reverseRecOn with
  | nil =>
      constructor
      intro p hp
      rw [run, List.foldl_nil, hstart.queue] at hp
      exact absurd hp List.not_mem_nil
  | append_singleton events event ih =>
      have hnext := @ContextInv.apply _ _ _ event _ (run_queueInv hstart hfresh.prefix) _
        (ih hfresh.prefix)
      rw [run_snoc]
      constructor
      intro p hp hcurrent
      rw [leftOff_snoc]
      exact hnext.waiting p hp hcurrent

/--
Whenever `Schedule` ends in `ProcessSwitch` to a process that is not the idle
one, it loads what that process last left off with, and it writes the context of
no process but the one that was current at its entry.
-/
theorem schedule_loads_left_off (hstart : Started cpu) (hfresh : Fresh cpu.idleProcess events)
    (rsp : Frame) (fx : FX) (locked : Bool) :
    (∀ loaded p, ((run events cpu).schedule rsp fx locked).2 = some loaded →
      ((run events cpu).schedule rsp fx locked).1.currentProcess = some p →
      p ≠ cpu.idleProcess →
      leftOff p (events ++ [Event.schedule rsp fx locked]) cpu none = some loaded.context) ∧
    ∀ q, (run events cpu).currentProcess ≠ some q →
      (((run events cpu).schedule rsp fx locked).1.process q).context =
        ((run events cpu).process q).context := by
  refine ⟨?_, fun q hq => schedule_context hq⟩
  intro loaded p hswitch hcurrent hidle
  have hinv := run_queueInv hstart hfresh
  have hleft := run_contextInv hstart hfresh
  have hkeeps : ((run events cpu).schedule rsp fx locked).1.idleProcess = cpu.idleProcess := by
    have happly := @apply_idle _ _ (run events cpu) (Event.schedule rsp fx locked)
    rw [run_idle] at happly
    exact happly
  have hnext := hinv.schedule rsp fx locked
  obtain ⟨rest, hqueue⟩ := hnext.queue_eq hcurrent (by rw [hkeeps]; exact hidle)
  have hp : p ∈ ((run events cpu).schedule rsp fx locked).1.queue := by
    rw [hqueue]
    exact List.mem_cons_self
  have hloaded : loaded.context =
      (((run events cpu).schedule rsp fx locked).1.process p).context := by
    rcases (run events cpu).schedule_cases rsp fx locked with ⟨-, heq⟩ | ⟨-, -, heq⟩
    · rw [heq] at hswitch
      contradiction
    · rw [heq] at hswitch hcurrent ⊢
      dsimp only at hswitch hcurrent ⊢
      rw [CPU.load, hcurrent] at hswitch
      rw [← Option.some.inj hswitch]
  rw [leftOff_snoc, hloaded]
  exact schedule_leaves hinv hleft (by rw [hswitch]; rfl) hp

def callsFrom102 (n : Nat) : List (Event Nat Unit) :=
  (List.range n).map fun tick => .schedule (102 + tick) () false

/--
When the first slice of process 1 is over, process 2 gets its initial context; when
that of process 2 is over, process 1 goes on with the frame that was saved at 107.
-/
theorem schedule_loads_saved_context :
    leftOff 2 (twoProcesses ++ callsFrom102 5 ++ [.schedule 107 () false]) idleCPU none = some 20 ∧
      leftOff 1 (twoProcesses ++ callsFrom102 11 ++ [.schedule 113 () false]) idleCPU none =
        some 107 ∧
      ((run (twoProcesses ++ callsFrom102 11) idleCPU).schedule 113 () false).2 =
        some ⟨(), 0, 0x1000, 107⟩ :=
  ⟨(schedule_loads_left_off idleCPU_started ⟨by decide, by decide⟩ 107 () false).1
      ⟨(), 0, 0x2000, 20⟩ 2 rfl rfl (by decide),
    (schedule_loads_left_off idleCPU_started ⟨by decide, by decide⟩ 113 () false).1
      ⟨(), 0, 0x1000, 107⟩ 1 rfl rfl (by decide), rfl⟩

end UnifiedOS.Scheduling
