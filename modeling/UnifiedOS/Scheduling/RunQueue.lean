import UnifiedOS.Scheduling.Scheduler

/-!
# The run queue over whole runs

`Schedule` erases the front of the queue and appends the current process.  That
neither loses nor doubles a process because the current process is at the front
whenever it is not the idle process; every event keeps it there.
-/

namespace UnifiedOS.Scheduling

variable {Frame FX : Type*} {cpu : CPU Frame FX} {events : List (Event Frame FX)}
  {event : Event Frame FX} {known : List Pid} {p : Pid} {rsp : Frame} {fx : FX}

structure QueueInv (cpu : CPU Frame FX) (known : List Pid) : Prop where
  nodup : cpu.queue.Nodup
  idle : cpu.idleProcess ∉ cpu.queue
  front : cpu.currentProcess = none ∨ cpu.currentProcess = some cpu.idleProcess ∨
    cpu.currentProcess = cpu.queue.head?
  known : ∀ p ∈ cpu.queue, p ∈ known

theorem QueueInv.tick (h : QueueInv cpu known) : QueueInv cpu.tick.1 known := by
  constructor
  · rw [CPU.tick_queue]
    exact h.nodup
  · rw [CPU.tick_idle, CPU.tick_queue]
    exact h.idle
  · rw [CPU.tick_current, CPU.tick_idle, CPU.tick_queue]
    exact h.front
  · rw [CPU.tick_queue]
    exact h.known

theorem QueueInv.toIdle (h : QueueInv cpu known) : QueueInv cpu.idle known :=
  ⟨h.nodup, h.idle, Or.inr (Or.inl rfl), h.known⟩

theorem QueueInv.queue_eq (h : QueueInv cpu known) (hcurrent : cpu.currentProcess = some p)
    (hidle : p ≠ cpu.idleProcess) : ∃ rest, cpu.queue = p :: rest := by
  rcases h.front with hnone | hidle' | hfront
  · rw [hcurrent] at hnone
    contradiction
  · rw [hcurrent] at hidle'
    exact absurd (Option.some.inj hidle') hidle
  · rw [hcurrent] at hfront
    cases hqueue : cpu.queue with
    | nil =>
        rw [hqueue] at hfront
        contradiction
    | cons front rest =>
        rw [hqueue] at hfront
        exact ⟨rest, by rw [Option.some.inj hfront]⟩

theorem swapIn_front (hne : cpu.queue ≠ []) :
    cpu.swapIn.currentProcess = cpu.swapIn.queue.head? := by
  rw [CPU.swapIn_queue]
  cases hqueue : cpu.queue with
  | nil => exact absurd hqueue hne
  | cons front rest => exact CPU.swapIn_current (by simp [hqueue])

theorem swapOut_queue_cons {rest : List Pid} (hqueue : cpu.queue = p :: rest) :
    (cpu.swapOut p rsp fx).queue = rest ++ [p] := by
  rw [CPU.swapOut_queue, hqueue]
  rfl

theorem QueueInv.choose (h : QueueInv cpu known) (rsp : Frame) (fx : FX) :
    QueueInv (cpu.choose rsp fx) known := by
  rcases cpu.choose_cases rsp fx with ⟨-, heq⟩ | ⟨p, hcurrent, hne, hbranch⟩
  · rw [heq]
    exact h.toIdle
  · rcases hbranch with ⟨-, heq⟩ | ⟨-, hidle, heq⟩ | ⟨-, -, heq⟩
    · rw [heq]
      exact ⟨h.nodup.erase p, fun hmem => h.idle (List.mem_of_mem_erase hmem),
        Or.inr (Or.inl rfl), fun q hq => h.known q (List.mem_of_mem_erase hq)⟩
    · -- the front goes to the back
      obtain ⟨rest, hqueue⟩ := h.queue_eq hcurrent hidle
      have hnodup := h.nodup
      have hfree := h.idle
      have hknown := h.known
      rw [hqueue] at hnodup hfree hknown
      have hperm : (rest ++ [p]).Perm (p :: rest) := List.perm_append_singleton p rest
      rw [heq]
      constructor
      · rw [CPU.swapIn_queue, swapOut_queue_cons hqueue, hperm.nodup_iff]
        exact hnodup
      · rw [CPU.swapIn_idle, CPU.swapIn_queue, swapOut_queue_cons hqueue, hperm.mem_iff]
        exact hfree
      · refine Or.inr (Or.inr (swapIn_front ?_))
        rw [swapOut_queue_cons hqueue]
        simp
      · intro q hq
        rw [CPU.swapIn_queue, swapOut_queue_cons hqueue, hperm.mem_iff] at hq
        exact hknown q hq
    · rw [heq]
      constructor
      · rw [CPU.swapIn_queue]
        exact h.nodup
      · rw [CPU.swapIn_idle, CPU.swapIn_queue]
        exact h.idle
      · exact Or.inr (Or.inr (swapIn_front hne))
      · rw [CPU.swapIn_queue]
        exact h.known

theorem QueueInv.schedule (h : QueueInv cpu known) (rsp : Frame) (fx : FX) (locked : Bool) :
    QueueInv (cpu.schedule rsp fx locked).1 known := by
  rcases cpu.schedule_cases rsp fx locked with ⟨-, heq⟩ | ⟨-, -, heq⟩
  · rw [heq]
    exact h.tick
  · rw [heq]
    exact h.tick.choose rsp fx

theorem QueueInv.addProcess {process : Process Frame FX} (h : QueueInv cpu known)
    (hfresh : p ∉ known) (hidle : p ≠ cpu.idleProcess) :
    QueueInv (cpu.addProcess p process) (known ++ [p]) := by
  constructor
  · rw [CPU.addProcess_queue, List.nodup_append]
    refine ⟨h.nodup, List.nodup_singleton p, ?_⟩
    rintro q hq q' hq' rfl
    rw [List.mem_singleton] at hq'
    exact hfresh (hq' ▸ h.known q hq)
  · rw [CPU.addProcess_idle, CPU.addProcess_queue, List.mem_append, List.mem_singleton]
    rintro (hmem | heq)
    · exact h.idle hmem
    · exact hidle heq.symm
  · rw [CPU.addProcess_current, CPU.addProcess_idle, CPU.addProcess_queue]
    rcases h.front with hnone | hidle' | hfront
    · exact Or.inl hnone
    · exact Or.inr (Or.inl hidle')
    · cases hqueue : cpu.queue with
      | nil =>
          rw [hqueue] at hfront
          exact Or.inl hfront
      | cons front rest =>
          rw [hqueue] at hfront
          exact Or.inr (Or.inr hfront)
  · intro q hq
    rw [CPU.addProcess_queue] at hq
    rcases List.mem_append.mp hq with hq | hq
    · exact List.mem_append_left _ (h.known q hq)
    · exact List.mem_append_right _ hq

/-! ## Runs -/

theorem run_append (earlier later : List (Event Frame FX)) :
    run (earlier ++ later) cpu = run later (run earlier cpu) :=
  List.foldl_append

theorem run_snoc (earlier : List (Event Frame FX)) (event : Event Frame FX) :
    run (earlier ++ [event]) cpu = event.apply (run earlier cpu) :=
  run_append earlier [event]

theorem created_append (earlier later : List (Event Frame FX)) :
    created (earlier ++ later) = created earlier ++ created later :=
  List.flatMap_append

theorem created_snoc (earlier : List (Event Frame FX)) (event : Event Frame FX) :
    created (earlier ++ [event]) = created earlier ++ event.created := by
  rw [created_append, created, created, List.flatMap_singleton]

@[simp] theorem apply_idle : (event.apply cpu).idleProcess = cpu.idleProcess := by
  cases event with
  | schedule rsp fx locked =>
      rcases cpu.schedule_cases rsp fx locked with ⟨-, heq⟩ | ⟨-, -, heq⟩
      · rw [Event.apply, heq]
        exact CPU.tick_idle
      · rw [Event.apply, heq]
        rcases cpu.tick.1.choose_cases rsp fx with ⟨-, hchoose⟩ | ⟨p, -, -, hbranch⟩
        · rw [hchoose]
          exact CPU.tick_idle
        · rcases hbranch with ⟨-, hchoose⟩ | ⟨-, -, hchoose⟩ | ⟨-, -, hchoose⟩ <;>
            rw [hchoose] <;> simp
  | newProcess p process => rfl
  | setState p state => rfl

@[simp] theorem run_idle : (run events cpu).idleProcess = cpu.idleProcess := by
  induction events using List.reverseRecOn with
  | nil => rfl
  | append_singleton events event ih => rw [run_snoc, apply_idle, ih]

theorem Fresh.prefix {idleProcess : Pid} {later : List (Event Frame FX)}
    (h : Fresh idleProcess (events ++ later)) : Fresh idleProcess events := by
  have hdistinct := h.distinct
  have hidle := h.idle
  rw [created_append] at hdistinct hidle
  exact ⟨(List.nodup_append.mp hdistinct).1, fun hmem => hidle (List.mem_append_left _ hmem)⟩

theorem Fresh.last {idleProcess : Pid} (h : Fresh idleProcess (events ++ [event])) :
    ∀ p ∈ event.created, p ∉ created events ∧ p ≠ idleProcess := by
  intro p hp
  have hdistinct := h.distinct
  have hidle := h.idle
  rw [created_snoc] at hdistinct hidle
  refine ⟨fun hold => (List.nodup_append.mp hdistinct).2.2 p hold p hp rfl, ?_⟩
  rintro rfl
  exact hidle (List.mem_append_right _ hp)

theorem QueueInv.apply (h : QueueInv cpu known)
    (hfresh : ∀ p ∈ event.created, p ∉ known ∧ p ≠ cpu.idleProcess) :
    QueueInv (event.apply cpu) (known ++ event.created) := by
  cases event with
  | schedule rsp fx locked =>
      rw [Event.created, List.append_nil]
      exact h.schedule rsp fx locked
  | newProcess p process =>
      obtain ⟨hnew, hidle⟩ := hfresh p (List.mem_singleton_self p)
      exact h.addProcess hnew hidle
  | setState p state =>
      rw [Event.created, List.append_nil]
      exact ⟨h.nodup, h.idle, h.front, h.known⟩

theorem run_queueInv (hstart : Started cpu) (hfresh : Fresh cpu.idleProcess events) :
    QueueInv (run events cpu) (created events) := by
  induction events using List.reverseRecOn with
  | nil =>
      constructor
      · rw [run, List.foldl_nil, hstart.queue]
        exact List.nodup_nil
      · rw [run, List.foldl_nil, hstart.queue]
        exact List.not_mem_nil
      · exact Or.inl hstart.current
      · intro p hp
        rw [run, List.foldl_nil, hstart.queue] at hp
        exact absurd hp List.not_mem_nil
  | append_singleton events event ih =>
      rw [run_snoc, created_snoc]
      apply (ih hfresh.prefix).apply
      rw [run_idle]
      exact hfresh.last

/-- A `Schedule` call that finds `p` current and dying when its slice is over. -/
def Kills (event : Event Frame FX) (cpu : CPU Frame FX) (p : Pid) : Prop :=
  (∃ rsp fx, event = Event.schedule rsp fx false) ∧ cpu.currentProcess = some p ∧
    (cpu.process p).timeSlice = 0 ∧ (cpu.process p).state = ProcessState.dying

theorem mem_queue_apply (h : QueueInv cpu known) (hp : p ∈ cpu.queue) :
    p ∈ (event.apply cpu).queue ∨ Kills event cpu p := by
  cases event with
  | newProcess q process => exact Or.inl (List.mem_append_left _ hp)
  | setState q state => exact Or.inl hp
  | schedule rsp fx locked =>
      rw [Event.apply]
      rcases cpu.schedule_cases rsp fx locked with ⟨-, heq⟩ | ⟨hslice, rfl, heq⟩
      · left
        rw [heq, CPU.tick_queue]
        exact hp
      · rw [heq]
        have hp' : p ∈ cpu.tick.1.queue := by
          rw [CPU.tick_queue]
          exact hp
        rcases cpu.tick.1.choose_cases rsp fx with ⟨-, hchoose⟩ | ⟨q, hcurrent, hne, hbranch⟩
        · left
          rw [hchoose]
          exact hp'
        · rcases hbranch with ⟨hdying, hchoose⟩ | ⟨-, hidle, hchoose⟩ | ⟨-, -, hchoose⟩
          · by_cases hq : p = q
            · right
              subst hq
              rw [CPU.tick_current] at hcurrent
              rw [CPU.tick_state] at hdying
              refine ⟨⟨rsp, fx, rfl⟩, hcurrent, ?_, hdying⟩
              rcases cpu.tick_cases with ⟨hnone, -⟩ | ⟨q, hcurrent', ⟨-, htick⟩ | ⟨hzero, -⟩⟩
              · rw [hcurrent] at hnone
                contradiction
              · rw [htick] at hslice
                contradiction
              · rw [hcurrent] at hcurrent'
                rw [Option.some.inj hcurrent']
                exact hzero
            · left
              rw [hchoose]
              exact (List.mem_erase_of_ne hq).mpr hp'
          · left
            obtain ⟨rest, hqueue⟩ := h.tick.queue_eq hcurrent hidle
            rw [hchoose, CPU.swapIn_queue, swapOut_queue_cons hqueue,
              (List.perm_append_singleton q rest).mem_iff, ← hqueue]
            exact hp'
          · left
            rw [hchoose, CPU.swapIn_queue]
            exact hp'

theorem created_in_queue (hstart : Started cpu) {earlier later : List (Event Frame FX)}
    {process : Process Frame FX}
    (hfresh : Fresh cpu.idleProcess (earlier ++ Event.newProcess p process :: later)) :
    p ∈ (run (earlier ++ Event.newProcess p process :: later) cpu).queue ∨
    ∃ mid event rest, later = mid ++ event :: rest ∧
      Kills event (run (earlier ++ Event.newProcess p process :: mid) cpu) p := by
  induction later using List.reverseRecOn with
  | nil =>
      left
      rw [run_snoc]
      exact List.mem_append_right _ (List.mem_singleton_self p)
  | append_singleton later event ih =>
      rw [← List.cons_append, ← List.append_assoc] at hfresh ⊢
      have hinv := run_queueInv hstart hfresh.prefix
      rcases ih hfresh.prefix with hmem | ⟨mid, event', rest, rfl, hkills⟩
      · rw [run_snoc]
        rcases @mem_queue_apply _ _ _ event _ _ hinv hmem with hmem' | hkills
        · exact Or.inl hmem'
        · exact Or.inr ⟨later, event, [], rfl, hkills⟩
      · exact Or.inr ⟨mid, event', rest ++ [event], by simp, hkills⟩

/--
In every reachable state the queue has no duplicates and not the idle process,
the current process is null, idle or at the front, and every process appended is
in the queue unless a `Schedule` call has found it current and dying.
-/
theorem runQueue_invariant (hstart : Started cpu) (hfresh : Fresh cpu.idleProcess events) :
    (run events cpu).queue.Nodup ∧ cpu.idleProcess ∉ (run events cpu).queue ∧
    ((run events cpu).currentProcess = none ∨
      (run events cpu).currentProcess = some cpu.idleProcess ∨
      ∃ p, (run events cpu).currentProcess = some p ∧ (run events cpu).queue[0]? = some p) ∧
    ∀ earlier p process later, events = earlier ++ Event.newProcess p process :: later →
      p ∈ (run events cpu).queue ∨
      ∃ mid event rest, later = mid ++ event :: rest ∧
        Kills event (run (earlier ++ Event.newProcess p process :: mid) cpu) p := by
  have hinv := run_queueInv hstart hfresh
  refine ⟨hinv.nodup, ?_, ?_, ?_⟩
  · have hidle := hinv.idle
    rw [run_idle] at hidle
    exact hidle
  · have hfront := hinv.front
    rw [run_idle] at hfront
    rcases hfront with hnone | hidle | hfront
    · exact Or.inl hnone
    · exact Or.inr (Or.inl hidle)
    · cases hcurrent : (run events cpu).currentProcess with
      | none => exact Or.inl rfl
      | some p =>
          rw [hcurrent, List.head?_eq_getElem?] at hfront
          exact Or.inr (Or.inr ⟨p, rfl, hfront.symm⟩)
  · rintro earlier p process later rfl
    exact created_in_queue hstart hfresh

/-! ## A processor with two processes -/

def idleCPU : CPU Nat Unit := ⟨none, 0, [], fun _ => Process.idleContextCreation 0 () 0⟩

/-- Two processes are created, and two calls make the first one current. -/
def twoProcesses : List (Event Nat Unit) :=
  [.newProcess 1 (Process.contextCreation 10 () 0x1000),
   .newProcess 2 (Process.contextCreation 20 () 0x2000),
   .schedule 100 () false, .schedule 101 () false]

theorem idleCPU_started : Started idleCPU := ⟨rfl, rfl⟩

theorem twoProcesses_fresh : Fresh idleCPU.idleProcess twoProcesses :=
  ⟨by decide, by decide⟩

theorem runQueue_invariant_two :
    (run twoProcesses idleCPU).queue.Nodup ∧
      idleCPU.idleProcess ∉ (run twoProcesses idleCPU).queue :=
  have h := runQueue_invariant idleCPU_started twoProcesses_fresh
  ⟨h.1, h.2.1⟩

end UnifiedOS.Scheduling
