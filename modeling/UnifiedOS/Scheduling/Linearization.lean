import UnifiedOS.Scheduling.QueueLock

/-!
# The queue lock makes the calls atomic

In every interleaving of `Schedule` with any number of `NewProcess` calls, as long
as no waiting loop gives up, the processor is what its history makes of it, call
after call.  A call of `Schedule` takes effect when it decides: until then its tick
is ahead of the history, and afterwards its writes are behind.
-/

namespace UnifiedOS.Scheduling

open UnifiedOS.Foundation UnifiedOS.SMP

section Model

variable {Thread Frame FX : Type*}

namespace SchedulePhase

def lockPhase : SchedulePhase Frame FX → LockPhase
  | deciding _ _ => .critical
  | writing _ _ _ => .critical
  | _ => .outside

/-- The tick is counted and the call has not taken effect. -/
def ahead : SchedulePhase Frame FX → Bool
  | ticked _ _ => true
  | deciding _ _ => true
  | _ => false

def pending : SchedulePhase Frame FX → List (Write Frame FX)
  | writing _ _ rest => rest
  | _ => []

def switching : SchedulePhase Frame FX → Option (Frame × FX)
  | writing rsp fx _ => some (rsp, fx)
  | loading rsp fx => some (rsp, fx)
  | _ => none

end SchedulePhase

namespace NewProcessPhase

def lockPhase : NewProcessPhase → LockPhase
  | outside => .outside
  | testing _ i => .testing i
  | counting _ i => .counting i
  | adding _ => .critical
  | releasing => .critical

def building : NewProcessPhase → Option Pid
  | outside => none
  | testing p _ => some p
  | counting p _ => some p
  | adding p => some p
  | releasing => none

end NewProcessPhase

namespace LockedCPU

variable (s : LockedCPU Thread Frame FX)

def lockState : LockState (Option Thread) :=
  ⟨s.QueueLock, fun agent => agent.elim s.handler.lockPhase fun t => (s.thread t).lockPhase⟩

def Known (p : Pid) : Prop := p = s.cpu.idleProcess ∨ p ∈ created s.history

def completed : CPU Frame FX := s.cpu.complete s.handler.pending

/-- The processor that the history makes, with the tick of a call that is under way. -/
def expected (cpu : CPU Frame FX) : CPU Frame FX :=
  if s.handler.ahead then (run s.history cpu).tick.1 else run s.history cpu

def Switches (cpu : CPU Frame FX) (rsp : Frame) (fx : FX) : Prop :=
  ∃ earlier later, s.history = earlier ++ .schedule rsp fx false :: later ∧
    s.completed.currentProcess =
      ((run earlier cpu).schedule rsp fx false).1.currentProcess ∧
    s.completed.load = ((run earlier cpu).schedule rsp fx false).2

/--
New processes have addresses of their own, and no waiting loop gives up, as
`CHECK_DEADLOCK` has it do.
-/
def Allowed : Micro Thread Frame FX → Prop
  | .newProcess _ p _ => ¬ s.Known p ∧ ∀ t, (s.thread t).building ≠ some p
  | .create t => ∀ p i, s.thread t = .counting p i → checkDeadlock (i + 1) = false
  | _ => True

end LockedCPU

structure Linearized (cpu : CPU Frame FX) (s : LockedCPU Thread Frame FX) : Prop where
  held : ∃ holder, HeldBy s.lockState holder
  idle : s.cpu.idleProcess = cpu.idleProcess
  within : Within s.Known s.cpu
  names : ∀ write ∈ s.handler.pending, write.Names s.Known
  fresh : Fresh cpu.idleProcess s.history
  building : ∀ t p, (s.thread t).building = some p → ¬ s.Known p
  apart : ∀ t t' p, (s.thread t).building = some p → (s.thread t').building = some p → t = t'
  agree : Agree s.Known s.completed (s.expected cpu)
  slice : s.handler.ahead = true → (run s.history cpu).tick.2 = false
  loads : ∀ rsp fx, s.handler.switching = some (rsp, fx) → s.Switches cpu rsp fx

end Model

section Steps

variable {Thread Frame FX : Type*} {cpu : CPU Frame FX}
  {s s' : LockedCPU Thread Frame FX} {t : Thread} {p : Pid} {rsp : Frame} {fx : FX}
  {locked : Bool} {process : Process Frame FX} {state : ProcessState}
  {holder : Option (Option Thread)}

/-! ## What is the same for every step of the handler -/

theorem created_schedule (history : List (Event Frame FX)) :
    created (history ++ [.schedule rsp fx locked]) = created history := by
  rw [created_snoc, Event.created, List.append_nil]

theorem created_setState (history : List (Event Frame FX)) :
    created (history ++ [.setState p state]) = created history := by
  rw [created_snoc, Event.created, List.append_nil]

theorem completed_cpu (h : s.handler.pending = []) : s.completed = s.cpu := by
  rw [LockedCPU.completed, h]
  rfl

theorem expected_behind (h : s.handler.ahead = false) :
    s.expected cpu = run s.history cpu := by
  rw [LockedCPU.expected, h]
  rfl

theorem expected_ahead (h : s.handler.ahead = true) :
    s.expected cpu = (run s.history cpu).tick.1 := by
  rw [LockedCPU.expected, h]
  rfl

theorem expected_current :
    (s.expected cpu).currentProcess = (run s.history cpu).currentProcess := by
  unfold LockedCPU.expected
  split
  · exact CPU.tick_current
  · rfl

theorem expected_queue : (s.expected cpu).queue = (run s.history cpu).queue := by
  unfold LockedCPU.expected
  split
  · exact CPU.tick_queue
  · rfl

namespace Linearized

/-- Without a new process the scheduler comes to the same processes as before. -/
theorem handlerStep (h : Linearized cpu s) (hthread : s'.thread = s.thread)
    (hidle : s'.cpu.idleProcess = s.cpu.idleProcess)
    (hcreated : created s'.history = created s.history)
    (hheld : ∃ holder, HeldBy s'.lockState holder) (hwithin : Within s.Known s'.cpu)
    (hnames : ∀ write ∈ s'.handler.pending, write.Names s.Known)
    (hagree : Agree s.Known s'.completed (s'.expected cpu))
    (hslice : s'.handler.ahead = true → (run s'.history cpu).tick.2 = false)
    (hloads : ∀ rsp fx, s'.handler.switching = some (rsp, fx) → s'.Switches cpu rsp fx) :
    Linearized cpu s' := by
  have hknown : s'.Known = s.Known := by
    unfold LockedCPU.Known
    rw [hidle, hcreated]
  refine ⟨hheld, hidle.trans h.idle, ?_, ?_, ?_, ?_, ?_, ?_, hslice, hloads⟩
  · rw [hknown]
    exact hwithin
  · rw [hknown]
    exact hnames
  · refine ⟨?_, ?_⟩
    · rw [hcreated]
      exact h.fresh.distinct
    · rw [hcreated]
      exact h.fresh.idle
  · rw [hknown, hthread]
    exact h.building
  · rw [hthread]
    exact h.apart
  · rw [hknown]
    exact hagree

theorem building_own (h : Linearized cpu s) (hp : (s.thread t).building = some p) :
    ¬ s.Known p ∧ ∀ t', t' ≠ t → (s.thread t').building ≠ some p :=
  ⟨h.building t p hp, fun t' ht hp' => ht (h.apart t' t p hp' hp)⟩

theorem handler_outside (h : Linearized cpu s) (ht : (s.thread t).lockPhase = .critical) :
    s.handler.lockPhase ≠ .critical := by
  intro hhandler
  obtain ⟨holder, hheld⟩ := h.held
  have hsame : (some t : Option Thread) = none := hheld.mutualExclusion _ _ ht hhandler
  contradiction

theorem pending_outside {handler : SchedulePhase Frame FX} (h : handler.lockPhase ≠ .critical) :
    handler.pending = [] := by
  cases handler with
  | writing => exact absurd rfl h
  | _ => rfl

theorem addProcess_self (cpu : CPU Frame FX) (p : Pid) :
    { cpu with queue := cpu.queue ++ [p] } = cpu.addProcess p (cpu.process p) := by
  unfold CPU.addProcess CPU.update
  congr 1
  funext q
  by_cases hq : q = p <;> simp [hq]

theorem start (hstart : Started cpu) :
    Linearized cpu (LockedCPU.start cpu : LockedCPU Thread Frame FX) := by
  have hwithin : Within (LockedCPU.Known (LockedCPU.start cpu : LockedCPU Thread Frame FX))
      cpu := by
    refine ⟨fun p hp => ?_, .inl rfl, fun p hp => ?_⟩
    · rw [hstart.current] at hp
      contradiction
    · rw [hstart.queue] at hp
      exact absurd hp List.not_mem_nil
  refine ⟨⟨none, ?_⟩, rfl, hwithin, fun _ hwrite => absurd hwrite List.not_mem_nil,
    ⟨List.nodup_nil, List.not_mem_nil⟩, ?_, ?_, ⟨rfl, rfl, rfl, fun _ _ => rfl⟩, ?_, ?_⟩
  · refine ⟨⟨fun _ => rfl, fun _ => rfl⟩, fun agent => ?_⟩
    cases agent <;> exact ⟨nofun, nofun⟩
  · rintro _ _ ⟨⟩
  · rintro _ _ _ ⟨⟩
  · rintro ⟨⟩
  · rintro _ _ ⟨⟩

/-! ## Steps that the lock does not matter to -/

theorem frame (h : Linearized cpu s) {other : CPU Frame FX}
    (hagree : Agree s.Known other s.cpu) : Linearized cpu { s with cpu := other } := by
  have hcompleted : Agree s.Known (LockedCPU.completed { s with cpu := other }) s.completed :=
    hagree.complete s.handler.pending
  have hwithin : Within s.Known other := by
    refine ⟨?_, ?_, ?_⟩
    · rw [hagree.current]
      exact h.within.current
    · rw [hagree.idle]
      exact h.within.idle
    · rw [hagree.queue]
      exact h.within.queue
  refine h.handlerStep rfl hagree.idle rfl h.held hwithin h.names (hcompleted.trans h.agree)
    h.slice ?_
  intro rsp fx hswitching
  obtain ⟨earlier, later, hhistory, hcurrent, hload⟩ := h.loads rsp fx hswitching
  refine ⟨earlier, later, hhistory, hcompleted.current.trans hcurrent, ?_⟩
  rw [hcompleted.load (hwithin.complete h.names)]
  exact hload

theorem setState (h : Linearized cpu s) (p : Pid) (state : ProcessState) :
    Linearized cpu { s with
      cpu := s.cpu.setState p state
      history := s.history ++ [.setState p state] } := by
  have hrun : run (s.history ++ [.setState p state]) cpu = (run s.history cpu).setState p state :=
    run_snoc s.history _
  have hcompleted : LockedCPU.completed { s with
      cpu := s.cpu.setState p state
      history := s.history ++ [.setState p state] } = s.completed.setState p state :=
    complete_setState
  have hexpected : LockedCPU.expected { s with
      cpu := s.cpu.setState p state
      history := s.history ++ [.setState p state] } cpu = (s.expected cpu).setState p state := by
    unfold LockedCPU.expected
    rw [hrun, tick_setState]
    split <;> rfl
  refine h.handlerStep rfl rfl (created_setState s.history) h.held
    ⟨h.within.current, h.within.idle, h.within.queue⟩ h.names ?_ ?_ ?_
  · rw [hcompleted, hexpected]
    exact h.agree.update p _
  · intro hahead
    rw [hrun, tick_setState]
    exact h.slice hahead
  · intro rsp fx hswitching
    obtain ⟨earlier, later, hhistory, hcurrent, hload⟩ := h.loads rsp fx hswitching
    refine ⟨earlier, later ++ [.setState p state], ?_, ?_, ?_⟩
    · rw [hhistory, List.append_assoc, List.cons_append]
    · rw [hcompleted]
      exact hcurrent
    · rw [hcompleted, load_setState]
      exact hload

/-! ## The handler -/

theorem agree_outside (h : Linearized cpu s) (hpending : s.handler.pending = [])
    (hahead : s.handler.ahead = false) : Agree s.Known s.cpu (run s.history cpu) := by
  have hagree := h.agree
  rw [completed_cpu hpending, expected_behind hahead] at hagree
  exact hagree

/-- While nobody holds the lock the queue is the one of the history. -/
theorem agree_unlocked (h : Linearized cpu s) (hlock : s.QueueLock = 0) :
    s.cpu.currentProcess = (run s.history cpu).currentProcess ∧
      s.cpu.queue = (run s.history cpu).queue := by
  obtain ⟨holder, hheld⟩ := h.held
  obtain rfl : holder = none := hheld.lock.mp hlock
  have houtside : s.handler.lockPhase ≠ .critical := by
    intro hcritical
    have hholder := (hheld.inside none).mp hcritical
    contradiction
  have hagree := h.agree
  rw [completed_cpu (pending_outside houtside)] at hagree
  exact ⟨hagree.current.trans expected_current, hagree.queue.trans expected_queue⟩

theorem goesOn (h : Linearized cpu s) (hphase : s.handler = .outside) (rsp : Frame) (fx : FX) :
    Linearized cpu { s with
      cpu := s.cpu.tick.1
      history := s.history ++ [.schedule rsp fx true] } := by
  obtain ⟨htick, -⟩ := (h.agree_outside (by rw [hphase]; rfl) (by rw [hphase]; rfl)).tick h.within
  refine h.handlerStep rfl CPU.tick_idle (created_schedule s.history) h.held h.within.tick
    h.names ?_ ?_ ?_
  · rw [completed_cpu (by rw [hphase]; rfl), expected_behind (by rw [hphase]; rfl), run_snoc,
      Event.apply, schedule_locked]
    exact htick
  · intro hahead
    rw [hphase] at hahead
    contradiction
  · intro rsp fx hswitching
    rw [hphase] at hswitching
    contradiction

end Linearized

/-! ## The lock -/

inductive LockStep : BitVec 32 → LockPhase → BitVec 32 → LockPhase → Prop where
  | waits {lock lock' : BitVec 32} {phase phase' : LockPhase} (hphase : phase ≠ .critical)
      (hphase' : phase' ≠ .critical) (hlock : lock' = 0 ↔ lock = 0) :
      LockStep lock phase lock' phase'
  | works (lock : BitVec 32) : LockStep lock .critical lock .critical
  | takes (phase : LockPhase) : LockStep 0 phase 1 .critical
  | gives (lock : BitVec 32) : LockStep lock .critical 0 .outside

theorem LockStep.held {Agent : Type*} [DecidableEq Agent] {l : LockState Agent} {c : Agent}
    {lock : BitVec 32} {phase phase' : LockPhase} (hphase : l.state c = phase)
    (hstep : LockStep l.shared phase lock phase') (h : ∃ holder, HeldBy l holder) :
    ∃ holder, HeldBy ⟨lock, Function.update l.state c phase'⟩ holder := by
  obtain ⟨holder, h⟩ := h
  obtain ⟨before, state⟩ := l
  cases hstep with
  | waits hbefore hafter hlock => exact ⟨holder, h.moves (hphase ▸ hbefore) hafter hlock⟩
  | works =>
      have hsame : Function.update state c .critical = state := by
        rw [Function.update_eq_iff]
        exact ⟨hphase.symm, fun _ _ => rfl⟩
      rw [hsame]
      exact ⟨holder, h⟩
  | takes =>
      obtain rfl : holder = none := h.lock.mp rfl
      exact ⟨some c, h.takes⟩
  | gives =>
      obtain rfl : holder = some c := (h.inside c).mp hphase
      exact ⟨none, h.gives⟩

variable [DecidableEq Thread]

theorem held_handler (h : Linearized cpu s) (hthread : s'.thread = s.thread)
    (hstep : LockStep s.QueueLock s.handler.lockPhase s'.QueueLock s'.handler.lockPhase) :
    ∃ holder, HeldBy s'.lockState holder := by
  have hstate : s'.lockState =
      ⟨s'.QueueLock, Function.update s.lockState.state none s'.handler.lockPhase⟩ := by
    unfold LockedCPU.lockState
    congr 1
    funext agent
    cases agent with
    | none => simp
    | some t => simp [hthread]
  rw [hstate]
  exact hstep.held rfl h.held

theorem held_thread {phase : NewProcessPhase} (h : Linearized cpu s)
    (hhandler : s'.handler = s.handler) (hthread : s'.thread = Function.update s.thread t phase)
    (hstep : LockStep s.QueueLock (s.thread t).lockPhase s'.QueueLock phase.lockPhase) :
    ∃ holder, HeldBy s'.lockState holder := by
  have hstate : s'.lockState =
      ⟨s'.QueueLock, Function.update s.lockState.state (some t) phase.lockPhase⟩ := by
    unfold LockedCPU.lockState
    congr 1
    funext agent
    cases agent with
    | none => simp [hhandler]
    | some t' =>
        by_cases ht : t' = t
        · simp [ht, hthread]
        · simp [ht, hthread]
  rw [hstate]
  exact hstep.held rfl h.held

namespace Linearized

theorem ticked (h : Linearized cpu s) (hphase : s.handler = .outside)
    (hslice : s.cpu.tick.2 = false) (rsp : Frame) (fx : FX) :
    Linearized cpu { s with cpu := s.cpu.tick.1, handler := .ticked rsp fx } := by
  obtain ⟨htick, hsame⟩ :=
    (h.agree_outside (by rw [hphase]; rfl) (by rw [hphase]; rfl)).tick h.within
  refine h.handlerStep rfl CPU.tick_idle rfl ?_ h.within.tick (by simp [SchedulePhase.pending])
    ?_ ?_ (by simp [SchedulePhase.switching])
  · refine held_handler h rfl ?_
    rw [hphase]
    exact .waits nofun nofun Iff.rfl
  · rw [completed_cpu rfl, expected_ahead rfl]
    exact htick
  · intro _
    rw [← hsame]
    exact hslice

theorem testFails (h : Linearized cpu s) (hphase : s.handler = .ticked rsp fx)
    (hlock : s.QueueLock ≠ 0) :
    Linearized cpu { s with
      QueueLock := 1
      handler := .outside
      history := s.history ++ [.schedule rsp fx true] } := by
  have hagree := h.agree
  rw [completed_cpu (by rw [hphase]; rfl), expected_ahead (by rw [hphase]; rfl)] at hagree
  refine h.handlerStep rfl rfl (created_schedule s.history) ?_ h.within
    (by simp [SchedulePhase.pending]) ?_ (by simp [SchedulePhase.ahead])
    (by simp [SchedulePhase.switching])
  · refine held_handler h rfl ?_
    rw [hphase]
    exact .waits nofun nofun (iff_of_false (by simp) hlock)
  · rw [completed_cpu rfl, expected_behind rfl, run_snoc, Event.apply, schedule_locked]
    exact hagree

theorem testSucceeds (h : Linearized cpu s) (hphase : s.handler = .ticked rsp fx)
    (hlock : s.QueueLock = 0) :
    Linearized cpu { s with QueueLock := 1, handler := .deciding rsp fx } := by
  have hagree := h.agree
  rw [completed_cpu (by rw [hphase]; rfl), expected_ahead (by rw [hphase]; rfl)] at hagree
  refine h.handlerStep rfl rfl rfl ?_ h.within (by simp [SchedulePhase.pending]) ?_ ?_
    (by simp [SchedulePhase.switching])
  · refine held_handler h rfl ?_
    rw [hphase, hlock]
    exact .takes _
  · rw [completed_cpu rfl, expected_ahead rfl]
    exact hagree
  · intro _
    exact h.slice (by rw [hphase]; rfl)

/-- The call takes effect when the decision is made. -/
theorem decides (h : Linearized cpu s) (hphase : s.handler = .deciding rsp fx) :
    Linearized cpu { s with
      handler := .writing rsp fx (s.cpu.writes rsp fx)
      history := s.history ++ [.schedule rsp fx false] } := by
  have hagree := h.agree
  rw [completed_cpu (by rw [hphase]; rfl), expected_ahead (by rw [hphase]; rfl)] at hagree
  have hslice := h.slice (by rw [hphase]; rfl)
  have hchoose : Agree s.Known (s.cpu.choose rsp fx) ((run s.history cpu).tick.1.choose rsp fx) :=
    hagree.choose h.within
  have hcompleted : LockedCPU.completed { s with
      handler := .writing rsp fx (s.cpu.writes rsp fx)
      history := s.history ++ [.schedule rsp fx false] } = s.cpu.choose rsp fx :=
    complete_writes s.cpu rsp fx
  refine h.handlerStep rfl rfl (created_schedule s.history) ?_ h.within (writes_names h.within)
    ?_ (by simp [SchedulePhase.ahead]) ?_
  · refine held_handler h rfl ?_
    rw [hphase]
    exact .works _
  · rw [hcompleted, expected_behind rfl, run_snoc, Event.apply, schedule_unlocked hslice]
    exact hchoose
  · rintro _ _ ⟨⟩
    refine ⟨s.history, [], rfl, ?_, ?_⟩
    · rw [hcompleted, schedule_unlocked hslice]
      exact hchoose.current
    · rw [hcompleted, schedule_unlocked hslice]
      exact hchoose.load h.within.choose

theorem writes (h : Linearized cpu s) {write : Write Frame FX} {rest : List (Write Frame FX)}
    (hphase : s.handler = .writing rsp fx (write :: rest)) :
    Linearized cpu { s with cpu := write.apply s.cpu, handler := .writing rsp fx rest } := by
  obtain ⟨hfirst, hrest⟩ : write.Names s.Known ∧ ∀ write ∈ rest, write.Names s.Known := by
    have hnames := h.names
    rw [hphase] at hnames
    exact List.forall_mem_cons.mp hnames
  have hcompleted : LockedCPU.completed { s with
      cpu := write.apply s.cpu
      handler := .writing rsp fx rest } = s.completed := by
    unfold LockedCPU.completed
    rw [hphase]
    rfl
  refine h.handlerStep rfl Write.apply_idle rfl ?_ (h.within.applyWrite hfirst) hrest ?_
    (by simp [SchedulePhase.ahead]) ?_
  · refine held_handler h rfl ?_
    rw [hphase]
    exact .works _
  · have hagree := h.agree
    rw [expected_behind (by rw [hphase]; rfl)] at hagree
    rw [hcompleted, expected_behind rfl]
    exact hagree
  · rintro _ _ ⟨⟩
    unfold LockedCPU.Switches
    rw [hcompleted]
    exact h.loads rsp fx (by rw [hphase]; rfl)

theorem releases (h : Linearized cpu s) (hphase : s.handler = .writing rsp fx []) :
    Linearized cpu { s with QueueLock := 0, handler := .loading rsp fx } := by
  have hcompleted : LockedCPU.completed { s with
      QueueLock := 0, handler := .loading rsp fx } = s.completed := by
    unfold LockedCPU.completed
    rw [hphase]
    rfl
  refine h.handlerStep rfl rfl rfl ?_ h.within (by simp [SchedulePhase.pending]) ?_
    (by simp [SchedulePhase.ahead]) ?_
  · refine held_handler h rfl ?_
    rw [hphase]
    exact .gives _
  · have hagree := h.agree
    rw [expected_behind (by rw [hphase]; rfl)] at hagree
    rw [hcompleted, expected_behind rfl]
    exact hagree
  · rintro _ _ ⟨⟩
    unfold LockedCPU.Switches
    rw [hcompleted]
    exact h.loads rsp fx (by rw [hphase]; rfl)

theorem leaves (h : Linearized cpu s) (hphase : s.handler = .loading rsp fx) :
    Linearized cpu { s with handler := .outside } := by
  refine h.handlerStep rfl rfl rfl ?_ h.within (by simp [SchedulePhase.pending]) ?_
    (by simp [SchedulePhase.ahead]) (by simp [SchedulePhase.switching])
  · refine held_handler h rfl ?_
    rw [hphase]
    exact .waits nofun nofun Iff.rfl
  · rw [completed_cpu rfl, expected_behind rfl]
    exact h.agree_outside (by rw [hphase]; rfl) (by rw [hphase]; rfl)

/-! ## The threads -/

theorem building_update {thread : Thread → NewProcessPhase} {phase : NewProcessPhase}
    {t' : Thread} (h : (Function.update thread t phase t').building = some p) :
    (t' = t ∧ phase.building = some p) ∨ (t' ≠ t ∧ (thread t').building = some p) := by
  by_cases ht : t' = t
  · subst ht
    rw [Function.update_self] at h
    exact .inl ⟨rfl, h⟩
  · rw [Function.update_of_ne ht] at h
    exact .inr ⟨ht, h⟩

theorem threadStep {phase : NewProcessPhase} (h : Linearized cpu s)
    (hhandler : s'.handler = s.handler) (hcpu : s'.cpu = s.cpu) (hhistory : s'.history = s.history)
    (hthread : s'.thread = Function.update s.thread t phase)
    (hstep : LockStep s.QueueLock (s.thread t).lockPhase s'.QueueLock phase.lockPhase)
    (hbuilding : ∀ p, phase.building = some p →
      ¬ s.Known p ∧ ∀ t', t' ≠ t → (s.thread t').building ≠ some p) : Linearized cpu s' := by
  have hheld := held_thread h hhandler hthread hstep
  obtain ⟨QueueLock, cpu', handler, thread, history⟩ := s'
  dsimp only at hhandler hcpu hhistory hthread
  subst hhandler hcpu hhistory hthread
  refine ⟨hheld, h.idle, h.within, h.names, h.fresh, ?_, ?_, h.agree, h.slice, h.loads⟩
  · intro t' p hp
    rcases building_update hp with ⟨-, hp⟩ | ⟨-, hp⟩
    · exact (hbuilding p hp).1
    · exact h.building t' p hp
  · intro t₁ t₂ p h₁ h₂
    rcases building_update h₁ with ⟨ht₁, hp₁⟩ | ⟨ht₁, hp₁⟩
    · rcases building_update h₂ with ⟨ht₂, -⟩ | ⟨ht₂, hp₂⟩
      · rw [ht₁, ht₂]
      · exact absurd hp₂ ((hbuilding p hp₁).2 t₂ ht₂)
    · rcases building_update h₂ with ⟨-, hp₂⟩ | ⟨-, hp₂⟩
      · exact absurd hp₁ ((hbuilding p hp₂).2 t₁ ht₁)
      · exact h.apart t₁ t₂ p hp₁ hp₂

theorem builds (h : Linearized cpu s) (hphase : s.thread t = .outside)
    (hallowed : ¬ s.Known p ∧ ∀ t, (s.thread t).building ≠ some p)
    (process : Process Frame FX) :
    Linearized cpu { s with
      cpu := s.cpu.update p fun _ => process
      thread := Function.update s.thread t (.testing p 0) } := by
  have hagree : Agree s.Known (s.cpu.update p fun _ => process) s.cpu := by
    refine ⟨rfl, rfl, rfl, fun q hq => CPU.update_other ?_⟩
    rintro rfl
    exact hallowed.1 hq
  refine (h.frame hagree).threadStep rfl rfl rfl rfl ?_ ?_
  · dsimp only
    rw [hphase]
    exact .waits nofun nofun Iff.rfl
  · rintro _ ⟨⟩
    exact ⟨hallowed.1, fun t' _ => hallowed.2 t'⟩

theorem tests {i : BitVec 32} (h : Linearized cpu s) (hphase : s.thread t = .testing p i) :
    Linearized cpu { s with
      QueueLock := 1
      thread := Function.update s.thread t
        (if s.QueueLock = 0 then .adding p else .counting p i) } := by
  have hown := h.building_own (by rw [hphase]; rfl : (s.thread t).building = some p)
  refine h.threadStep rfl rfl rfl rfl ?_ ?_
  · rw [hphase]
    split
    · next hlock =>
        rw [hlock]
        exact .takes _
    · next hlock => exact .waits nofun nofun (iff_of_false (by simp) hlock)
  · intro q hq
    split at hq
    · exact Option.some.inj hq ▸ hown
    · exact Option.some.inj hq ▸ hown

theorem counts {i : BitVec 32} (h : Linearized cpu s) (hphase : s.thread t = .counting p i)
    (hretries : checkDeadlock (i + 1) = false) :
    Linearized cpu { s with
      thread := Function.update s.thread t
        (if checkDeadlock (i + 1) then .adding p else .testing p (i + 1)) } := by
  have hown := h.building_own (by rw [hphase]; rfl : (s.thread t).building = some p)
  rw [hretries]
  refine h.threadStep rfl rfl rfl rfl ?_ ?_
  · rw [hphase]
    exact .waits nofun nofun Iff.rfl
  · rintro _ ⟨⟩
    exact hown

theorem gives (h : Linearized cpu s) (hphase : s.thread t = .releasing) :
    Linearized cpu { s with
      QueueLock := 0
      thread := Function.update s.thread t .outside } := by
  refine h.threadStep rfl rfl rfl rfl ?_ (by simp [NewProcessPhase.building])
  rw [hphase]
  exact .gives _

/-- The call takes effect when the process is put into the queue. -/
theorem adds (h : Linearized cpu s) (hphase : s.thread t = .adding p) :
    Linearized cpu { s with
      cpu := { s.cpu with queue := s.cpu.queue ++ [p] }
      thread := Function.update s.thread t .releasing
      history := s.history ++ [.newProcess p (s.cpu.process p)] } := by
  obtain ⟨hnew, halone⟩ :=
    h.building_own (by rw [hphase]; rfl : (s.thread t).building = some p)
  have hinside : (s.thread t).lockPhase = .critical := by rw [hphase]; rfl
  have hpending := pending_outside (h.handler_outside hinside)
  have hcreated : created (s.history ++ [.newProcess p (s.cpu.process p)]) =
      created s.history ++ [p] := created_snoc _ _
  have hknown : LockedCPU.Known { s with
      cpu := { s.cpu with queue := s.cpu.queue ++ [p] }
      thread := Function.update s.thread t .releasing
      history := s.history ++ [.newProcess p (s.cpu.process p)] } =
        fun q => s.Known q ∨ q = p := by
    funext q
    unfold LockedCPU.Known
    dsimp only
    rw [hcreated, List.mem_append, List.mem_singleton, or_assoc]
  have hcompleted : LockedCPU.completed { s with
      cpu := { s.cpu with queue := s.cpu.queue ++ [p] }
      thread := Function.update s.thread t .releasing
      history := s.history ++ [.newProcess p (s.cpu.process p)] } =
        { s.cpu with queue := s.cpu.queue ++ [p] } := completed_cpu hpending
  have hagree := h.agree
  rw [completed_cpu hpending] at hagree
  have hcurrent : (run s.history cpu).currentProcess ≠ some p := by
    rw [← expected_current, ← hagree.current]
    exact fun heq => hnew (h.within.current p heq)
  have hrun : run (s.history ++ [.newProcess p (s.cpu.process p)]) cpu =
      (run s.history cpu).addProcess p (s.cpu.process p) := run_snoc _ _
  refine ⟨held_thread h rfl rfl ?_, h.idle, ?_, ?_, ⟨?_, ?_⟩, ?_, ?_, ?_, ?_, ?_⟩
  · rw [hphase]
    exact .works _
  · rw [hknown]
    refine ⟨fun q hq => .inl (h.within.current q hq), .inl h.within.idle, fun q hq => ?_⟩
    rcases List.mem_append.mp hq with hq | hq
    · exact .inl (h.within.queue q hq)
    · exact .inr (List.mem_singleton.mp hq)
  · dsimp only
    rw [hpending]
    exact fun _ hwrite => absurd hwrite List.not_mem_nil
  · rw [hcreated, List.nodup_append]
    refine ⟨h.fresh.distinct, List.nodup_singleton p, ?_⟩
    rintro q hq _ hp rfl
    exact hnew (.inr (List.mem_singleton.mp hp ▸ hq))
  · rw [hcreated, List.mem_append, List.mem_singleton]
    rintro (hold | heq)
    · exact h.fresh.idle hold
    · exact hnew (.inl (heq.symm.trans h.idle.symm))
  · intro t' q hq
    rw [hknown]
    rcases building_update hq with ⟨-, hq'⟩ | ⟨ht, hq'⟩
    · contradiction
    · rintro (hold | heq)
      · exact h.building t' q hq' hold
      · exact halone t' ht (heq ▸ hq')
  · intro t₁ t₂ q h₁ h₂
    rcases building_update h₁ with ⟨-, hq₁⟩ | ⟨-, hq₁⟩
    · contradiction
    · rcases building_update h₂ with ⟨-, hq₂⟩ | ⟨-, hq₂⟩
      · contradiction
      · exact h.apart t₁ t₂ q hq₁ hq₂
  · have hexpected : LockedCPU.expected { s with
        cpu := { s.cpu with queue := s.cpu.queue ++ [p] }
        thread := Function.update s.thread t .releasing
        history := s.history ++ [.newProcess p (s.cpu.process p)] } cpu =
          (s.expected cpu).addProcess p (s.cpu.process p) := by
      unfold LockedCPU.expected
      rw [hrun, tick_addProcess hcurrent]
      split <;> rfl
    rw [hknown, hexpected, hcompleted, addProcess_self]
    exact hagree.addProcess
  · intro hahead
    rw [hrun, tick_addProcess hcurrent]
    exact h.slice hahead
  · intro rsp fx hswitching
    obtain ⟨earlier, later, hhistory, hswitched, hload⟩ := h.loads rsp fx hswitching
    refine ⟨earlier, later ++ [.newProcess p (s.cpu.process p)], ?_, ?_, ?_⟩
    · rw [hhistory, List.append_assoc, List.cons_append]
    · rw [hcompleted, ← hswitched, completed_cpu hpending]
    · rw [hcompleted, ← hload, completed_cpu hpending]
      rfl

/-! ## Runs -/

theorem interrupt (h : Linearized cpu s) (hnext : s.interrupt rsp fx = some s') :
    Linearized cpu s' := by
  unfold LockedCPU.interrupt at hnext
  cases hphase : s.handler with
  | outside =>
      simp only [hphase] at hnext
      split at hnext
      · obtain rfl := Option.some.inj hnext
        exact hphase ▸ h.goesOn hphase rsp fx
      · next hslice =>
          obtain rfl := Option.some.inj hnext
          exact h.ticked hphase (Bool.eq_false_iff.mpr hslice) rsp fx
  | _ =>
      simp only [hphase] at hnext
      contradiction

theorem schedule (h : Linearized cpu s) (hnext : s.schedule = some s') : Linearized cpu s' := by
  unfold LockedCPU.schedule at hnext
  cases hphase : s.handler with
  | outside =>
      simp only [hphase] at hnext
      contradiction
  | ticked rsp fx =>
      simp only [hphase] at hnext
      split at hnext
      · next hlock =>
          obtain rfl := Option.some.inj hnext
          exact h.testSucceeds hphase hlock
      · next hlock =>
          obtain rfl := Option.some.inj hnext
          exact h.testFails hphase hlock
  | deciding rsp fx =>
      simp only [hphase] at hnext
      obtain rfl := Option.some.inj hnext
      exact h.decides hphase
  | writing rsp fx rest =>
      cases rest with
      | nil =>
          simp only [hphase] at hnext
          obtain rfl := Option.some.inj hnext
          exact h.releases hphase
      | cons write rest =>
          simp only [hphase] at hnext
          obtain rfl := Option.some.inj hnext
          exact h.writes hphase
  | loading rsp fx =>
      simp only [hphase] at hnext
      obtain rfl := Option.some.inj hnext
      exact h.leaves hphase

theorem create (h : Linearized cpu s) (hretries : s.Allowed (.create t))
    (hnext : s.create t = some s') : Linearized cpu s' := by
  unfold LockedCPU.create at hnext
  cases hphase : s.thread t with
  | outside =>
      simp only [hphase] at hnext
      contradiction
  | testing p i =>
      simp only [hphase] at hnext
      obtain rfl := Option.some.inj hnext
      exact h.tests hphase
  | counting p i =>
      simp only [hphase] at hnext
      obtain rfl := Option.some.inj hnext
      exact h.counts hphase (hretries p i hphase)
  | adding p =>
      simp only [hphase] at hnext
      obtain rfl := Option.some.inj hnext
      exact h.adds hphase
  | releasing =>
      simp only [hphase] at hnext
      obtain rfl := Option.some.inj hnext
      exact h.gives hphase

theorem newProcess (h : Linearized cpu s) (hallowed : s.Allowed (.newProcess t p process))
    (hnext : s.newProcess t p process = some s') : Linearized cpu s' := by
  unfold LockedCPU.newProcess at hnext
  cases hphase : s.thread t with
  | outside =>
      simp only [hphase] at hnext
      obtain rfl := Option.some.inj hnext
      exact h.builds hphase hallowed process
  | _ =>
      simp only [hphase] at hnext
      contradiction

theorem next {action : Micro Thread Frame FX} (h : Linearized cpu s)
    (hallowed : s.Allowed action) (hnext : s.next action = some s') : Linearized cpu s' := by
  cases action with
  | interrupt rsp fx => exact h.interrupt hnext
  | schedule => exact h.schedule hnext
  | newProcess t p process => exact h.newProcess hallowed hnext
  | create t => exact h.create hallowed hnext
  | setState p state =>
      obtain rfl := Option.some.inj hnext
      exact h.setState p state

end Linearized

end Steps

end UnifiedOS.Scheduling
