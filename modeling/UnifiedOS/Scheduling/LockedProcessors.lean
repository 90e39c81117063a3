import UnifiedOS.Scheduling.Linearization
import UnifiedOS.Scheduling.Processors

/-!
# All processors under their queue locks

The steps of `Schedule` and `NewProcess` interleave on all processors, and the
processes lie in the memory that all of them share.  Whatever the order of the
steps, there is one of whole calls that brings the processors to the same queues
and processes, and every call loads what it would load there.
-/

namespace UnifiedOS.Scheduling

open UnifiedOS.Foundation UnifiedOS.SMP Configuration

structure LockedSlot (Thread Frame FX : Type*) where
  QueueLock : BitVec 32
  slot : Slot
  handler : SchedulePhase Frame FX
  thread : Thread → NewProcessPhase
  history : List (Event Frame FX)

section Model

variable {Thread Frame FX : Type*}

def LockedSlot.locked (l : LockedSlot Thread Frame FX) (process : Processes Frame FX) :
    LockedCPU Thread Frame FX :=
  ⟨l.QueueLock, l.slot.cpu process, l.handler, l.thread, l.history⟩

def LockedCPU.slot (s : LockedCPU Thread Frame FX) : LockedSlot Thread Frame FX :=
  ⟨s.QueueLock, s.cpu.slot, s.handler, s.thread, s.history⟩

def Micro.next [DecidableEq Thread] (action : Micro Thread Frame FX)
    (process : Processes Frame FX) (slot : LockedSlot Thread Frame FX) :
    Option (Processes Frame FX × LockedSlot Thread Frame FX) :=
  ((slot.locked process).next action).map fun s => (s.cpu.process, s.slot)

/-- A new process goes to its processor, and only there its `State` changes. -/
def Micro.On {Core : Type*} (owner : Pid → Core) (core : Core) : Micro Thread Frame FX → Prop
  | newProcess _ p _ => owner p = core
  | setState p _ => owner p = core
  | _ => True

abbrev LockedProcessors (Core Thread Frame FX : Type*) :=
  Configuration Core (Processes Frame FX) (LockedSlot Thread Frame FX)

variable {Core : Type*} [DecidableEq Core] (s : LockedProcessors Core Thread Frame FX)

def lockedView (core : Core) : LockedCPU Thread Frame FX := (s.state core).locked s.shared

def unlockedProcessors : Processors Core Frame FX :=
  ⟨s.shared, fun core => (s.state core).slot⟩

def Guard (owner : Pid → Core) (s : LockedProcessors Core Thread Frame FX) (core : Core)
    (action : Micro Thread Frame FX) : Prop :=
  (lockedView s core).Allowed action ∧ action.On owner core

/-- No call has been made yet, and every processor has an idle process of its own. -/
structure Opened (owner : Pid → Core) : Prop where
  start : ∀ core, lockedView s core = LockedCPU.start (view (unlockedProcessors s) core)
  started : AllStarted (unlockedProcessors s)
  idle : ∀ core, owner (s.state core).slot.idleProcess = core

structure CoreInv (owner : Pid → Core) (core : Core) (cpu : CPU Frame FX)
    (s : LockedCPU Thread Frame FX) : Prop where
  linearized : Linearized cpu s
  known : ∀ p, s.Known p → owner p = core
  building : ∀ t p, (s.thread t).building = some p → owner p = core

end Model

/-! ## What a step can change -/

section Steps

variable {Core Thread Frame FX : Type*} {owner : Pid → Core} {core : Core}
  {cpu : CPU Frame FX} {s s' : LockedCPU Thread Frame FX} {action : Micro Thread Frame FX}
  {t : Thread} {p q : Pid} {rsp : Frame} {fx : FX} {process : Process Frame FX}

structure KeepsTo (owner : Pid → Core) (core : Core) (s s' : LockedCPU Thread Frame FX) :
    Prop where
  events : ∃ events, s'.history = s.history ++ events ∧ ∀ event ∈ events, event.On owner core
  building : ∀ t p, (s'.thread t).building = some p → owner p = core
  frame : ∀ q, owner q ≠ core → s'.cpu.process q = s.cpu.process q

theorem CoreInv.within (h : CoreInv owner core cpu s) : Within (owner · = core) s.cpu :=
  ⟨fun p hp => h.known p (h.linearized.within.current p hp),
    h.known _ h.linearized.within.idle,
    fun p hp => h.known p (h.linearized.within.queue p hp)⟩

theorem tick_frame (h : Within (owner · = core) cpu) (hq : owner q ≠ core) :
    cpu.tick.1.process q = cpu.process q := by
  cases hcurrent : cpu.currentProcess with
  | none => rw [tick_of_none hcurrent]
  | some p =>
      have hne : q ≠ p := by
        rintro rfl
        exact hq (h.current q hcurrent)
      rw [tick_of_current hcurrent]
      dsimp only
      exact CPU.update_other hne

theorem CoreInv.other (h : CoreInv owner core cpu s) {process : Processes Frame FX}
    (hframe : ∀ q, owner q = core → process q = s.cpu.process q) :
    CoreInv owner core cpu { s with cpu := { s.cpu with process := process } } := by
  refine ⟨h.linearized.frame ?_, h.known, h.building⟩
  exact ⟨rfl, rfl, rfl, fun q hq => hframe q (h.known q hq)⟩

theorem CoreInv.interrupt (h : CoreInv owner core cpu s) (hnext : s.interrupt rsp fx = some s') :
    KeepsTo owner core s s' := by
  unfold LockedCPU.interrupt at hnext
  cases hphase : s.handler with
  | outside =>
      simp only [hphase] at hnext
      split at hnext
      · obtain rfl := Option.some.inj hnext
        refine ⟨⟨[.schedule rsp fx true], rfl, ?_⟩, h.building,
          fun q hq => tick_frame h.within hq⟩
        intro event hevent
        rw [List.mem_singleton.mp hevent]
        trivial
      · obtain rfl := Option.some.inj hnext
        exact ⟨⟨[], (List.append_nil _).symm, List.forall_mem_nil _⟩, h.building,
          fun q hq => tick_frame h.within hq⟩
  | _ =>
      simp only [hphase] at hnext
      contradiction

theorem CoreInv.schedule (h : CoreInv owner core cpu s) (hnext : s.schedule = some s') :
    KeepsTo owner core s s' := by
  have hnothing : ∃ events, s.history = s.history ++ events ∧
      ∀ event ∈ events, event.On owner core :=
    ⟨[], (List.append_nil _).symm, List.forall_mem_nil _⟩
  have hcall : ∀ (rsp : Frame) (fx : FX) (locked : Bool),
      ∀ event ∈ [Event.schedule rsp fx locked], event.On owner core := by
    intro rsp fx locked event hevent
    rw [List.mem_singleton.mp hevent]
    trivial
  unfold LockedCPU.schedule at hnext
  cases hphase : s.handler with
  | outside =>
      simp only [hphase] at hnext
      contradiction
  | ticked rsp fx =>
      simp only [hphase] at hnext
      split at hnext
      · obtain rfl := Option.some.inj hnext
        exact ⟨hnothing, h.building, fun _ _ => rfl⟩
      · obtain rfl := Option.some.inj hnext
        exact ⟨⟨_, rfl, hcall rsp fx true⟩, h.building, fun _ _ => rfl⟩
  | deciding rsp fx =>
      simp only [hphase] at hnext
      obtain rfl := Option.some.inj hnext
      exact ⟨⟨_, rfl, hcall rsp fx false⟩, h.building, fun _ _ => rfl⟩
  | writing rsp fx rest =>
      cases rest with
      | nil =>
          simp only [hphase] at hnext
          obtain rfl := Option.some.inj hnext
          exact ⟨hnothing, h.building, fun _ _ => rfl⟩
      | cons write rest =>
          simp only [hphase] at hnext
          obtain rfl := Option.some.inj hnext
          have hnames : write.Names s.Known := by
            refine h.linearized.names write ?_
            rw [hphase]
            exact List.mem_cons_self
          exact ⟨hnothing, h.building, fun q hq =>
            Write.frame h.linearized.within hnames fun hknown => hq (h.known q hknown)⟩
  | loading rsp fx =>
      simp only [hphase] at hnext
      obtain rfl := Option.some.inj hnext
      exact ⟨hnothing, h.building, fun _ _ => rfl⟩

variable [DecidableEq Thread]

theorem CoreInv.building_update (h : CoreInv owner core cpu s) {phase : NewProcessPhase}
    (hphase : ∀ p, phase.building = some p → owner p = core) :
    ∀ t' p, (Function.update s.thread t phase t').building = some p → owner p = core := by
  intro t' p hp
  rcases Linearized.building_update hp with ⟨-, hp'⟩ | ⟨-, hp'⟩
  · exact hphase p hp'
  · exact h.building t' p hp'

theorem CoreInv.newProcess (h : CoreInv owner core cpu s) (hp : owner p = core)
    (hnext : s.newProcess t p process = some s') : KeepsTo owner core s s' := by
  unfold LockedCPU.newProcess at hnext
  cases hphase : s.thread t with
  | outside =>
      simp only [hphase] at hnext
      obtain rfl := Option.some.inj hnext
      refine ⟨⟨[], (List.append_nil _).symm, List.forall_mem_nil _⟩, h.building_update ?_, ?_⟩
      · rintro _ ⟨⟩
        exact hp
      · intro q hq
        have hne : q ≠ p := fun heq => hq ((congrArg owner heq).trans hp)
        dsimp only
        exact CPU.update_other hne
  | _ =>
      simp only [hphase] at hnext
      contradiction

theorem CoreInv.create (h : CoreInv owner core cpu s) (hnext : s.create t = some s') :
    KeepsTo owner core s s' := by
  have hnothing : ∃ events, s.history = s.history ++ events ∧
      ∀ event ∈ events, event.On owner core :=
    ⟨[], (List.append_nil _).symm, List.forall_mem_nil _⟩
  unfold LockedCPU.create at hnext
  cases hphase : s.thread t with
  | outside =>
      simp only [hphase] at hnext
      contradiction
  | testing p i =>
      have hp : owner p = core := h.building t p (by rw [hphase]; rfl)
      simp only [hphase] at hnext
      obtain rfl := Option.some.inj hnext
      refine ⟨hnothing, h.building_update ?_, fun _ _ => rfl⟩
      intro q hq
      split at hq <;> exact Option.some.inj hq ▸ hp
  | counting p i =>
      have hp : owner p = core := h.building t p (by rw [hphase]; rfl)
      simp only [hphase] at hnext
      obtain rfl := Option.some.inj hnext
      refine ⟨hnothing, h.building_update ?_, fun _ _ => rfl⟩
      intro q hq
      split at hq <;> exact Option.some.inj hq ▸ hp
  | adding p =>
      have hp : owner p = core := h.building t p (by rw [hphase]; rfl)
      simp only [hphase] at hnext
      obtain rfl := Option.some.inj hnext
      refine ⟨⟨_, rfl, ?_⟩, h.building_update (by rintro _ ⟨⟩), fun _ _ => rfl⟩
      intro event hevent
      rw [List.mem_singleton.mp hevent]
      exact hp
  | releasing =>
      simp only [hphase] at hnext
      obtain rfl := Option.some.inj hnext
      exact ⟨hnothing, h.building_update (by rintro _ ⟨⟩), fun _ _ => rfl⟩

theorem CoreInv.keepsTo (h : CoreInv owner core cpu s) (hon : action.On owner core)
    (hnext : s.next action = some s') : KeepsTo owner core s s' := by
  cases action with
  | interrupt rsp fx => exact h.interrupt hnext
  | schedule => exact h.schedule hnext
  | newProcess t p process => exact h.newProcess hon hnext
  | create t => exact h.create hnext
  | setState p state =>
      obtain rfl := Option.some.inj hnext
      refine ⟨⟨[.setState p state], rfl, ?_⟩, h.building, ?_⟩
      · intro event hevent
        rw [List.mem_singleton.mp hevent]
        exact hon
      · intro q hq
        have hne : q ≠ p := fun heq => hq ((congrArg owner heq).trans hon)
        dsimp only
        unfold CPU.setState
        exact CPU.update_other hne

theorem CoreInv.own (h : CoreInv owner core cpu s) (hallowed : s.Allowed action)
    (hon : action.On owner core) (hnext : s.next action = some s') :
    CoreInv owner core cpu s' := by
  have hkeeps := h.keepsTo hon hnext
  have hlinearized := h.linearized.next hallowed hnext
  refine ⟨hlinearized, fun p hp => ?_, hkeeps.building⟩
  obtain ⟨events, hhistory, hevents⟩ := hkeeps.events
  rcases hp with hidle | hcreated
  · refine h.known p (.inl ?_)
    rw [hidle, hlinearized.idle, h.linearized.idle]
  · rw [hhistory, created_append] at hcreated
    rcases List.mem_append.mp hcreated with hold | hnew
    · exact h.known p (.inr hold)
    · obtain ⟨event, hmem, hp⟩ := List.mem_flatMap.mp hnew
      exact (hevents event hmem).created hp

end Steps

/-! ## What the queue and the loads are while a call waits -/

section Linearized

variable {Thread Frame FX : Type*} {cpu : CPU Frame FX} {s : LockedCPU Thread Frame FX} {p : Pid}
  {rsp : Frame} {fx : FX}

theorem Linearized.queue_unlocked (h : Linearized cpu s) (hstart : Started cpu)
    (hlock : s.QueueLock = 0) :
    s.cpu.queue.Nodup ∧ ∀ earlier p process later,
      s.history = earlier ++ .newProcess p process :: later →
      p ∈ s.cpu.queue ∨ ∃ mid event rest, later = mid ++ event :: rest ∧
        Kills event (run (earlier ++ .newProcess p process :: mid) cpu) p := by
  obtain ⟨-, hqueue⟩ := h.agree_unlocked hlock
  rw [hqueue]
  refine ⟨(run_queueInv hstart h.fresh).nodup, fun earlier p process later hhistory => ?_⟩
  have hfresh := h.fresh
  rw [hhistory] at hfresh ⊢
  exact created_in_queue hstart hfresh

/-- A process is loaded with what it left off with before the call took effect. -/
theorem Linearized.loads_left_off (h : Linearized cpu s) (hstart : Started cpu)
    (hswitching : s.handler.switching = some (rsp, fx)) {loaded : Loaded Frame FX}
    (hload : s.completed.load = some loaded) (hcurrent : s.completed.currentProcess = some p)
    (hidle : p ≠ cpu.idleProcess) :
    ∃ earlier later, s.history = earlier ++ .schedule rsp fx false :: later ∧
      leftOff p (earlier ++ [.schedule rsp fx false]) cpu none = some loaded.context := by
  obtain ⟨earlier, later, hhistory, hswitched, hloaded⟩ := h.loads rsp fx hswitching
  refine ⟨earlier, later, hhistory, ?_⟩
  have hfresh := h.fresh
  rw [hhistory] at hfresh
  rw [leftOff_snoc]
  refine switch_loads (run_queueInv hstart hfresh.prefix)
    (run_contextInv hstart hfresh.prefix) (hloaded.symm.trans hload)
    (hswitched.symm.trans hcurrent) ?_
  rw [run_idle]
  exact hidle

end Linearized

/-! ## Runs of the machine -/

section Runs

variable {Core Thread Frame FX : Type*} [DecidableEq Core]
  {owner : Pid → Core} {core other : Core} {first s s' : LockedProcessors Core Thread Frame FX}
  {action : Micro Thread Frame FX} {schedule : List (Core × Event Frame FX)}

structure MachineInv (owner : Pid → Core) (first s : LockedProcessors Core Thread Frame FX)
    (schedule : List (Core × Event Frame FX)) : Prop where
  core : ∀ core, CoreInv owner core (view (unlockedProcessors first) core) (lockedView s core)
  history : ∀ core, actionsOf core schedule = (s.state core).history
  events : ∀ event ∈ schedule, event.2.On owner event.1

theorem Opened.machineInv (hfirst : Opened first owner) :
    MachineInv owner first first [] := by
  refine ⟨fun core => ?_, fun core => ?_, List.forall_mem_nil _⟩
  · rw [hfirst.start core]
    refine ⟨Linearized.start (hfirst.started core), ?_, by rintro _ _ ⟨⟩⟩
    rintro p (rfl | hp)
    · exact hfirst.idle core
    · exact absurd hp List.not_mem_nil
  · exact (congrArg LockedCPU.history (hfirst.start core)).symm

theorem MachineInv.placed (h : MachineInv owner first s schedule) (hfirst : Opened first owner) :
    Placed owner (unlockedProcessors first) schedule := by
  refine ⟨hfirst.idle, h.events, fun core => ?_⟩
  rw [h.history core]
  exact (h.core core).linearized.fresh

/-- The calls one after the other make of a processor what its history makes of it. -/
theorem MachineInv.run_agrees (h : MachineInv owner first s schedule)
    (hfirst : Opened first owner) (core : Core) :
    Agree (owner · = core)
      (run (s.state core).history (view (unlockedProcessors first) core))
      (view ((unlockedProcessors first).run Event.next schedule) core) := by
  have hagree := Scheduling.run_agrees hfirst.started (h.placed hfirst) core
  rw [h.history core] at hagree
  exact hagree.symm

variable [DecidableEq Thread]

theorem lockedView_perform {t : LockedCPU Thread Frame FX}
    (hnext : (lockedView s core).next action = some t) :
    lockedView (s.perform Micro.next core action) core = t ∧
      ∀ other, other ≠ core → lockedView (s.perform Micro.next core action) other =
        { lockedView s other with
          cpu := { (lockedView s other).cpu with process := t.cpu.process } } := by
  have hmicro : action.next s.shared (s.state core) = some (t.cpu.process, t.slot) := by
    unfold Micro.next
    change ((lockedView s core).next action).map _ = _
    rw [hnext]
    rfl
  rw [Configuration.perform_some hmicro]
  refine ⟨?_, fun other hne => ?_⟩
  · unfold lockedView
    dsimp only
    rw [Function.update_self]
    rfl
  · unfold lockedView
    dsimp only
    rw [Function.update_of_ne hne]
    rfl

theorem perform_none (hnext : (lockedView s core).next action = none) :
    s.perform Micro.next core action = s := by
  have hmicro : action.next s.shared (s.state core) = none := by
    unfold Micro.next
    change ((lockedView s core).next action).map _ = _
    rw [hnext]
    rfl
  rw [Configuration.perform, hmicro]

theorem MachineInv.step (h : MachineInv owner first s schedule)
    (hguard : Guard owner s core action) :
    ∃ events : List (Event Frame FX), MachineInv owner first (s.perform Micro.next core action)
      (schedule ++ events.map fun event => (core, event)) := by
  cases hnext : (lockedView s core).next action with
  | none =>
      refine ⟨[], ?_⟩
      rw [perform_none hnext, List.map_nil, List.append_nil]
      exact h
  | some t =>
      obtain ⟨hself, hothers⟩ := lockedView_perform hnext
      have hkeeps := (h.core core).keepsTo hguard.2 hnext
      obtain ⟨events, hhistory, hevents⟩ := hkeeps.events
      refine ⟨events, ?_, ?_, ?_⟩
      · intro other
        by_cases hother : other = core
        · subst hother
          rw [hself]
          exact (h.core other).own hguard.1 hguard.2 hnext
        · rw [hothers other hother]
          refine (h.core other).other fun q hq => hkeeps.frame q ?_
          exact fun heq => hother (hq.symm.trans heq)
      · intro other
        have hstate : ((s.perform Micro.next core action).state other).history =
            (lockedView (s.perform Micro.next core action) other).history := rfl
        rw [hstate, actionsOf_append, h.history other]
        by_cases hother : other = core
        · subst hother
          rw [hself, hhistory, actionsOf_tagged]
          rfl
        · rw [hothers other hother, actionsOf_tagged_of_ne (Ne.symm hother), List.append_nil]
          rfl
      · intro event hevent
        rcases List.mem_append.mp hevent with hold | hnew
        · exact h.events event hold
        · obtain ⟨event', hmem, rfl⟩ := List.mem_map.mp hnew
          exact hevents event' hmem

theorem machineInv_reachable (hfirst : Opened first owner)
    (hreach : Reachable (· = first) (Configuration.Step Micro.next (Guard owner)) s) :
    ∃ schedule, MachineInv owner first s schedule := by
  refine @Reachable.invariant _ _ _ (fun s => ∃ schedule, MachineInv owner first s schedule) _
    hreach ?_ ?_
  · rintro _ rfl
    exact ⟨[], hfirst.machineInv⟩
  · rintro s _ ⟨schedule, h⟩ ⟨core, action, hguard, rfl⟩
    obtain ⟨events, h'⟩ := h.step hguard
    exact ⟨_, h'⟩

end Runs

/-! ## A call that finds the queue locked -/

def twoLocked : LockedProcessors (Fin 2) Unit Nat Unit :=
  ⟨fun _ => Process.idleContextCreation 0 () 0,
    fun core => ⟨0, ⟨none, core, []⟩, .outside, fun _ => .outside, []⟩⟩

/-- The first call on the first processor comes while a process is being added there. -/
def contended : List (Fin 2 × Micro Unit Nat Unit) :=
  [(firstCore, .newProcess () 2 (Process.contextCreation 20 () 0x2000)), (firstCore, .create ()),
   (firstCore, .interrupt 100 ()), (secondCore, .interrupt 200 ()), (firstCore, .create ()),
   (firstCore, .schedule), (secondCore, .schedule), (firstCore, .create ()),
   (firstCore, .interrupt 101 ()), (firstCore, .schedule), (firstCore, .schedule),
   (firstCore, .schedule), (firstCore, .schedule)]

theorem twoLocked_opened : Opened twoLocked parity :=
  ⟨fun _ => rfl, fun _ => ⟨rfl, rfl⟩, by decide⟩

theorem contended_reachable : Reachable (· = twoLocked)
    (Configuration.Step Micro.next (Guard parity)) (twoLocked.run Micro.next contended) := by
  apply Reachable.of_guarded
  have hfresh : ¬ (lockedView twoLocked 0).Known 2 := by
    rintro (hidle | hcreated)
    · exact absurd hidle (by decide)
    · exact absurd hcreated List.not_mem_nil
  exact ⟨⟨⟨hfresh, fun _ => nofun⟩, rfl⟩, ⟨fun _ _ => nofun, trivial⟩, ⟨trivial, trivial⟩,
    ⟨trivial, trivial⟩, ⟨fun _ _ => nofun, trivial⟩, ⟨trivial, trivial⟩, ⟨trivial, trivial⟩,
    ⟨fun _ _ => nofun, trivial⟩, ⟨trivial, trivial⟩, ⟨trivial, trivial⟩, ⟨trivial, trivial⟩,
    ⟨trivial, trivial⟩, ⟨trivial, trivial⟩, trivial⟩

/-- The next call on the first processor makes process 2 current and loads it. -/
def granted : List (Fin 2 × Micro Unit Nat Unit) :=
  [(firstCore, .schedule), (firstCore, .interrupt 102 ()), (firstCore, .schedule),
   (firstCore, .schedule), (firstCore, .schedule), (firstCore, .schedule), (firstCore, .schedule)]

theorem granted_reachable : Reachable (· = twoLocked) (Configuration.Step Micro.next (Guard parity))
    ((twoLocked.run Micro.next contended).run Micro.next granted) := by
  refine Reachable.trans contended_reachable (Reachable.of_guarded ?_)
  exact ⟨⟨trivial, trivial⟩, ⟨trivial, trivial⟩, ⟨trivial, trivial⟩, ⟨trivial, trivial⟩,
    ⟨trivial, trivial⟩, ⟨trivial, trivial⟩, ⟨trivial, trivial⟩, trivial⟩

end UnifiedOS.Scheduling
