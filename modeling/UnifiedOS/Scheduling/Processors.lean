import UnifiedOS.Foundation.Interleaving
import UnifiedOS.Scheduling.Contexts
import UnifiedOS.Scheduling.Locality

/-!
# The scheduler on all processors

Every processor runs `Schedule` on the queue of its own slot; the processes lie
in the memory that all of them share.  An event is tagged with the processor
whose slot it concerns: for a new process that is the processor `NewProcess` has
chosen.  The loop there reads the lengths of the other queues without their
locks, so the choice is left open.
-/

namespace UnifiedOS.Scheduling

open UnifiedOS.Foundation Configuration

structure Slot where
  currentProcess : Option Pid
  idleProcess : Pid
  queue : List Pid

abbrev Processes (Frame FX : Type*) := Pid → Process Frame FX

section Model

variable {Frame FX : Type*}

def Slot.cpu (slot : Slot) (process : Processes Frame FX) : CPU Frame FX :=
  ⟨slot.currentProcess, slot.idleProcess, slot.queue, process⟩

def CPU.slot (cpu : CPU Frame FX) : Slot :=
  ⟨cpu.currentProcess, cpu.idleProcess, cpu.queue⟩

/-- An event works on the slot it is tagged with and on the processes. -/
def Event.next (event : Event Frame FX) (process : Processes Frame FX) (slot : Slot) :
    Option (Processes Frame FX × Slot) :=
  let cpu := event.apply (slot.cpu process)
  some (cpu.process, cpu.slot)

abbrev Processors (Core Frame FX : Type*) := Configuration Core (Processes Frame FX) Slot

variable {Core : Type*} [DecidableEq Core]

def view (s : Processors Core Frame FX) (core : Core) : CPU Frame FX :=
  (s.state core).cpu s.shared

def AllStarted (s : Processors Core Frame FX) : Prop := ∀ core, Started (view s core)

/--
The processes belong to processors: an event is about a process of the processor
it is tagged with.
-/
def Event.On (owner : Pid → Core) (core : Core) : Event Frame FX → Prop
  | schedule _ _ _ => True
  | newProcess p _ => owner p = core
  | setState p _ => owner p = core

/--
Each process, the idle ones included, belongs to one processor, and new processes
have addresses of their own.
-/
structure Placed (owner : Pid → Core) (s : Processors Core Frame FX)
    (schedule : List (Core × Event Frame FX)) : Prop where
  idle : ∀ core, owner (s.state core).idleProcess = core
  events : ∀ event ∈ schedule, event.2.On owner event.1
  fresh : ∀ core, Fresh (s.state core).idleProcess (actionsOf core schedule)

structure Slot.Own (owner : Pid → Core) (core : Core) (slot : Slot) : Prop where
  current : ∀ p, slot.currentProcess = some p → owner p = core
  idle : owner slot.idleProcess = core
  queue : ∀ p ∈ slot.queue, owner p = core

def partOf (owner : Pid → Core) (core : Core) (process : Processes Frame FX) :
    Pid → Option (Process Frame FX) :=
  fun p => if owner p = core then some (process p) else none

theorem partOf_eq_iff {owner : Pid → Core} {core : Core} {process process' : Processes Frame FX} :
    partOf owner core process = partOf owner core process' ↔
      ∀ p, owner p = core → process p = process' p := by
  unfold partOf
  constructor
  · intro heq p hp
    have hsame := congrFun heq p
    rw [if_pos hp, if_pos hp] at hsame
    exact Option.some.inj hsame
  · intro hsame
    funext p
    by_cases hp : owner p = core
    · rw [if_pos hp, if_pos hp, hsame p hp]
    · rw [if_neg hp, if_neg hp]

end Model

/-! ## Every processor runs as if alone -/

section Separation

variable {Core Frame FX : Type*} {owner : Pid → Core} {core : Core} {cpu cpu' : CPU Frame FX}
  {event : Event Frame FX} {slot : Slot} {process : Processes Frame FX} {q : Pid}

theorem Agree.apply (h : Agree (owner · = core) cpu cpu') (event : Event Frame FX)
    (hwithin : Within (owner · = core) cpu) :
    Agree (owner · = core) (event.apply cpu) (event.apply cpu') := by
  cases event with
  | schedule rsp fx locked => exact (h.schedule hwithin).1
  | newProcess p process =>
      have hqueue : (cpu.addProcess p process).queue = (cpu'.addProcess p process).queue := by
        rw [CPU.addProcess_queue, CPU.addProcess_queue, h.queue]
      exact ⟨h.current, h.idle, hqueue, (h.update p fun _ => process).process⟩
  | setState p state => exact h.update p fun process => { process with state := state }

theorem Within.apply (h : Within (owner · = core) cpu) (hevent : event.On owner core) :
    Within (owner · = core) (event.apply cpu) := by
  cases event with
  | schedule rsp fx locked => exact h.schedule
  | newProcess p process =>
      refine ⟨h.current, h.idle, fun q hq => ?_⟩
      rw [Event.apply, CPU.addProcess_queue] at hq
      rcases List.mem_append.mp hq with hq | hq
      · exact h.queue q hq
      · rw [List.mem_singleton.mp hq]
        exact hevent
  | setState p state => exact ⟨h.current, h.idle, h.queue⟩

theorem apply_frame (h : Within (owner · = core) cpu) (hevent : event.On owner core)
    (hq : owner q ≠ core) : (event.apply cpu).process q = cpu.process q := by
  cases event with
  | schedule rsp fx locked => exact schedule_frame h hq
  | newProcess p process =>
      have hne : q ≠ p := fun hsame => hq ((congrArg owner hsame).trans hevent)
      rw [Event.apply, CPU.addProcess]
      dsimp only
      rw [CPU.update_other hne]
  | setState p state =>
      have hne : q ≠ p := fun hsame => hq ((congrArg owner hsame).trans hevent)
      rw [Event.apply, CPU.setState]
      exact CPU.update_other hne

theorem Event.On.created (h : event.On owner core) (hq : q ∈ event.created) : owner q = core := by
  cases event with
  | schedule rsp fx locked => exact absurd hq List.not_mem_nil
  | newProcess p process => exact (List.mem_singleton.mp hq) ▸ h
  | setState p state => exact absurd hq List.not_mem_nil

theorem Slot.Own.within (h : slot.Own owner core) :
    Within (owner · = core) (slot.cpu process) :=
  ⟨h.current, h.idle, h.queue⟩

theorem Within.own (h : Within (owner · = core) cpu) : cpu.slot.Own owner core :=
  ⟨h.current, h.idle, h.queue⟩

theorem separated [DecidableEq Core] (owner : Pid → Core) :
    Separated (@Event.next Frame FX) (partOf owner) (Slot.Own owner)
      (Event.On owner) where
  congr {core event process process' slot} _ hown hpart := by
    have hagree : Agree (owner · = core) (slot.cpu process) (slot.cpu process') :=
      ⟨rfl, rfl, rfl, partOf_eq_iff.mp hpart⟩
    have hnext := hagree.apply event hown.within
    refine ⟨?_, partOf_eq_iff.mpr hnext.process⟩
    change Slot.mk _ _ _ = Slot.mk _ _ _
    rw [hnext.current, hnext.idle, hnext.queue]
  own hallowed hown := (hown.within.apply hallowed).own
  frame hallowed hown hne := by
    refine partOf_eq_iff.mpr fun p hp => ?_
    exact apply_frame hown.within hallowed fun heq => hne (hp.symm.trans heq)

theorem runAlone_next (events : List (Event Frame FX)) (cpu : CPU Frame FX) :
    runAlone Event.next (cpu.process, cpu.slot) events =
      ((run events cpu).process, (run events cpu).slot) := by
  induction events generalizing cpu with
  | nil => rfl
  | cons event events ih => exact ih (event.apply cpu)

end Separation

section Runs

variable {Core Frame FX : Type*} [DecidableEq Core] {owner : Pid → Core}
  {s : Processors Core Frame FX} {schedule : List (Core × Event Frame FX)} {core other : Core}
  {event : Event Frame FX} {p q : Pid}

theorem Placed.own (h : Placed owner s schedule) (hstart : AllStarted s) (core : Core) :
    (s.state core).Own owner core := by
  refine ⟨fun p hp => ?_, h.idle core, fun p hp => ?_⟩
  · have hcurrent := (hstart core).current
    unfold view at hcurrent
    rw [show (s.state core).currentProcess = none from hcurrent] at hp
    contradiction
  · have hqueue := (hstart core).queue
    rw [show (s.state core).queue = [] from hqueue] at hp
    contradiction

theorem run_agrees (hstart : AllStarted s) (hplaced : Placed owner s schedule) (core : Core) :
    Agree (owner · = core) (view (s.run Event.next schedule) core)
      (run (actionsOf core schedule) (view s core)) := by
  obtain ⟨hstate, hpart⟩ := (separated owner).run_alone hplaced.events (hplaced.own hstart)
    core rfl (rfl : partOf owner core s.shared = _)
  have halone : runAlone Event.next (s.shared, s.state core) (actionsOf core schedule) =
      ((run (actionsOf core schedule) (view s core)).process,
        (run (actionsOf core schedule) (view s core)).slot) :=
    runAlone_next _ (view s core)
  rw [halone] at hstate hpart
  refine ⟨?_, ?_, ?_, partOf_eq_iff.mp hpart⟩
  · exact congrArg Slot.currentProcess hstate
  · exact congrArg Slot.idleProcess hstate
  · exact congrArg Slot.queue hstate

theorem run_within (hstart : AllStarted s) (hplaced : Placed owner s schedule) (core : Core) :
    Within (owner · = core) (view (s.run Event.next schedule) core) :=
  ((separated owner).run_own hplaced.events (hplaced.own hstart) core).within

/--
However the events of the processors interleave, each processor ends as it would
have ended alone with its own events, and its next call loads the same.
-/
theorem processors_run_alone (hstart : AllStarted s) (hplaced : Placed owner s schedule)
    (core : Core) :
    Agree (owner · = core) (view (s.run Event.next schedule) core)
        (run (actionsOf core schedule) (view s core)) ∧
      ∀ rsp fx locked, ((view (s.run Event.next schedule) core).schedule rsp fx locked).2 =
        ((run (actionsOf core schedule) (view s core)).schedule rsp fx locked).2 := by
  have hagree := run_agrees hstart hplaced core
  exact ⟨hagree, fun rsp fx locked => (hagree.schedule (run_within hstart hplaced core)).2⟩

/-! ## No process on two processors -/

theorem run_queues (hstart : AllStarted s) (hplaced : Placed owner s schedule) (core : Core) :
    QueueInv (view (s.run Event.next schedule) core) (created (actionsOf core schedule)) := by
  have hagree := run_agrees hstart hplaced core
  have hinv := run_queueInv (hstart core) (hplaced.fresh core)
  constructor
  · rw [hagree.queue]
    exact hinv.nodup
  · rw [hagree.idle, hagree.queue]
    exact hinv.idle
  · rw [hagree.current, hagree.idle, hagree.queue]
    exact hinv.front
  · rw [hagree.queue]
    exact hinv.known

theorem Placed.prefix {later : List (Core × Event Frame FX)}
    (h : Placed owner s (schedule ++ later)) : Placed owner s schedule := by
  refine ⟨h.idle, fun event hevent => h.events event (List.mem_append_left _ hevent), ?_⟩
  intro core
  have hfresh := h.fresh core
  rw [actionsOf_append] at hfresh
  exact hfresh.prefix

theorem machine_run_snoc (schedule : List (Core × Event Frame FX)) (core : Core)
    (event : Event Frame FX) : s.run Event.next (schedule ++ [(core, event)]) =
      (s.run Event.next schedule).perform Event.next core event :=
  Configuration.run_append schedule [(core, event)]

theorem view_perform_self :
    view (s.perform Event.next core event) core = event.apply (view s core) := by
  have hstate : (s.perform Event.next core event).state core = (event.apply (view s core)).slot :=
    perform_self
  have hshared : (s.perform Event.next core event).shared =
      (event.apply (view s core)).process := perform_shared
  rw [view, hstate, hshared]
  rfl

theorem view_perform_other (hne : other ≠ core) :
    (view (s.perform Event.next core event) other).currentProcess =
        (view s other).currentProcess ∧
      (view (s.perform Event.next core event) other).queue = (view s other).queue := by
  have hstate : (s.perform Event.next core event).state other = s.state other :=
    perform_other hne
  unfold view
  rw [hstate]
  exact ⟨rfl, rfl⟩

theorem created_stays (hstart : AllStarted s) {earlier later : List (Core × Event Frame FX)}
    {process : Process Frame FX}
    (hplaced : Placed owner s (earlier ++ (core, Event.newProcess p process) :: later)) :
    p ∈ (view (s.run Event.next (earlier ++ (core, Event.newProcess p process) :: later))
      core).queue ∨
    ∃ mid event rest, later = mid ++ (core, event) :: rest ∧
      Kills event (view (s.run Event.next
        (earlier ++ (core, Event.newProcess p process) :: mid)) core) p := by
  induction later using List.reverseRecOn with
  | nil =>
      left
      rw [machine_run_snoc, view_perform_self]
      exact List.mem_append_right _ (List.mem_singleton_self p)
  | append_singleton later last ih =>
      obtain ⟨actor, event⟩ := last
      rw [← List.cons_append, ← List.append_assoc] at hplaced ⊢
      rcases ih hplaced.prefix with hmem | ⟨mid, event', rest, rfl, hkills⟩
      · rw [machine_run_snoc]
        by_cases hactor : actor = core
        · subst hactor
          rw [view_perform_self]
          rcases @mem_queue_apply _ _ _ event _ _ (run_queues hstart hplaced.prefix actor)
            hmem with hmem' | hkills
          · exact Or.inl hmem'
          · exact Or.inr ⟨later, event, [], rfl, hkills⟩
        · left
          rw [(view_perform_other (Ne.symm hactor)).2]
          exact hmem
      · exact Or.inr ⟨mid, event', rest ++ [(actor, event)], by simp, hkills⟩

/--
In every interleaving the queues of two processors have no process in common, no
process is current on one while it is current or waiting on another, and a new
process stays in exactly one queue until a call there finds it current and dying.
-/
theorem processes_exclusive (hstart : AllStarted s) (hplaced : Placed owner s schedule) :
    (∀ core other, core ≠ other →
      (view (s.run Event.next schedule) core).queue.Disjoint
          (view (s.run Event.next schedule) other).queue ∧
        ∀ p, (view (s.run Event.next schedule) core).currentProcess = some p →
          (view (s.run Event.next schedule) other).currentProcess ≠ some p ∧
            p ∉ (view (s.run Event.next schedule) other).queue) ∧
    (∀ core, (view (s.run Event.next schedule) core).queue.Nodup) ∧
    ∀ earlier core p process later,
      schedule = earlier ++ (core, Event.newProcess p process) :: later →
      p ∈ (view (s.run Event.next schedule) core).queue ∨
      ∃ mid event rest, later = mid ++ (core, event) :: rest ∧
        Kills event (view (s.run Event.next
          (earlier ++ (core, Event.newProcess p process) :: mid)) core) p := by
  refine ⟨fun core other hne => ⟨fun p hp hp' => ?_, fun p hp => ⟨fun hp' => ?_, fun hp' => ?_⟩⟩,
    fun core => (run_queues hstart hplaced core).nodup, ?_⟩
  · exact hne (((run_within hstart hplaced core).queue p hp).symm.trans
      ((run_within hstart hplaced other).queue p hp'))
  · exact hne (((run_within hstart hplaced core).current p hp).symm.trans
      ((run_within hstart hplaced other).current p hp'))
  · exact hne (((run_within hstart hplaced core).current p hp).symm.trans
      ((run_within hstart hplaced other).queue p hp'))
  · rintro earlier core p process later rfl
    exact created_stays hstart hplaced

/-! ## What is loaded, on any processor -/

/--
What process `p` last left off with: its initial context, or the frame given to
the last call, on any processor, that found `p` current there and switched.
-/
def lastLeft (p : Pid) :
    List (Core × Event Frame FX) → Processors Core Frame FX → Option Frame → Option Frame
  | [], _, left => left
  | (core, event) :: schedule, s, left =>
      lastLeft p schedule (s.perform Event.next core event) (event.leaves (view s core) p left)

theorem lastLeft_snoc (schedule : List (Core × Event Frame FX)) (core : Core)
    (event : Event Frame FX) (s : Processors Core Frame FX) (left : Option Frame) :
    lastLeft p (schedule ++ [(core, event)]) s left =
      event.leaves (view (s.run Event.next schedule) core) p (lastLeft p schedule s left) := by
  induction schedule generalizing s left with
  | nil => rfl
  | cons first schedule ih => exact ih _ _

theorem leaves_other {cpu : CPU Frame FX} {left : Option Frame}
    (hcurrent : cpu.currentProcess ≠ some p) (hcreated : p ∉ event.created) :
    event.leaves cpu p left = left := by
  unfold Event.leaves leftOff leftOff
  cases event with
  | schedule rsp fx locked => exact if_neg fun h => hcurrent h.1
  | newProcess q process =>
      have hne : q ≠ p := fun heq => hcreated (List.mem_singleton.mpr heq.symm)
      exact if_neg hne
  | setState q state => rfl

theorem run_contexts (hstart : AllStarted s) (hplaced : Placed owner s schedule) (core : Core) :
    ContextInv (view (s.run Event.next schedule) core) fun p => lastLeft p schedule s none := by
  induction schedule using List.reverseRecOn generalizing core with
  | nil =>
      constructor
      intro p hp
      have hqueue : (view s core).queue = [] := (hstart core).queue
      rw [Configuration.run, List.foldl_nil, hqueue] at hp
      exact absurd hp List.not_mem_nil
  | append_singleton schedule last ih =>
      obtain ⟨actor, event⟩ := last
      have hprefix := hplaced.prefix
      have hevent : event.On owner actor := hplaced.events (actor, event) (by simp)
      constructor
      intro p hp hcurrent
      rw [machine_run_snoc] at hp hcurrent ⊢
      rw [lastLeft_snoc]
      by_cases hactor : core = actor
      · subst hactor
        rw [view_perform_self] at hp hcurrent ⊢
        have hinv := run_queues hstart hprefix core
        exact (@ContextInv.apply _ _ _ event _ hinv _ (ih hprefix core)).waiting p hp hcurrent
      · -- the process belongs to another processor than the one that acts
        obtain ⟨hsame, hqueue⟩ := @view_perform_other _ _ _ _ (s.run Event.next schedule) actor
          core event hactor
        rw [hqueue] at hp
        rw [hsame] at hcurrent
        have hp' : owner p = core := (run_within hstart hprefix core).queue p hp
        have hwithin := run_within hstart hprefix actor
        have hne : owner p ≠ actor := fun heq => hactor (hp'.symm.trans heq)
        rw [leaves_other (fun h => hne (hwithin.current p h)) fun h => hne (hevent.created h),
          (ih hprefix core).waiting p hp hcurrent]
        congr 2
        exact (apply_frame hwithin hevent hne).symm

theorem switch_loads {cpu : CPU Frame FX} {known : List Pid} {left : Pid → Option Frame}
    {rsp : Frame} {fx : FX} {locked : Bool} {loaded : Loaded Frame FX} (h : QueueInv cpu known)
    (hleft : ContextInv cpu left) (hswitch : (cpu.schedule rsp fx locked).2 = some loaded)
    (hcurrent : (cpu.schedule rsp fx locked).1.currentProcess = some p)
    (hidle : p ≠ cpu.idleProcess) :
    (Event.schedule rsp fx locked).leaves cpu p (left p) = some loaded.context := by
  have hkeeps : (cpu.schedule rsp fx locked).1.idleProcess = cpu.idleProcess :=
    @apply_idle _ _ cpu (Event.schedule rsp fx locked)
  have hp : p ∈ (cpu.schedule rsp fx locked).1.queue := by
    obtain ⟨rest, hqueue⟩ := (h.schedule rsp fx locked).queue_eq hcurrent (hkeeps ▸ hidle)
    rw [hqueue]
    exact List.mem_cons_self
  rw [schedule_leaves h hleft (by rw [hswitch]; rfl) hp]
  rcases cpu.schedule_cases rsp fx locked with ⟨-, heq⟩ | ⟨-, -, heq⟩
  · rw [heq] at hswitch
    contradiction
  · rw [heq] at hswitch hcurrent ⊢
    dsimp only at hswitch hcurrent ⊢
    rw [CPU.load, hcurrent] at hswitch
    rw [← Option.some.inj hswitch]

/--
Whenever a call ends in `ProcessSwitch` to a process that is not the idle one, it
loads what that process last left off with, whatever the other processors did in
between, and it changes no process that belongs to another processor.
-/
theorem switches_load_last_left (hstart : AllStarted s)
    (hplaced : Placed owner s schedule) (core : Core) (rsp : Frame) (fx : FX) (locked : Bool) :
    (∀ loaded p, ((view (s.run Event.next schedule) core).schedule rsp fx locked).2 = some loaded →
      ((view (s.run Event.next schedule) core).schedule rsp fx locked).1.currentProcess = some p →
      p ≠ (s.state core).idleProcess →
      lastLeft p (schedule ++ [(core, Event.schedule rsp fx locked)]) s none =
        some loaded.context) ∧
    ∀ q, owner q ≠ core →
      ((s.run Event.next schedule).perform Event.next core
        (Event.schedule rsp fx locked)).shared q = (s.run Event.next schedule).shared q := by
  constructor
  · intro loaded p hswitch hcurrent hidle
    rw [lastLeft_snoc]
    have hinv := run_queues hstart hplaced core
    have hkeeps : (view (s.run Event.next schedule) core).idleProcess =
        (s.state core).idleProcess := by
      rw [(run_agrees hstart hplaced core).idle, run_idle]
      rfl
    exact switch_loads hinv (run_contexts hstart hplaced core) hswitch hcurrent
      (by rw [hkeeps]; exact hidle)
  · intro q hq
    exact apply_frame (run_within hstart hplaced core) trivial hq

end Runs

/-! ## Two processors -/

/-- Two processors at the start, with their idle processes at the addresses 0 and 1. -/
def twoCores : Processors (Fin 2) Nat Unit :=
  ⟨fun _ => Process.idleContextCreation 0 () 0, fun core => ⟨none, core, []⟩⟩

abbrev firstCore : Fin 2 := 0

abbrev secondCore : Fin 2 := 1

/-- Processes 2 and 4 on the first processor and 3 on the second; the calls alternate. -/
def twoCoreEvents : List (Fin 2 × Event Nat Unit) :=
  [(0, .newProcess 2 (Process.contextCreation 20 () 0x2000)),
   (1, .newProcess 3 (Process.contextCreation 30 () 0x3000)),
   (0, .schedule 100 () false), (1, .schedule 200 () false),
   (0, .newProcess 4 (Process.contextCreation 40 () 0x4000)),
   (0, .schedule 101 () false), (1, .schedule 201 () false)]

def parity (p : Pid) : Fin 2 := if p % 2 = 0 then 0 else 1

theorem twoCores_started : AllStarted twoCores := fun _ => ⟨rfl, rfl⟩

theorem twoCoreEvents_placed {calls : List (Fin 2 × Event Nat Unit)}
    (hcalls : ∀ event ∈ calls, ∃ rsp fx locked, event.2 = Event.schedule rsp fx locked) :
    Placed parity twoCores (twoCoreEvents ++ calls) := by
  have hcreated : ∀ core, created (actionsOf core calls) = [] := by
    intro core
    rw [created, List.flatMap_eq_nil_iff]
    intro event hevent
    obtain ⟨rsp, fx, locked, heq⟩ := hcalls (core, event) (mem_actionsOf.mp hevent)
    rw [show event = _ from heq]
    rfl
  refine ⟨by decide, ?_, fun core => ?_⟩
  · rintro ⟨core, event⟩ hevent
    rcases List.mem_append.mp hevent with hevent | hevent
    · simp only [twoCoreEvents, List.mem_cons, List.not_mem_nil, or_false, Prod.mk.injEq] at hevent
      rcases hevent with ⟨rfl, rfl⟩ | ⟨rfl, rfl⟩ | ⟨rfl, rfl⟩ | ⟨rfl, rfl⟩ | ⟨rfl, rfl⟩ |
        ⟨rfl, rfl⟩ | ⟨rfl, rfl⟩ <;> trivial
    · obtain ⟨rsp, fx, locked, heq⟩ := hcalls _ hevent
      rw [show event = _ from heq]
      trivial
  · rw [actionsOf_append]
    constructor
    · rw [created_append, hcreated, List.append_nil]
      revert core
      decide
    · rw [created_append, hcreated, List.append_nil]
      revert core
      decide

/-- The second processor ends as with its three events alone. -/
theorem processors_run_alone_two :
    (view (twoCores.run Event.next twoCoreEvents) 1).queue =
      (run (actionsOf 1 twoCoreEvents) (view twoCores 1)).queue :=
  (processors_run_alone twoCores_started (twoCoreEvents_placed (by simp)) 1).1.queue

theorem processes_exclusive_two :
    (view (twoCores.run Event.next twoCoreEvents) 0).queue.Disjoint
      (view (twoCores.run Event.next twoCoreEvents) 1).queue :=
  ((processes_exclusive twoCores_started (twoCoreEvents_placed (by simp))).1 0 1
    (by decide)).1

def alternatingCalls (n : Nat) : List (Fin 2 × Event Nat Unit) :=
  (List.range n).flatMap fun tick =>
    [(firstCore, .schedule (102 + tick) () false), (secondCore, .schedule (202 + tick) () false)]

theorem alternatingCalls_schedule (n : Nat) :
    ∀ event ∈ alternatingCalls n, ∃ rsp fx locked, event.2 = Event.schedule rsp fx locked := by
  intro event hevent
  obtain ⟨tick, -, hcall⟩ := List.mem_flatMap.mp hevent
  simp only [List.mem_cons, List.not_mem_nil, or_false] at hcall
  rcases hcall with rfl | rfl <;> exact ⟨_, _, _, rfl⟩

/--
Process 4 gets its initial context, and then process 2 goes on with the frame that was
saved at 107, whatever the second processor did in between.
-/
theorem switches_load_last_left_two :
    lastLeft 4 (twoCoreEvents ++ alternatingCalls 5 ++ [(0, .schedule 107 () false)]) twoCores
        none = some 40 ∧
      lastLeft 2 (twoCoreEvents ++ alternatingCalls 11 ++ [(0, .schedule 113 () false)]) twoCores
        none = some 107 ∧
      ((view (twoCores.run Event.next (twoCoreEvents ++ alternatingCalls 11)) 0).schedule 113 ()
        false).2 = some ⟨(), 0, 0x2000, 107⟩ :=
  ⟨(switches_load_last_left twoCores_started (twoCoreEvents_placed (alternatingCalls_schedule 5))
      0 107 () false).1 ⟨(), 0, 0x4000, 40⟩ 4 rfl rfl (by decide),
    (switches_load_last_left twoCores_started (twoCoreEvents_placed (alternatingCalls_schedule 11))
      0 113 () false).1 ⟨(), 0, 0x2000, 107⟩ 2 rfl rfl (by decide), rfl⟩

end UnifiedOS.Scheduling
