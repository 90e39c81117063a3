import UnifiedOS.Foundation.TransitionSystem
import Mathlib.Logic.Function.Basic

/-!
# Agents over one shared memory

A configuration is a shared memory and a control state for each agent.  An
action runs atomically on the shared memory and the state of its own agent; an
action that is not enabled does nothing.  Schedules are arbitrary lists of
actions, so their runs are all the interleavings.  Agents that keep to parts of
the memory of their own run in any interleaving as each would run alone.
-/

namespace UnifiedOS.Foundation

structure Configuration (Agent Shared Local : Type*) where
  shared : Shared
  state : Agent → Local

variable {Agent Shared Local Action : Type*} [DecidableEq Agent]

namespace Configuration

variable (next : Action → Shared → Local → Option (Shared × Local))

def perform (s : Configuration Agent Shared Local) (agent : Agent) (action : Action) :
    Configuration Agent Shared Local :=
  match next action s.shared (s.state agent) with
  | none => s
  | some (shared, state) => ⟨shared, Function.update s.state agent state⟩

def run (s : Configuration Agent Shared Local) (schedule : List (Agent × Action)) :
    Configuration Agent Shared Local :=
  schedule.foldl (fun s event => s.perform next event.1 event.2) s

def Step (guard : Configuration Agent Shared Local → Agent → Action → Prop)
    (s s' : Configuration Agent Shared Local) : Prop :=
  ∃ agent action, guard s agent action ∧ s' = s.perform next agent action

def Guarded (guard : Configuration Agent Shared Local → Agent → Action → Prop) :
    Configuration Agent Shared Local → List (Agent × Action) → Prop
  | _, [] => True
  | s, (agent, action) :: schedule =>
      guard s agent action ∧ Guarded guard (s.perform next agent action) schedule

variable {next} {s : Configuration Agent Shared Local} {agent : Agent} {action : Action}

theorem perform_some {shared : Shared} {state : Local}
    (h : next action s.shared (s.state agent) = some (shared, state)) :
    s.perform next agent action = ⟨shared, Function.update s.state agent state⟩ := by
  rw [perform, h]

theorem perform_cases (s : Configuration Agent Shared Local) (agent : Agent)
    (action : Action) :
    s.perform next agent action = s ∨
    ∃ shared state, next action s.shared (s.state agent) = some (shared, state) ∧
      s.perform next agent action = ⟨shared, Function.update s.state agent state⟩ := by
  unfold perform
  cases h : next action s.shared (s.state agent) with
  | none => exact .inl rfl
  | some result => exact .inr ⟨result.1, result.2, rfl, rfl⟩

theorem run_append (schedule schedule' : List (Agent × Action)) :
    s.run next (schedule ++ schedule') = (s.run next schedule).run next schedule' :=
  List.foldl_append

theorem run_cons (event : Agent × Action) (schedule : List (Agent × Action)) :
    s.run next (event :: schedule) = (s.perform next event.1 event.2).run next schedule :=
  rfl

end Configuration

namespace Reachable

variable {next : Action → Shared → Local → Option (Shared × Local)}
  {guard : Configuration Agent Shared Local → Agent → Action → Prop}
  {init : Configuration Agent Shared Local → Prop} {s : Configuration Agent Shared Local}
  {Assert : Shared → Local → Prop}

theorem of_guarded {schedule : List (Agent × Action)}
    (h : Configuration.Guarded next guard s schedule) :
    Reachable (· = s) (Configuration.Step next guard) (s.run next schedule) := by
  induction schedule generalizing s with
  | nil => exact .start rfl
  | cons event schedule ih =>
      obtain ⟨hfirst, hrest⟩ := h
      exact Reachable.trans (.next (.start rfl) ⟨event.1, event.2, hfirst, rfl⟩) (ih hrest)

/--
Non-interference: an assertion on the shared memory and one agent holds of every
agent when each action establishes it for its own agent and no action breaks it
for another one.
-/
theorem nonInterference
    (hreach : Reachable init (Configuration.Step next guard) s)
    (hinit : ∀ s, init s → ∀ agent, Assert s.shared (s.state agent))
    (hown : ∀ s agent action shared state, guard s agent action →
      (∀ other, Assert s.shared (s.state other)) →
      next action s.shared (s.state agent) = some (shared, state) → Assert shared state)
    (hother : ∀ s agent action shared state, guard s agent action →
      (∀ other, Assert s.shared (s.state other)) →
      next action s.shared (s.state agent) = some (shared, state) →
      ∀ other, other ≠ agent → Assert shared (s.state other)) :
    ∀ agent, Assert s.shared (s.state agent) := by
  refine hreach.invariant hinit ?_
  rintro s _ hinv ⟨agent, action, hguard, rfl⟩
  rcases s.perform_cases agent action with heq | ⟨shared, state, hnext, heq⟩
  · rw [heq]
    exact hinv
  · rw [heq]
    intro other
    by_cases hsame : other = agent
    · subst hsame
      simp only [Function.update_self]
      exact hown s other action shared state hguard hinv hnext
    · simp only [Function.update_of_ne hsame]
      exact hother s agent action shared state hguard hinv hnext other hsame

end Reachable

/-! ## Agents with parts of their own -/

namespace Configuration

variable (next : Action → Shared → Local → Option (Shared × Local))

def actionsOf (agent : Agent) (schedule : List (Agent × Action)) : List Action :=
  schedule.filterMap fun event => if event.1 = agent then some event.2 else none

def performAlone (s : Shared × Local) (action : Action) : Shared × Local :=
  (next action s.1 s.2).getD s

def runAlone (s : Shared × Local) (actions : List Action) : Shared × Local :=
  actions.foldl (performAlone next) s

/--
Each agent has a part of the memory.  What it does there depends on nothing else,
and it leaves the parts of the others as they are, as long as its state is `Own`.
-/
structure Separated {Part : Type*} (part : Agent → Shared → Part)
    (Own : Agent → Local → Prop) (Allowed : Agent → Action → Prop) : Prop where
  congr : ∀ {agent action shared shared' state}, Allowed agent action → Own agent state →
    part agent shared = part agent shared' →
    (performAlone next (shared, state) action).2 =
        (performAlone next (shared', state) action).2 ∧
      part agent (performAlone next (shared, state) action).1 =
        part agent (performAlone next (shared', state) action).1
  own : ∀ {agent action shared state}, Allowed agent action → Own agent state →
    Own agent (performAlone next (shared, state) action).2
  frame : ∀ {agent other action shared state}, Allowed agent action → Own agent state →
    other ≠ agent → part other (performAlone next (shared, state) action).1 = part other shared

variable {next} {s : Configuration Agent Shared Local} {agent other : Agent} {action : Action}
  {schedule : List (Agent × Action)}

theorem actionsOf_cons_self :
    actionsOf agent ((agent, action) :: schedule) = action :: actionsOf agent schedule := by
  simp [actionsOf]

theorem actionsOf_cons_of_ne (h : other ≠ agent) :
    actionsOf agent ((other, action) :: schedule) = actionsOf agent schedule := by
  simp [actionsOf, h]

theorem actionsOf_append (schedule schedule' : List (Agent × Action)) :
    actionsOf agent (schedule ++ schedule') =
      actionsOf agent schedule ++ actionsOf agent schedule' :=
  List.filterMap_append

theorem mem_actionsOf : action ∈ actionsOf agent schedule ↔ (agent, action) ∈ schedule := by
  unfold actionsOf
  rw [List.mem_filterMap]
  constructor
  · rintro ⟨⟨other, action'⟩, hmem, hsome⟩
    by_cases hsame : other = agent
    · rw [if_pos hsame, Option.some.injEq] at hsome
      rw [← hsame, ← hsome]
      exact hmem
    · rw [if_neg hsame] at hsome
      contradiction
  · intro hmem
    exact ⟨_, hmem, if_pos rfl⟩

theorem actionsOf_tagged (actions : List Action) :
    actionsOf agent (actions.map fun action => (agent, action)) = actions := by
  induction actions with
  | nil => rfl
  | cons action actions ih => rw [List.map_cons, actionsOf_cons_self, ih]

theorem actionsOf_tagged_of_ne (h : other ≠ agent) (actions : List Action) :
    actionsOf agent (actions.map fun action => (other, action)) = [] := by
  unfold actionsOf
  rw [List.filterMap_map, List.filterMap_eq_nil_iff]
  exact fun action _ => if_neg h

theorem exists_of_actionsOf {earlier later : List Action}
    (h : actionsOf agent schedule = earlier ++ action :: later) :
    ∃ before rest, schedule = before ++ (agent, action) :: rest ∧
      actionsOf agent before = earlier := by
  unfold actionsOf at h
  obtain ⟨before, rest, rfl, hbefore, hrest⟩ := List.filterMap_eq_append_iff.mp h
  obtain ⟨skipped, event, after, rfl, hskipped, hevent, -⟩ := List.filterMap_eq_cons_iff.mp hrest
  obtain ⟨actor, action'⟩ := event
  have hactor : actor = agent := by
    by_contra hne
    rw [if_neg hne] at hevent
    contradiction
  rw [if_pos hactor, Option.some.injEq] at hevent
  dsimp only at hevent
  subst hactor hevent
  refine ⟨before ++ skipped, after, by simp, ?_⟩
  unfold actionsOf
  rw [List.filterMap_append, List.filterMap_eq_nil_iff.mpr hskipped, List.append_nil, hbefore]

theorem perform_shared :
    (s.perform next agent action).shared =
      (performAlone next (s.shared, s.state agent) action).1 := by
  unfold perform performAlone
  cases next action s.shared (s.state agent) <;> rfl

theorem perform_self :
    (s.perform next agent action).state agent =
      (performAlone next (s.shared, s.state agent) action).2 := by
  unfold perform performAlone
  cases next action s.shared (s.state agent) with
  | none => rfl
  | some result => exact Function.update_self agent _ _

theorem perform_other (h : other ≠ agent) :
    (s.perform next agent action).state other = s.state other := by
  unfold perform
  cases next action s.shared (s.state agent) with
  | none => rfl
  | some result => exact Function.update_of_ne h _ _

namespace Separated

variable {Part : Type*} {part : Agent → Shared → Part} {Own : Agent → Local → Prop}
  {Allowed : Agent → Action → Prop} {shared : Shared} {state : Local}

theorem perform_own (h : Separated next part Own Allowed) (hallowed : Allowed agent action)
    (hown : ∀ agent, Own agent (s.state agent)) (other : Agent) :
    Own other ((s.perform next agent action).state other) := by
  by_cases hsame : other = agent
  · subst hsame
    rw [perform_self]
    exact h.own hallowed (hown other)
  · rw [perform_other hsame]
    exact hown other

theorem run_own (h : Separated next part Own Allowed)
    (hallowed : ∀ event ∈ schedule, Allowed event.1 event.2)
    (hown : ∀ agent, Own agent (s.state agent)) :
    ∀ agent, Own agent ((s.run next schedule).state agent) := by
  induction schedule generalizing s with
  | nil => exact hown
  | cons event schedule ih =>
      rw [run_cons]
      obtain ⟨hfirst, hrest⟩ := List.forall_mem_cons.mp hallowed
      exact ih hrest (h.perform_own hfirst hown)

theorem run_alone (h : Separated next part Own Allowed)
    (hallowed : ∀ event ∈ schedule, Allowed event.1 event.2)
    (hown : ∀ agent, Own agent (s.state agent)) (agent : Agent)
    (hstate : s.state agent = state) (hpart : part agent s.shared = part agent shared) :
    (s.run next schedule).state agent =
        (runAlone next (shared, state) (actionsOf agent schedule)).2 ∧
      part agent (s.run next schedule).shared =
        part agent (runAlone next (shared, state) (actionsOf agent schedule)).1 := by
  induction schedule generalizing s shared state with
  | nil => exact ⟨hstate, hpart⟩
  | cons event schedule ih =>
      obtain ⟨actor, action⟩ := event
      obtain ⟨hfirst, hrest⟩ := List.forall_mem_cons.mp hallowed
      rw [run_cons]
      by_cases hsame : actor = agent
      · subst hsame
        rw [actionsOf_cons_self]
        obtain ⟨hstate', hpart'⟩ := h.congr hfirst (hown actor) hpart
        rw [hstate] at hstate' hpart'
        apply ih hrest (h.perform_own hfirst hown)
        · rw [perform_self, hstate]
          exact hstate'
        · rw [perform_shared, hstate]
          exact hpart'
      · rw [actionsOf_cons_of_ne hsame]
        apply ih hrest (h.perform_own hfirst hown)
        · rw [perform_other (Ne.symm hsame)]
          exact hstate
        · rw [perform_shared, h.frame hfirst (hown actor) (Ne.symm hsame)]
          exact hpart

end Separated

end Configuration

end UnifiedOS.Foundation
