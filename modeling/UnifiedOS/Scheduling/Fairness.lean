import UnifiedOS.Scheduling.RunQueue
import Mathlib.Algebra.BigOperators.Group.List.Basic
import Mathlib.Tactic.Linarith

/-!
# Round-robin turns

A call of `Schedule` counts a tick for the process that is current when it
starts, so the ticks over a window of calls are read off from the list of these
processes, the turns.  A process that has `slice` ticks left is current for
`slice + 1` calls and then goes to the back of the queue.
-/

namespace UnifiedOS.Scheduling

variable {Frame FX : Type*} {cpu : CPU Frame FX} {p q : Pid} {rest : List Pid}
  {rsp : Frame} {fx : FX} {calls : List (Frame × FX)} {slice : Nat}

def scheduleAll (calls : List (Frame × FX)) (cpu : CPU Frame FX) : CPU Frame FX :=
  calls.foldl (fun cpu call => (cpu.schedule call.1 call.2 false).1) cpu

def turns : List (Frame × FX) → CPU Frame FX → List (Option Pid)
  | [], _ => []
  | call :: calls, cpu =>
      cpu.currentProcess :: turns calls (cpu.schedule call.1 call.2 false).1

theorem scheduleAll_cons (call : Frame × FX) : scheduleAll (call :: calls) cpu =
    scheduleAll calls (cpu.schedule call.1 call.2 false).1 := rfl

theorem scheduleAll_append (calls calls' : List (Frame × FX)) :
    scheduleAll (calls ++ calls') cpu = scheduleAll calls' (scheduleAll calls cpu) :=
  List.foldl_append

theorem turns_append (calls calls' : List (Frame × FX)) :
    turns (calls ++ calls') cpu = turns calls cpu ++ turns calls' (scheduleAll calls cpu) := by
  induction calls generalizing cpu with
  | nil => rfl
  | cons call calls ih => rw [List.cons_append, turns, turns, ih, List.cons_append]; rfl

/-! ## Ticks are counted by turns -/

theorem tick_activeTicks (q : Pid) : (cpu.tick.1.process q).activeTicks =
    (cpu.process q).activeTicks + if cpu.currentProcess = some q then 1 else 0 := by
  rcases cpu.tick_cases with ⟨hcurrent, h⟩ | ⟨p, hcurrent, ⟨-, h⟩ | ⟨-, h⟩⟩ <;>
    rw [h, hcurrent]
  · simp
  · by_cases hq : q = p
    · rw [hq, CPU.update_same]
      simp
    · rw [CPU.update_other hq, if_neg fun heq => hq (Option.some.inj heq).symm]
      simp
  · by_cases hq : q = p
    · rw [hq, CPU.update_same]
      simp
    · rw [CPU.update_other hq, if_neg fun heq => hq (Option.some.inj heq).symm]
      simp

theorem tick_default (q : Pid) :
    (cpu.tick.1.process q).defaultTimeSlice = (cpu.process q).defaultTimeSlice := by
  obtain ⟨ticks, slice, h⟩ := @CPU.tick_process _ _ cpu q
  rw [h]

theorem choose_counts (q : Pid) :
    ((cpu.choose rsp fx).process q).activeTicks = (cpu.process q).activeTicks ∧
    ((cpu.choose rsp fx).process q).defaultTimeSlice = (cpu.process q).defaultTimeSlice := by
  rcases cpu.choose_cases rsp fx with ⟨-, heq⟩ | ⟨p, -, -, hbranch⟩
  · rw [heq]
    exact ⟨rfl, rfl⟩
  · rcases hbranch with ⟨-, heq⟩ | ⟨-, -, heq⟩ | ⟨-, -, heq⟩
    · rw [heq]
      exact ⟨rfl, rfl⟩
    · rw [heq]
      constructor
      · exact (CPU.swapIn_keeps Process.activeTicks (fun _ _ => rfl) q).trans
          (CPU.swapOut_keeps Process.activeTicks (fun _ _ _ _ => rfl) q)
      · exact (CPU.swapIn_keeps Process.defaultTimeSlice (fun _ _ => rfl) q).trans
          (CPU.swapOut_keeps Process.defaultTimeSlice (fun _ _ _ _ => rfl) q)
    · rw [heq]
      constructor
      · exact CPU.swapIn_keeps Process.activeTicks (fun _ _ => rfl) q
      · exact CPU.swapIn_keeps Process.defaultTimeSlice (fun _ _ => rfl) q

theorem schedule_counts {locked : Bool} (q : Pid) :
    ((cpu.schedule rsp fx locked).1.process q).activeTicks = (cpu.process q).activeTicks +
        (if cpu.currentProcess = some q then 1 else 0) ∧
    ((cpu.schedule rsp fx locked).1.process q).defaultTimeSlice =
        (cpu.process q).defaultTimeSlice := by
  rcases cpu.schedule_cases rsp fx locked with ⟨-, heq⟩ | ⟨-, -, heq⟩
  · rw [heq]
    exact ⟨tick_activeTicks q, tick_default q⟩
  · obtain ⟨hticks, hdefault⟩ := @choose_counts _ _ cpu.tick.1 rsp fx q
    rw [heq, hticks, hdefault]
    exact ⟨tick_activeTicks q, tick_default q⟩

theorem scheduleAll_default (q : Pid) :
    ((scheduleAll calls cpu).process q).defaultTimeSlice =
      (cpu.process q).defaultTimeSlice := by
  induction calls generalizing cpu with
  | nil => rfl
  | cons call calls ih => rw [scheduleAll_cons, ih, (schedule_counts q).2]

theorem scheduleAll_activeTicks (q : Pid) :
    ((scheduleAll calls cpu).process q).activeTicks = (cpu.process q).activeTicks +
      BitVec.ofNat 64 ((turns calls cpu).count (some q)) := by
  induction calls generalizing cpu with
  | nil => simp [scheduleAll, turns]
  | cons call calls ih =>
      rw [scheduleAll_cons, ih, (schedule_counts q).1, turns, List.count_cons, BitVec.add_assoc,
        BitVec.ofNat_add, BitVec.add_comm (BitVec.ofNat 64 _)]
      congr 2
      by_cases hcurrent : cpu.currentProcess = some q <;> simp [hcurrent]

/-! ## One turn -/

/-- Process `p` is current with `slice` ticks left, the others wait behind it. -/
structure Turn (cpu : CPU Frame FX) (p : Pid) (rest : List Pid) (slice : Nat) : Prop where
  current : cpu.currentProcess = some p
  queue : cpu.queue = p :: rest
  left : (cpu.process p).timeSlice = slice
  live : ∀ q ∈ p :: rest, (cpu.process q).state ≠ ProcessState.dying
  idle : cpu.idleProcess ∉ p :: rest

theorem Turn.tick (h : Turn cpu p rest (slice + 1)) :
    Turn (cpu.schedule rsp fx false).1 p rest slice := by
  have hleft := h.left
  rcases cpu.tick_cases with ⟨hnone, -⟩ | ⟨q, hcurrent, ⟨-, htick⟩ | ⟨hzero, -⟩⟩
  · rw [h.current] at hnone
    contradiction
  · rw [h.current] at hcurrent
    obtain rfl := Option.some.inj hcurrent
    rcases cpu.schedule_cases rsp fx false with ⟨-, heq⟩ | ⟨hover, -, -⟩
    · rw [heq]
      refine ⟨CPU.tick_current.trans h.current, CPU.tick_queue.trans h.queue, ?_, ?_, ?_⟩
      · rw [htick, CPU.update_same]
        dsimp only
        omega
      · intro q hq
        rw [CPU.tick_state]
        exact h.live q hq
      · rw [CPU.tick_idle]
        exact h.idle
    · rw [htick] at hover
      contradiction
  · rw [h.current] at hcurrent
    obtain rfl := Option.some.inj hcurrent
    omega

theorem swapIn_state (q : Pid) : (cpu.swapIn.process q).state = (cpu.process q).state :=
  CPU.swapIn_keeps Process.state (fun _ _ => rfl) q

theorem swapOut_state (q : Pid) :
    ((cpu.swapOut p rsp fx).process q).state = (cpu.process q).state :=
  CPU.swapOut_keeps Process.state (fun _ _ _ _ => rfl) q

theorem swapIn_timeSlice (h : cpu.queue[0]? = some q) :
    (cpu.swapIn.process q).timeSlice = (cpu.swapIn.process q).defaultTimeSlice := by
  rw [CPU.swapIn, h]
  simp

theorem Turn.next (h : Turn cpu p rest 0) : ∃ q rest', rest ++ [p] = q :: rest' ∧
    Turn (cpu.schedule rsp fx false).1 q rest'
      ((cpu.schedule rsp fx false).1.process q).defaultTimeSlice := by
  have hpidle : p ≠ cpu.idleProcess := fun heq => h.idle (heq ▸ List.mem_cons_self)
  have hover : cpu.tick.2 = false := by
    rcases cpu.tick_cases with ⟨hnone, -⟩ | ⟨q, hcurrent, ⟨hpos, -⟩ | ⟨-, htick⟩⟩
    · rw [h.current] at hnone
      contradiction
    · rw [h.current] at hcurrent
      obtain rfl := Option.some.inj hcurrent
      have hleft := h.left
      omega
    · rw [htick]
  have hchoose : cpu.tick.1.choose rsp fx = (cpu.tick.1.swapOut p rsp fx).swapIn := by
    rcases cpu.tick.1.choose_cases rsp fx with ⟨hnone, -⟩ | ⟨q, hcurrent, -, hbranch⟩
    · rw [CPU.tick_current, CPU.tick_queue, h.current, h.queue] at hnone
      rcases hnone with hnone | hnil <;> contradiction
    · rw [CPU.tick_current, h.current] at hcurrent
      obtain rfl := Option.some.inj hcurrent
      rw [CPU.tick_state, CPU.tick_idle] at hbranch
      rcases hbranch with ⟨hdying, -⟩ | ⟨-, -, heq⟩ | ⟨-, hidle, -⟩
      · exact absurd hdying (h.live p List.mem_cons_self)
      · exact heq
      · exact absurd hidle hpidle
  have hschedule : (cpu.schedule rsp fx false).1 = (cpu.tick.1.swapOut p rsp fx).swapIn := by
    rcases cpu.schedule_cases rsp fx false with ⟨hreturn, -⟩ | ⟨-, -, heq⟩
    · rw [hover] at hreturn
      rcases hreturn with hreturn | hreturn <;> contradiction
    · rw [heq, hchoose]
  rw [hschedule]
  have hqueue : (cpu.tick.1.swapOut p rsp fx).queue = rest ++ [p] :=
    swapOut_queue_cons (CPU.tick_queue.trans h.queue)
  have hperm : (rest ++ [p]).Perm (p :: rest) := List.perm_append_singleton p rest
  cases hrest : rest ++ [p] with
  | nil => simp at hrest
  | cons q rest' =>
      rw [hrest] at hqueue hperm
      have hfront : (cpu.tick.1.swapOut p rsp fx).queue[0]? = some q := by
        rw [hqueue]
        rfl
      refine ⟨q, rest', rfl, CPU.swapIn_current hfront, CPU.swapIn_queue.trans hqueue,
        swapIn_timeSlice hfront, ?_, ?_⟩
      · intro q' hq'
        rw [swapIn_state, swapOut_state, CPU.tick_state]
        exact h.live q' (hperm.mem_iff.mp hq')
      · rw [CPU.swapIn_idle, CPU.swapOut_idle, CPU.tick_idle, hperm.mem_iff]
        exact h.idle

theorem Turn.within (h : Turn cpu p rest slice) (hlength : calls.length ≤ slice) :
    turns calls cpu = List.replicate calls.length (some p) ∧
    Turn (scheduleAll calls cpu) p rest (slice - calls.length) := by
  induction calls generalizing cpu slice with
  | nil => exact ⟨rfl, h⟩
  | cons call calls ih =>
      rw [List.length_cons] at hlength ⊢
      obtain ⟨left, rfl⟩ : ∃ left, slice = left + 1 := ⟨slice - 1, by omega⟩
      obtain ⟨hturns, hturn⟩ := ih h.tick (by omega)
      constructor
      · rw [turns, h.current, hturns, List.replicate_succ]
      · rw [scheduleAll_cons, Nat.add_sub_add_right]
        exact hturn

theorem Turn.whole (h : Turn cpu p rest slice) (hlength : calls.length = slice + 1) :
    turns calls cpu = List.replicate (slice + 1) (some p) ∧
    ∃ q rest', rest ++ [p] = q :: rest' ∧
      Turn (scheduleAll calls cpu) q rest'
        ((scheduleAll calls cpu).process q).defaultTimeSlice := by
  rcases List.eq_nil_or_concat calls with rfl | ⟨first, call, rfl⟩
  · simp at hlength
  · have hfirst : first.length = slice := by simpa using hlength
    obtain ⟨hturns, hturn⟩ := @Turn.within _ _ _ _ _ first _ h (by omega)
    rw [hfirst, Nat.sub_self] at hturn
    have hlast : scheduleAll (first ++ [call]) cpu =
        ((scheduleAll first cpu).schedule call.1 call.2 false).1 := by
      rw [scheduleAll_append]
      rfl
    rw [List.concat_eq_append]
    constructor
    · rw [turns_append, hturns, hfirst, turns, hturn.current, turns, List.replicate_succ']
    · rw [hlast]
      exact hturn.next

/-! ## A window of turns -/

def turnLength (cpu : CPU Frame FX) (ps : List Pid) : Nat :=
  (ps.map fun q => (cpu.process q).defaultTimeSlice + 1).sum

def fullTurns (cpu : CPU Frame FX) (ps : List Pid) : List (Option Pid) :=
  ps.flatMap fun q => List.replicate ((cpu.process q).defaultTimeSlice + 1) (some q)

theorem turnLength_scheduleAll (ps : List Pid) :
    turnLength (scheduleAll calls cpu) ps = turnLength cpu ps := by
  simp only [turnLength, scheduleAll_default]

theorem fullTurns_scheduleAll (ps : List Pid) :
    fullTurns (scheduleAll calls cpu) ps = fullTurns cpu ps := by
  simp only [fullTurns, scheduleAll_default]

private theorem split_calls {n : Nat} (h : n ≤ calls.length) :
    ∃ first later, calls = first ++ later ∧ first.length = n :=
  ⟨calls.take n, calls.drop n, (List.take_append_drop n calls).symm,
    List.length_take_of_le h⟩

/-- The processes at the front of the queue have their turns in order and go to the back. -/
theorem Turn.cycle {front back : List Pid} (hsplit : front ++ back = p :: rest)
    (h : Turn cpu p rest (cpu.process p).defaultTimeSlice)
    (hlength : calls.length = turnLength cpu front) :
    turns calls cpu = fullTurns cpu front ∧
    ∃ q rest', back ++ front = q :: rest' ∧
      Turn (scheduleAll calls cpu) q rest'
        ((scheduleAll calls cpu).process q).defaultTimeSlice := by
  induction front generalizing cpu calls p rest back with
  | nil =>
      obtain rfl := List.length_eq_zero_iff.mp hlength
      rw [List.append_nil]
      exact ⟨rfl, p, rest, hsplit, h⟩
  | cons first front ih =>
      obtain ⟨rfl, rfl⟩ := List.cons.inj hsplit
      rw [turnLength, List.map_cons, List.sum_cons] at hlength
      -- the calls of the first turn, and the others
      obtain ⟨mine, others, rfl, hmine⟩ :=
        split_calls (show (cpu.process first).defaultTimeSlice + 1 ≤ calls.length by omega)
      obtain ⟨hturns, q, rest', hqueue, hturn⟩ := h.whole hmine
      rw [List.length_append, hmine, Nat.add_right_inj] at hlength
      change front ++ back ++ [first] = q :: rest' at hqueue
      rw [List.append_assoc] at hqueue
      obtain ⟨hturns', q', rest'', hqueue', hturn'⟩ := ih hqueue hturn
        (hlength.trans (turnLength_scheduleAll front).symm)
      rw [scheduleAll_append]
      refine ⟨?_, q', rest'', by rw [← hqueue', List.append_assoc]; rfl, hturn'⟩
      rw [turns_append, hturns, hturns', fullTurns_scheduleAll]
      rfl

theorem count_fullTurns {ps : List Pid} (hnodup : ps.Nodup) (q : Pid) :
    (fullTurns cpu ps).count (some q) =
      if q ∈ ps then (cpu.process q).defaultTimeSlice + 1 else 0 := by
  induction ps with
  | nil => rfl
  | cons p ps ih =>
      obtain ⟨hnotin, hnodup'⟩ := List.nodup_cons.mp hnodup
      rw [fullTurns, List.flatMap_cons, List.count_append, List.count_replicate]
      change _ + (fullTurns cpu ps).count (some q) = _
      rw [ih hnodup']
      by_cases hq : p = q
      · subst hq
        simp [hnotin]
      · have hq' : ¬ q = p := fun heq => hq heq.symm
        simp [hq, hq']

/-! ## The slice of the current process -/

theorem tick_slice_le (h : (cpu.process p).timeSlice ≤ (cpu.process p).defaultTimeSlice) :
    (cpu.tick.1.process p).timeSlice ≤ (cpu.tick.1.process p).defaultTimeSlice := by
  rcases cpu.tick_cases with ⟨-, heq⟩ | ⟨q, -, ⟨-, heq⟩ | ⟨-, heq⟩⟩ <;> rw [heq]
  · exact h
  · by_cases hq : p = q
    · subst hq
      rw [CPU.update_same]
      dsimp only
      omega
    · rw [CPU.update_other hq]
      exact h
  · by_cases hq : p = q
    · subst hq
      rw [CPU.update_same]
      exact h
    · rw [CPU.update_other hq]
      exact h

theorem swapIn_slice_le (hne : cpu.queue ≠ []) (hcurrent : cpu.swapIn.currentProcess = some p) :
    (cpu.swapIn.process p).timeSlice ≤ (cpu.swapIn.process p).defaultTimeSlice := by
  have hfront := swapIn_front hne
  rw [hcurrent, CPU.swapIn_queue, List.head?_eq_getElem?] at hfront
  exact Nat.le_of_eq (swapIn_timeSlice hfront.symm)

theorem choose_slice_le {known : List Pid} (hinv : QueueInv cpu known)
    (hcurrent : (cpu.choose rsp fx).currentProcess = some p) (hidle : p ≠ cpu.idleProcess) :
    ((cpu.choose rsp fx).process p).timeSlice ≤
      ((cpu.choose rsp fx).process p).defaultTimeSlice := by
  rcases cpu.choose_cases rsp fx with ⟨-, hchoose⟩ | ⟨q, hq, hne, hbranch⟩
  · rw [hchoose, CPU.idle_current] at hcurrent
    exact absurd (Option.some.inj hcurrent).symm hidle
  · rcases hbranch with ⟨-, hchoose⟩ | ⟨-, hqidle, hchoose⟩ | ⟨-, -, hchoose⟩
    · rw [hchoose, CPU.idle_current] at hcurrent
      exact absurd (Option.some.inj hcurrent).symm hidle
    · rw [hchoose] at hcurrent ⊢
      obtain ⟨rest, hqueue⟩ := hinv.queue_eq hq hqidle
      have hqueue' : (cpu.swapOut q rsp fx).queue ≠ [] := by
        rw [swapOut_queue_cons hqueue]
        simp
      exact swapIn_slice_le hqueue' hcurrent
    · rw [hchoose] at hcurrent ⊢
      exact swapIn_slice_le hne hcurrent

theorem schedule_slice_le {known : List Pid} {locked : Bool} (hinv : QueueInv cpu known)
    (hslice : cpu.currentProcess = some p →
      (cpu.process p).timeSlice ≤ (cpu.process p).defaultTimeSlice)
    (hcurrent : (cpu.schedule rsp fx locked).1.currentProcess = some p)
    (hidle : p ≠ cpu.idleProcess) :
    ((cpu.schedule rsp fx locked).1.process p).timeSlice ≤
      ((cpu.schedule rsp fx locked).1.process p).defaultTimeSlice := by
  rcases cpu.schedule_cases rsp fx locked with ⟨-, heq⟩ | ⟨-, -, heq⟩
  · rw [heq] at hcurrent ⊢
    exact tick_slice_le (hslice (CPU.tick_current.symm.trans hcurrent))
  · rw [heq] at hcurrent ⊢
    rw [← @CPU.tick_idle _ _ cpu] at hidle
    exact choose_slice_le hinv.tick hcurrent hidle

theorem run_slice_le {events : List (Event Frame FX)} (hstart : Started cpu)
    (hfresh : Fresh cpu.idleProcess events) (hcurrent : (run events cpu).currentProcess = some p)
    (hidle : p ≠ cpu.idleProcess) :
    ((run events cpu).process p).timeSlice ≤ ((run events cpu).process p).defaultTimeSlice := by
  induction events using List.reverseRecOn with
  | nil =>
      rw [run, List.foldl_nil, hstart.current] at hcurrent
      contradiction
  | append_singleton events event ih =>
      have hinv := run_queueInv hstart hfresh.prefix
      have hlast := hfresh.last
      have ih := ih hfresh.prefix
      rw [run_snoc] at hcurrent ⊢
      have hidle' : p ≠ (run events cpu).idleProcess := by
        rw [run_idle]
        exact hidle
      generalize run events cpu = c at *
      cases event with
      | setState q state =>
          have hslice := ih hcurrent
          rw [Event.apply, CPU.setState]
          by_cases hq : p = q
          · subst hq
            rw [CPU.update_same]
            exact hslice
          · rw [CPU.update_other hq]
            exact hslice
      | newProcess q process =>
          have hslice := ih hcurrent
          have hold : p ∈ created events := by
            obtain ⟨rest, hqueue⟩ := hinv.queue_eq hcurrent hidle'
            exact hinv.known p (by rw [hqueue]; exact List.mem_cons_self)
          have hq : p ≠ q := fun heq =>
            (hlast q (List.mem_singleton_self q)).1 (heq ▸ hold)
          rw [Event.apply, CPU.addProcess]
          dsimp only
          rw [CPU.update_other hq]
          exact hslice
      | schedule rsp fx locked => exact schedule_slice_le hinv ih hcurrent hidle'

/-! ## The turns of a reachable state -/

/--
From a reachable state where the process at the front of the queue is current and
none is dying, as many calls as there are ticks in all slices give every process
of the queue its slice and one tick more, in the order of the queue.
-/
theorem roundRobin {events : List (Event Frame FX)} (hstart : Started cpu)
    (hfresh : Fresh cpu.idleProcess events)
    (hcurrent : (run events cpu).currentProcess = some p)
    (hqueue : (run events cpu).queue = p :: rest)
    (hlive : ∀ q ∈ p :: rest, ((run events cpu).process q).state ≠ ProcessState.dying)
    (hlength : calls.length = ((p :: rest).map fun q =>
      ((run events cpu).process q).defaultTimeSlice + 1).sum) :
    (∀ q ∈ p :: rest, ((scheduleAll calls (run events cpu)).process q).activeTicks =
      ((run events cpu).process q).activeTicks +
        BitVec.ofNat 64 (((run events cpu).process q).defaultTimeSlice + 1)) ∧
    turns calls (run events cpu) =
      List.replicate (((run events cpu).process p).timeSlice + 1) (some p) ++
      (rest.flatMap fun q =>
        List.replicate (((run events cpu).process q).defaultTimeSlice + 1) (some q)) ++
      List.replicate (((run events cpu).process p).defaultTimeSlice -
        ((run events cpu).process p).timeSlice) (some p) := by
  have hinv := run_queueInv hstart hfresh
  have hidle : cpu.idleProcess ∉ p :: rest := by
    have hnot := hinv.idle
    rw [run_idle, hqueue] at hnot
    exact hnot
  have hle := run_slice_le hstart hfresh hcurrent
    fun heq => hidle (heq ▸ List.mem_cons_self)
  have hnodup := hinv.nodup
  rw [hqueue] at hnodup
  rw [← @run_idle _ _ cpu events] at hidle
  generalize run events cpu = c at *
  have hturn : Turn c p rest (c.process p).timeSlice := ⟨hcurrent, hqueue, rfl, hlive, hidle⟩
  rw [List.map_cons, List.sum_cons] at hlength
  change calls.length = _ + turnLength c rest at hlength
  -- the end of the first slice, the turns of the others, the start of a new slice
  obtain ⟨first, later, rfl, hfirst⟩ :=
    split_calls (show (c.process p).timeSlice + 1 ≤ calls.length by omega)
  rw [List.length_append, hfirst] at hlength
  obtain ⟨others, last, rfl, hothers⟩ :=
    split_calls (show turnLength c rest ≤ later.length by omega)
  rw [List.length_append, hothers] at hlength
  obtain ⟨hturns₁, q, rest', hsplit, hturn₁⟩ := hturn.whole hfirst
  obtain ⟨hturns₂, q', rest'', hsplit', hturn₂⟩ := hturn₁.cycle hsplit
    (hothers.trans (turnLength_scheduleAll rest).symm)
  obtain ⟨rfl, rfl⟩ := List.cons.inj hsplit'
  rw [scheduleAll_default, scheduleAll_default] at hturn₂
  obtain ⟨hturns₃, -⟩ := hturn₂.within (show last.length ≤ _ by omega)
  have hlast : last.length = (c.process p).defaultTimeSlice - (c.process p).timeSlice := by
    omega
  have hall : turns (first ++ (others ++ last)) c =
      List.replicate ((c.process p).timeSlice + 1) (some p) ++ fullTurns c rest ++
      List.replicate ((c.process p).defaultTimeSlice - (c.process p).timeSlice) (some p) := by
    rw [turns_append, turns_append, hturns₁, hturns₂, hturns₃, fullTurns_scheduleAll, hlast,
      List.append_assoc]
  refine ⟨fun q hq => ?_, hall⟩
  obtain ⟨hnotin, hnodup'⟩ := List.nodup_cons.mp hnodup
  rw [scheduleAll_activeTicks, hall, List.count_append, List.count_append,
    List.count_replicate, List.count_replicate, count_fullTurns hnodup']
  congr 2
  by_cases hpq : p = q
  · subst hpq
    rw [if_neg hnotin]
    simp only [beq_self_eq_true, if_true]
    omega
  · have hmem : q ∈ rest := by
      rcases List.mem_cons.mp hq with heq | hmem
      · exact absurd heq.symm hpq
      · exact hmem
    rw [if_pos hmem]
    simp [hpq]

theorem roundRobin_two :
    turns (List.replicate 12 (102, ())) (run twoProcesses idleCPU) =
      List.replicate 6 (some 1) ++ List.replicate 6 (some 2) :=
  (@roundRobin _ _ idleCPU 1 [2] (List.replicate 12 (102, ())) twoProcesses idleCPU_started
    twoProcesses_fresh rfl rfl (by decide) (by decide)).2

end UnifiedOS.Scheduling
