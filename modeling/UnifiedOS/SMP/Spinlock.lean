import UnifiedOS.Foundation.Interleaving

/-!
# Spinlocks

`acquireLock` tests and sets the lock word until it was clear, and counts the
failed attempts.  Under `CHECK_DEADLOCK`, which the header defines, the loop
also ends when the count reaches its limit, and the caller goes on as if it had
the lock.
-/

namespace UnifiedOS.SMP

open UnifiedOS.Foundation

inductive LockAction where
  | acquireLock
  | testAndSet
  | increment
  | releaseLock
  deriving DecidableEq, Repr

/-- Where a CPU is; in the loop, with its retry counter `i`. -/
inductive LockPhase where
  | outside
  | testing (i : BitVec 32)
  | counting (i : BitVec 32)
  | critical
  deriving DecidableEq, Repr

/-- `++i < 0xFFFFFFF` ends the loop of the `CHECK_DEADLOCK` variant. -/
def checkDeadlock (i : BitVec 32) : Bool := !decide (i < 0xFFFFFFF#32)

def noCheck (_ : BitVec 32) : Bool := false

/-- The atomic steps, on the lock word and the CPU that runs them. -/
def lockNext (giveUp : BitVec 32 → Bool) :
    LockAction → BitVec 32 → LockPhase → Option (BitVec 32 × LockPhase)
  | .acquireLock, lock, phase =>
      match phase with
      | .outside => some (lock, .testing 0)
      | _ => none
  | .testAndSet, lock, phase =>
      match phase with
      | .testing i => some (1, if lock = 0 then .critical else .counting i)
      | _ => none
  | .increment, lock, phase =>
      match phase with
      | .counting i => some (lock, if giveUp (i + 1) then .critical else .testing (i + 1))
      | _ => none
  | .releaseLock, _, phase =>
      match phase with
      | .critical => some (0, .outside)
      | _ => none

theorem lockNext_cases {giveUp : BitVec 32 → Bool} {action : LockAction}
    {lock lock' : BitVec 32} {phase phase' : LockPhase}
    (h : lockNext giveUp action lock phase = some (lock', phase')) :
    (action = .acquireLock ∧ phase = .outside ∧ lock' = lock ∧ phase' = .testing 0) ∨
    (∃ i, action = .testAndSet ∧ phase = .testing i ∧ lock' = 1 ∧
      phase' = if lock = 0 then .critical else .counting i) ∨
    (∃ i, action = .increment ∧ phase = .counting i ∧ lock' = lock ∧
      phase' = if giveUp (i + 1) then .critical else .testing (i + 1)) ∨
    (action = .releaseLock ∧ phase = .critical ∧ lock' = 0 ∧ phase' = .outside) := by
  cases action with
  | acquireLock =>
      cases phase with
      | outside =>
          obtain ⟨h, h'⟩ := Prod.mk.inj (Option.some.inj h)
          exact .inl ⟨rfl, rfl, h.symm, h'.symm⟩
      | testing | counting | critical => contradiction
  | testAndSet =>
      cases phase with
      | testing i =>
          obtain ⟨h, h'⟩ := Prod.mk.inj (Option.some.inj h)
          exact .inr (.inl ⟨i, rfl, rfl, h.symm, h'.symm⟩)
      | outside | counting | critical => contradiction
  | increment =>
      cases phase with
      | counting i =>
          obtain ⟨h, h'⟩ := Prod.mk.inj (Option.some.inj h)
          exact .inr (.inr (.inl ⟨i, rfl, rfl, h.symm, h'.symm⟩))
      | outside | testing | critical => contradiction
  | releaseLock =>
      cases phase with
      | critical =>
          obtain ⟨h, h'⟩ := Prod.mk.inj (Option.some.inj h)
          exact .inr (.inr (.inr ⟨rfl, rfl, h.symm, h'.symm⟩))
      | outside | testing | counting => contradiction

abbrev LockState (CPU : Type*) := Configuration CPU (BitVec 32) LockPhase

variable {CPU : Type*}

def unlocked : LockState CPU := ⟨0, fun _ => .outside⟩

/-- No two CPUs are between their `acquireLock` and their `releaseLock`. -/
def MutualExclusion (s : LockState CPU) : Prop :=
  ∀ c d, s.state c = .critical → s.state d = .critical → c = d

/-- The step is not the last count of a loop that gives up. -/
def RetriesLeft (giveUp : BitVec 32 → Bool) (s : LockState CPU) (c : CPU)
    (action : LockAction) : Prop :=
  action = .increment → ∀ i, s.state c = .counting i → giveUp (i + 1) = false

/-! ## The mutex that the lock implements -/

inductive MutexStep : Option CPU → Option CPU → Prop where
  | stay (holder : Option CPU) : MutexStep holder holder
  | take (c : CPU) : MutexStep none (some c)
  | give (c : CPU) : MutexStep (some c) none

/-- The lock word says whether there is a holder, and the holder is who is inside. -/
structure HeldBy (s : LockState CPU) (holder : Option CPU) : Prop where
  lock : s.shared = 0 ↔ holder = none
  inside : ∀ c, s.state c = .critical ↔ holder = some c

theorem HeldBy.mutualExclusion {s : LockState CPU} {holder : Option CPU}
    (h : HeldBy s holder) : MutualExclusion s := by
  intro c d hc hd
  have hcd : some c = some d := ((h.inside c).mp hc).symm.trans ((h.inside d).mp hd)
  exact Option.some.inj hcd

theorem heldBy_unlocked : HeldBy (unlocked : LockState CPU) none := by
  constructor
  · simp [unlocked]
  · simp [unlocked]

section Simulation

variable [DecidableEq CPU] {s : LockState CPU} {holder : Option CPU} {c : CPU}
  {giveUp : BitVec 32 → Bool}

theorem HeldBy.moves {phase : LockPhase} {lock : BitVec 32} (h : HeldBy s holder)
    (hout : s.state c ≠ .critical) (hphase : phase ≠ .critical)
    (hlock : lock = 0 ↔ s.shared = 0) :
    HeldBy ⟨lock, Function.update s.state c phase⟩ holder := by
  constructor
  · exact hlock.trans h.lock
  · intro d
    by_cases hd : d = c
    · subst hd
      simp only [Function.update_self, hphase, false_iff]
      rw [← h.inside d]
      exact hout
    · simp only [Function.update_of_ne hd]
      exact h.inside d

theorem HeldBy.takes (h : HeldBy s none) :
    HeldBy ⟨1, Function.update s.state c .critical⟩ (some c) := by
  constructor
  · simp
  · intro d
    by_cases hd : d = c
    · simp [hd]
    · simp only [Function.update_of_ne hd]
      rw [h.inside d]
      simp [Ne.symm hd]

theorem HeldBy.gives (h : HeldBy s (some c)) :
    HeldBy ⟨0, Function.update s.state c .outside⟩ none := by
  constructor
  · simp
  · intro d
    by_cases hd : d = c
    · simp [hd]
    · simp only [Function.update_of_ne hd]
      rw [h.inside d]
      simp [Ne.symm hd]

/-- As long as no loop gives up, each atomic step is a step of the mutex. -/
theorem heldBy_perform (action : LockAction) (h : HeldBy s holder)
    (hretries : RetriesLeft giveUp s c action) :
    ∃ holder', MutexStep holder holder' ∧
      HeldBy (s.perform (lockNext giveUp) c action) holder' := by
  rcases s.perform_cases c action with heq | ⟨lock, phase, hnext, heq⟩
  · rw [heq]
    exact ⟨holder, .stay holder, h⟩
  · rw [heq]
    rcases lockNext_cases hnext with ⟨rfl, hphase, rfl, rfl⟩ | ⟨i, rfl, hphase, rfl, rfl⟩ |
      ⟨i, rfl, hphase, rfl, rfl⟩ | ⟨rfl, hphase, rfl, rfl⟩
    · exact ⟨holder, .stay holder, h.moves (by simp [hphase]) (by simp) Iff.rfl⟩
    · by_cases hfree : s.shared = 0
      · have hnone : holder = none := h.lock.mp hfree
        subst hnone
        rw [if_pos hfree]
        exact ⟨some c, .take c, h.takes⟩
      · rw [if_neg hfree]
        exact ⟨holder, .stay holder, h.moves (by simp [hphase]) (by simp)
            ⟨fun hone => absurd hone (by decide), fun hzero => absurd hzero hfree⟩⟩
    · rw [hretries rfl i hphase]
      exact ⟨holder, .stay holder, h.moves (by simp [hphase]) (by simp) Iff.rfl⟩
    · have hholder : holder = some c := (h.inside c).mp hphase
      subst hholder
      exact ⟨none, .give c, h.gives⟩

theorem heldBy_reachable
    (hreach : Reachable (· = unlocked)
      (Configuration.Step (lockNext giveUp) (RetriesLeft giveUp)) s) :
    ∃ holder, HeldBy s holder := by
  refine @Reachable.invariant _ _ _ (fun s => ∃ holder, HeldBy s holder) _ hreach ?_ ?_
  · rintro _ rfl
    exact ⟨none, heldBy_unlocked⟩
  · rintro s _ ⟨holder, h⟩ ⟨c, action, hretries, rfl⟩
    obtain ⟨holder', -, h'⟩ := heldBy_perform action h hretries
    exact ⟨holder', h'⟩

theorem mutualExclusion_retriesLeft
    (hreach : Reachable (· = unlocked)
      (Configuration.Step (lockNext checkDeadlock) (RetriesLeft checkDeadlock)) s) :
    MutualExclusion s := by
  obtain ⟨holder, h⟩ := heldBy_reachable hreach
  exact h.mutualExclusion

/-- The second CPU fails once, counts, and enters after the first one has left. -/
def takenInTurn (c d : CPU) : List (CPU × LockAction) :=
  [(c, .acquireLock), (c, .testAndSet), (d, .acquireLock), (d, .testAndSet), (d, .increment),
    (c, .releaseLock), (d, .testAndSet)]

theorem mutualExclusion_retriesLeft_two :
    ((unlocked : LockState (Fin 2)).run (lockNext checkDeadlock) (takenInTurn 0 1)).state 1 =
        .critical ∧
      MutualExclusion
        ((unlocked : LockState (Fin 2)).run (lockNext checkDeadlock) (takenInTurn 0 1)) := by
  refine ⟨by decide, mutualExclusion_retriesLeft (Reachable.of_guarded ?_)⟩
  refine ⟨nofun, nofun, nofun, nofun, ?_, nofun, nofun, trivial⟩
  intro _ i hcounting
  obtain rfl : (0 : BitVec 32) = i := LockPhase.counting.inj hcounting
  decide

theorem mutualExclusion_noCheck (schedule : List (CPU × LockAction)) :
    MutualExclusion ((unlocked : LockState CPU).run (lockNext noCheck) schedule) := by
  have hheld : ∀ (s : LockState CPU), (∃ holder, HeldBy s holder) →
      ∃ holder, HeldBy (s.run (lockNext noCheck) schedule) holder := by
    induction schedule with
    | nil => exact fun s h => h
    | cons event schedule ih =>
        rintro s ⟨holder, h⟩
        obtain ⟨holder', -, h'⟩ := @heldBy_perform _ _ s holder event.1 noCheck event.2 h
          (fun _ _ _ => rfl)
        exact ih _ ⟨holder', h'⟩
  obtain ⟨holder, h⟩ := hheld _ ⟨none, heldBy_unlocked⟩
  exact h.mutualExclusion

end Simulation

/-! ## A holder that stays too long -/

def tries (d : CPU) : Nat → List (CPU × LockAction)
  | 0 => []
  | n + 1 => (d, .testAndSet) :: (d, .increment) :: tries d n

theorem tries_succ (d : CPU) (n : Nat) : tries d (n + 1) = tries d n ++ tries d 1 := by
  induction n with
  | zero => rfl
  | succ n ih =>
      exact congrArg (fun rounds => (d, .testAndSet) :: (d, .increment) :: rounds) ih

section Deadlock

variable [DecidableEq CPU] {s : LockState CPU} {c d : CPU} {i : BitVec 32}

theorem run_tries_succ (n : Nat) (hlock : s.shared = 1) (hd : s.state d = .testing i) :
    s.run (lockNext checkDeadlock) (tries d (n + 1)) =
      Configuration.run (lockNext checkDeadlock)
        ⟨1, Function.update s.state d
          (if checkDeadlock (i + 1) then .critical else .testing (i + 1))⟩ (tries d n) := by
  have htest : s.perform (lockNext checkDeadlock) d .testAndSet =
      ⟨1, Function.update s.state d (.counting i)⟩ := by
    refine Configuration.perform_some ?_
    rw [hlock, hd]
    rfl
  have hcount : Configuration.perform (lockNext checkDeadlock)
      ⟨1, Function.update s.state d (.counting i)⟩ d .increment =
        ⟨1, Function.update s.state d
          (if checkDeadlock (i + 1) then .critical else .testing (i + 1))⟩ := by
    simp [Configuration.perform, lockNext]
  rw [tries, Configuration.run_cons, Configuration.run_cons, htest, hcount]

theorem run_tries (n : Nat) (hlock : s.shared = 1) (hd : s.state d = .testing i)
    (hn : i.toNat + n < 0xFFFFFFF) :
    s.run (lockNext checkDeadlock) (tries d n) =
      ⟨1, Function.update s.state d (.testing (i + BitVec.ofNat 32 n))⟩ := by
  induction n generalizing s i with
  | zero =>
      simp only [tries, Configuration.run, List.foldl_nil, BitVec.add_zero, ← hd,
        Function.update_eq_self, ← hlock]
  | succ n ih =>
      have hcount : (i + 1).toNat = i.toNat + 1 := by
        rw [BitVec.toNat_add]
        simp
        omega
      have hgo : checkDeadlock (i + 1) = false := by
        simp only [checkDeadlock, Bool.not_eq_false', decide_eq_true_eq, BitVec.lt_def, hcount]
        simp
        omega
      have hsum : i + 1 + BitVec.ofNat 32 n = i + BitVec.ofNat 32 (n + 1) := by
        rw [BitVec.ofNat_add, BitVec.add_assoc, BitVec.add_comm 1]
        rfl
      rw [run_tries_succ n hlock hd, hgo, @ih ⟨1, Function.update s.state d _⟩ (i + 1) rfl
        (by simp) (by omega), hsum]
      simp

theorem run_tries_exhausted {n : Nat} (hlock : s.shared = 1) (hd : s.state d = .testing 0)
    (hn : n + 1 = 0xFFFFFFF) :
    s.run (lockNext checkDeadlock) (tries d (n + 1)) =
      ⟨1, Function.update s.state d .critical⟩ := by
  have hgiveUp : checkDeadlock (BitVec.ofNat 32 n + 1) = true := by
    have hlast : n = 0xFFFFFFE := by omega
    rw [hlast]
    decide
  rw [tries_succ d, Configuration.run_append, run_tries n hlock hd (by simp; omega),
    @run_tries_succ _ _ ⟨1, _⟩ d (BitVec.ofNat 32 n) 0 rfl (by simp), hgiveUp]
  simp [tries, Configuration.run]

def overlongHold (c d : CPU) (n : Nat) : List (CPU × LockAction) :=
  [(c, .acquireLock), (c, .testAndSet), (d, .acquireLock)] ++ tries d n

theorem overlongHold_enters {n : Nat} (hne : d ≠ c) (hn : n + 1 = 0xFFFFFFF) :
    ((unlocked : LockState CPU).run (lockNext checkDeadlock)
      (overlongHold c d (n + 1))).state c = .critical ∧
    ((unlocked : LockState CPU).run (lockNext checkDeadlock)
      (overlongHold c d (n + 1))).state d = .critical := by
  have hstart : (unlocked : LockState CPU).run (lockNext checkDeadlock)
      [(c, .acquireLock), (c, .testAndSet), (d, .acquireLock)] =
        ⟨1, Function.update (Function.update (fun _ => .outside) c .critical) d (.testing 0)⟩ := by
    simp [Configuration.run, Configuration.perform, unlocked, lockNext, hne]
  rw [overlongHold, Configuration.run_append, hstart,
    run_tries_exhausted rfl (by simp) hn]
  simp [Function.update_of_ne hne.symm]

theorem acquireLock_not_exclusive :
    ¬ ∀ (n : Nat) (schedule : List (Fin n × LockAction)),
      MutualExclusion ((unlocked : LockState (Fin n)).run (lockNext checkDeadlock) schedule) := by
  intro hexclusive
  have hboth := @overlongHold_enters (Fin 2) _ 0 1 0xFFFFFFE (by decide) rfl
  have hsame := hexclusive 2 _ 0 1 hboth.1 hboth.2
  exact absurd hsame (by decide)

end Deadlock

end UnifiedOS.SMP
