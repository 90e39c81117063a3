import UnifiedOS.Foundation.Interleaving
import UnifiedOS.Foundation.ByteMemory

/-!
# Interrupt entry

Each entry stub stores its vector number in the byte `interruptnumber`, and
`int_bottom`, which all stubs share, loads it back as the first argument of
`HandleInterrupt`.  There is one such byte for all CPUs.
-/

namespace UnifiedOS.SMP

open UnifiedOS.Foundation

/-! ## The stubs -/

def handleException (number : Byte) : Byte := number

def handleInterruptRequest (number : Byte) : Byte := number + 32

def handleSchedulerInterruptRequest (number : Byte) : Byte := number

def handleSyscallInterruptRequest (number : Byte) : Byte := number

def stubs : List Byte :=
  [0, 1, 2, 3, 4, 5, 6, 7, 8, 9, 10, 11, 12, 13, 14, 15, 16, 17, 18, 19].map
    handleException ++
  [0, 1, 2, 3, 4, 5, 6, 7, 8, 9, 10, 11, 12, 13, 14, 15, 49].map handleInterruptRequest ++
  [handleSchedulerInterruptRequest 253, handleSyscallInterruptRequest 128]

inductive EntryAction where
  | interrupt (vector : Byte)
  | handleInterrupt
  | iretq
  deriving DecidableEq, Repr

/-- Interrupts are masked from the store on until the stub is left. -/
inductive EntryPhase where
  | running
  | stored (vector : Byte)
  | handling (vector interrupt : Byte)
  deriving DecidableEq, Repr

/--
The atomic steps, on `interruptnumber` and the CPU that runs them.  The load
fetches eight bytes, of which `HandleInterrupt` takes the lowest.
-/
def entryNext : EntryAction → Byte → EntryPhase → Option (Byte × EntryPhase)
  | .interrupt vector, _, phase =>
      match phase with
      | .running => if vector ∈ stubs then some (vector, .stored vector) else none
      | _ => none
  | .handleInterrupt, interruptnumber, phase =>
      match phase with
      | .stored vector => some (interruptnumber, .handling vector interruptnumber)
      | _ => none
  | .iretq, interruptnumber, phase =>
      match phase with
      | .handling _ _ => some (interruptnumber, .running)
      | _ => none

theorem entryNext_cases {action : EntryAction} {number number' : Byte}
    {phase phase' : EntryPhase}
    (h : entryNext action number phase = some (number', phase')) :
    (∃ vector, action = .interrupt vector ∧ phase = .running ∧ number' = vector ∧
      phase' = .stored vector) ∨
    (∃ vector, action = .handleInterrupt ∧ phase = .stored vector ∧ number' = number ∧
      phase' = .handling vector number) ∨
    (∃ vector interrupt, action = .iretq ∧ phase = .handling vector interrupt ∧
      number' = number ∧ phase' = .running) := by
  cases action with
  | interrupt vector =>
      cases phase with
      | running =>
          simp only [entryNext] at h
          split at h
          · obtain ⟨h, h'⟩ := Prod.mk.inj (Option.some.inj h)
            exact .inl ⟨vector, rfl, rfl, h.symm, h'.symm⟩
          · contradiction
      | stored | handling => contradiction
  | handleInterrupt =>
      cases phase with
      | stored vector =>
          obtain ⟨h, h'⟩ := Prod.mk.inj (Option.some.inj h)
          exact .inr (.inl ⟨vector, rfl, rfl, h.symm, h'.symm⟩)
      | running | handling => contradiction
  | iretq =>
      cases phase with
      | handling vector interrupt =>
          obtain ⟨h, h'⟩ := Prod.mk.inj (Option.some.inj h)
          exact .inr (.inr ⟨vector, interrupt, rfl, rfl, h.symm, h'.symm⟩)
      | running | stored => contradiction

abbrev EntryState (CPU : Type*) := Configuration CPU Byte EntryPhase

variable {CPU : Type*}

def noInterrupt : EntryState CPU := ⟨0, fun _ => .running⟩

/-- `HandleInterrupt` runs with the number that the CPU's own stub stored. -/
def OwnVector (s : EntryState CPU) : Prop :=
  ∀ cpu vector interrupt, s.state cpu = .handling vector interrupt → interrupt = vector

/-- An interrupt stores no number over another one that is still to be loaded. -/
def StoresAgree (s : EntryState CPU) (cpu : CPU) (action : EntryAction) : Prop :=
  ∀ vector, action = .interrupt vector →
    ∀ other, other ≠ cpu → ∀ waiting, s.state other = .stored waiting → waiting = vector

/-- What a CPU relies on: the byte keeps its number until it has loaded it. -/
def Undisturbed (interruptnumber : Byte) : EntryPhase → Prop
  | .running => True
  | .stored vector => interruptnumber = vector
  | .handling vector interrupt => interrupt = vector

section Entry

variable {s : EntryState CPU}

theorem undisturbed_own {action : EntryAction} {number number' : Byte}
    {phase phase' : EntryPhase} (h : Undisturbed number phase)
    (hnext : entryNext action number phase = some (number', phase')) :
    Undisturbed number' phase' := by
  rcases entryNext_cases hnext with ⟨vector, -, -, rfl, rfl⟩ | ⟨vector, -, rfl, rfl, rfl⟩ |
    ⟨vector, interrupt, -, -, rfl, rfl⟩
  · exact rfl
  · exact h
  · trivial

theorem undisturbed_other {action : EntryAction} {cpu other : CPU} {number : Byte}
    {phase : EntryPhase} (hguard : StoresAgree s cpu action) (hne : other ≠ cpu)
    (h : Undisturbed s.shared (s.state other))
    (hnext : entryNext action s.shared (s.state cpu) = some (number, phase)) :
    Undisturbed number (s.state other) := by
  rcases entryNext_cases hnext with ⟨vector, rfl, -, rfl, -⟩ | ⟨vector, -, -, rfl, -⟩ |
    ⟨vector, interrupt, -, -, rfl, -⟩
  · cases hstate : s.state other with
    | running => trivial
    | stored waiting => exact (hguard number rfl other hne waiting hstate).symm
    | handling vector interrupt =>
        rw [hstate] at h
        exact h
  · exact h
  · exact h

variable [DecidableEq CPU]

theorem ownVector_storesAgree
    (hreach : Reachable (· = noInterrupt) (Configuration.Step entryNext StoresAgree) s) :
    OwnVector s := by
  have hall : ∀ cpu, Undisturbed s.shared (s.state cpu) := by
    refine hreach.nonInterference ?_ ?_ ?_
    · rintro _ rfl cpu
      trivial
    · intro s cpu action number phase _ hinv hnext
      exact undisturbed_own (hinv cpu) hnext
    · intro s cpu action number phase hguard hinv hnext other hne
      exact undisturbed_other hguard hne (hinv other) hnext
  intro cpu vector interrupt hstate
  have hcpu := hall cpu
  rw [hstate] at hcpu
  exact hcpu

/-- A tick on one CPU, and the scheduler's interrupts that it sends to two others. -/
def tickEntries (c d e : CPU) : List (CPU × EntryAction) :=
  [(c, .interrupt 32), (c, .handleInterrupt), (d, .interrupt 253), (e, .interrupt 253),
    (d, .handleInterrupt), (e, .handleInterrupt)]

/-- Both numbers are stored before either is loaded. -/
theorem ownVector_storesAgree_timer :
    let s := (noInterrupt : EntryState (Fin 3)).run entryNext (tickEntries 0 1 2)
    s.state 0 = .handling 32 32 ∧ s.state 1 = .handling 253 253 ∧
      s.state 2 = .handling 253 253 ∧ OwnVector s := by
  refine ⟨by decide, by decide, by decide, ownVector_storesAgree (Reachable.of_guarded ?_)⟩
  refine ⟨?_, nofun, ?_, ?_, nofun, nofun, trivial⟩
  · rintro _ ⟨⟩ other - waiting hstored
    contradiction
  · rintro _ ⟨⟩ other hne waiting hstored
    match other with
    | 0 => nomatch hstored
    | 1 => contradiction
    | 2 => nomatch hstored
  · rintro _ ⟨⟩ other hne waiting hstored
    match other with
    | 0 => nomatch hstored
    | 1 => exact (EntryPhase.stored.inj hstored).symm
    | 2 => contradiction

end Entry

/-- The timer's CPU is handed the number that the scheduler's interrupt stored. -/
theorem interruptnumber_confused :
    ¬ ∀ (n : Nat) (schedule : List (Fin n × EntryAction)),
      OwnVector ((noInterrupt : EntryState (Fin n)).run entryNext schedule) := by
  intro hown
  have hvector := hown 2 [(0, .interrupt 32), (1, .interrupt 253), (0, .handleInterrupt)]
    0 32 253 (by decide)
  exact absurd hvector (by decide)

end UnifiedOS.SMP
