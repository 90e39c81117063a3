import UnifiedOS.Interrupts.Handlers

/-!
# From the vector to the handler

`DoHandleInterrupt` tells the interrupt controllers that a hardware interrupt has
ended before it calls the handler: `Schedule` may leave through `ProcessSwitch`
and never come back.  The local APIC keeps the vectors it has handed to its
processor in service until it is told so, and holds back whatever has no higher
priority.  Only the spurious vector is never in service.
-/

namespace UnifiedOS.Interrupts

open UnifiedOS.Foundation

/-! ## `DoHandleInterrupt` -/

inductive Effect where
  | slaveEOI
  | masterEOI
  | lapicEOI
  | handleInterrupt (handler : Pointer)
  | unhandled (interrupt : Byte)
  | tick
  deriving DecidableEq, Repr

/-- The range that `DoHandleInterrupt` takes for hardware interrupts; it includes 0x30. -/
def IsHardware (interrupt : Byte) : Prop :=
  hardwareInterruptOffset.toNat ≤ interrupt.toNat ∧
    interrupt.toNat ≤ hardwareInterruptOffset.toNat + 16

instance (interrupt : Byte) : Decidable (IsHardware interrupt) :=
  inferInstanceAs (Decidable (_ ∧ _))

def endOfInterrupt (picToggled : Bool) (interrupt : Byte) : List Effect :=
  if IsHardware interrupt ∨ interrupt = 0xFD ∨ interrupt = 0x80 then
    if picToggled = true ∧ IsHardware interrupt then
      if hardwareInterruptOffset.toNat + 8 ≤ interrupt.toNat then [.slaveEOI, .masterEOI]
      else [.masterEOI]
    else [.lapicEOI]
  else []

def callHandler (handlers : Byte → Option Pointer) (interrupt : Byte) : List Effect :=
  let tick := if interrupt.toNat = hardwareInterruptOffset.toNat then [Effect.tick] else []
  match handlers interrupt with
  | some handler => .handleInterrupt handler :: tick
  | none =>
      if interrupt.toNat ≠ hardwareInterruptOffset.toNat then [.unhandled interrupt] else tick

def doHandleInterrupt (picToggled : Bool) (handlers : Byte → Option Pointer) (interrupt : Byte) :
    List Effect :=
  endOfInterrupt picToggled interrupt ++ callHandler handlers interrupt

/-- `InterruptManager::HandleInterrupt`, by the active manager if there is one. -/
def handleInterrupt (active : Option (Bool × (Byte → Option Pointer))) (interrupt : Byte) :
    List Effect :=
  match active with
  | none => []
  | some (picToggled, handlers) => doHandleInterrupt picToggled handlers interrupt

/-- What an interrupt does behind its gate; `InterruptIgnore` returns at once. -/
def enterGate (active : Option (Bool × (Byte → Option Pointer))) (vector : Byte) : List Effect :=
  match (stubAt vector).stores with
  | none => []
  | some number => handleInterrupt active number

/-! ## The local APIC -/

/-- The spurious-interrupt register as `APIC::Enable` leaves it. -/
def enable (sivr : BitVec 32) : BitVec 32 := sivr ||| 0x1FF

def spuriousVector : Byte := 0xFF

/-- Whatever the register held, this is its vector now, and the local APIC is on. -/
theorem enable_spuriousVector (sivr : BitVec 32) :
    (enable sivr).setWidth 8 = spuriousVector ∧ (enable sivr).getLsbD 8 = true := by
  constructor
  · have hlow : (0x1FF : BitVec 32).setWidth 8 = BitVec.allOnes 8 := rfl
    rw [enable, BitVec.setWidth_or, hlow, BitVec.or_allOnes]
    rfl
  · simp [enable]

/--
What comes to a processor: an interrupt that its local APIC was sent, the spurious
vector in place of one that has gone away, or an exception or `int` of its own.
-/
inductive Arrival where
  | lapic (vector : Byte)
  | spurious
  | internal (vector : Byte)
  deriving DecidableEq, Repr

def Arrival.vector : Arrival → Byte
  | lapic vector => vector
  | spurious => spuriousVector
  | internal vector => vector

/--
The vectors in service, the last one first.  A vector is held back by one of its own
class or a higher one, and a vector of class 0 by the task priority, which stays 0.
-/
def accepts (inService : List Byte) : Arrival → Prop
  | .lapic vector =>
      0 < vector.toNat / 16 ∧ ∀ other ∈ inService, other.toNat / 16 < vector.toNat / 16
  | .spurious => True
  | .internal _ => True

instance (inService : List Byte) : (arrival : Arrival) → Decidable (accepts inService arrival)
  | .lapic _ => inferInstanceAs (Decidable (_ ∧ ∀ other ∈ inService, _))
  | .spurious => inferInstanceAs (Decidable True)
  | .internal _ => inferInstanceAs (Decidable True)

def Arrival.enter (inService : List Byte) : Arrival → List Byte
  | lapic vector => vector :: inService
  | spurious => inService
  | internal _ => inService

/-- The end of an interrupt is that of the vector with the highest priority. -/
def Effect.onLAPIC (inService : List Byte) : Effect → List Byte
  | lapicEOI => inService.tail
  | _ => inService

def arrive (handlers : Byte → Option Pointer) (inService : List Byte) (arrival : Arrival) :
    List Byte :=
  if accepts inService arrival then
    (enterGate (some (false, handlers)) arrival.vector).foldl Effect.onLAPIC
      (arrival.enter inService)
  else inService

def arrivals (handlers : Byte → Option Pointer) (run : List Arrival) : List Byte :=
  run.foldl (arrive handlers) []

def Acknowledged (vector : Byte) : Prop :=
  (0x20 ≤ vector.toNat ∧ vector.toNat < 0x30) ∨ vector = 0x80 ∨ vector = 0xFD

instance (vector : Byte) : Decidable (Acknowledged vector) := inferInstanceAs (Decidable (_ ∨ _))

section LAPIC

variable {handlers : Byte → Option Pointer} {inService : List Byte} {vector : Byte}
  {run : List Arrival} {arrival : Arrival}

theorem onLAPIC_callHandler (handlers : Byte → Option Pointer) (interrupt : Byte)
    (inService : List Byte) :
    (callHandler handlers interrupt).foldl Effect.onLAPIC inService = inService := by
  unfold callHandler
  cases handlers interrupt with
  | some handler =>
      dsimp only
      split <;> rfl
  | none =>
      dsimp only
      split
      · rfl
      · split <;> rfl

theorem stores_of_acknowledged (h : Acknowledged vector) :
    (stubAt vector).stores = some vector := by
  rw [stores_stubAt, if_pos]
  rcases h with h | h | h
  · exact .inr (.inl h)
  · exact .inr (.inr (.inl h))
  · exact .inr (.inr (.inr h))

theorem onLAPIC_enterGate (vector : Byte) (inService : List Byte) :
    (enterGate (some (false, handlers)) vector).foldl Effect.onLAPIC inService =
      if Acknowledged vector then inService.tail else inService := by
  unfold enterGate
  by_cases hacknowledged : Acknowledged vector
  · have hends : endOfInterrupt false vector = [.lapicEOI] := by
      have hcases : IsHardware vector ∨ vector = 0xFD ∨ vector = 0x80 := by
        rcases hacknowledged with ⟨hlow, hhigh⟩ | h | h
        · exact .inl ⟨hlow, by change vector.toNat ≤ 0x20 + 16; omega⟩
        · exact .inr (.inr h)
        · exact .inr (.inl h)
      rw [endOfInterrupt, if_pos hcases, if_neg (by simp)]
    rw [stores_of_acknowledged hacknowledged, if_pos hacknowledged]
    simp only [handleInterrupt, doHandleInterrupt]
    rw [List.foldl_append, onLAPIC_callHandler, hends]
    rfl
  · rw [if_neg hacknowledged, stores_stubAt]
    by_cases hserved : Served vector
    · -- only the exceptions are left
      have hends : endOfInterrupt false vector = [] := by
        have hexception : vector.toNat < 20 := by
          rcases hserved with h | h | h | h
          · exact h
          · exact absurd (.inl h) hacknowledged
          · exact absurd (.inr (.inl h)) hacknowledged
          · exact absurd (.inr (.inr h)) hacknowledged
        rw [endOfInterrupt, if_neg]
        rintro (⟨hlow, -⟩ | rfl | rfl)
        · change 0x20 ≤ vector.toNat at hlow
          omega
        · exact absurd hexception (by decide)
        · exact absurd hexception (by decide)
      rw [if_pos hserved]
      simp only [handleInterrupt, doHandleInterrupt]
      rw [List.foldl_append, onLAPIC_callHandler, hends]
      rfl
    · rw [if_neg hserved]
      rfl

theorem arrivals_snoc (run : List Arrival) (arrival : Arrival) :
    arrivals handlers (run ++ [arrival]) = arrive handlers (arrivals handlers run) arrival :=
  List.foldl_append

theorem arrive_idle : arrive handlers [] arrival =
    match arrival with
    | .lapic vector => if 0x10 ≤ vector.toNat → Acknowledged vector then [] else [vector]
    | .spurious => []
    | .internal _ => [] := by
  cases arrival with
  | lapic vector =>
      by_cases hclass : 0x10 ≤ vector.toNat
      · have haccepts : accepts [] (.lapic vector) :=
          ⟨by omega, fun other hother => absurd hother List.not_mem_nil⟩
        rw [arrive, if_pos haccepts, onLAPIC_enterGate]
        simp only [hclass, forall_const]
        rfl
      · have hrefuses : ¬ accepts [] (.lapic vector) := by
          rintro ⟨haccepts, -⟩
          omega
        rw [arrive, if_neg hrefuses]
        exact (if_pos fun h => absurd h hclass).symm
  | spurious =>
      have haccepts : accepts [] .spurious := trivial
      rw [arrive, if_pos haccepts, onLAPIC_enterGate]
      exact ite_self _
  | internal vector =>
      have haccepts : accepts [] (.internal vector) := trivial
      rw [arrive, if_pos haccepts, onLAPIC_enterGate]
      exact ite_self _

end LAPIC

end UnifiedOS.Interrupts
