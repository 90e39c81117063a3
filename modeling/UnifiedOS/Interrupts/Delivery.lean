import UnifiedOS.Devices.IOAPIC
import UnifiedOS.Interrupts.Dispatch

/-!
# From a device to its handler

A device raises the line of its number, or the pin of its source override.  The
I/O APIC turns the pin into a vector, the local APIC hands that to its processor,
the gate of the vector leads to a stub, and the manager finds the handler.  Ticks
go on to the other processors by an interrupt of the local APIC.
-/

namespace UnifiedOS.Interrupts

open UnifiedOS.Foundation UnifiedOS.Devices

/-! ## Interrupts between processors -/

def ICR_DSH_OTHER : BitVec 32 := 3 <<< 18

def ICR_MESSAGE_TYPE_FIXED : BitVec 32 := 0

def IPI_SCHEDULE : Byte := 0xFD

def sendIPI (destination : Byte) (dsh type : BitVec 32) (vector : Byte) :
    BitVec 32 × BitVec 32 :=
  (destination.setWidth 32 <<< 24, dsh ||| type ||| (vector &&& 0xFF).setWidth 32)

structure InterruptCommand where
  vector : Byte
  deliveryMode : BitVec 3
  shorthand : BitVec 2
  destination : Byte
  deriving DecidableEq

def InterruptCommand.ofRegisters (icr : BitVec 32 × BitVec 32) : InterruptCommand where
  vector := icr.2.setWidth 8
  deliveryMode := icr.2.extractLsb' 8 3
  shorthand := icr.2.extractLsb' 18 2
  destination := icr.1.extractLsb' 24 8

/-- The processors a command goes to; without a shorthand it is the one it names. -/
def InterruptCommand.Reaches (command : InterruptCommand) (sender receiver : Byte) : Prop :=
  match command.shorthand.toNat with
  | 0 => receiver = command.destination
  | 1 => receiver = sender
  | 2 => True
  | _ => receiver ≠ sender

theorem ofRegisters_sendIPI (destination : Byte) (shorthand : BitVec 2) (deliveryMode : BitVec 3)
    (vector : Byte) :
    InterruptCommand.ofRegisters (sendIPI destination (shorthand.setWidth 32 <<< 18)
      (deliveryMode.setWidth 32 <<< 8) vector) =
        ⟨vector, deliveryMode, shorthand, destination⟩ := by
  have hmask : vector &&& 0xFF = vector := @BitVec.and_allOnes 8 vector
  unfold InterruptCommand.ofRegisters sendIPI
  rw [hmask]
  congr 1
  · ext i hi
    simp
  · ext i hi
    simp
    grind
  · ext i hi
    simp
    grind
  · ext i hi
    simp
    grind

theorem tick_reaches_others (sender receiver : Byte) :
    (InterruptCommand.ofRegisters
      (sendIPI 0 ICR_DSH_OTHER ICR_MESSAGE_TYPE_FIXED IPI_SCHEDULE)).Reaches sender receiver ↔
        receiver ≠ sender := by
  have hcommand : InterruptCommand.ofRegisters
      (sendIPI 0 ICR_DSH_OTHER ICR_MESSAGE_TYPE_FIXED IPI_SCHEDULE) = ⟨0xFD, 0, 3, 0⟩ :=
    ofRegisters_sendIPI 0 3 0 IPI_SCHEDULE
  rw [hcommand]
  rfl

/-! ## Interrupts of devices -/

section Devices

variable {isos : List InterruptSourceOverride} {irqs : List Byte} {irq : Byte}
  {events : List HandlerEvent} {handler : Pointer}

inductive Wired (isos : List InterruptSourceOverride) (irqs : List Byte) (irq : Byte) :
    Byte → Prop
  | overridden {iso : InterruptSourceOverride} (hiso : iso ∈ isos) (hsource : iso.irqSource = irq) :
      Wired isos irqs irq (iso.globalSystemInterrupt.setWidth 8)
  | mapped (hirq : irq ∈ irqs) (hnone : ∀ iso ∈ isos, iso.irqSource ≠ irq) :
      Wired isos irqs irq irq

theorem redirection_vector (vector : Byte) :
    (redirection vector 0).vector = vector ∧
      (redirection vector ICR_MESSAGE_TYPE_LOW_PRIORITY).vector = vector := by
  revert vector
  decide

theorem redirection_unmasked (vector : Byte) :
    (redirection vector 0).masked = false ∧
      (redirection vector ICR_MESSAGE_TYPE_LOW_PRIORITY).masked = false := by
  revert vector
  decide

theorem Wired.redirected {pin : Byte} (h : Wired isos irqs irq pin) :
    ∃ entry, (pin, entry) ∈ redirections isos irqs ∧ entry.vector = irq + 0x20 ∧
      entry.masked = false ∧ entry.destination = 0 := by
  cases h with
  | @overridden iso hiso hsource =>
      refine ⟨redirection (iso.irqSource + 0x20) 0, ?_, ?_, ?_, rfl⟩
      · exact List.mem_map.mpr ⟨_, List.mem_append_left _ (List.mem_map.mpr ⟨iso, hiso, rfl⟩), rfl⟩
      · rw [(redirection_vector _).1, hsource]
      · exact (redirection_unmasked _).1
  | mapped hirq hnone =>
      refine ⟨redirection (irq + 0x20) ICR_MESSAGE_TYPE_LOW_PRIORITY, ?_, ?_, ?_, rfl⟩
      · refine List.mem_map.mpr ⟨(irq, irq + 0x20, ICR_MESSAGE_TYPE_LOW_PRIORITY), ?_, rfl⟩
        refine List.mem_append_right _ (List.mem_map.mpr ⟨irq, ?_, rfl⟩)
        refine List.mem_filter.mpr ⟨hirq, ?_⟩
        simpa using hnone
      · exact (redirection_vector _).2
      · exact (redirection_unmasked _).2

theorem toNat_vector (hirq : irq.toNat < 16) : (irq + 0x20).toNat = irq.toNat + 0x20 := by
  rw [BitVec.toNat_add]
  exact Nat.mod_eq_of_lt (by change irq.toNat + 0x20 < 256; omega)

theorem enterGate_hardware (handlers : Byte → Option Pointer) (hirq : irq.toNat < 16) :
    enterGate (some (false, handlers)) (irq + 0x20) =
      .lapicEOI :: callHandler handlers (irq + 0x20) := by
  have hvector := toNat_vector hirq
  have hacknowledged : Acknowledged (irq + 0x20) := .inl (by omega)
  have hhardware : IsHardware (irq + 0x20) := by
    unfold IsHardware
    change 0x20 ≤ _ ∧ _ ≤ 0x20 + 16
    omega
  unfold enterGate
  rw [stores_of_acknowledged hacknowledged]
  simp only [handleInterrupt, doHandleInterrupt]
  rw [endOfInterrupt, if_pos (.inl hhardware), if_neg (by simp)]
  rfl

theorem callHandler_installed (hproper : ProperRun events)
    (hinstalled : Installed events (irq + 0x20) handler) (hirq : irq.toNat < 16) :
    callHandler (runHandlers events).handlers (irq + 0x20) =
      .handleInterrupt handler :: (if irq = 0 then [.tick] else []) := by
  have hvector := toNat_vector hirq
  have htick : (irq + 0x20).toNat = hardwareInterruptOffset.toNat ↔ irq = 0 := by
    rw [hvector]
    change irq.toNat + 0x20 = 0x20 ↔ irq = 0
    constructor
    · intro hzero
      apply BitVec.eq_of_toNat_eq
      change irq.toNat = 0
      omega
    · rintro rfl
      rfl
  unfold callHandler
  rw [(handlers_eq_iff_installed hproper).mpr hinstalled]
  simp only [htick]

end Devices

/--
Once the sources of a table are redirected to pins of their own, a device that was
provided for raises a pin whose entry is not masked and names the first processor.
Its vector is ended at the local APIC and then reaches the handler that was
constructed last for the device; the timer ticks after that.
-/
theorem device_reaches_handler (table : ByteMemory) (records : List Nat) (irqs : List Byte)
    (before : IOAPICRegisters) (events : List HandlerEvent) (irq pin : Byte)
    (htiles : Tiles table (MADTHeader.ofMemory table).length.toNat 0x2C records)
    (hoverrides : (records.filterMap (sourceOverride table)).length ≤ 255)
    (hreach : ∀ entry ∈ redirections (APIC.overridesOf table records) irqs, PinInReach entry.1)
    (hpins : ∀ entry ∈ redirections (APIC.overridesOf table records) irqs,
      ∀ other ∈ redirections (APIC.overridesOf table records) irqs,
        entry.1 = other.1 → entry.2 = other.2)
    (hproper : ProperRun events) (hirq : irq.toNat < 16)
    (hwired : Wired (APIC.overridesOf table records) irqs irq pin) :
    ∃ s entry, APIC.readAPIC (some table) APIC.initial = some s ∧
      (afterMapping irqs before (s.sourceOverrides table)).entry pin = entry ∧
        entry.masked = false ∧ entry.destination = 0 ∧
        enterGate (some (false, (runHandlers events).handlers)) entry.vector =
          .lapicEOI :: callHandler (runHandlers events).handlers (irq + 0x20) ∧
        ∀ handler, Installed events (irq + 0x20) handler →
          enterGate (some (false, (runHandlers events).handlers)) entry.vector =
            .lapicEOI :: .handleInterrupt handler :: (if irq = 0 then [.tick] else []) := by
  obtain ⟨s, hread, hisos⟩ := APIC.sourceOverrides_readAPIC htiles hoverrides
  obtain ⟨entry, hmem, hvector, hmasked, hdestination⟩ := hwired.redirected
  have hentry : (afterMapping irqs before (s.sourceOverrides table)).entry pin = entry := by
    rw [hisos, afterMapping, entry_mapLegacyIRQs hreach (hreach _ hmem)]
    exact writeAll_lasts_iff.mpr hpins (pin, entry) hmem
  refine ⟨s, entry, hread, hentry, hmasked, hdestination, ?_⟩
  rw [hvector]
  refine ⟨enterGate_hardware _ hirq, fun handler hinstalled => ?_⟩
  rw [enterGate_hardware _ hirq, callHandler_installed hproper hinstalled hirq]

/-- The timer, whose pin is overridden, and its handler. -/
theorem device_reaches_handler_timer :
    ∃ s entry, APIC.readAPIC (some smallMADT) APIC.initial = some s ∧
      (afterMapping [1, 12] ⟨0, fun _ => 0x10000⟩ (s.sourceOverrides smallMADT)).entry 2 = entry ∧
      enterGate (some (false, (runHandlers replaced).handlers)) entry.vector =
        [.lapicEOI, .handleInterrupt 0x6000, .tick] := by
  have hproper : ProperRun replaced := by
    simp [replaced, ProperFrom, HandlerEvent.Proper, HandlerEvent.live]
  obtain ⟨s, entry, hread, hentry, -, -, -, hhandler⟩ := device_reaches_handler smallMADT
    [0x2C, 0x34, 0x40] [1, 12] ⟨0, fun _ => 0x10000⟩ replaced 0 2 tiles_smallMADT (by decide)
    (by unfold PinInReach; decide) (by decide) hproper (by decide)
    (@Wired.overridden _ _ _ ⟨0, 2⟩ (by decide) rfl)
  refine ⟨s, entry, hread, hentry, hhandler 0x6000 ?_⟩
  exact ⟨[.construct 0x5000 0x20], [], rfl, by simp, by simp⟩

end UnifiedOS.Interrupts
