import UnifiedOS.Devices.APIC
import UnifiedOS.Foundation.LastWrite

/-!
# The redirection table of the I/O APIC

The registers of the I/O APIC are reached through a select register and a window.
Each pin has an entry of two registers, which `Redirect` writes.  `IntitateIO`
redirects the overridden sources and `MapLegacyIRQ` any other.
-/

namespace UnifiedOS.Devices

open UnifiedOS.Foundation

/-! ## The registers -/

/-- The device; of what is selected only the low byte counts. -/
structure IOAPICRegisters where
  registerSelect : BitVec 32
  register : Byte → BitVec 32

namespace IOAPICRegisters

def write32 (s : IOAPICRegisters) (reg data : BitVec 32) : IOAPICRegisters where
  registerSelect := reg
  register := Function.update s.register (reg.setWidth 8) data

def write64 (s : IOAPICRegisters) (reg : BitVec 32) (data : BitVec 64) : IOAPICRegisters :=
  let low := (data &&& 0xFFFFFFFF).setWidth 32
  let high := (data >>> 32).setWidth 32
  (s.write32 reg low).write32 (reg + 1) high

end IOAPICRegisters

def IO_APIC_RED_TABLE_ENT (x : Byte) : BitVec 32 := 0x10 + 2 * x.setWidth 32

def ICR_MESSAGE_TYPE_LOW_PRIORITY : BitVec 32 := 1 <<< 8

def redirect (s : IOAPICRegisters) (irq vector : Byte) (delivery : BitVec 32) :
    IOAPICRegisters :=
  s.write64 (IO_APIC_RED_TABLE_ENT irq) ((delivery ||| vector.setWidth 32).setWidth 64)

structure InterruptSourceOverride where
  irqSource : Byte
  globalSystemInterrupt : BitVec 32
  deriving DecidableEq

def InterruptSourceOverride.ofMemory (table : ByteMemory) (p : Nat) : InterruptSourceOverride where
  irqSource := table (p + 1)
  globalSystemInterrupt := BitVec.ofNat 32 (table.load (p + 2) 4)

def intitateIO (isos : List InterruptSourceOverride) (s : IOAPICRegisters) : IOAPICRegisters :=
  isos.foldl (fun s iso =>
    redirect s (iso.globalSystemInterrupt.setWidth 8) (iso.irqSource + 0x20) 0) s

def mapLegacyIRQ (isos : List InterruptSourceOverride) (s : IOAPICRegisters) (irq : Byte) :
    IOAPICRegisters :=
  if isos.any fun iso => iso.irqSource == irq then s
  else redirect s irq (irq + 0x20) ICR_MESSAGE_TYPE_LOW_PRIORITY

def mapLegacyIRQs (isos : List InterruptSourceOverride) (irqs : List Byte) (s : IOAPICRegisters) :
    IOAPICRegisters :=
  irqs.foldl (mapLegacyIRQ isos) s

/-! ## The entries -/

structure RedirectionEntry where
  vector : Byte
  deliveryMode : BitVec 3
  masked : Bool
  destination : Byte
  deriving DecidableEq

def IOAPICRegisters.entry (s : IOAPICRegisters) (pin : Byte) : RedirectionEntry where
  vector := (s.register (0x10 + 2 * pin)).setWidth 8
  deliveryMode := (s.register (0x10 + 2 * pin)).extractLsb' 8 3
  masked := (s.register (0x10 + 2 * pin)).getLsbD 16
  destination := (s.register (0x11 + 2 * pin)).extractLsb' 24 8

def redirection (vector : Byte) (delivery : BitVec 32) : RedirectionEntry where
  vector := (delivery ||| vector.setWidth 32).setWidth 8
  deliveryMode := (delivery ||| vector.setWidth 32).extractLsb' 8 3
  masked := (delivery ||| vector.setWidth 32).getLsbD 16
  destination := 0

/-- The low byte of the select register reaches the entries of 120 pins. -/
def PinInReach (pin : Byte) : Prop := pin.toNat < 120

section Redirect

variable {s : IOAPICRegisters} {irq pin vector : Byte} {delivery : BitVec 32}

theorem red_table_low (irq : Byte) :
    (IO_APIC_RED_TABLE_ENT irq).setWidth 8 = 0x10 + 2 * irq := by
  apply BitVec.eq_of_toNat_eq
  simp [IO_APIC_RED_TABLE_ENT]

theorem red_table_high (irq : Byte) :
    (IO_APIC_RED_TABLE_ENT irq + 1).setWidth 8 = 0x11 + 2 * irq := by
  apply BitVec.eq_of_toNat_eq
  simp [IO_APIC_RED_TABLE_ENT]
  omega

theorem write64_low (data : BitVec 32) :
    ((data.setWidth 64) &&& 0xFFFFFFFF).setWidth 32 = data := by
  apply BitVec.eq_of_toNat_eq
  have hdata := data.isLt
  have hmask : (0xFFFFFFFF : BitVec 64).toNat = 2 ^ 32 - 1 := rfl
  rw [BitVec.toNat_setWidth, BitVec.toNat_and, hmask, Nat.and_two_pow_sub_one_eq_mod,
    BitVec.toNat_setWidth]
  omega

theorem write64_high (data : BitVec 32) : ((data.setWidth 64) >>> 32).setWidth 32 = 0 := by
  apply BitVec.eq_of_toNat_eq
  have hdata := data.isLt
  simp [Nat.shiftRight_eq_div_pow]
  omega

theorem register_redirect (reg : Byte) : (redirect s irq vector delivery).register reg =
    if reg = 0x11 + 2 * irq then 0
    else if reg = 0x10 + 2 * irq then delivery ||| vector.setWidth 32
    else s.register reg := by
  unfold redirect IOAPICRegisters.write64 IOAPICRegisters.write32
  dsimp only
  rw [red_table_low, red_table_high, write64_low, write64_high, Function.update_apply,
    Function.update_apply]

theorem entry_redirect (hirq : PinInReach irq) (hpin : PinInReach pin) :
    (redirect s irq vector delivery).entry pin =
      if pin = irq then redirection vector delivery else s.entry pin := by
  have hlow : (0x10 : Byte) + 2 * pin ≠ 0x11 + 2 * irq := by
    intro heq
    have hvalue := congrArg BitVec.toNat heq
    unfold PinInReach at hirq hpin
    simp at hvalue
    omega
  have hhigh : (0x11 : Byte) + 2 * pin ≠ 0x10 + 2 * irq := by
    intro heq
    have hvalue := congrArg BitVec.toNat heq
    unfold PinInReach at hirq hpin
    simp at hvalue
    omega
  unfold IOAPICRegisters.entry
  rw [register_redirect, register_redirect, if_neg hlow, if_neg hhigh]
  by_cases hsame : pin = irq
  · subst hsame
    rw [if_pos rfl, if_pos rfl, if_pos rfl]
    rfl
  · have hlow' : (0x10 : Byte) + 2 * pin ≠ 0x10 + 2 * irq := by
      intro heq
      apply hsame
      apply BitVec.eq_of_toNat_eq
      have hvalue := congrArg BitVec.toNat heq
      unfold PinInReach at hirq hpin
      simp at hvalue
      omega
    have hhigh' : (0x11 : Byte) + 2 * pin ≠ 0x11 + 2 * irq := by
      intro heq
      apply hsame
      apply BitVec.eq_of_toNat_eq
      have hvalue := congrArg BitVec.toNat heq
      unfold PinInReach at hirq hpin
      simp at hvalue
      omega
    rw [if_neg hlow', if_neg hhigh', if_neg hsame]

end Redirect

/-! ## The table after all calls -/

def redirectCalls (isos : List InterruptSourceOverride) (irqs : List Byte) :
    List (Byte × Byte × BitVec 32) :=
  (isos.map fun iso => (iso.globalSystemInterrupt.setWidth 8, iso.irqSource + 0x20, 0)) ++
  ((irqs.filter fun irq => !(isos.any fun iso => iso.irqSource == irq)).map fun irq =>
    (irq, irq + 0x20, ICR_MESSAGE_TYPE_LOW_PRIORITY))

def redirections (isos : List InterruptSourceOverride) (irqs : List Byte) :
    List (Byte × RedirectionEntry) :=
  (redirectCalls isos irqs).map fun call => (call.1, redirection call.2.1 call.2.2)

section Tables

variable {s : IOAPICRegisters} {isos : List InterruptSourceOverride} {irqs : List Byte}
  {pin : Byte}

theorem entry_redirects {calls : List (Byte × Byte × BitVec 32)}
    (hreach : ∀ call ∈ calls, PinInReach call.1) (hpin : PinInReach pin) :
    (calls.foldl (fun s call => redirect s call.1 call.2.1 call.2.2) s).entry pin =
      writeAll s.entry (calls.map fun call => (call.1, redirection call.2.1 call.2.2)) pin := by
  induction calls generalizing s with
  | nil => rfl
  | cons call calls ih =>
      obtain ⟨hcall, hrest⟩ := List.forall_mem_cons.mp hreach
      rw [List.foldl_cons, ih hrest, List.map_cons, writeAll_apply, writeAll_apply, lastWrite_cons,
        entry_redirect hcall hpin]
      by_cases hsame : pin = call.1
      · rw [hsame]
        cases lastWrite call.1 _ <;> simp
      · cases lastWrite pin _ <;> simp [hsame, Ne.symm hsame]

theorem mapLegacyIRQs_eq_redirects (isos : List InterruptSourceOverride) (irqs : List Byte)
    (s : IOAPICRegisters) : (mapLegacyIRQs isos irqs <| intitateIO isos s) =
      (redirectCalls isos irqs).foldl (fun s call => redirect s call.1 call.2.1 call.2.2) s := by
  rw [redirectCalls, List.foldl_append, List.foldl_map, List.foldl_map, List.foldl_filter,
    mapLegacyIRQs, intitateIO]
  congr 1
  funext s irq
  unfold mapLegacyIRQ
  cases isos.any fun iso => iso.irqSource == irq <;> rfl

theorem entry_mapLegacyIRQs (hreach : ∀ entry ∈ redirections isos irqs, PinInReach entry.1)
    (hpin : PinInReach pin) : (mapLegacyIRQs isos irqs <| intitateIO isos s).entry pin =
      writeAll s.entry (redirections isos irqs) pin := by
  rw [mapLegacyIRQs_eq_redirects]
  refine entry_redirects (fun call hcall => ?_) hpin
  exact hreach _ (List.mem_map.mpr ⟨call, hcall, rfl⟩)

end Tables

namespace APIC

def sourceOverrides (table : ByteMemory) (s : APIC) : List InterruptSourceOverride :=
  s.overrides.filterMap fun iso => iso.map (InterruptSourceOverride.ofMemory table)

def overridesOf (table : ByteMemory) (records : List Nat) : List InterruptSourceOverride :=
  (records.filterMap (sourceOverride table)).map (InterruptSourceOverride.ofMemory table)

theorem sourceOverrides_readAPIC {table : ByteMemory} {records : List Nat}
    (htiles : Tiles table (MADTHeader.ofMemory table).length.toNat 0x2C records)
    (hoverrides : (records.filterMap (sourceOverride table)).length ≤ 255) :
    ∃ s, readAPIC (some table) initial = some s ∧
      s.sourceOverrides table = overridesOf table records := by
  refine ⟨_, readRecords_of_visits htiles.visits _, ?_⟩
  rw [sourceOverrides, overrides_foldl]
  · change List.filterMap _ ([] ++ _) = _
    rw [List.nil_append, List.filterMap_map]
    simp [overridesOf]
  · change 0 + _ < 256
    omega

end APIC

section Sources

variable (table : ByteMemory) (records : List Nat) (irqs : List Byte) (before : IOAPICRegisters)

def afterMapping (isos : List InterruptSourceOverride) : IOAPICRegisters :=
  mapLegacyIRQs isos irqs <| intitateIO isos before

/--
After `ReadAPIC`, `IntitateIO` and any calls of `MapLegacyIRQ` every overridden
source arrives at the pin of its override and every other mapped one at the pin of
its number, unmasked, at the first processor and with 0x20 added to its number,
exactly if no two of them that differ share a pin.  All other pins are as before.
-/
theorem sources_redirected_iff
    (htiles : Tiles table (MADTHeader.ofMemory table).length.toNat 0x2C records)
    (hoverrides : (records.filterMap (sourceOverride table)).length ≤ 255)
    (hreach : ∀ entry ∈ redirections (APIC.overridesOf table records) irqs, PinInReach entry.1) :
    ∃ s, APIC.readAPIC (some table) APIC.initial = some s ∧
      s.sourceOverrides table = APIC.overridesOf table records ∧
      ((∀ entry ∈ redirections (s.sourceOverrides table) irqs,
          (afterMapping irqs before (s.sourceOverrides table)).entry entry.1 = entry.2) ↔
        ∀ entry ∈ redirections (s.sourceOverrides table) irqs,
          ∀ other ∈ redirections (s.sourceOverrides table) irqs,
            entry.1 = other.1 → entry.2 = other.2) ∧
      ∀ pin, PinInReach pin →
        (∀ entry ∈ redirections (s.sourceOverrides table) irqs, entry.1 ≠ pin) →
        (afterMapping irqs before (s.sourceOverrides table)).entry pin = before.entry pin := by
  obtain ⟨s, hread, hisos⟩ := APIC.sourceOverrides_readAPIC htiles hoverrides
  refine ⟨s, hread, hisos, ?_⟩
  rw [hisos]
  refine ⟨?_, fun pin hpin hfree => ?_⟩
  · rw [← @writeAll_lasts_iff _ _ _ before.entry]
    constructor
    · intro hafter entry hentry
      rw [← entry_mapLegacyIRQs hreach (hreach entry hentry)]
      exact hafter entry hentry
    · intro hwritten entry hentry
      rw [afterMapping, entry_mapLegacyIRQs hreach (hreach entry hentry)]
      exact hwritten entry hentry
  · rw [afterMapping, entry_mapLegacyIRQs hreach hpin, writeAll_apply,
      lastWrite_eq_none_iff.mpr hfree]
    rfl

end Sources

/-- The timer is overridden to pin 2; the keyboard and the mouse are mapped. -/
theorem sources_redirected_smallMADT :
    ∃ s, APIC.readAPIC (some smallMADT) APIC.initial = some s ∧
      (afterMapping [1, 12] ⟨0, fun _ => 0x10000⟩ (s.sourceOverrides smallMADT)).entry 2 =
        ⟨0x20, 0, false, 0⟩ := by
  obtain ⟨s, hread, hisos, hiff, -⟩ := sources_redirected_iff smallMADT [0x2C, 0x34, 0x40] [1, 12]
    ⟨0, fun _ => 0x10000⟩ tiles_smallMADT (by decide) (by unfold PinInReach; decide)
  rw [hisos] at hiff
  refine ⟨s, hread, ?_⟩
  rw [hisos]
  exact hiff.mpr (by decide) (2, ⟨0x20, 0, false, 0⟩) (by decide)

end UnifiedOS.Devices
