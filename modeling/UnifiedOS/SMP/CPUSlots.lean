import Mathlib.Data.List.Perm.Subperm
import UnifiedOS.SMP.ProcessorBoot

/-!
# The slots of the processors

`SMP::Intitialise` stores each processor at its APIC id and counts those that
boot.  The scheduler visits the slots below the count.  The outcome of each boot
is given here; `ProcessorBoot` has the steps of one.
-/

namespace UnifiedOS.SMP

open UnifiedOS.Foundation

structure CPUSlots where
  cpus : BitVec 16 → Option CPU
  activeCPUs : BitVec 8

def smpEntry (page : Nat) (cpu : CPU) : CPU :=
  { cpu with currentProcess := none, queueLock := 0, gdt := some page, queue := some [] }

/-- `InitializeCPU`: the slot is filled at once, and counted if the processor boots. -/
def initializeCPU (boots : BitVec 8 → Bool) (page : BitVec 8 → Nat) (s : CPUSlots)
    (id : BitVec 8) : CPUSlots :=
  let cpu : CPU := ⟨id.setWidth 64, none, none, 0, none⟩
  if boots id then
    ⟨Function.update s.cpus (id.setWidth 16) (some (smpEntry (page id) cpu)), s.activeCPUs + 1⟩
  else ⟨Function.update s.cpus (id.setWidth 16) (some cpu), s.activeCPUs⟩

/-- The processors the boot loop comes to; `CoreCount` is a `uint8_t`. -/
def coreIDs (lapicIDs : List (BitVec 8)) : List (BitVec 8) :=
  lapicIDs.take (lapicIDs.length % 256)

/-- The slots before the boot loop: only the boot processor's is filled. -/
def bootSlots (bootID : BitVec 8) (gdt : Nat) : CPUSlots :=
  ⟨Function.update (fun _ => none) (bootID.setWidth 16)
    (some ⟨bootID.setWidth 64, some gdt, none, 0, some []⟩), 1⟩

def bootLoop (bootID : BitVec 8) (boots : BitVec 8 → Bool) (page : BitVec 8 → Nat)
    (ids : List (BitVec 8)) (s : CPUSlots) : CPUSlots :=
  ids.foldl (fun s id => if id ≠ bootID then initializeCPU boots page s id else s) s

def intitialise (bootID : BitVec 8) (lapicIDs : List (BitVec 8)) (boots : BitVec 8 → Bool)
    (page : BitVec 8 → Nat) (gdt : Nat) : CPUSlots :=
  bootLoop bootID boots page (coreIDs lapicIDs) (bootSlots bootID gdt)

namespace CPUSlots

/-- `CPUs[i]->Queue`; `none` if there is no processor or no queue to be found. -/
def queueAt (cpus : BitVec 16 → Option CPU) (i : Nat) : Option (List Nat) :=
  (cpus (BitVec.ofNat 16 i)).bind CPU.queue

def createIdle (cpus : BitVec 16 → Option CPU) (i : Nat) : Option (BitVec 16 → Option CPU) := do
  let _ ← cpus (BitVec.ofNat 16 i)
  return cpus

def clearQueue (cpus : BitVec 16 → Option CPU) (i : Nat) : Option (BitVec 16 → Option CPU) := do
  let cpu ← cpus (BitVec.ofNat 16 i)
  let _ ← cpu.queue
  return Function.update cpus (BitVec.ofNat 16 i)
    (some { cpu with queue := some [], queueLock := 0 })

/-- The loops of `Scheduler::Scheduler`; `none` if one follows a pointer to nothing. -/
def schedulerLoops (s : CPUSlots) : Option (BitVec 16 → Option CPU) := do
  let cpus ← (List.range s.activeCPUs.toNat).foldlM createIdle s.cpus
  (List.range s.activeCPUs.toNat).foldlM clearQueue cpus

/-- The loop of `NewProcess`, over the processors that are left. -/
def shortestQueue (cpus : BitVec 16 → Option CPU) : List Nat → Nat → Option Nat
  | [], cpu => some cpu
  | i :: rest, cpu => do
      let queue ← queueAt cpus i
      let best ← queueAt cpus cpu
      let cpu := if queue.length < best.length then i else cpu
      let chosen ← queueAt cpus cpu
      if chosen.length = 0 then some cpu else shortestQueue cpus rest cpu

/-- `Scheduler::NewProcess`, up to the process it adds. -/
def newProcess (s : CPUSlots) (pid : Nat) : Option CPUSlots := do
  let cpu ← shortestQueue s.cpus (List.range' 1 (s.activeCPUs.toNat - 1)) 0
  let slot ← s.cpus (BitVec.ofNat 16 cpu)
  let queue ← slot.queue
  return { s with
    cpus := Function.update s.cpus (BitVec.ofNat 16 cpu)
      (some { slot with queue := some (queue ++ [pid]), queueLock := 0 }) }

def Ready (cpus : BitVec 16 → Option CPU) (i : Nat) : Prop :=
  ∃ cpu, cpus (BitVec.ofNat 16 i) = some cpu ∧ cpu.queue.isSome = true

/-! ## The loops of the scheduler -/

section Loops

variable {cpus : BitVec 16 → Option CPU} {i : Nat} {l : List Nat}

theorem queueAt_of_ready (h : Ready cpus i) : ∃ queue, queueAt cpus i = some queue := by
  obtain ⟨cpu, hcpu, hqueue⟩ := h
  obtain ⟨queue, hqueue⟩ := Option.isSome_iff_exists.mp hqueue
  exact ⟨queue, by rw [queueAt, hcpu, Option.bind_some, hqueue]⟩

theorem foldlM_ready
    {step : (BitVec 16 → Option CPU) → Nat → Option (BitVec 16 → Option CPU)}
    (hstep : ∀ cpus i, Ready cpus i → ∃ cpus', step cpus i = some cpus' ∧
      ∀ j, Ready cpus j → Ready cpus' j)
    (h : ∀ i ∈ l, Ready cpus i) :
    ∃ cpus', l.foldlM step cpus = some cpus' ∧ ∀ j, Ready cpus j → Ready cpus' j := by
  induction l generalizing cpus with
  | nil => exact ⟨cpus, rfl, fun j hj => hj⟩
  | cons i l ih =>
      obtain ⟨cpus₁, hfirst, hkeep₁⟩ := hstep cpus i (h i List.mem_cons_self)
      obtain ⟨cpus₂, hrest, hkeep₂⟩ := ih fun j hj => hkeep₁ j (h j (List.mem_cons_of_mem i hj))
      refine ⟨cpus₂, ?_, fun j hj => hkeep₂ j (hkeep₁ j hj)⟩
      rw [List.foldlM_cons, hfirst]
      exact hrest

theorem createIdle_ready (h : Ready cpus i) :
    ∃ cpus', createIdle cpus i = some cpus' ∧ ∀ j, Ready cpus j → Ready cpus' j := by
  obtain ⟨cpu, hcpu, -⟩ := h
  exact ⟨cpus, by rw [createIdle, hcpu]; rfl, fun j hj => hj⟩

theorem clearQueue_ready (h : Ready cpus i) :
    ∃ cpus', clearQueue cpus i = some cpus' ∧ ∀ j, Ready cpus j → Ready cpus' j := by
  obtain ⟨cpu, hcpu, hqueue⟩ := h
  obtain ⟨queue, hqueue⟩ := Option.isSome_iff_exists.mp hqueue
  refine ⟨Function.update cpus (BitVec.ofNat 16 i)
    (some { cpu with queue := some [], queueLock := 0 }), ?_, fun j hj => ?_⟩
  · simp [clearQueue, hcpu, hqueue]
  · by_cases hsame : BitVec.ofNat 16 j = BitVec.ofNat 16 i
    · exact ⟨_, by rw [hsame, Function.update_self], rfl⟩
    · obtain ⟨other, hother, hready⟩ := hj
      exact ⟨other, by rw [Function.update_of_ne hsame, hother], hready⟩

theorem schedulerLoops_isSome {s : CPUSlots}
    (h : ∀ i < s.activeCPUs.toNat, Ready s.cpus i) : s.schedulerLoops.isSome = true := by
  have hready : ∀ i ∈ List.range s.activeCPUs.toNat, Ready s.cpus i := fun i hi =>
    h i (List.mem_range.mp hi)
  obtain ⟨cpus₁, hidle, hkeep⟩ := foldlM_ready (fun _ _ => createIdle_ready) hready
  obtain ⟨cpus₂, hclear, -⟩ := foldlM_ready (fun _ _ => clearQueue_ready) fun i hi =>
    hkeep i (hready i hi)
  simp [schedulerLoops, hidle, hclear]

theorem shortestQueue_cons {cpu : Nat} {queue best : List Nat} (hi : queueAt cpus i = some queue)
    (hcpu : queueAt cpus cpu = some best) :
    shortestQueue cpus (i :: l) cpu =
      if min queue.length best.length = 0 then some (if queue.length < best.length then i else cpu)
      else shortestQueue cpus l (if queue.length < best.length then i else cpu) := by
  by_cases hless : queue.length < best.length
  · simp [shortestQueue, hi, hcpu, hless, Nat.min_eq_left hless.le]
  · simp [shortestQueue, hi, hcpu, hless, Nat.min_eq_right (Nat.le_of_not_lt hless)]

theorem shortestQueue_ready {cpu : Nat} (hcpu : Ready cpus cpu) (h : ∀ i ∈ l, Ready cpus i) :
    ∃ best, shortestQueue cpus l cpu = some best ∧ Ready cpus best := by
  induction l generalizing cpu with
  | nil => exact ⟨cpu, rfl, hcpu⟩
  | cons i l ih =>
      have hi : Ready cpus i := h i List.mem_cons_self
      have hrest : ∀ j ∈ l, Ready cpus j := fun j hj => h j (List.mem_cons_of_mem i hj)
      obtain ⟨queue, hqueue⟩ := queueAt_of_ready hi
      obtain ⟨best, hbest⟩ := queueAt_of_ready hcpu
      have hchosen : Ready cpus (if queue.length < best.length then i else cpu) := by
        split
        · exact hi
        · exact hcpu
      rw [shortestQueue_cons hqueue hbest]
      by_cases hempty : min queue.length best.length = 0
      · rw [if_pos hempty]
        exact ⟨_, rfl, hchosen⟩
      · rw [if_neg hempty]
        exact ih hchosen hrest

theorem newProcess_isSome {s : CPUSlots} (hpos : 0 < s.activeCPUs.toNat)
    (h : ∀ i < s.activeCPUs.toNat, Ready s.cpus i) (pid : Nat) :
    (s.newProcess pid).isSome = true := by
  have hrest : ∀ i ∈ List.range' 1 (s.activeCPUs.toNat - 1), Ready s.cpus i := by
    intro i hi
    rw [List.mem_range'_1] at hi
    exact h i (by omega)
  obtain ⟨best, hbest, cpu, hcpu, hqueue⟩ := shortestQueue_ready (h 0 hpos) hrest
  obtain ⟨queue, hqueue⟩ := Option.isSome_iff_exists.mp hqueue
  simp [newProcess, hbest, hcpu, hqueue]

end Loops

end CPUSlots

open CPUSlots

/-! ## What the boot loop leaves -/

def bootedIDs (bootID : BitVec 8) (boots : BitVec 8 → Bool) (lapicIDs : List (BitVec 8)) :
    List (BitVec 8) :=
  bootID :: (coreIDs lapicIDs).filter fun id => id ≠ bootID && boots id

section BootLoop

variable {bootID : BitVec 8} {boots : BitVec 8 → Bool} {page : BitVec 8 → Nat}
  {ids : List (BitVec 8)} {s : CPUSlots} {i : Nat}

theorem slot_eq_iff {id : BitVec 8} (hi : i < 2 ^ 16) :
    BitVec.ofNat 16 i = id.setWidth 16 ↔ id.toNat = i := by
  have hid : id.toNat < 2 ^ 8 := id.isLt
  constructor
  · intro heq
    have hvalue := congrArg BitVec.toNat heq
    rw [BitVec.toNat_ofNat, BitVec.toNat_setWidth, Nat.mod_eq_of_lt hi,
      Nat.mod_eq_of_lt (by omega)] at hvalue
    exact hvalue.symm
  · intro hvalue
    apply BitVec.eq_of_toNat_eq
    rw [BitVec.toNat_ofNat, BitVec.toNat_setWidth, Nat.mod_eq_of_lt hi,
      Nat.mod_eq_of_lt (by omega), hvalue]

/-- A boot that fails leaves a slot without a queue. -/
theorem ready_initializeCPU (hi : i < 2 ^ 16) (id : BitVec 8) :
    Ready (initializeCPU boots page s id).cpus i ↔
      if id.toNat = i then boots id = true else Ready s.cpus i := by
  unfold initializeCPU
  by_cases hslot : id.toNat = i
  · have hindex := (slot_eq_iff hi).mpr hslot
    rw [if_pos hslot, Ready]
    cases boots id with
    | true => simp [hindex, smpEntry]
    | false => simp [hindex]
  · have hindex : BitVec.ofNat 16 i ≠ id.setWidth 16 := fun heq =>
      hslot ((slot_eq_iff hi).mp heq)
    rw [if_neg hslot, Ready, Ready]
    cases boots id with
    | true => simp [Function.update_of_ne hindex]
    | false => simp [Function.update_of_ne hindex]

theorem bootLoop_cons (id : BitVec 8) : bootLoop bootID boots page (id :: ids) s =
    bootLoop bootID boots page ids (if id ≠ bootID then initializeCPU boots page s id else s) :=
  rfl

theorem ready_bootLoop (hi : i < 2 ^ 16) :
    Ready (bootLoop bootID boots page ids s).cpus i ↔
      (∃ id ∈ ids, id ≠ bootID ∧ boots id = true ∧ id.toNat = i) ∨
        (Ready s.cpus i ∧ ∀ id ∈ ids, id ≠ bootID → id.toNat ≠ i) := by
  induction ids generalizing s with
  | nil => simp [bootLoop]
  | cons id ids ih =>
      rw [bootLoop_cons, ih, List.exists_mem_cons_iff, List.forall_mem_cons]
      by_cases hboot : id = bootID
      · simp [hboot]
      · rw [if_pos hboot, ready_initializeCPU hi]
        by_cases hslot : id.toNat = i
        · rw [if_pos hslot]
          constructor
          · rintro (hlater | ⟨hboots, -⟩)
            · exact .inl (.inr hlater)
            · exact .inl (.inl ⟨hboot, hboots, hslot⟩)
          · rintro ((⟨-, hboots, -⟩ | hlater) | ⟨-, hnone, -⟩)
            · by_cases hlater : ∃ other ∈ ids, other ≠ bootID ∧ other.toNat = i
              · obtain ⟨other, hmem, hother, hindex⟩ := hlater
                have hsame : other = id := BitVec.eq_of_toNat_eq (hindex.trans hslot.symm)
                exact .inl ⟨other, hmem, hother, hsame ▸ hboots, hindex⟩
              · refine .inr ⟨hboots, fun other hmem hother hindex => ?_⟩
                exact hlater ⟨other, hmem, hother, hindex⟩
            · exact .inl hlater
            · exact absurd hslot (hnone hboot)
        · rw [if_neg hslot]
          constructor
          · rintro (hlater | ⟨hready, hnone⟩)
            · exact .inl (.inr hlater)
            · exact .inr ⟨hready, fun _ => hslot, hnone⟩
          · rintro ((⟨-, -, hindex⟩ | hlater) | ⟨hready, -, hnone⟩)
            · exact absurd hindex hslot
            · exact .inl hlater
            · exact .inr ⟨hready, hnone⟩

theorem activeCPUs_bootLoop :
    (bootLoop bootID boots page ids s).activeCPUs.toNat =
      (s.activeCPUs.toNat + (ids.filter fun id => id ≠ bootID && boots id).length) % 256 := by
  induction ids generalizing s with
  | nil =>
      have hlt := s.activeCPUs.isLt
      rw [bootLoop, List.foldl_nil, List.filter_nil, List.length_nil]
      omega
  | cons id ids ih =>
      rw [bootLoop_cons, ih]
      by_cases hboot : id = bootID
      · simp [hboot]
      · rw [if_pos hboot]
        cases hstarts : boots id with
        | true =>
            simp [initializeCPU, hstarts, hboot]
            omega
        | false => simp [initializeCPU, hstarts]

theorem ready_intitialise {lapicIDs : List (BitVec 8)} {gdt : Nat} (hi : i < 2 ^ 16) :
    Ready (intitialise bootID lapicIDs boots page gdt).cpus i ↔
      ∃ id ∈ bootedIDs bootID boots lapicIDs, id.toNat = i := by
  have hstart : Ready (bootSlots bootID gdt).cpus i ↔ bootID.toNat = i := by
    unfold bootSlots Ready
    by_cases hslot : bootID.toNat = i
    · have hindex := (slot_eq_iff hi).mpr hslot
      simp [hindex, hslot]
    · have hindex : BitVec.ofNat 16 i ≠ bootID.setWidth 16 := fun heq =>
        hslot ((slot_eq_iff hi).mp heq)
      simp [Function.update_of_ne hindex, hslot]
  rw [intitialise, ready_bootLoop hi, hstart, bootedIDs, List.exists_mem_cons_iff]
  constructor
  · rintro (⟨id, hmem, hother, hstarts, hindex⟩ | ⟨hslot, -⟩)
    · exact .inr ⟨id, List.mem_filter.mpr ⟨hmem, by simp [hother, hstarts]⟩, hindex⟩
    · exact .inl hslot
  · rintro (hslot | ⟨id, hmem, hindex⟩)
    · refine .inr ⟨hslot, fun id _ hother hindex => hother ?_⟩
      exact BitVec.eq_of_toNat_eq (hindex.trans hslot.symm)
    · rw [List.mem_filter] at hmem
      have hstarts : id ≠ bootID ∧ boots id = true := by simpa using hmem.2
      exact .inl ⟨id, hmem.1, hstarts.1, hstarts.2, hindex⟩

theorem bootedIDs_length_lt {lapicIDs : List (BitVec 8)} (hdistinct : lapicIDs.Nodup)
    (hboot : bootID ∈ lapicIDs) : (bootedIDs bootID boots lapicIDs).length < 256 := by
  have hcount : lapicIDs.length ≤ 256 := by
    have hvalues : (lapicIDs.map BitVec.toNat).Nodup :=
      hdistinct.map fun _ _ => BitVec.eq_of_toNat_eq
    have hrange : lapicIDs.map BitVec.toNat ⊆ List.range 256 := by
      intro value hvalue
      obtain ⟨id, -, rfl⟩ := List.mem_map.mp hvalue
      exact List.mem_range.mpr id.isLt
    simpa using (List.Nodup.subperm hvalues hrange).length_le
  rw [bootedIDs, List.length_cons, coreIDs]
  by_cases hfull : lapicIDs.length = 256
  · simp [hfull]
  · have hall : lapicIDs.take (lapicIDs.length % 256) = lapicIDs := by
      rw [Nat.mod_eq_of_lt (by omega), List.take_length]
    have hless : (lapicIDs.filter fun id => id ≠ bootID && boots id).length < lapicIDs.length :=
      List.length_filter_lt_length_iff_exists.mpr ⟨bootID, hboot, by simp⟩
    rw [hall]
    omega

theorem activeCPUs_intitialise {lapicIDs : List (BitVec 8)} {gdt : Nat}
    (hdistinct : lapicIDs.Nodup) (hboot : bootID ∈ lapicIDs) :
    (intitialise bootID lapicIDs boots page gdt).activeCPUs.toNat =
      (bootedIDs bootID boots lapicIDs).length := by
  have hlt : (bootedIDs bootID boots lapicIDs).length < 256 :=
    bootedIDs_length_lt hdistinct hboot
  have hone : (bootSlots bootID gdt).activeCPUs.toNat = 1 := rfl
  rw [bootedIDs, List.length_cons] at hlt
  rw [intitialise, activeCPUs_bootLoop, hone, bootedIDs, List.length_cons]
  omega

end BootLoop

/-! ## The steps behind an outcome -/

section Steps

variable {bootID : BitVec 8} {boots : BitVec 8 → Bool} {s : BootState} {id : BitVec 8}

def slotsOf (s : BootState) : CPUSlots := ⟨s.cpus, s.activeCPUs⟩

structure Idle (s : BootState) : Prop where
  boot : s.boot = none
  doneInit : s.doneInit = false

theorem bootRun_boots (hboot : s.boot = some (.newCPU, id)) (hstarts : boots id = true) :
    ∃ schedule page, Idle (bootRun bootID s schedule) ∧
      (bootRun bootID s schedule).todo = s.todo ∧
      slotsOf (bootRun bootID s schedule) =
        initializeCPU boots (fun _ => page) (slotsOf s) id := by
  refine ⟨List.replicate 7 .bootProcessor ++ List.replicate 6 (.processor id) ++
    List.replicate 4 .bootProcessor, s.frames.allocator.requestPage.2.requestPage.1, ⟨?_, ?_⟩,
    ?_, ?_⟩
  all_goals
    simp [List.replicate, bootRun, bootStep, BootState.bootNext, BootState.processorNext,
      BootState.initializeCPU, hboot, hstarts, BootState.requestPage, BootState.setProcessor,
      BootState.modifyCPU, slotsOf, smpEntry, initializeCPU, smpMagic]

theorem bootRun_fails (hboot : s.boot = some (.newCPU, id)) (hdone : s.doneInit = false)
    (hstarts : boots id = false) :
    ∃ schedule page, Idle (bootRun bootID s schedule) ∧
      (bootRun bootID s schedule).todo = s.todo ∧
      slotsOf (bootRun bootID s schedule) =
        initializeCPU boots (fun _ => page) (slotsOf s) id := by
  refine ⟨List.replicate 9 .bootProcessor, 0, ⟨?_, ?_⟩, ?_, ?_⟩
  all_goals
    simp [List.replicate, bootRun, bootStep, BootState.bootNext, BootState.initializeCPU, hboot,
      hdone, hstarts, BootState.requestPage, BootState.setProcessor, slotsOf, initializeCPU,
      smpMagic]

theorem initializeCPU_congr {page page' : BitVec 8 → Nat} (slots : CPUSlots)
    (h : page id = page' id) :
    initializeCPU boots page slots id = initializeCPU boots page' slots id := by
  simp only [initializeCPU, h]

theorem bootLoop_congr {page page' : BitVec 8 → Nat} {ids : List (BitVec 8)} (slots : CPUSlots)
    (h : ∀ id ∈ ids, page id = page' id) :
    bootLoop bootID boots page ids slots = bootLoop bootID boots page' ids slots := by
  apply List.foldl_ext
  intro slots id hid
  rw [initializeCPU_congr slots (h id hid)]

theorem bootRun_append (s : BootState) (schedule schedule' : List BootAgent) :
    bootRun bootID s (schedule ++ schedule') =
      bootRun bootID (bootRun bootID s schedule) schedule' :=
  List.foldl_append

/-- Every outcome of the boots is that of some interleaving of the processors' steps. -/
theorem exists_bootRun (h : Idle s) (hdistinct : s.todo.Nodup) :
    ∃ schedule page, Idle (bootRun bootID s schedule) ∧
      (bootRun bootID s schedule).todo = [] ∧
      slotsOf (bootRun bootID s schedule) = bootLoop bootID boots page s.todo (slotsOf s) := by
  generalize htodo : s.todo = todo at hdistinct
  induction todo generalizing s with
  | nil => exact ⟨[], fun _ => 0, h, htodo, rfl⟩
  | cons id todo ih =>
      obtain ⟨hfresh, hrest⟩ := List.nodup_cons.mp hdistinct
      by_cases hboot : id = bootID
      · have hskip : bootRun bootID s [.bootProcessor] = { s with todo := todo } := by
          simp [bootRun, bootStep, BootState.bootNext, h.boot, htodo, hboot]
        obtain ⟨schedule, page, hidle, hdone, hslots⟩ :=
          ih (s := { s with todo := todo }) ⟨h.boot, h.doneInit⟩ rfl hrest
        refine ⟨.bootProcessor :: schedule, page, ?_⟩
        rw [← List.singleton_append, bootRun_append, hskip]
        refine ⟨hidle, hdone, hslots.trans ?_⟩
        rw [bootLoop_cons, if_neg (not_not_intro hboot)]
        rfl
      · have hnext : bootRun bootID s [.bootProcessor] =
            { s with todo := todo, boot := some (.newCPU, id) } := by
          simp [bootRun, bootStep, BootState.bootNext, h.boot, htodo, hboot]
        set started : BootState := { s with todo := todo, boot := some (.newCPU, id) }
        have houtcome : ∃ schedule page, Idle (bootRun bootID started schedule) ∧
            (bootRun bootID started schedule).todo = todo ∧
            slotsOf (bootRun bootID started schedule) =
              initializeCPU boots (fun _ => page) (slotsOf s) id := by
          cases hstarts : boots id with
          | true => exact bootRun_boots rfl hstarts
          | false => exact bootRun_fails rfl h.doneInit hstarts
        obtain ⟨schedule, page, hidle, htodo', hslots⟩ := houtcome
        obtain ⟨schedule', page', hidle', hdone, hslots'⟩ := ih hidle htodo' hrest
        refine ⟨.bootProcessor :: (schedule ++ schedule'), Function.update page' id page, ?_⟩
        rw [← List.singleton_append, bootRun_append, hnext, bootRun_append]
        refine ⟨hidle', hdone, hslots'.trans ?_⟩
        have hfirst : initializeCPU boots (Function.update page' id page) (slotsOf s) id =
            initializeCPU boots (fun _ => page) (slotsOf s) id :=
          initializeCPU_congr _ (Function.update_self id page page')
        rw [bootLoop_cons, if_pos hboot, hfirst, ← hslots]
        refine bootLoop_congr _ fun other hother => ?_
        have hne : other ≠ id := by
          rintro rfl
          exact hfresh hother
        rw [Function.update_of_ne hne]

end Steps

/-! ## The slots the scheduler visits -/

/--
The slots below the count are processors with queues, so that the loops of the
scheduler follow no pointer to nothing, and every processor that runs is one of
them.
-/
structure SlotsServe (s : CPUSlots) (booted : List (BitVec 8)) : Prop where
  ready : ∀ i < s.activeCPUs.toNat, Ready s.cpus i
  scheduler : s.schedulerLoops.isSome = true
  newProcess : ∀ cpus : BitVec 16 → Option CPU, (∀ i, Ready s.cpus i → Ready cpus i) →
    ∀ pid, (CPUSlots.newProcess { s with cpus := cpus } pid).isSome = true
  reached : ∀ id ∈ booted, id.toNat < s.activeCPUs.toNat

/-- The slots serve exactly if the processors that run have the ids from 0 on. -/
theorem cpu_slots_serve_iff (bootID : BitVec 8) (lapicIDs : List (BitVec 8))
    (boots : BitVec 8 → Bool) (page : BitVec 8 → Nat) (gdt : Nat)
    (hdistinct : lapicIDs.Nodup) (hboot : bootID ∈ lapicIDs) :
    SlotsServe (intitialise bootID lapicIDs boots page gdt) (bootedIDs bootID boots lapicIDs) ↔
      ∀ id ∈ bootedIDs bootID boots lapicIDs,
        id.toNat < (bootedIDs bootID boots lapicIDs).length := by
  have hactive : (intitialise bootID lapicIDs boots page gdt).activeCPUs.toNat =
      (bootedIDs bootID boots lapicIDs).length := activeCPUs_intitialise hdistinct hboot
  set booted := bootedIDs bootID boots lapicIDs with hbooted
  set s := intitialise bootID lapicIDs boots page gdt
  constructor
  · intro hserve id hid
    have hreached := hserve.reached id hid
    rwa [hactive] at hreached
  · intro hlow
    have hnodup : booted.Nodup := by
      rw [hbooted, bootedIDs, List.nodup_cons]
      refine ⟨fun hmem => ?_, (hdistinct.sublist (List.take_sublist _ _)).filter _⟩
      have hself := (List.mem_filter.mp hmem).2
      simp at hself
    have hvalues : (booted.map BitVec.toNat).Perm (List.range booted.length) := by
      have hsubset : booted.map BitVec.toNat ⊆ List.range booted.length := by
        intro value hvalue
        obtain ⟨id, hid, rfl⟩ := List.mem_map.mp hvalue
        exact List.mem_range.mpr (hlow id hid)
      have hdistinct' : (booted.map BitVec.toNat).Nodup :=
        hnodup.map fun _ _ => BitVec.eq_of_toNat_eq
      exact (List.Nodup.subperm hdistinct' hsubset).perm_of_length_le (by simp)
    have hlength : booted.length < 256 := bootedIDs_length_lt hdistinct hboot
    have hready : ∀ i < s.activeCPUs.toNat, Ready s.cpus i := by
      intro i hi
      rw [hactive] at hi
      obtain ⟨id, hid, hindex⟩ := List.mem_map.mp (hvalues.mem_iff.mpr (List.mem_range.mpr hi))
      exact (ready_intitialise (by omega)).mpr ⟨id, hid, hindex⟩
    have hpos : 0 < s.activeCPUs.toNat := by
      rw [hactive, hbooted, bootedIDs, List.length_cons]
      omega
    refine ⟨hready, schedulerLoops_isSome hready, fun cpus hcpus pid => ?_, ?_⟩
    · exact newProcess_isSome (s := { s with cpus := cpus }) hpos
        (fun i hi => hcpus i (hready i hi)) pid
    · rw [hactive]
      exact hlow

/-- Two processors with the ids 0 and 1. -/
theorem cpu_slots_serve_two :
    SlotsServe (intitialise 1 [0, 1] (fun _ => true) (fun _ => 0x5000) 0x4000)
      (bootedIDs 1 (fun _ => true) [0, 1]) := by
  apply (cpu_slots_serve_iff 1 [0, 1] _ _ _ (by decide) (by decide)).mpr
  decide

/-- With the ids 0 and 2 the second slot is empty. -/
theorem cpu_slots_gap :
    ¬ SlotsServe (intitialise 0 [0, 2] (fun _ => true) (fun _ => 0x5000) 0x4000)
      (bootedIDs 0 (fun _ => true) [0, 2]) := by
  intro hserve
  obtain ⟨cpu, hcpu, -⟩ := hserve.ready 1 (by decide)
  have hnone : (intitialise 0 [0, 2] (fun _ => true) (fun _ => 0x5000) 0x4000).cpus
      (BitVec.ofNat 16 1) = none := rfl
  rw [hnone] at hcpu
  contradiction

end UnifiedOS.SMP
