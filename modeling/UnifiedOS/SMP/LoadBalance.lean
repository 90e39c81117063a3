import UnifiedOS.SMP.CPUSlots

/-!
# Balancing the load

`NewProcess` gives a process to the processor with the shortest queue.  Its loop
keeps the best slot so far and stops early at an empty queue, than which there is
no shorter one.
-/

namespace UnifiedOS.SMP

/-! ## Loads that grow where they are least -/

section Balanced

variable {n k : Nat} {load load' : Nat → Nat}

def Balanced (n : Nat) (load : Nat → Nat) : Prop :=
  ∀ i < n, ∀ j < n, load i ≤ load j + 1

theorem balanced_of_zero (h : ∀ i < n, load i = 0) : Balanced n load := by
  intro i hi j hj
  simp [h i hi]

theorem Balanced.increment (h : Balanced n load) (hleast : ∀ i < n, load k ≤ load i)
    (hchosen : load' k = load k + 1) (hothers : ∀ i < n, i ≠ k → load' i = load i) :
    Balanced n load' := by
  have hle : ∀ i < n, load' i ≤ load k + 1 + (load i - load k) := by
    intro i hi
    by_cases hik : i = k
    · rw [hik, hchosen]
      omega
    · rw [hothers i hi hik]
      omega
  have hge : ∀ j < n, load j ≤ load' j := by
    intro j hj
    by_cases hjk : j = k
    · rw [hjk, hchosen]
      omega
    · rw [hothers j hj hjk]
  intro i hi j hj
  have hgrown := hge j hj
  have hk := hleast j hj
  by_cases hik : i = k
  · rw [hik, hchosen]
    omega
  · rw [hothers i hi hik]
    have hij := h i hi j hj
    omega

end Balanced

namespace CPUSlots

def queueLength (cpus : BitVec 16 → Option CPU) (i : Nat) : Nat :=
  ((queueAt cpus i).getD []).length

def newProcesses (s : CPUSlots) (pids : List Nat) : Option CPUSlots :=
  pids.foldlM newProcess s

/-- There is an active processor, and the slots of all of them are filled. -/
structure Serving (s : CPUSlots) : Prop where
  active : 0 < s.activeCPUs.toNat
  ready : ∀ i < s.activeCPUs.toNat, Ready s.cpus i

/-- The process is appended to the queue of an active processor that has none shorter. -/
structure AppendsToShortest (s s' : CPUSlots) (pid cpu : Nat) : Prop where
  active : cpu < s.activeCPUs.toNat
  shortest : ∀ i < s.activeCPUs.toNat, queueLength s.cpus cpu ≤ queueLength s.cpus i
  chosen : queueAt s'.cpus cpu = (queueAt s.cpus cpu).map (· ++ [pid])
  others : ∀ slot, slot ≠ BitVec.ofNat 16 cpu → s'.cpus slot = s.cpus slot
  activeCPUs : s'.activeCPUs = s.activeCPUs

/-! ## The loop -/

variable {cpus : BitVec 16 → Option CPU} {l : List Nat} {cpu best pid : Nat} {s s' : CPUSlots}

theorem queueLength_of_queueAt {i : Nat} {queue : List Nat} (h : queueAt cpus i = some queue) :
    queueLength cpus i = queue.length := by
  simp [queueLength, h]

theorem queueLength_choice (cpus : BitVec 16 → Option CPU) (i cpu : Nat) :
    queueLength cpus (if queueLength cpus i < queueLength cpus cpu then i else cpu) =
      min (queueLength cpus i) (queueLength cpus cpu) := by
  split
  · omega
  · omega

theorem minimal_of_choice {i chosen : Nat} (hmem : chosen = i ∨ chosen = cpu)
    (hlength : queueLength cpus chosen = min (queueLength cpus i) (queueLength cpus cpu))
    (hin : best ∈ chosen :: l)
    (hleast : ∀ j ∈ chosen :: l, queueLength cpus best ≤ queueLength cpus j) :
    best ∈ cpu :: i :: l ∧ ∀ j ∈ cpu :: i :: l, queueLength cpus best ≤ queueLength cpus j := by
  obtain ⟨hchosen, hlater⟩ := List.forall_mem_cons.mp hleast
  constructor
  · rcases List.mem_cons.mp hin with heq | hrest
    · rcases hmem with hsame | hsame <;> simp [heq, hsame]
    · simp [hrest]
  · rw [List.forall_mem_cons, List.forall_mem_cons]
    exact ⟨by omega, by omega, hlater⟩

theorem shortestQueue_minimal (hcpu : Ready cpus cpu) (h : ∀ i ∈ l, Ready cpus i)
    (hbest : shortestQueue cpus l cpu = some best) :
    best ∈ cpu :: l ∧ ∀ i ∈ cpu :: l, queueLength cpus best ≤ queueLength cpus i := by
  induction l generalizing cpu with
  | nil =>
      rw [shortestQueue, Option.some.injEq] at hbest
      simp [hbest]
  | cons i l ih =>
      have hi : Ready cpus i := h i List.mem_cons_self
      have hrest : ∀ j ∈ l, Ready cpus j := fun j hj => h j (List.mem_cons_of_mem i hj)
      obtain ⟨queue, hqueue⟩ := queueAt_of_ready hi
      obtain ⟨current, hcurrent⟩ := queueAt_of_ready hcpu
      rw [shortestQueue_cons hqueue hcurrent, ← queueLength_of_queueAt hqueue,
        ← queueLength_of_queueAt hcurrent] at hbest
      have hlength := queueLength_choice cpus i cpu
      have hmem := ite_eq_or_eq (queueLength cpus i < queueLength cpus cpu) i cpu
      set chosen := if queueLength cpus i < queueLength cpus cpu then i else cpu
      by_cases hempty : min (queueLength cpus i) (queueLength cpus cpu) = 0
      · -- the early exit: no queue is shorter than an empty one
        rw [if_pos hempty, Option.some.injEq] at hbest
        subst hbest
        apply minimal_of_choice hmem hlength List.mem_cons_self
        intro j _
        rw [hlength, hempty]
        exact Nat.zero_le _
      · rw [if_neg hempty] at hbest
        have hchosen : Ready cpus chosen := by
          rcases hmem with heq | heq
          · rwa [heq]
          · rwa [heq]
        obtain ⟨hin, hleast⟩ := ih hchosen hrest hbest
        exact minimal_of_choice hmem hlength hin hleast

/-! ## One process and many -/

theorem newProcess_appends (h : Serving s) (pid : Nat) :
    ∃ s' cpu, s.newProcess pid = some s' ∧ AppendsToShortest s s' pid cpu := by
  have hactive := h.active
  have hrest : ∀ i ∈ List.range' 1 (s.activeCPUs.toNat - 1), Ready s.cpus i := by
    intro i hi
    rw [List.mem_range'_1] at hi
    exact h.ready i (by omega)
  obtain ⟨cpu, hcpu, slot, hslot, hqueue⟩ := shortestQueue_ready (h.ready 0 h.active) hrest
  obtain ⟨hmem, hleast⟩ := shortestQueue_minimal (h.ready 0 h.active) hrest hcpu
  obtain ⟨queue, hqueue⟩ := Option.isSome_iff_exists.mp hqueue
  have hcall : s.newProcess pid = some { s with
      cpus := Function.update s.cpus (BitVec.ofNat 16 cpu)
        (some { slot with queue := some (queue ++ [pid]), queueLock := 0 }) } := by
    simp [newProcess, hcpu, hslot, hqueue]
  have hscanned : ∀ i, i ∈ 0 :: List.range' 1 (s.activeCPUs.toNat - 1) ↔
      i < s.activeCPUs.toNat := by
    intro i
    rw [List.mem_cons, List.mem_range'_1]
    omega
  refine ⟨_, cpu, hcall, ⟨(hscanned cpu).mp hmem, ?_, ?_, ?_, rfl⟩⟩
  · intro i hi
    exact hleast i ((hscanned i).mpr hi)
  · simp [queueAt, hslot, hqueue]
  · intro other hother
    exact Function.update_of_ne hother _ _

namespace AppendsToShortest

variable {i : Nat}

theorem queueAt_other (h : AppendsToShortest s s' pid cpu) (hi : i < s.activeCPUs.toNat)
    (hne : i ≠ cpu) : queueAt s'.cpus i = queueAt s.cpus i := by
  have hlimit := s.activeCPUs.isLt
  have hcpu := h.active
  have hslot : BitVec.ofNat 16 i ≠ BitVec.ofNat 16 cpu := by
    intro heq
    have hvalue := congrArg BitVec.toNat heq
    simp only [BitVec.toNat_ofNat] at hvalue
    omega
  rw [queueAt, queueAt, h.others _ hslot]

theorem queueLength_chosen (h : AppendsToShortest s s' pid cpu) (hready : Serving s) :
    queueLength s'.cpus cpu = queueLength s.cpus cpu + 1 := by
  obtain ⟨queue, hqueue⟩ := queueAt_of_ready (hready.ready cpu h.active)
  have hchosen := h.chosen
  rw [hqueue, Option.map_some] at hchosen
  rw [queueLength_of_queueAt hchosen, queueLength_of_queueAt hqueue, List.length_append,
    List.length_singleton]

theorem serving (h : AppendsToShortest s s' pid cpu) (hready : Serving s) : Serving s' := by
  have ready_of_queueAt : ∀ i queue, queueAt s'.cpus i = some queue → Ready s'.cpus i := by
    intro i queue hqueue
    obtain ⟨slot, hslot, hqueue⟩ := Option.bind_eq_some_iff.mp hqueue
    exact ⟨slot, hslot, by rw [hqueue]; rfl⟩
  refine ⟨?_, fun i hi => ?_⟩
  · rw [h.activeCPUs]
    exact hready.active
  · rw [h.activeCPUs] at hi
    obtain ⟨queue, hqueue⟩ := queueAt_of_ready (hready.ready i hi)
    by_cases hcpu : i = cpu
    · subst hcpu
      have hchosen := h.chosen
      rw [hqueue, Option.map_some] at hchosen
      exact ready_of_queueAt i _ hchosen
    · exact ready_of_queueAt i queue ((h.queueAt_other hi hcpu).trans hqueue)

theorem balanced (h : AppendsToShortest s s' pid cpu) (hready : Serving s)
    (hbalanced : Balanced s.activeCPUs.toNat (queueLength s.cpus)) :
    Balanced s'.activeCPUs.toNat (queueLength s'.cpus) := by
  rw [h.activeCPUs]
  apply hbalanced.increment h.shortest (h.queueLength_chosen hready)
  intro i hi hne
  rw [queueLength, queueLength, h.queueAt_other hi hne]

end AppendsToShortest

theorem newProcesses_balanced {pids : List Nat} (h : Serving s)
    (hbalanced : Balanced s.activeCPUs.toNat (queueLength s.cpus)) :
    ∃ s', newProcesses s pids = some s' ∧ Serving s' ∧ s'.activeCPUs = s.activeCPUs ∧
      Balanced s'.activeCPUs.toNat (queueLength s'.cpus) := by
  induction pids generalizing s with
  | nil => exact ⟨s, rfl, h, rfl, hbalanced⟩
  | cons pid pids ih =>
      obtain ⟨next, cpu, hcall, happends⟩ := newProcess_appends h pid
      obtain ⟨last, hcalls, hserving, hactive, hlast⟩ :=
        ih (happends.serving h) (happends.balanced h hbalanced)
      refine ⟨last, ?_, hserving, hactive.trans happends.activeCPUs, hlast⟩
      rw [newProcesses, List.foldlM_cons, hcall]
      exact hcalls

/-- Each process goes to a shortest queue, so queues that start empty stay balanced. -/
theorem newProcess_balances_load (s : CPUSlots) (h : Serving s) :
    (∀ pid, ∃ s' cpu, s.newProcess pid = some s' ∧ AppendsToShortest s s' pid cpu) ∧
      ((∀ i < s.activeCPUs.toNat, queueAt s.cpus i = some []) → ∀ pids, ∃ s',
        newProcesses s pids = some s' ∧ Serving s' ∧ s'.activeCPUs = s.activeCPUs ∧
          Balanced s'.activeCPUs.toNat (queueLength s'.cpus)) := by
  refine ⟨newProcess_appends h, fun hempty pids => newProcesses_balanced h ?_⟩
  apply balanced_of_zero
  intro i hi
  rw [queueLength_of_queueAt (hempty i hi), List.length_nil]

/-- Two processors as `SMP::Intitialise` leaves them, and five processes. -/
theorem newProcess_balances_load_two :
    ∃ s', newProcesses (intitialise 1 [0, 1] (fun _ => true) (fun _ => 0x5000) 0x4000)
        [10, 11, 12, 13, 14] = some s' ∧
      Balanced s'.activeCPUs.toNat (queueLength s'.cpus) := by
  have hactive : (intitialise 1 [0, 1] (fun _ => true) (fun _ => 0x5000) 0x4000).activeCPUs.toNat =
      2 := by decide
  have hqueues : ∀ i < 2,
      queueAt (intitialise 1 [0, 1] (fun _ => true) (fun _ => 0x5000) 0x4000).cpus i = some [] := by
    decide
  have hserving : Serving (intitialise 1 [0, 1] (fun _ => true) (fun _ => 0x5000) 0x4000) := by
    refine ⟨by decide, fun i hi => ?_⟩
    rw [hactive] at hi
    obtain ⟨slot, hslot, hqueue⟩ := Option.bind_eq_some_iff.mp (hqueues i hi)
    exact ⟨slot, hslot, by rw [hqueue]; rfl⟩
  obtain ⟨s', hcalls, -, -, hbalanced⟩ := (newProcess_balances_load _ hserving).2
    (fun i hi => hqueues i (hactive ▸ hi)) [10, 11, 12, 13, 14]
  exact ⟨s', hcalls, hbalanced⟩

end CPUSlots

end UnifiedOS.SMP
