import UnifiedOS.Paging.KernelMemory

/-!
# Isolation in runs of the kernel's memory

In every run of requests, releases, mappings and writes by owners the layers of
memory stay apart: addresses translate as they were mapped last, and whoever owns a
frame can write into it without changing any other byte that is in use.
-/

namespace UnifiedOS.Paging

open UnifiedOS.Foundation
open PageFrameAllocator PageDirectoryEntry

/-- The memory, the grants outstanding, and the calls of `MapMemory` so far. -/
structure KernelRun where
  allocator : PageFrameAllocator
  grants : List (Nat × Nat)
  calls : List (BitVec 64 × BitVec 64)

def KernelRun.withMem (s : KernelRun) (m : ByteMemory) : KernelRun :=
  { s with allocator := { s.allocator with mem := m } }

/-- Requests and releases, locked ranges, mappings, and owners that write into their frames. -/
inductive KernelStep (pml4 : BitVec 64) : KernelRun → KernelRun → Prop where
  | frames (s : KernelRun) (r : FrameRun) (hstep : FrameStep ⟨s.allocator, s.grants⟩ r) :
      KernelStep pml4 s ⟨r.allocator, r.grants, s.calls⟩
  | lockPages (s : KernelRun) (address pageCount : UInt64) :
      KernelStep pml4 s
        { s with allocator := s.allocator.lockPages address.toNat pageCount.toNat }
  | mapMemory (s : KernelRun) (v p : BitVec 64) (hanswered : Answered s.allocator pml4.toNat v) :
      KernelStep pml4 s
        ⟨s.allocator.mapMemory pml4.toNat v p, s.grants, s.calls ++ [(v, p)]⟩
  | write (s : KernelRun) (g : Nat × Nat) (hg : g ∈ s.grants) (x : Nat)
      (hx : Covers g (x / 4096)) (byte : Byte) :
      KernelStep pml4 s (s.withMem (s.allocator.mem.poke x byte))

structure Started (pml4 : BitVec 64) (s : KernelRun) : Prop where
  frames : FramesInv s.allocator [(pml4.toNat, 1)]
  aligned : pml4.toNat % 4096 = 0
  zeroed : ∀ x, pml4.toNat ≤ x → x < pml4.toNat + 0x1000 → s.allocator.mem x = 0
  grants : s.grants = []
  calls : s.calls = []

/-- A byte in a frame that was taken at the start, for neither the bitmap nor the `PML4`. -/
def Reserved (pml4 : BitVec 64) (s : KernelRun) (x : Nat) : Prop :=
  Taken s.allocator [(pml4.toNat, 1)] (x / 4096) ∧ ¬ InBitmap s.allocator x

structure RunInv (pml4 : BitVec 64) (start s : KernelRun) (tables : List (Nat × Nat))
    (node : TableTree) : Prop where
  memory : MemoryInv s.allocator s.grants tables pml4 node
  leaves : ∀ v, node 0 (pageNumber v) = lastMapped s.calls v
  pageBitmap : s.allocator.pageBitmap = start.allocator.pageBitmap
  taken : ∀ frame, Taken start.allocator [(pml4.toNat, 1)] frame →
    Taken s.allocator (s.grants ++ tables) frame
  reserved : ∀ x, Reserved pml4 start x → s.allocator.mem x = start.allocator.mem x

section Runs

variable {pml4 : BitVec 64} {start s s' : KernelRun} {tables : List (Nat × Nat)}
  {node : TableTree} {x : Nat}

theorem Started.runInv (h : Started pml4 s) :
    RunInv pml4 s s [(pml4.toNat, 1)] (fun k a => if k = 4 ∧ a = 0 then some pml4 else none) := by
  have htree := @runTree_zeroed (fun _ => 0) pml4 s.allocator.mem 0 h.aligned h.zeroed
  have hgrants := h.grants
  refine ⟨⟨by rw [hgrants]; exact h.frames, htree.backs, fun k a t hk ht => ?_⟩, fun v => ?_, rfl,
    fun f hf => by rw [hgrants]; exact hf, fun x hx => rfl⟩
  · rcases htree.requested k a t hk ht with rfl | ⟨j, hj, -⟩
    · exact List.mem_singleton_self _
    · exact absurd hj (Nat.not_lt_zero j)
  · rw [h.calls, if_neg (by omega)]
    rfl

theorem RunInv.not_inBitmap (h : RunInv pml4 start s tables node)
    (hx : ¬ InBitmap start.allocator x) : ¬ InBitmap s.allocator x := by
  rw [InBitmap, h.pageBitmap]
  exact hx

theorem RunInv.perm {grants : List (Nat × Nat)} (h : RunInv pml4 start s tables node)
    (hperm : s.grants.Perm grants) :
    RunInv pml4 start { s with grants := grants } tables node := by
  have hall := hperm.append_right tables
  refine ⟨⟨h.memory.frames.perm hall, h.memory.backs, h.memory.tables⟩, h.leaves, h.pageBitmap,
    fun f hf => ?_, h.reserved⟩
  obtain ⟨hinside, hmarked, hfree⟩ := h.taken f hf
  exact ⟨hinside, hmarked, fun g hg => hfree g (hall.mem_iff.mpr hg)⟩

theorem RunInv.mapped {allocator : PageFrameAllocator} {tables' path : List (Nat × Nat)}
    {node' : TableTree} {v p : BitVec 64} (h : RunInv pml4 start s tables node)
    (hmapped : Mapped pml4 s.grants path s.allocator tables node allocator tables' node')
    (hleaves : ∀ n, node' 0 n = if n = pageNumber v then some p else node 0 n) :
    RunInv pml4 start ⟨allocator, s.grants, s.calls ++ [(v, p)]⟩ tables' node' := by
  refine ⟨hmapped.inv, fun u => ?_, hmapped.pageBitmap.trans h.pageBitmap,
    fun f hf => hmapped.taken f (h.taken f hf), fun x hx => ?_⟩
  · rw [hleaves, lastMapped_append, h.leaves]
  · refine (hmapped.mem x (h.not_inBitmap hx.2) fun hin => ?_).trans (h.reserved x hx)
    obtain ⟨t, ht, hcovers⟩ := hmapped.inv.covers_table hin
    exact (hmapped.taken _ (h.taken _ hx.1)).free t (List.mem_append_right _ ht) hcovers

theorem RunInv.lockPages (h : RunInv pml4 start s tables node) (address pageCount : UInt64) :
    RunInv pml4 start
      { s with allocator := s.allocator.lockPages address.toNat pageCount.toNat } tables node := by
  have hkeeps : KeepsOutside s.allocator (s.allocator.lockPages address.toNat pageCount.toNat) :=
    keepsOutside_lockPages h.memory.frames.addressable pageCount.toNat_lt
  refine ⟨h.memory.lockPages pageCount.toNat_lt, h.leaves, hkeeps.pageBitmap.trans h.pageBitmap,
    fun f hf => (h.taken f hf).mark hkeeps.pageBitmap fun hset => ?_,
    fun x hx => (hkeeps.mem x (h.not_inBitmap hx.2)).trans (h.reserved x hx)⟩
  rw [bit_lockPages pageCount.toNat_lt, hset, ite_self]

theorem RunInv.withMem {m : ByteMemory} (h : RunInv pml4 start s tables node)
    (hm : ∀ x, m x ≠ s.allocator.mem x → ∃ g ∈ s.grants, Covers g (x / 4096)) :
    RunInv pml4 start (s.withMem m) tables node := by
  have hmemory := h.memory
  have hbits : ∀ x, InBitmap s.allocator x → m x = s.allocator.mem x := by
    intro x hx
    by_contra hne
    obtain ⟨g, hg, hcovers⟩ := hm x hne
    exact hmemory.frames.not_inBitmap (List.mem_append_left tables hg) hcovers hx
  refine ⟨hmemory.write hbits fun x hx => ?_, h.leaves, h.pageBitmap,
    fun f hf => (h.taken f hf).mark rfl fun hset => ?_, fun x hx => ?_⟩
  · by_contra hne
    obtain ⟨g, hg, hcovers⟩ := hm x hne
    exact hmemory.not_inTable hg hcovers hx
  · rw [KernelRun.withMem, bit_of_mem hmemory.frames.addressable hbits]
    exact hset
  · refine Eq.trans ?_ (h.reserved x hx)
    by_contra hne
    obtain ⟨g, hg, hcovers⟩ := hm x hne
    exact (h.taken _ hx.1).free g (List.mem_append_left tables hg) hcovers

theorem RunInv.step (h : RunInv pml4 start s tables node) (hstep : KernelStep pml4 s s') :
    ∃ tables' node', RunInv pml4 start s' tables' node' := by
  have hmemory := h.memory
  cases hstep with
  | frames r hstep =>
      have hall : FrameStep ⟨s.allocator, s.grants ++ tables⟩ ⟨r.allocator, r.grants ++ tables⟩ :=
        hstep.append
      have hkeeps := hall.keepsOutside hmemory.frames.ledger
      exact ⟨tables, node, hmemory.frameStep hstep, h.leaves, hkeeps.pageBitmap.trans h.pageBitmap,
        fun f hf => (h.taken f hf).frameStep hmemory.frames.ledger hall,
        fun x hx => (hkeeps.mem x (h.not_inBitmap hx.2)).trans (h.reserved x hx)⟩
  | lockPages address pageCount => exact ⟨tables, node, h.lockPages address pageCount⟩
  | mapMemory v p hanswered =>
      obtain ⟨tables', node', hmapped, hleaves⟩ := mapMemory_mapped hmemory v p hanswered
      exact ⟨tables', node', h.mapped hmapped hleaves⟩
  | write g hg y hy byte =>
      refine ⟨tables, node, h.withMem fun x hx => ?_⟩
      have hsame : x = y := by
        by_contra hne
        exact hx (ByteMemory.poke_other _ _ hne)
      exact ⟨g, hg, hsame ▸ hy⟩

theorem KernelStep.append {allocator : PageFrameAllocator} {grants others : List (Nat × Nat)}
    {calls : List (BitVec 64 × BitVec 64)} (h : KernelStep pml4 ⟨allocator, grants, calls⟩ s') :
    KernelStep pml4 ⟨allocator, grants ++ others, calls⟩
      ⟨s'.allocator, s'.grants ++ others, s'.calls⟩ := by
  cases h with
  | frames r hstep => exact .frames ⟨allocator, grants ++ others, calls⟩ _ hstep.append
  | lockPages address pageCount =>
      exact .lockPages ⟨allocator, grants ++ others, calls⟩ address pageCount
  | mapMemory v p hanswered =>
      exact .mapMemory ⟨allocator, grants ++ others, calls⟩ v p hanswered
  | write g hg y hy byte =>
      exact .write ⟨allocator, grants ++ others, calls⟩ g (List.mem_append_left _ hg) y hy byte

theorem RunInv.mem_step {allocator : PageFrameAllocator} {grants others : List (Nat × Nat)}
    {calls : List (BitVec 64 × BitVec 64)}
    (h : RunInv pml4 start ⟨allocator, grants ++ others, calls⟩ tables node)
    (hstep : KernelStep pml4 ⟨allocator, grants, calls⟩ s') :
    (∃ g ∈ grants, ∃ y byte, Covers g (y / 4096) ∧
      s' = ⟨{ allocator with mem := allocator.mem.poke y byte }, grants, calls⟩) ∨
    ∀ g ∈ grants ++ others, ∀ x, Covers g (x / 4096) →
      s'.allocator.mem x = allocator.mem x := by
  have hmemory := h.memory
  have hbitmap : ∀ g ∈ grants ++ others, ∀ x, Covers g (x / 4096) → ¬ InBitmap allocator x :=
    fun g hg x hx => hmemory.frames.not_inBitmap (List.mem_append_left tables hg) hx
  cases hstep with
  | frames r hstep =>
      have hall : FrameStep ⟨allocator, (grants ++ others) ++ tables⟩
          ⟨r.allocator, (r.grants ++ others) ++ tables⟩ := hstep.append.append
      exact Or.inr fun g hg x hx =>
        (hall.keepsOutside hmemory.frames.ledger).mem x (hbitmap g hg x hx)
  | lockPages address pageCount =>
      exact Or.inr fun g hg x hx =>
        (keepsOutside_lockPages hmemory.frames.addressable pageCount.toNat_lt).mem x
          (hbitmap g hg x hx)
  | mapMemory v p hanswered =>
      obtain ⟨tables', node', hmapped, -⟩ := mapMemory_mapped hmemory v p hanswered
      exact Or.inr fun g hg x hx =>
        hmapped.mem x (hbitmap g hg x hx) (hmapped.inv.not_inTable hg hx)
  | write g hg y hy byte => exact Or.inl ⟨g, hg, y, byte, hy, rfl⟩

theorem RunInv.granted (h : RunInv pml4 start s tables node) (hstep : KernelStep pml4 s s')
    {g : Nat × Nat} (hg : g ∈ s.grants) (hx : Covers g (x / 4096)) :
    s'.allocator.mem x = s.allocator.mem x ∨
      ∃ byte, s' = s.withMem (s.allocator.mem.poke x byte) := by
  have hall : RunInv pml4 start ⟨s.allocator, s.grants ++ [], s.calls⟩ tables node := by
    rw [List.append_nil]
    exact h
  rcases hall.mem_step hstep with ⟨g', -, y, byte, -, rfl⟩ | hkept
  · by_cases hsame : x = y
    · exact Or.inr ⟨byte, by rw [hsame]; rfl⟩
    · exact Or.inl (ByteMemory.poke_other _ _ hsame)
  · exact Or.inl (hkept g (by rw [List.append_nil]; exact hg) x hx)

theorem runInv_of_reachable (hstart : Started pml4 start)
    (hreach : Reachable (· = start) (KernelStep pml4) s) :
    ∃ tables node, RunInv pml4 start s tables node := by
  apply hreach.invariant
  · rintro s rfl
    exact ⟨_, _, hstart.runInv⟩
  · rintro s s' ⟨tables, node, h⟩ hstep
    exact h.step hstep

theorem RunInv.translates (h : RunInv pml4 start s tables node) (v : BitVec 64) :
    Translates s.allocator.mem pml4 v (lastMapped s.calls v) := by
  have hleaf := h.leaves v
  cases hlast : lastMapped s.calls v with
  | some p =>
      rw [hlast] at hleaf
      exact walk_mapped h.memory.backs hleaf
  | none =>
      rw [hlast] at hleaf
      exact walk_unmapped h.memory.backs hleaf

/--
In every run each address translates as it was mapped last, whatever was requested,
released or written in between.  Grants stay exclusive, a byte that is granted
changes only when its owner writes it, and what was reserved at the start is never
granted and never written.
-/
theorem memory_isolated (hstart : Started pml4 start)
    (hreach : Reachable (· = start) (KernelStep pml4) s) :
    (∀ v, Translates s.allocator.mem pml4 v (lastMapped s.calls v)) ∧
    s.grants.Pairwise Exclusive ∧
    (∀ s' g x, KernelStep pml4 s s' → g ∈ s.grants → Covers g (x / 4096) →
      s'.allocator.mem x = s.allocator.mem x ∨
        ∃ byte, s' = s.withMem (s.allocator.mem.poke x byte)) ∧
    ∀ x, Reserved pml4 start x →
      (∀ g ∈ s.grants, ¬ Covers g (x / 4096)) ∧
        s.allocator.mem x = start.allocator.mem x := by
  obtain ⟨tables, node, h⟩ := runInv_of_reachable hstart hreach
  refine ⟨h.translates, (List.pairwise_append.mp h.memory.frames.ledger.exclusive).1,
    fun s' g x hstep hg hx => h.granted hstep hg hx, fun x hx =>
    ⟨fun g hg => (h.taken _ hx.1).free g (List.mem_append_left _ hg), h.reserved x hx⟩⟩

/-- The bitmap in frame 1, the `PML4` in frame 2, and as many free frames as fit the bitmap. -/
def kernelOfSize (size : Nat) : KernelRun :=
  ⟨⟨fun x => if x = 0x1000 then 0x60 else 0, ⟨size, 0x1000⟩, 3, 0, 0, 0, 0, true⟩, [], []⟩

theorem started_ofSize {size : Nat} (hpos : 0 < size) (hsize : size < 0x1000) :
    Started 0x2000 (kernelOfSize size) := by
  have hroot : (0x2000 : BitVec 64).toNat = 0x2000 := by decide
  have hlimit : (kernelOfSize size).allocator.limit = size * 8 :=
    wrap64_of_lt (show size * 8 < 2 ^ 64 by omega)
  have hpml4 : ∀ frame, Covers (0x2000, 1) frame → frame = 2 := by
    intro frame hcovers
    simp only [Covers] at hcovers
    omega
  have hmarked : ∀ frame, frame = 1 ∨ frame = 2 → (kernelOfSize size).allocator.bit frame := by
    intro frame hframe
    have hinside : frame ≤ wrap64 (size * 8) := by
      rw [wrap64_of_lt (by omega)]
      omega
    rw [bit, kernelOfSize, Bitmap.get_of_le hinside, Bitmap.bit]
    have hmarks : ∀ k < 2, (if 0x1000 + (k + 1) / 8 = 0x1000 then (0x60 : Byte) else 0).getLsbD
        (7 - (k + 1) % 8) = true := by decide
    rcases hframe with rfl | rfl
    · exact hmarks 0 (by decide)
    · exact hmarks 1 (by decide)
  refine ⟨⟨⟨?_, ?_, ?_, ?_, List.pairwise_singleton _ _⟩, by rw [hlimit]; omega, fun x hx => ?_⟩,
    by decide, fun x hlo hhi => ?_, rfl, rfl⟩
  · simp only [kernelOfSize, Bitmap.Addressable]
    omega
  · simp [hlimit]
    omega
  · simp
  · rw [hroot]
    intro g hg frame hcovers hlt
    rw [List.mem_singleton.mp hg] at hcovers
    exact hmarked frame (Or.inr (hpml4 frame hcovers))
  · have hframe : x / 4096 = 1 := by
      simp only [InBitmap, kernelOfSize] at hx
      omega
    rw [hroot, hframe]
    refine ⟨by rw [hlimit]; omega, hmarked 1 (Or.inl rfl), fun g hg hcovers => ?_⟩
    rw [List.mem_singleton.mp hg] at hcovers
    exact absurd (hpml4 1 hcovers) (by decide)
  · rw [hroot] at hlo
    exact if_neg (by omega)

def smallKernel : KernelRun := kernelOfSize 1

theorem started_small : Started 0x2000 smallKernel := started_ofSize (by decide) (by decide)

def KernelRun.requestPage (s : KernelRun) : KernelRun :=
  ⟨s.allocator.requestPage.2, recordGrant s.allocator.requestPage.1 1 s.grants, s.calls⟩

def KernelRun.mapMemory (s : KernelRun) (pml4 v p : BitVec 64) : KernelRun :=
  ⟨s.allocator.mapMemory pml4.toNat v p, s.grants, s.calls ++ [(v, p)]⟩

theorem KernelRun.requestPage_step (s : KernelRun) : KernelStep pml4 s s.requestPage :=
  .frames s _ (.requestPage ⟨s.allocator, s.grants⟩)

/-- A page is granted and mapped, which takes three tables, and then a second one is granted. -/
def mappedOnce : KernelRun :=
  (smallKernel.requestPage.mapMemory 0x2000 0xdeadb000 0x3000).requestPage

def mappedTwice : KernelRun := mappedOnce.mapMemory 0x2000 0xdeadc000 0x7000

theorem answered_first :
    Answered smallKernel.requestPage.allocator (0x2000 : BitVec 64).toNat 0xdeadb000 :=
  ⟨fun _ => by decide +kernel, fun _ => by decide +kernel, fun _ => by decide +kernel, trivial⟩

theorem answered_second :
    Answered mappedOnce.allocator (0x2000 : BitVec 64).toNat 0xdeadc000 :=
  ⟨fun h => absurd h (by decide +kernel), fun h => absurd h (by decide +kernel),
    fun h => absurd h (by decide +kernel), trivial⟩

theorem mappedTwice_reachable :
    Reachable (· = smallKernel) (KernelStep 0x2000) mappedTwice := by
  have hstart : Reachable (· = smallKernel) (KernelStep 0x2000) smallKernel := .start rfl
  have hgranted := hstart.next smallKernel.requestPage_step
  have hmapped := hgranted.next (.mapMemory _ 0xdeadb000 0x3000 answered_first)
  have hsecond : Reachable (· = smallKernel) (KernelStep 0x2000) mappedOnce :=
    hmapped.next (KernelRun.requestPage_step _)
  exact hsecond.next (.mapMemory _ 0xdeadc000 0x7000 answered_second)

theorem mappedTwice_grants : mappedTwice.grants = [(0x7000, 1), (0x3000, 1)] := by
  decide +kernel

/-- The two pages translate to their own frames, and each keeps what its owner writes. -/
theorem memory_isolated_small :
    let s := mappedTwice.withMem (mappedTwice.allocator.mem.poke 0x3004 7)
    let s' := s.withMem (s.allocator.mem.poke 0x7004 9)
    s'.grants = [(0x7000, 1), (0x3000, 1)] ∧ s'.grants.Pairwise Exclusive ∧
      Translates s'.allocator.mem 0x2000 0xdeadb123 (some 0x3000) ∧
      Translates s'.allocator.mem 0x2000 0xdeadc123 (some 0x7000) ∧
      Translates s'.allocator.mem 0x2000 0xdeada123 none ∧
      s'.allocator.mem 0x3004 = 7 ∧ s'.allocator.mem 0x7004 = 9 := by
  have hfirst : (0x3000, 1) ∈ mappedTwice.grants := by
    rw [mappedTwice_grants]
    decide
  have hsecond : (0x7000, 1) ∈ mappedTwice.grants := by
    rw [mappedTwice_grants]
    decide
  have hwritten := mappedTwice_reachable.next
    (.write _ (0x3000, 1) hfirst 0x3004 ⟨by decide, by decide⟩ 7)
  have hboth := hwritten.next
    (.write _ (0x7000, 1) (by exact hsecond) 0x7004 ⟨by decide, by decide⟩ 9)
  obtain ⟨htranslates, hexclusive, -, -⟩ := memory_isolated started_small hboth
  exact ⟨mappedTwice_grants, hexclusive, htranslates 0xdeadb123, htranslates 0xdeadc123,
    htranslates 0xdeada123, by decide, by decide⟩

end Runs

end UnifiedOS.Paging
