import UnifiedOS.Memory.Heap
import UnifiedOS.Paging.MemoryIsolation

/-!
# The memory behind the heap

The heap is a range of virtual addresses.  `InitialiseHeap` and `ExpandHeap` back it
page by page with frames of their own, wherever the allocator finds them, so that
through the page tables it is one flat memory: a byte reads as it was stored last,
whatever the rest of the kernel requests, maps and writes in the meantime.
-/

namespace UnifiedOS.Memory

open UnifiedOS.Foundation UnifiedOS.Paging
open PageFrameAllocator PageDirectoryEntry

def loadByte (m : ByteMemory) (pml4 v : Nat) : Option Byte :=
  (translation m pml4 (BitVec.ofNat 64 v)).map fun page => m (page.toNat + v % 4096)

def storeByte (m : ByteMemory) (pml4 v : Nat) (byte : Byte) : Option ByteMemory :=
  (translation m pml4 (BitVec.ofNat 64 v)).map fun page => m.poke (page.toNat + v % 4096) byte

/-- The kernel's memory with all grants but the heap's, and the flat memory that the heap is. -/
structure BackedHeap where
  kernel : KernelRun
  pages : List Nat
  contents : ByteMemory

namespace BackedHeap

def grow (s : BackedHeap) (pml4 heapStart : Nat) : BackedHeap :=
  let heapEnd := heapStart + 0x1000 * s.pages.length
  let page := s.kernel.allocator.requestPage.1
  let allocator := s.kernel.allocator.requestPage.2.mapMemory pml4 (BitVec.ofNat 64 heapEnd)
    (BitVec.ofNat 64 page)
  ⟨⟨allocator, s.kernel.grants,
      s.kernel.calls ++ [(BitVec.ofNat 64 heapEnd, BitVec.ofNat 64 page)]⟩,
    s.pages ++ [page],
    fun x => if heapEnd ≤ x then allocator.mem (page + (x - heapEnd)) else s.contents x⟩

def InHeap (s : BackedHeap) (heapStart v : Nat) : Prop :=
  heapStart ≤ v ∧ v < heapStart + 0x1000 * s.pages.length

def heapGrants (s : BackedHeap) : List (Nat × Nat) := s.pages.map (·, 1)

def whole (s : BackedHeap) : KernelRun :=
  ⟨s.kernel.allocator, s.kernel.grants ++ s.heapGrants, s.kernel.calls⟩

end BackedHeap

/--
The heap grows by a granted page or stores a byte; or something else happens that
neither releases nor remaps pages of the heap.
-/
inductive BackedStep (pml4 : BitVec 64) (heapStart : Nat) : BackedHeap → BackedHeap → Prop where
  | grow (s : BackedHeap) (hgranted : s.kernel.allocator.requestPage.1 ≠ NULL)
      (hanswered : Answered s.kernel.allocator.requestPage.2 pml4.toNat
        (BitVec.ofNat 64 (heapStart + 0x1000 * s.pages.length)))
      (hroom : heapStart + 0x1000 * (s.pages.length + 1) ≤ 2 ^ 48) :
      BackedStep pml4 heapStart s (s.grow pml4.toNat heapStart)
  | store (s : BackedHeap) (v : Nat) (byte : Byte) (hv : s.InHeap heapStart v) (m : ByteMemory)
      (hstore : storeByte s.kernel.allocator.mem pml4.toNat v byte = some m) :
      BackedStep pml4 heapStart s ⟨s.kernel.withMem m, s.pages, s.contents.poke v byte⟩
  | other (s : BackedHeap) (kernel : KernelRun) (hstep : KernelStep pml4 s.kernel kernel)
      (hmaps : ∀ v p, kernel.calls = s.kernel.calls ++ [(v, p)] →
        ¬ s.InHeap heapStart (4096 * pageNumber v)) :
      BackedStep pml4 heapStart s ⟨kernel, s.pages, s.contents⟩

/-- The pages of the heap are mapped in order and hold its contents. -/
structure BackedInv (pml4 : BitVec 64) (start : KernelRun) (heapStart : Nat) (s : BackedHeap)
    (tables : List (Nat × Nat)) (node : TableTree) : Prop where
  run : Paging.RunInv pml4 start s.whole tables node
  aligned : ∀ page ∈ s.pages, page % 4096 = 0
  room : heapStart + 0x1000 * s.pages.length ≤ 2 ^ 48
  mapped : ∀ i (hi : i < s.pages.length) v, pageNumber v = heapStart / 4096 + i →
    lastMapped s.kernel.calls v = some (BitVec.ofNat 64 s.pages[i])
  contents : ∀ i (hi : i < s.pages.length) o, o < 0x1000 →
    s.contents (heapStart + 0x1000 * i + o) = s.kernel.allocator.mem (s.pages[i] + o)

section Backed

variable {pml4 : BitVec 64} {start : KernelRun} {heapStart v : Nat} {s s' : BackedHeap}
  {tables : List (Nat × Nat)} {node : TableTree} {m : ByteMemory} {byte : Byte}

theorem BackedInv.covers (h : BackedInv pml4 start heapStart s tables node) {i : Nat}
    (hi : i < s.pages.length) {o : Nat} (ho : o < 0x1000) :
    (s.pages[i], 1) ∈ s.heapGrants ∧ Covers (s.pages[i], 1) ((s.pages[i] + o) / 4096) := by
  have haligned := h.aligned _ (List.getElem_mem hi)
  refine ⟨List.mem_map.mpr ⟨_, List.getElem_mem hi, rfl⟩, ?_⟩
  simp only [Covers]
  omega

theorem BackedInv.injective (h : BackedInv pml4 start heapStart s tables node) {i j : Nat}
    (hi : i < s.pages.length) (hj : j < s.pages.length) {o o' : Nat} (ho : o < 0x1000)
    (ho' : o' < 0x1000) : s.pages[i] + o = s.pages[j] + o' ↔ i = j ∧ o = o' := by
  constructor
  · intro hsame
    have hij : i = j := by
      by_contra hne
      have hexclusive := (List.pairwise_append.mp
        (List.pairwise_append.mp h.run.memory.frames.ledger.exclusive).1).2.1
      have hpages := List.pairwise_map.mp hexclusive
      have happart : Exclusive (s.pages[i], 1) (s.pages[j], 1) := by
        rcases Nat.lt_or_gt_of_ne hne with hlt | hgt
        · exact List.pairwise_iff_getElem.mp hpages i j hi hj hlt
        · exact fun frame hx hy => List.pairwise_iff_getElem.mp hpages j i hj hi hgt frame hy hx
      exact happart _ (h.covers hi ho).2 (hsame ▸ (h.covers hj ho').2)
    subst hij
    omega
  · rintro ⟨rfl, rfl⟩
    rfl

theorem BackedInv.translation_eq (h : BackedInv pml4 start heapStart s tables node) {i : Nat}
    (hi : i < s.pages.length) {u : BitVec 64} (hpage : pageNumber u = heapStart / 4096 + i) :
    translation s.kernel.allocator.mem pml4.toNat u = some (BitVec.ofNat 64 s.pages[i]) ∧
      s.pages[i] < 2 ^ 52 := by
  have haligned := h.aligned _ (List.getElem_mem hi)
  have hgrant := List.mem_append_left tables
    (List.mem_append_right s.kernel.grants (h.covers hi (o := 0) (by norm_num)).1)
  have hinside := h.run.memory.frames.ledger.start _ hgrant
  have hphysical := h.run.memory.frames.physical
  simp only at hinside
  have hlt : s.pages[i] < 2 ^ 52 := by omega
  have htranslates := h.run.translates u
  change Translates s.kernel.allocator.mem pml4 u (lastMapped s.kernel.calls u) at htranslates
  rw [h.mapped i hi u hpage] at htranslates
  refine ⟨?_, hlt⟩
  rw [htranslates.translation_eq, Option.map_some, and_addressMask haligned hlt]

theorem BackedHeap.InHeap.split (hv : s.InHeap heapStart v) (haligned : heapStart % 4096 = 0) :
    ∃ i < s.pages.length, ∃ o < 0x1000, v = heapStart + 0x1000 * i + o ∧ v % 4096 = o ∧
      v / 4096 = heapStart / 4096 + i := by
  obtain ⟨hlo, hhi⟩ := hv
  exact ⟨(v - heapStart) / 4096, by omega, v % 4096, by omega, by omega, rfl, by omega⟩

theorem BackedInv.access (h : BackedInv pml4 start heapStart s tables node)
    (haligned : heapStart % 4096 = 0) (hv : s.InHeap heapStart v) :
    ∃ i, ∃ hi : i < s.pages.length, ∃ o < 0x1000, v = heapStart + 0x1000 * i + o ∧
      loadByte s.kernel.allocator.mem pml4.toNat v = some (s.contents v) ∧
      ∀ byte, storeByte s.kernel.allocator.mem pml4.toNat v byte =
        some (s.kernel.allocator.mem.poke (s.pages[i] + o) byte) := by
  obtain ⟨i, hi, o, ho, heq, hoffset, hpage⟩ := hv.split haligned
  have hroom := h.room
  have hlow : v < 2 ^ 48 := by
    have := hv.2
    omega
  obtain ⟨htranslation, hlt⟩ := h.translation_eq hi (u := BitVec.ofNat 64 v)
    (by rw [pageNumber_ofNat hlow, hpage])
  have hvalue : (BitVec.ofNat 64 s.pages[i]).toNat = s.pages[i] := by
    rw [BitVec.toNat_ofNat, Nat.mod_eq_of_lt (by omega)]
  refine ⟨i, hi, o, ho, heq, ?_, fun byte => ?_⟩
  · rw [loadByte, htranslation, Option.map_some, hvalue, hoffset, heq, h.contents i hi o ho]
  · rw [storeByte, htranslation, Option.map_some, hvalue, hoffset]

theorem BackedInv.store (h : BackedInv pml4 start heapStart s tables node)
    (haligned : heapStart % 4096 = 0) (hv : s.InHeap heapStart v)
    (hstore : storeByte s.kernel.allocator.mem pml4.toNat v byte = some m) :
    ∃ tables' node',
      BackedInv pml4 start heapStart ⟨s.kernel.withMem m, s.pages, s.contents.poke v byte⟩
        tables' node' := by
  obtain ⟨i, hi, o, ho, heq, -, hwrite⟩ := h.access haligned hv
  obtain rfl : s.kernel.allocator.mem.poke (s.pages[i] + o) byte = m :=
    Option.some.inj ((hwrite byte).symm.trans hstore)
  obtain ⟨hgrant, hcovers⟩ := h.covers hi ho
  obtain ⟨tables', node', hrun⟩ := h.run.step
    (.write s.whole _ (List.mem_append_right _ hgrant) (s.pages[i] + o) hcovers byte)
  refine ⟨tables', node', hrun, h.aligned, h.room, h.mapped, fun j hj o' ho' => ?_⟩
  have hsame : heapStart + 0x1000 * j + o' = v ↔ s.pages[j] + o' = s.pages[i] + o := by
    rw [h.injective hj hi ho' ho]
    omega
  have hold := h.contents j hj o' ho'
  dsimp only [KernelRun.withMem, ByteMemory.poke]
  simp only [hsame, hold]

theorem BackedInv.other {kernel : KernelRun} (h : BackedInv pml4 start heapStart s tables node)
    (haligned : heapStart % 4096 = 0) (hstep : KernelStep pml4 s.kernel kernel)
    (hmaps : ∀ v p, kernel.calls = s.kernel.calls ++ [(v, p)] →
      ¬ s.InHeap heapStart (4096 * pageNumber v)) :
    ∃ tables' node',
      BackedInv pml4 start heapStart ⟨kernel, s.pages, s.contents⟩ tables' node' := by
  have hrun := h.run
  have hall : KernelStep pml4 s.whole
      ⟨kernel.allocator, kernel.grants ++ s.heapGrants, kernel.calls⟩ := hstep.append
  obtain ⟨tables', node', hrun'⟩ := hrun.step hall
  have hmem : ∀ i (hi : i < s.pages.length) o, o < 0x1000 →
      kernel.allocator.mem (s.pages[i] + o) = s.kernel.allocator.mem (s.pages[i] + o) := by
    intro i hi o ho
    obtain ⟨hgrant, hcovers⟩ := h.covers hi ho
    rcases hrun.mem_step hstep with ⟨g, hg, y, byte, hy, rfl⟩ | hkept
    · -- the owner of another frame writes
      have hexclusive := (List.pairwise_append.mp
        (List.pairwise_append.mp hrun.memory.frames.ledger.exclusive).1).2.2
      apply ByteMemory.poke_other
      rintro rfl
      exact hexclusive g hg _ hgrant _ hy hcovers
    · exact hkept _ (List.mem_append_right _ hgrant) _ hcovers
  have hcalls : kernel.calls = s.kernel.calls ∨
      ∃ v p, kernel.calls = s.kernel.calls ++ [(v, p)] := by
    cases hstep with
    | frames | lockPages | write => exact Or.inl rfl
    | mapMemory v p hanswered => exact Or.inr ⟨v, p, rfl⟩
  refine ⟨tables', node', hrun', h.aligned, h.room, fun i hi u hu => ?_,
    fun i hi o ho => (h.contents i hi o ho).trans (hmem i hi o ho).symm⟩
  rcases hcalls with hsame | ⟨v, p, hcall⟩
  · dsimp only
    rw [hsame]
    exact h.mapped i hi u hu
  · dsimp only
    rw [hcall, lastMapped_append, if_neg]
    · exact h.mapped i hi u hu
    · intro hpage
      apply hmaps v p hcall
      have hi' : i < s.pages.length := hi
      rw [← hpage, hu]
      unfold BackedHeap.InHeap
      omega

theorem BackedInv.grow (h : BackedInv pml4 start heapStart s tables node)
    (haligned : heapStart % 4096 = 0) (hgranted : s.kernel.allocator.requestPage.1 ≠ NULL)
    (hanswered : Answered s.kernel.allocator.requestPage.2 pml4.toNat
      (BitVec.ofNat 64 (heapStart + 0x1000 * s.pages.length)))
    (hroom : heapStart + 0x1000 * (s.pages.length + 1) ≤ 2 ^ 48) :
    ∃ tables' node',
      BackedInv pml4 start heapStart (s.grow pml4.toNat heapStart) tables' node' := by
  have hmemory := h.run.memory
  have hpage := (requestPage_page hmemory.frames.physical).1
  have hkeeps : KeepsOutside s.kernel.allocator s.kernel.allocator.requestPage.2 :=
    keepsOutside_requestPage hmemory.frames.addressable
  obtain ⟨tables₁, node₁, hrun₁⟩ := h.run.step (.frames s.whole _ (.requestPage _))
  dsimp only [BackedHeap.whole] at hpage hrun₁
  rw [recordGrant, if_neg hgranted] at hrun₁
  have hperm : ((s.kernel.allocator.requestPage.1, 1) :: (s.kernel.grants ++ s.heapGrants)).Perm
      (s.kernel.grants ++ (s.pages ++ [s.kernel.allocator.requestPage.1]).map (·, 1)) := by
    rw [List.map_append, ← List.append_assoc]
    exact (List.perm_append_singleton _ _).symm
  have hrun₂ : Paging.RunInv pml4 start ⟨s.kernel.allocator.requestPage.2,
      s.kernel.grants ++ (s.pages ++ [s.kernel.allocator.requestPage.1]).map (·, 1),
      s.kernel.calls⟩ tables₁ node₁ := Paging.RunInv.perm hrun₁ hperm
  have hbitmap : ∀ i (hi : i < s.pages.length) o, o < 0x1000 →
      ¬ InBitmap s.kernel.allocator (s.pages[i] + o) := by
    intro i hi o ho
    obtain ⟨hgrant, hcovers⟩ := h.covers hi ho
    exact hmemory.frames.not_inBitmap
      (List.mem_append_left _ (List.mem_append_right _ hgrant)) hcovers
  have hend : heapStart + 0x1000 * s.pages.length < 2 ^ 48 := by omega
  have hpageNumber := pageNumber_ofNat hend
  unfold BackedHeap.grow
  dsimp only
  generalize s.kernel.allocator.requestPage.1 = page at *
  generalize s.kernel.allocator.requestPage.2 = allocator at *
  obtain ⟨tables', node', hmapped, hleaves⟩ := mapMemory_mapped hrun₂.memory _
    (BitVec.ofNat 64 page) hanswered
  dsimp only at hmapped
  have hrun' := hrun₂.mapped hmapped hleaves
  dsimp only at hrun'
  have hkept : ∀ i (hi : i < s.pages.length) o, o < 0x1000 →
      (allocator.mapMemory pml4.toNat (BitVec.ofNat 64 (heapStart + 0x1000 * s.pages.length))
        (BitVec.ofNat 64 page)).mem (s.pages[i] + o) =
      s.kernel.allocator.mem (s.pages[i] + o) := by
    intro i hi o ho
    obtain ⟨hgrant, hcovers⟩ := h.covers hi ho
    have hgrant' : (s.pages[i], 1) ∈ s.kernel.grants ++ (s.pages ++ [page]).map (·, 1) := by
      rw [List.map_append]
      exact List.mem_append_right _ (List.mem_append_left _ hgrant)
    have houtside := hbitmap i hi o ho
    have houtside' : ¬ InBitmap allocator (s.pages[i] + o) := by
      rw [InBitmap, hkeeps.pageBitmap]
      exact houtside
    exact (hmapped.mem _ houtside' (hmapped.inv.not_inTable hgrant' hcovers)).trans
      (hkeeps.mem _ houtside)
  refine ⟨tables', node', hrun', fun p hp => ?_, ?_, fun i hi u hu => ?_, fun i hi o ho => ?_⟩
  · rcases List.mem_append.mp hp with hold | hnew
    · exact h.aligned p hold
    · rw [List.mem_singleton.mp hnew]
      exact hpage
  · rw [List.length_append, List.length_singleton]
    exact hroom
  · rw [List.length_append, List.length_singleton] at hi
    dsimp only
    rw [lastMapped_append, hpageNumber, hu]
    by_cases hlast : i < s.pages.length
    · rw [if_neg (by omega), List.getElem_append_left hlast]
      exact h.mapped i hlast u hu
    · obtain rfl : i = s.pages.length := by omega
      rw [if_pos (by omega), List.getElem_concat_length rfl]
  · rw [List.length_append, List.length_singleton] at hi
    dsimp only
    by_cases hlast : i < s.pages.length
    · rw [if_neg (by omega), List.getElem_append_left hlast, hkept i hlast o ho]
      exact h.contents i hlast o ho
    · obtain rfl : i = s.pages.length := by omega
      rw [if_pos (by omega), List.getElem_concat_length rfl, Nat.add_sub_cancel_left]

theorem BackedInv.step (h : BackedInv pml4 start heapStart s tables node)
    (haligned : heapStart % 4096 = 0) (hstep : BackedStep pml4 heapStart s s') :
    ∃ tables' node', BackedInv pml4 start heapStart s' tables' node' := by
  cases hstep with
  | grow hgranted hanswered hroom => exact h.grow haligned hgranted hanswered hroom
  | store v byte hv m hstore => exact h.store haligned hv hstore
  | other kernel hstep hmaps => exact h.other haligned hstep hmaps

def emptyHeap (kernel : KernelRun) : BackedHeap := ⟨kernel, [], fun _ => 0⟩

/--
In every run, while pages are requested, mapped and written elsewhere, each address
of the heap reads through the page tables as the flat memory has it, and a store to
one changes the flat memory in that byte alone.
-/
theorem heap_memory_flat (hstart : Started pml4 start)
    {kernel : KernelRun} (hkernel : Reachable (· = start) (KernelStep pml4) kernel)
    (haligned : heapStart % 4096 = 0) (hlow : heapStart ≤ 2 ^ 48)
    (hreach : Reachable (· = emptyHeap kernel) (BackedStep pml4 heapStart) s)
    (hv : s.InHeap heapStart v) :
    loadByte s.kernel.allocator.mem pml4.toNat v = some (s.contents v) ∧
      ∀ byte, ∃ m, storeByte s.kernel.allocator.mem pml4.toNat v byte = some m ∧
        ∀ u, s.InHeap heapStart u →
          loadByte m pml4.toNat u = some (if u = v then byte else s.contents u) := by
  have hinv : ∃ tables node, BackedInv pml4 start heapStart s tables node := by
    apply hreach.invariant
    · rintro s rfl
      obtain ⟨tables, node, hrun⟩ := runInv_of_reachable hstart hkernel
      refine ⟨tables, node, ?_, by simp [emptyHeap], by simpa [emptyHeap] using hlow,
        fun i hi => absurd hi (Nat.not_lt_zero i), fun i hi => absurd hi (Nat.not_lt_zero i)⟩
      rw [BackedHeap.whole, BackedHeap.heapGrants, emptyHeap, List.map_nil, List.append_nil]
      exact hrun
    · rintro s s' ⟨tables, node, h⟩ hstep
      exact h.step haligned hstep
  obtain ⟨tables, node, h⟩ := hinv
  obtain ⟨i, hi, o, ho, -, hload, hstore⟩ := h.access haligned hv
  refine ⟨hload, fun byte => ⟨_, hstore byte, fun u hu => ?_⟩⟩
  obtain ⟨tables', node', h'⟩ := h.store haligned hv (hstore byte)
  obtain ⟨-, -, -, -, -, hload', -⟩ := h'.access haligned hu
  exact hload'

/-- One page at 0x5000, behind it a free frame, and a byte stored and read back. -/
theorem heap_memory_flat_small :
    ∃ (s : BackedHeap) (m : ByteMemory), s.pages = [0x3000] ∧
      storeByte s.kernel.allocator.mem 0x2000 0x5004 7 = some m ∧
        loadByte m 0x2000 0x5004 = some 7 := by
  have hanswered : Answered smallKernel.allocator.requestPage.2 0x2000 0x5000 :=
    ⟨fun _ => by decide +kernel, fun _ => by decide +kernel, fun _ => by decide +kernel, trivial⟩
  have hgrown : Reachable (· = emptyHeap smallKernel) (BackedStep 0x2000 0x5000)
      ((emptyHeap smallKernel).grow 0x2000 0x5000) :=
    Reachable.next (.start rfl)
      (BackedStep.grow (emptyHeap smallKernel) (by decide) hanswered (by norm_num [emptyHeap]))
  obtain ⟨-, hstore⟩ := heap_memory_flat started_small
    (Reachable.start rfl : Reachable (· = smallKernel) (KernelStep 0x2000) smallKernel)
    (by decide) (by decide) hgrown (v := 0x5004) ⟨by decide, by decide⟩
  obtain ⟨m, hm, hload⟩ := hstore 7
  exact ⟨_, m, by decide, hm, hload 0x5004 ⟨by decide, by decide⟩⟩

end Backed

/-! ## The loops over pages -/

/-- The page loop of `ExpandHeap` on the allocator and the tables themselves. -/
def attachPages (pml4 : Nat) : Nat → Nat → PageFrameAllocator → Nat × PageFrameAllocator
  | 0, heapEnd, s => (heapEnd, s)
  | pageCount + 1, heapEnd, s =>
      if s.requestPage.1 ≠ NULL then
        attachPages pml4 pageCount (wrap64 (heapEnd + 0x1000))
          (s.requestPage.2.mapMemory pml4 (BitVec.ofNat 64 heapEnd)
            (BitVec.ofNat 64 s.requestPage.1))
      else attachPages pml4 pageCount heapEnd s.requestPage.2

def mapInitialPages (pml4 : Nat) : Nat → Nat → PageFrameAllocator → PageFrameAllocator
  | 0, _, s => s
  | pageCount + 1, pos, s =>
      mapInitialPages pml4 pageCount (wrap64 (pos + 0x1000))
        (s.requestPage.2.mapMemory pml4 (BitVec.ofNat 64 pos) (BitVec.ofNat 64 s.requestPage.1))

def requested (pml4 : Nat) : Nat → Nat → PageFrameAllocator → List Nat
  | 0, _, _ => []
  | pageCount + 1, heapEnd, s =>
      s.requestPage.1 ::
        (if s.requestPage.1 ≠ NULL then
          requested pml4 pageCount (wrap64 (heapEnd + 0x1000))
            (s.requestPage.2.mapMemory pml4 (BitVec.ofNat 64 heapEnd)
              (BitVec.ofNat 64 s.requestPage.1))
        else requested pml4 pageCount heapEnd s.requestPage.2)

def AttachAnswered (pml4 : Nat) : Nat → Nat → PageFrameAllocator → Prop
  | 0, _, _ => True
  | pageCount + 1, heapEnd, s =>
      if s.requestPage.1 ≠ NULL then
        Answered s.requestPage.2 pml4 (BitVec.ofNat 64 heapEnd) ∧
          AttachAnswered pml4 pageCount (wrap64 (heapEnd + 0x1000))
            (s.requestPage.2.mapMemory pml4 (BitVec.ofNat 64 heapEnd)
              (BitVec.ofNat 64 s.requestPage.1))
      else AttachAnswered pml4 pageCount heapEnd s.requestPage.2

/-- The heap alone, told what its requests are answered with, ends where the loop ends. -/
theorem attachPages_heapEnd {pages : Nat → Nat} {pml4 pageCount : Nat} {h : Heap}
    {s : PageFrameAllocator}
    (hpages : ∀ k page, (requested pml4 pageCount h.heapEnd s)[k]? = some page →
      pages (h.requests + k) = page) :
    (h.attachPages pages pageCount).heapEnd = (attachPages pml4 pageCount h.heapEnd s).1 := by
  induction pageCount generalizing h s with
  | zero => rfl
  | succ pageCount ih =>
      rw [requested] at hpages
      have hfirst : pages h.requests = s.requestPage.1 := hpages 0 _ rfl
      have hlater : ∀ k, pages (h.requests + 1 + k) = pages (h.requests + (k + 1)) := fun k => by
        rw [Nat.add_assoc, Nat.add_comm 1]
      rw [Heap.attachPages, attachPages, Heap.requestPage, hfirst]
      by_cases hgranted : s.requestPage.1 ≠ NULL
      · have hpage : s.requestPage.1 ≠ nullptr := hgranted
        rw [if_pos hgranted] at hpages
        simp only [if_pos hgranted, if_pos hpage]
        exact ih fun k page hk => (hlater k).trans (hpages (k + 1) page hk)
      · have hpage : ¬ s.requestPage.1 ≠ nullptr := hgranted
        rw [if_neg hgranted] at hpages
        simp only [if_neg hgranted, if_neg hpage]
        exact ih fun k page hk => (hlater k).trans (hpages (k + 1) page hk)

/-- `InitialiseHeap` does as `ExpandHeap` when every request is granted. -/
theorem mapInitialPages_eq_attachPages {pml4 pageCount pos : Nat} {s : PageFrameAllocator}
    (hgranted : NULL ∉ requested pml4 pageCount pos s) :
    mapInitialPages pml4 pageCount pos s = (attachPages pml4 pageCount pos s).2 := by
  induction pageCount generalizing pos s with
  | zero => rfl
  | succ pageCount ih =>
      rw [requested, List.mem_cons, not_or] at hgranted
      have hpage : s.requestPage.1 ≠ NULL := Ne.symm hgranted.1
      rw [if_pos hpage] at hgranted
      rw [mapInitialPages, attachPages, if_pos hpage, ih hgranted.2]

section Attach

variable {pml4 : BitVec 64} {heapStart pageCount : Nat} {s : BackedHeap}
  {initial : BackedHeap → Prop}

/-- The loop is a run: it grows the heap by each page that is granted, and the end with it. -/
theorem attachPages_run (hreach : Reachable initial (BackedStep pml4 heapStart) s)
    (hroom : heapStart + 0x1000 * (s.pages.length + pageCount) ≤ 2 ^ 48)
    (hanswered : AttachAnswered pml4.toNat pageCount (heapStart + 0x1000 * s.pages.length)
      s.kernel.allocator) :
    ∃ s', Reachable initial (BackedStep pml4 heapStart) s' ∧ s.pages <+: s'.pages ∧
      (∀ v, s.InHeap heapStart v → s'.contents v = s.contents v) ∧
      attachPages pml4.toNat pageCount (heapStart + 0x1000 * s.pages.length) s.kernel.allocator =
        (heapStart + 0x1000 * s'.pages.length, s'.kernel.allocator) := by
  induction pageCount generalizing s with
  | zero => exact ⟨s, hreach, List.prefix_refl _, fun _ _ => rfl, rfl⟩
  | succ pageCount ih =>
      rw [AttachAnswered] at hanswered
      rw [attachPages]
      by_cases hgranted : s.kernel.allocator.requestPage.1 ≠ NULL
      · rw [if_pos hgranted] at hanswered ⊢
        have hlength : (s.grow pml4.toNat heapStart).pages.length = s.pages.length + 1 :=
          List.length_append
        have hmore : heapStart + 0x1000 * (s.pages.length + 1) ≤ 2 ^ 48 :=
          le_trans (Nat.add_le_add_left (Nat.mul_le_mul_left _ (by omega)) _) hroom
        have hend : wrap64 (heapStart + 0x1000 * s.pages.length + 0x1000) =
            heapStart + 0x1000 * (s.pages.length + 1) := by
          rw [wrap64_of_lt (by omega)]
          omega
        have hkept : ∀ v, s.InHeap heapStart v →
            (s.grow pml4.toNat heapStart).InHeap heapStart v ∧
              (s.grow pml4.toNat heapStart).contents v = s.contents v := by
          intro v hv
          refine ⟨⟨hv.1, Nat.lt_of_lt_of_le hv.2 ?_⟩, if_neg (Nat.not_le_of_lt hv.2)⟩
          rw [hlength]
          omega
        have hgrown := hreach.next (.grow s hgranted hanswered.1 hmore)
        rw [hend] at hanswered ⊢
        obtain ⟨s', hreach', hprefix, hcontents, heq⟩ := ih hgrown
          (by rw [hlength, Nat.add_assoc, Nat.add_comm 1]; exact hroom)
          (by rw [hlength]; exact hanswered.2)
        rw [hlength] at heq
        exact ⟨s', hreach', (List.prefix_append _ _).trans hprefix,
          fun v hv => (hcontents v (hkept v hv).1).trans (hkept v hv).2, heq⟩
      · rw [if_neg hgranted] at hanswered ⊢
        -- a refused request moves the cursor only
        have hrefused := hreach.next (.other s _ (.frames s.kernel _ (.requestPage _))
          fun v p hcalls => absurd (congrArg List.length hcalls) (by simp))
        refine ih hrefused (le_trans ?_ hroom) hanswered
        exact Nat.add_le_add_left (Nat.mul_le_mul_left _ (Nat.add_le_add_left (Nat.le_succ _) _)) _

/--
Growing a heap, whether all requests are granted or not, makes every address up to the
new end readable and leaves what the heap held as it was.
-/
theorem attachPages_backed {start kernel : KernelRun} (hstart : Started pml4 start)
    (hkernel : Reachable (· = start) (KernelStep pml4) kernel)
    (haligned : heapStart % 4096 = 0)
    (hreach : Reachable (· = emptyHeap kernel) (BackedStep pml4 heapStart) s)
    (hroom : heapStart + 0x1000 * (s.pages.length + pageCount) ≤ 2 ^ 48)
    (hanswered : AttachAnswered pml4.toNat pageCount (heapStart + 0x1000 * s.pages.length)
      s.kernel.allocator) :
    let grown := attachPages pml4.toNat pageCount (heapStart + 0x1000 * s.pages.length)
      s.kernel.allocator
    heapStart + 0x1000 * s.pages.length ≤ grown.1 ∧
      (∀ v, heapStart ≤ v → v < grown.1 → (loadByte grown.2.mem pml4.toNat v).isSome) ∧
        ∀ v, s.InHeap heapStart v →
          loadByte grown.2.mem pml4.toNat v = loadByte s.kernel.allocator.mem pml4.toNat v := by
  have hlow : heapStart ≤ 2 ^ 48 := le_trans (Nat.le_add_right _ _) hroom
  obtain ⟨s', hreach', hprefix, hcontents, heq⟩ := attachPages_run hreach hroom hanswered
  have hmore := hprefix.length_le
  rw [heq]
  refine ⟨by dsimp only; omega, fun v hlo hhi => ?_, fun v hv => ?_⟩
  · rw [(heap_memory_flat hstart hkernel haligned hlow hreach' ⟨hlo, hhi⟩).1, Option.isSome_some]
  · have hv' : s'.InHeap heapStart v :=
      ⟨hv.1, Nat.lt_of_lt_of_le hv.2 (Nat.add_le_add_left (Nat.mul_le_mul_left _ hmore) _)⟩
    rw [(heap_memory_flat hstart hkernel haligned hlow hreach' hv').1, hcontents v hv,
      (heap_memory_flat hstart hkernel haligned hlow hreach hv).1]

/-- Two pages are granted, with the tables of both between them, and a third is refused. -/
theorem attachPages_backed_small :
    ∃ grown : Nat × PageFrameAllocator,
      grown = attachPages 0x2000 3 0x5000 smallKernel.allocator ∧ grown.1 = 0x7000 ∧
        (loadByte grown.2.mem 0x2000 0x6abc).isSome := by
  have hanswered : AttachAnswered 0x2000 3 0x5000 smallKernel.allocator := by
    rw [AttachAnswered, if_pos (by decide +kernel)]
    refine ⟨⟨fun _ => by decide +kernel, fun _ => by decide +kernel, fun _ => by decide +kernel,
      trivial⟩, ?_⟩
    rw [AttachAnswered, if_pos (by decide +kernel)]
    refine ⟨⟨fun h => absurd h (by decide +kernel), fun h => absurd h (by decide +kernel),
      fun h => absurd h (by decide +kernel), trivial⟩, ?_⟩
    rw [AttachAnswered, if_neg (by decide +kernel)]
    trivial
  have hend : (attachPages 0x2000 3 0x5000 smallKernel.allocator).1 = 0x7000 := by
    decide +kernel
  obtain ⟨-, hread, -⟩ := attachPages_backed started_small
    (Reachable.start rfl : Reachable (· = smallKernel) (KernelStep 0x2000) smallKernel)
    (by decide) (.start rfl : Reachable (· = emptyHeap smallKernel) (BackedStep 0x2000 0x5000) _)
    (by norm_num [emptyHeap]) hanswered
  exact ⟨_, rfl, hend, hread 0x6abc (by decide) (lt_of_lt_of_eq (by decide) hend.symm)⟩

end Attach

end UnifiedOS.Memory
