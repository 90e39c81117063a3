import UnifiedOS.Foundation.TransitionSystem
import UnifiedOS.Memory.HeapRefinement
import Mathlib.Data.List.Nodup

/-!
# Runs of the heap

A run starts from `InitialiseHeap` and goes on with calls of `malloc`, calls of
`free` on pointers that are live, and stores of clients into the memory they
were given.  A pointer is live from the `malloc` that returned it until it is
freed; the null pointer that `malloc(0)` returns is not an allocation.  One
invariant is carried along every run, and the tiling of the heap, the ownership
of allocations and the absence of free neighbours are read off it.
-/

namespace UnifiedOS.Memory

open UnifiedOS.Foundation
open HeapBlockHeader

/-! ## Calls and runs -/

/-- The heap with its live allocations, each a pointer and the size asked for. -/
structure HeapRun where
  heap : Heap
  live : List (Nat × Nat)

inductive HeapCall where
  | malloc (size : Nat)
  | free (p size : Nat)
  | write (p size offset value : Nat)

/-- A client frees and writes only what it owns. -/
def HeapCall.Allowed (s : HeapRun) : HeapCall → Prop
  | malloc size => size < 2 ^ 40
  | free p size => (p, size) ∈ s.live
  | write p size offset _ => (p, size) ∈ s.live ∧ offset < size

instance (s : HeapRun) : (call : HeapCall) → Decidable (call.Allowed s)
  | .malloc size => inferInstanceAs (Decidable (size < 2 ^ 40))
  | .free p size => inferInstanceAs (Decidable ((p, size) ∈ s.live))
  | .write p size offset _ =>
      inferInstanceAs (Decidable ((p, size) ∈ s.live ∧ offset < size))

namespace HeapRun

def call (pages : Nat → Nat) (fuel : Nat) (s : HeapRun) : HeapCall → Option HeapRun
  | .malloc size =>
      (Heap.malloc pages fuel s.heap size).map fun result =>
        ⟨result.2,
          if result.1 = nullptr then s.live else (result.1, size) :: s.live⟩
  | .free p size => some ⟨s.heap.free p, s.live.erase (p, size)⟩
  | .write p _ offset value =>
      some ⟨s.heap.withMem (s.heap.mem.store (p + offset) 1 value), s.live⟩

def calls (pages : Nat → Nat) (fuel : Nat) : List HeapCall → HeapRun → Option HeapRun
  | [], s => some s
  | c :: cs, s =>
      if c.Allowed s then (s.call pages fuel c).bind (calls pages fuel cs)
      else none

end HeapRun

def HeapStep (pages : Nat → Nat) (s s' : HeapRun) : Prop :=
  ∃ fuel c, HeapCall.Allowed s c ∧ s.call pages fuel c = some s'

def freshHeap (pages : Nat → Nat) (a n : Nat) (mem : ByteMemory) : HeapRun :=
  ⟨Heap.initialiseHeap pages ⟨mem, 0, 0, 0, 0, []⟩ a n, []⟩

def HeapReachable (pages : Nat → Nat) (a n : Nat) : HeapRun → Prop :=
  Reachable (fun s => ∃ mem, s = freshHeap pages a n mem) (HeapStep pages)

/-- The end of the heap, counted from the pages mapped, stays below `2 ^ 64`. -/
def BelowTop (s : HeapRun) : Prop :=
  s.heap.heapStart + 0x1000 * s.heap.mapped.length < 2 ^ 64

section Region

variable {pages : Nat → Nat} {a n : Nat} {s s' : HeapRun} {mem : ByteMemory}

theorem HeapReachable.calls {fuel : Nat} {cs : List HeapCall}
    (hreach : HeapReachable pages a n s)
    (hcalls : HeapRun.calls pages fuel cs s = some s') :
    HeapReachable pages a n s' := by
  induction cs generalizing s with
  | nil =>
      rw [← Option.some.inj hcalls]
      exact hreach
  | cons c cs ih =>
      unfold HeapRun.calls at hcalls
      by_cases hallowed : c.Allowed s
      · rw [if_pos hallowed] at hcalls
        obtain ⟨s₁, hcall, hrest⟩ := Option.bind_eq_some_iff.mp hcalls
        exact ih (Reachable.next hreach ⟨fuel, c, hallowed, hcall⟩) hrest
      · simp [if_neg hallowed] at hcalls

theorem mapInitialPages_eq (n pos : Nat) (s : Heap) :
    ∃ pairs, pairs.length = n ∧
      Heap.mapInitialPages pages n pos s =
        { s with requests := s.requests + n, mapped := s.mapped ++ pairs } := by
  induction n generalizing pos s with
  | zero => exact ⟨[], rfl, by rw [List.append_nil]; rfl⟩
  | succ n ih =>
      obtain ⟨pairs, hlength, heq⟩ := ih (wrap64 (pos + 0x1000))
        { s with
          requests := s.requests + 1
          mapped := s.mapped ++ [(pos, pages s.requests)] }
      refine ⟨(pos, pages s.requests) :: pairs, by simp [hlength], ?_⟩
      change Heap.mapInitialPages pages n _ _ = _
      exact heq.trans (by simp [Nat.add_assoc, Nat.add_comm 1 n])

def startStores (m : ByteMemory) (startSeg length : Nat) : ByteMemory :=
  let m := setLength m startSeg length
  let m := setNext m startSeg nullptr
  let m := setPrev m startSeg nullptr
  setFree m startSeg true

theorem readHeader_startStores {m : ByteMemory} {startSeg length : Nat}
    (hlength : length < 2 ^ 64) :
    readHeader (startStores m startSeg length) startSeg =
      ⟨length, nullptr, nullptr, true⟩ := by
  have hnull : nullptr < 2 ^ 64 := Nat.two_pow_pos 64
  simp only [startStores, readHeader_setFree, readHeader_setPrev hnull,
    readHeader_setNext hnull, readHeader_setLength hlength]

theorem freshHeap_eq (a n : Nat) (mem : ByteMemory) :
    ∃ pairs, pairs.length = n ∧
      freshHeap pages a n mem =
        ⟨{ mem := startStores mem a (sub64 (wrap64 (n * 0x1000)) headerSize)
           heapStart := a
           heapEnd := wrap64 (a + wrap64 (n * 0x1000))
           lastHdr := a
           requests := n
           mapped := pairs }, []⟩ := by
  obtain ⟨pairs, hlength, heq⟩ :=
    @mapInitialPages_eq pages n a ⟨mem, 0, 0, 0, 0, []⟩
  refine ⟨pairs, hlength, ?_⟩
  have hfresh : ∀ s₁, Heap.mapInitialPages pages n a ⟨mem, 0, 0, 0, 0, []⟩ = s₁ →
      freshHeap pages a n mem =
        ⟨{ s₁ with
           mem := startStores s₁.mem a (sub64 (wrap64 (n * 0x1000)) headerSize)
           heapStart := a
           heapEnd := wrap64 (a + wrap64 (n * 0x1000))
           lastHdr := a }, []⟩ := by
    rintro _ rfl
    rfl
  rw [hfresh _ heq, Nat.zero_add, List.nil_append]

/-- A call with an owned block, or of any size whose rounding to pages does not wrap. -/
def HeapCall.Rounds (s : HeapRun) : HeapCall → Prop
  | malloc size => size + 0x1000 ≤ 2 ^ 64
  | free p size => (p, size) ∈ s.live
  | write p size offset _ => (p, size) ∈ s.live ∧ offset < size

def RoundingStep (pages : Nat → Nat) (s s' : HeapRun) : Prop :=
  ∃ fuel c, HeapCall.Rounds s c ∧ s.call pages fuel c = some s'

def RoundingReachable (pages : Nat → Nat) (a n : Nat) : HeapRun → Prop :=
  Reachable (fun s => ∃ mem, s = freshHeap pages a n mem) (RoundingStep pages)

theorem HeapCall.Allowed.rounds {c : HeapCall} (h : c.Allowed s) : c.Rounds s := by
  cases c with
  | malloc size =>
      have hsize : size < 2 ^ 40 := h
      unfold HeapCall.Rounds
      omega
  | free p size => exact h
  | write p size offset value => exact h

theorem HeapReachable.rounding (hreach : HeapReachable pages a n s) :
    RoundingReachable pages a n s :=
  Reachable.mono hreach fun _ _ ⟨fuel, c, hallowed, hcall⟩ =>
    ⟨fuel, c, hallowed.rounds, hcall⟩

theorem HeapRun.call_grown {fuel : Nat} {c : HeapCall} (hcall : s.call pages fuel c = some s') :
    Grown s.heap s'.heap := by
  cases c with
  | malloc size =>
      obtain ⟨⟨p, heap'⟩, hm, rfl⟩ := Option.map_eq_some_iff.mp hcall
      exact malloc_grown hm
  | free p size =>
      simp only [HeapRun.call, Option.some.injEq] at hcall
      subst hcall
      dsimp only
      exact (sameRegion_free p).grown
  | write p size offset value =>
      simp only [HeapRun.call, Option.some.injEq] at hcall
      subst hcall
      dsimp only
      exact (sameRegion_withMem _).grown

structure RegionInv (a n : Nat) (s : HeapRun) : Prop where
  start : s.heap.heapStart = a
  mapped : n ≤ s.heap.mapped.length
  stop : s.heap.heapEnd = wrap64 (a + 0x1000 * s.heap.mapped.length)

theorem regionInv (hreach : HeapReachable pages a n s) : RegionInv a n s := by
  apply hreach.invariant
  · rintro _ ⟨mem, rfl⟩
    obtain ⟨pairs, hlength, heq⟩ := @freshHeap_eq pages a n mem
    rw [heq]
    refine ⟨rfl, Nat.le_of_eq hlength.symm, ?_⟩
    change wrap64 (a + wrap64 (n * 0x1000)) = wrap64 (a + 0x1000 * pairs.length)
    rw [hlength]
    simp only [wrap64]
    omega
  · rintro s s' hinv ⟨fuel, c, -, hcall⟩
    have hgrown := HeapRun.call_grown hcall
    have hmore := hgrown.mapped
    refine ⟨hgrown.start.trans hinv.start, Nat.le_trans hinv.mapped hmore, ?_⟩
    rw [hgrown.stop (hinv.stop ▸ wrap64_lt _), hinv.stop]
    simp only [wrap64]
    omega

theorem belowTop_back {fuel : Nat} {c : HeapCall} (hcall : s.call pages fuel c = some s')
    (hend : BelowTop s') : BelowTop s := by
  have hgrown := HeapRun.call_grown hcall
  have hmore := hgrown.mapped
  simp only [BelowTop, hgrown.start] at hend ⊢
  omega

end Region

/-! ## The invariant of a run -/

/-- The store through a null `Next`, to bytes 16 to 23, misses the heap. -/
def NullWriteOutside (s : Heap) : Prop := 24 ≤ s.heapStart ∨ s.heapEnd ≤ 16

theorem low_of_nullWrite {pages : Nat → Nat} {a n : Nat} {s : HeapRun} (hn : 0 < n)
    (hreach : HeapReachable pages a n s) (hend : BelowTop s)
    (hnull : NullWriteOutside s.heap) : 24 ≤ a := by
  have hregion := regionInv hreach
  have hmapped := hregion.mapped
  have hstop := hregion.stop
  simp only [BelowTop, hregion.start] at hend
  rw [wrap64_of_lt hend] at hstop
  simp only [NullWriteOutside, hregion.start] at hnull
  omega

/-- The live allocations are the blocks in use, one allocation for each. -/
structure Tracks (live : List (Nat × Nat)) (bs : List Block) : Prop where
  distinct : (live.map Prod.fst).Nodup
  owned : ∀ e ∈ live, ∃ b ∈ bs, b.free = false ∧ b.payload = e.1 ∧
    0 < e.2 ∧ e.2 ≤ Heap.roundUp 0x10 e.2 ∧ Heap.roundUp 0x10 e.2 ≤ b.length
  accounted : ∀ b ∈ bs, b.free = false → ∃ e ∈ live, e.1 = b.payload

def RunInv (s : HeapRun) : Prop :=
  ∃ bs, HeapInv s.heap bs ∧ Tracks s.live bs

section Invariant

variable {pages : Nat → Nat} {a n p size : Nat} {s s' : HeapRun} {heap' : Heap}
  {live : List (Nat × Nat)} {bs bs' grown : List Block} {m : ByteMemory}

theorem runInv_fresh (hn : 0 < n) (ha : 24 ≤ a) (mem : ByteMemory)
    (hend : BelowTop (freshHeap pages a n mem)) :
    RunInv (freshHeap pages a n mem) := by
  obtain ⟨pairs, hlength, heq⟩ := @freshHeap_eq pages a n mem
  rw [heq] at hend ⊢
  simp only [BelowTop, hlength] at hend
  have htotal : wrap64 (n * 0x1000) = n * 0x1000 := wrap64_of_lt (by omega)
  have hstop : wrap64 (a + n * 0x1000) = a + n * 0x1000 := wrap64_of_lt (by omega)
  have hsize : sub64 (n * 0x1000) headerSize = n * 0x1000 - headerSize := by
    simp only [headerSize, sub64]
    omega
  rw [htotal, hstop, hsize]
  refine ⟨[⟨a, n * 0x1000 - headerSize, true⟩], ?_, ?_⟩
  · constructor
    · constructor
      · exact ⟨readHeader_startStores (by omega), trivial⟩
      · rfl
      · rfl
      · constructor
        · simp
        · simp only [List.map_cons, List.map_nil, List.mem_singleton, nullptr]
          omega
        · simp only [List.map_cons, List.map_nil, List.mem_singleton]
          omega
    · constructor
      · refine ⟨rfl, ?_⟩
        change a + 32 + (n * 0x1000 - 32) = a + n * 0x1000
        omega
      · exact List.isChain_singleton _
      · simp only [List.mem_singleton]
        rintro b rfl
        change 16 ∣ n * 0x1000 - 32
        omega
      · simp
    · exact ha
    · change a + n * 0x1000 < 2 ^ 64
      omega
    · change a + n * 0x1000 = a + 0x1000 * pairs.length
      omega
  · constructor
    · exact List.nodup_nil
    · simp
    · simp only [List.mem_singleton]
      rintro b rfl hused
      simp at hused

theorem runInv_malloc (hpages : ∀ k, pages k ≠ nullptr) (hinv : RunInv s)
    (hsize : size + 0x1000 ≤ 2 ^ 64) {fuel : Nat}
    (hm : Heap.malloc pages fuel s.heap size = some (p, heap'))
    (hend : heap'.heapStart + 0x1000 * heap'.mapped.length < 2 ^ 64) :
    RunInv ⟨heap', if p = nullptr then s.live else (p, size) :: s.live⟩ := by
  obtain ⟨bs, hheap, htracks⟩ := hinv
  rcases malloc_refines hheap hpages hsize hm hend with
    ⟨-, rfl, rfl⟩ | ⟨hpos, grown, bs', hwell, hused, halloc, hheap'⟩
  · exact ⟨bs, hheap, htracks⟩
  · obtain ⟨-, hle, -⟩ := Heap.roundUp_spec (by decide : 0 < 0x10)
      (by omega : size + 0x10 ≤ 2 ^ 64)
    obtain ⟨d, hd, hdused, hpayload, hlength, hnew, hiff⟩ :=
      mem_allocate_used hwell halloc
    have hp : p ≠ nullptr := by
      rw [← hpayload]
      simp [Block.payload, headerSize, nullptr]
    rw [if_neg hp]
    refine ⟨bs', hheap', ?_, ?_, ?_⟩
    · rw [List.map_cons, List.nodup_cons]
      refine ⟨?_, htracks.distinct⟩
      intro hmem
      obtain ⟨e, he, hep⟩ := List.mem_map.mp hmem
      obtain ⟨b, hb, hbused, hbpayload, -⟩ := htracks.owned e he
      obtain ⟨hgrown, -⟩ := (hused b).mpr ⟨hb, hbused⟩
      exact hnew b hgrown hbused (hbpayload.trans hep)
    · intro e he
      rcases List.mem_cons.mp he with rfl | hmem
      · exact ⟨d, hd, hdused, hpayload, hpos, hle, hlength⟩
      · obtain ⟨b, hb, hbused, hrest⟩ := htracks.owned e hmem
        obtain ⟨hb', -⟩ := (hiff b).mpr (Or.inr ((hused b).mpr ⟨hb, hbused⟩))
        exact ⟨b, hb', hbused, hrest⟩
    · intro b hb hbused
      rcases (hiff b).mp ⟨hb, hbused⟩ with rfl | hold
      · exact ⟨(p, size), List.mem_cons_self, hpayload.symm⟩
      · obtain ⟨hbs, -⟩ := (hused b).mp hold
        obtain ⟨e, he, hep⟩ := htracks.accounted b hbs hbused
        exact ⟨e, List.mem_cons_of_mem _ he, hep⟩

theorem runInv_free (hinv : RunInv s) (hlive : (p, size) ∈ s.live) :
    RunInv ⟨s.heap.free p, s.live.erase (p, size)⟩ := by
  obtain ⟨bs, hheap, htracks⟩ := hinv
  obtain ⟨b, hb, hbused, hbpayload, -⟩ := htracks.owned (p, size) hlive
  have hsame : ∀ e ∈ s.live, e.1 = p → e = (p, size) := fun e he hep =>
    List.inj_on_of_nodup_map htracks.distinct he hlive hep
  have hfreed := heapInv_free hheap hb
  rw [hbpayload] at hfreed
  unfold RunInv
  dsimp only
  refine ⟨release p bs, hfreed, ?_, ?_, ?_⟩
  · exact htracks.distinct.sublist ((List.erase_sublist).map _)
  · intro e he
    have hnodup : s.live.Nodup := List.Nodup.of_map _ htracks.distinct
    obtain ⟨hne, hmem⟩ := (List.Nodup.mem_erase_iff hnodup).mp he
    obtain ⟨c, hc, hcused, hcpayload, hrest⟩ := htracks.owned e hmem
    have hcp : c.payload ≠ p := fun heq => hne (hsame e hmem (hcpayload ▸ heq))
    obtain ⟨hc', -⟩ := mem_release_used.mpr ⟨hc, hcused, hcp⟩
    exact ⟨c, hc', hcused, hcpayload, hrest⟩
  · intro c hc hcused
    obtain ⟨hcbs, -, hcp⟩ := mem_release_used.mp ⟨hc, hcused⟩
    obtain ⟨e, he, hep⟩ := htracks.accounted c hcbs hcused
    refine ⟨e, ?_, hep⟩
    rw [List.mem_erase_of_ne]
    · exact he
    · rintro rfl
      exact hcp hep.symm

theorem runInv_write (hinv : RunInv s) (hlive : (p, size) ∈ s.live)
    {offset : Nat} (value : Nat) (hoffset : offset < size) :
    RunInv ⟨s.heap.withMem (s.heap.mem.store (p + offset) 1 value), s.live⟩ := by
  obtain ⟨bs, hheap, htracks⟩ := hinv
  obtain ⟨b, hb, -, hbpayload, -, hle, hfits⟩ := htracks.owned (p, size) hlive
  refine ⟨bs, hheap.of_sameRegion (sameRegion_withMem _) ?_ hheap.wellFormed, htracks⟩
  have hrep := hheap.represents
  refine ⟨hrep.linked.imp ?_, hrep.start, hrep.last, hrep.placed⟩
  intro c hc prev next hold
  apply hold.of_eq
  apply readHeader_store_apart
  simp only [Block.payload] at hbpayload hle hfits
  rcases hheap.wellFormed.tiles.eq_or_apart hb hc with rfl | hapart | hapart
  · omega
  · simp only [Block.stop] at hapart
    omega
  · simp only [Block.stop] at hapart
    omega

theorem runInv_call {fuel : Nat} {c : HeapCall} (hpages : ∀ k, pages k ≠ nullptr)
    (hinv : RunInv s) (hsound : c.Rounds s) (hcall : s.call pages fuel c = some s')
    (hend : BelowTop s') : RunInv s' := by
  cases c with
  | malloc size =>
      obtain ⟨⟨p, heap'⟩, hm, rfl⟩ := Option.map_eq_some_iff.mp hcall
      exact runInv_malloc hpages hinv hsound hm hend
  | free p size =>
      simp only [HeapRun.call, Option.some.injEq] at hcall
      subst hcall
      exact runInv_free hinv hsound
  | write p size offset value =>
      simp only [HeapRun.call, Option.some.injEq] at hcall
      subst hcall
      exact runInv_write hinv hsound.1 value hsound.2

theorem runInv_rounding (hn : 0 < n) (hpages : ∀ k, pages k ≠ nullptr) (ha : 24 ≤ a)
    (hreach : RoundingReachable pages a n s) (hend : BelowTop s) : RunInv s := by
  apply hreach.guarded hend
  · rintro s s' ⟨fuel, c, -, hcall⟩
    exact belowTop_back hcall
  · rintro _ ⟨mem, rfl⟩ hfresh
    exact runInv_fresh hn ha mem hfresh
  · rintro s s' hinv hend' ⟨fuel, c, hsound, hcall⟩
    exact runInv_call hpages hinv hsound hcall hend'

theorem runInv (hn : 0 < n) (hpages : ∀ k, pages k ≠ nullptr) (ha : 24 ≤ a)
    (hreach : HeapReachable pages a n s) (hend : BelowTop s) : RunInv s :=
  runInv_rounding hn hpages ha hreach.rounding hend

end Invariant

/-! ## Two runs, evaluated -/

def freshPages : Nat → Nat := fun k => 0x1000 * (k + 1)

/-- The heap where the kernel puts it, through a split, a growth and a merge. -/
def kernelHeapCalls : List HeapCall :=
  [.malloc 100, .malloc 5000, .write 0x100000000020 100 99 7, .malloc 24,
    .free 0x100000000020 100]

theorem kernelHeap_run :
    ∃ s, HeapReachable freshPages 0x100000000000 1 s ∧ BelowTop s ∧
      NullWriteOutside s.heap := by
  have hrun : (HeapRun.calls freshPages 4 kernelHeapCalls
      (freshHeap freshPages 0x100000000000 1 fun _ => 0)).map
        (fun s => (s.heap.heapStart, s.heap.mapped.length)) =
      some (0x100000000000, 3) := by
    decide +kernel
  obtain ⟨s, hcalls, hregion⟩ := Option.map_eq_some_iff.mp hrun
  obtain ⟨hstart, hmapped⟩ := Prod.mk.inj hregion
  refine ⟨s, HeapReachable.calls (Reachable.start ⟨_, rfl⟩) hcalls, ?_, ?_⟩
  · simp only [BelowTop, hstart, hmapped]
    norm_num
  · left
    rw [hstart]
    norm_num

/--
A heap at address 0, where the store of `Split` through a null `Next` lands in
the first header and leaves a stale back link there.
-/
def nullHeapCalls : List HeapCall :=
  [.malloc 16, .malloc 64, .malloc 3920, .malloc 4064, .malloc 4064,
    .free 4128 4064, .malloc 16, .malloc 4016, .free 80 64, .free 176 3920,
    .malloc 48, .malloc 3936, .free 4128 16, .free 32 16, .malloc 3936]

theorem nullHeap_run :
    ∃ s, HeapReachable freshPages 0 1 s ∧ BelowTop s ∧
      s.live = [(160, 3936), (160, 3936), (80, 48), (4176, 4016), (8224, 4064)] := by
  have hrun : (HeapRun.calls freshPages 12 nullHeapCalls
      (freshHeap freshPages 0 1 fun _ => 0)).map
        (fun s => (s.heap.heapStart, s.heap.mapped.length, s.live)) =
      some (0, 3, [(160, 3936), (160, 3936), (80, 48), (4176, 4016), (8224, 4064)]) := by
    decide +kernel
  obtain ⟨s, hcalls, hregion⟩ := Option.map_eq_some_iff.mp hrun
  obtain ⟨hstart, hrest⟩ := Prod.mk.inj hregion
  obtain ⟨hmapped, hlive⟩ := Prod.mk.inj hrest
  refine ⟨s, HeapReachable.calls (Reachable.start ⟨_, rfl⟩) hcalls, ?_, hlive⟩
  simp only [BelowTop, hstart, hmapped]
  norm_num

/-! ## The chain tiles the heap -/

/-- The headers `hs`, followed from `heapStart` by `Next`, tile the heap. -/
structure ChainTiles (s : Heap) (hs : List Nat) : Prop where
  head : hs.head? = some s.heapStart
  last : hs.getLast? = some s.lastHdr
  linked : hs.IsChain fun h h' =>
    next s.mem h = h' ∧ prev s.mem h' = h ∧ h' = h + headerSize + length s.mem h
  nonnull : ∀ h ∈ hs, h ≠ nullptr
  first : prev s.mem s.heapStart = nullptr
  ended : next s.mem s.lastHdr = nullptr
  stop : s.lastHdr + headerSize + length s.mem s.lastHdr = s.heapEnd

section Chain

variable {pages : Nat → Nat} {a n lo hi p : Nat} {s : HeapRun} {heap : Heap}
  {m : ByteMemory} {bs : List Block}

private theorem chain_linked
    (hlinked : LinkedSegment Block.addr (Stored m) p nullptr bs)
    (htiles : Tiles lo hi bs) :
    (bs.map Block.addr).IsChain fun h h' =>
      next m h = h' ∧ prev m h' = h ∧ h' = h + headerSize + length m h := by
  induction bs generalizing p lo with
  | nil => exact List.isChain_nil
  | cons b bs ih =>
      cases bs with
      | nil => exact List.isChain_singleton _
      | cons c rest =>
          obtain ⟨hb, hrest⟩ := hlinked
          obtain ⟨-, hrestTiles⟩ := htiles
          refine List.isChain_cons_cons.mpr ⟨⟨hb.next, hrest.1.prev, ?_⟩,
            ih hrest hrestTiles⟩
          rw [hb.length]
          exact hrestTiles.1

theorem chainTiles_of_heapInv (h : HeapInv heap bs) :
    ChainTiles heap (bs.map Block.addr) := by
  have hrep := h.represents
  have htiles := h.wellFormed.tiles
  obtain ⟨init, z, rfl⟩ := h.wellFormed.exists_last
  obtain ⟨mid, -, hz, hstop⟩ := tiles_append.mp htiles
  have hlastHdr : heap.lastHdr = z.addr := by
    rw [← hrep.last]
    simp
  have hzStored := hrep.split.2.1
  constructor
  · have hstart := hrep.start
    cases init with
    | nil => exact congrArg some hstart
    | cons b init => exact congrArg some hstart
  · simp [hlastHdr]
  · exact chain_linked hrep.linked htiles
  · intro x hx
    exact Nat.ne_of_gt (hrep.placed.positive x hx)
  · have hstart := hrep.start
    rw [← hstart]
    cases init with
    | nil => exact hrep.linked.1.prev
    | cons b init => exact hrep.linked.1.prev
  · rw [hlastHdr]
    exact hzStored.next
  · rw [hlastHdr, hzStored.length]
    exact hstop

/--
In every state of every run the blocks on the chain tile the heap, linked both
ways, with `LastHdr` the last of them.
-/
theorem chain_tiles_heap (hn : 0 < n) (hpages : ∀ k, pages k ≠ nullptr)
    (hreach : HeapReachable pages a n s) (hend : BelowTop s)
    (hnull : NullWriteOutside s.heap) : ∃ hs, ChainTiles s.heap hs := by
  obtain ⟨bs, hheap, -⟩ := runInv hn hpages (low_of_nullWrite hn hreach hend hnull)
    hreach hend
  exact ⟨_, chainTiles_of_heapInv hheap⟩

theorem chain_tiles_heap_kernel :
    ∃ s hs, HeapReachable freshPages 0x100000000000 1 s ∧ ChainTiles s.heap hs := by
  obtain ⟨s, hreach, hend, hnull⟩ := kernelHeap_run
  obtain ⟨hs, htiles⟩ := chain_tiles_heap Nat.one_pos (by simp [freshPages, nullptr])
    hreach hend hnull
  exact ⟨s, hs, hreach, htiles⟩

theorem Represents.stored (h : Represents heap bs) {b : Block} (hb : b ∈ bs) :
    ∃ prev next, Stored heap.mem b prev next := by
  obtain ⟨before, after, rfl⟩ := List.append_of_mem hb
  exact ⟨_, _, h.split.2.1⟩

/--
No two neighbours on the chain are both free, so once nothing is live the heap
is back to the one free block it started as.
-/
theorem no_free_neighbours (hn : 0 < n) (hpages : ∀ k, pages k ≠ nullptr)
    (hreach : HeapReachable pages a n s) (hend : BelowTop s)
    (hnull : NullWriteOutside s.heap) :
    ∃ hs, ChainTiles s.heap hs ∧
      (hs.IsChain fun h h' =>
        ¬ (free s.heap.mem h = true ∧ free s.heap.mem h' = true)) ∧
      (s.live = [] →
        hs = [s.heap.heapStart] ∧ free s.heap.mem s.heap.heapStart = true ∧
          length s.heap.mem s.heap.heapStart =
            s.heap.heapEnd - s.heap.heapStart - headerSize) := by
  obtain ⟨bs, hheap, htracks⟩ :=
    runInv hn hpages (low_of_nullWrite hn hreach hend hnull) hreach hend
  have hflag : ∀ b ∈ bs, free s.heap.mem b.addr = b.free := by
    intro b hb
    obtain ⟨prev, next, hstored⟩ := hheap.represents.stored hb
    exact hstored.free
  refine ⟨_, chainTiles_of_heapInv hheap, ?_, ?_⟩
  · rw [List.isChain_map]
    refine List.IsChain.imp_of_mem_imp ?_ hheap.wellFormed.coalesced
    intro b c hb hc hpair
    rw [hflag b hb, hflag c hc]
    rcases hpair with hused | hused <;> simp [hused]
  · intro hlive
    have hfree : ∀ b ∈ bs, b.free = true := by
      intro b hb
      by_contra hused
      obtain ⟨e, he, -⟩ := htracks.accounted b hb (by simpa using hused)
      rw [hlive] at he
      contradiction
    have hsingle := hheap.wellFormed.eq_singleton hfree
    obtain ⟨prev, next, hstored⟩ := hheap.represents.stored
      (hsingle ▸ List.mem_cons_self)
    exact ⟨by rw [hsingle]; rfl, hstored.free, hstored.length⟩

theorem no_free_neighbours_kernel :
    ∃ s hs, HeapReachable freshPages 0x100000000000 1 s ∧ ChainTiles s.heap hs ∧
      hs.IsChain fun h h' =>
        ¬ (free s.heap.mem h = true ∧ free s.heap.mem h' = true) := by
  obtain ⟨s, hreach, hend, hnull⟩ := kernelHeap_run
  obtain ⟨hs, htiles, hpairs, -⟩ := no_free_neighbours Nat.one_pos
    (by simp [freshPages, nullptr]) hreach hend hnull
  exact ⟨s, hs, hreach, htiles, hpairs⟩

end Chain

/-! ## Who owns what -/

inductive OnChain (s : Heap) : Nat → Prop where
  | start : OnChain s s.heapStart
  | next {h : Nat} (hon : OnChain s h) (hnext : next s.mem h ≠ nullptr) :
      OnChain s (next s.mem h)

def RangeApart (lo hi lo' hi' : Nat) : Prop := hi ≤ lo' ∨ hi' ≤ lo

def extentEnd (e : Nat × Nat) : Nat := e.1 + Heap.roundUp 0x10 e.2

/-- Every live allocation has its memory to itself. -/
structure Owned (s : HeapRun) : Prop where
  disjoint : s.live.Pairwise fun e e' =>
    RangeApart e.1 (extentEnd e) e'.1 (extentEnd e')
  inside : ∀ e ∈ s.live, s.heap.heapStart ≤ e.1 ∧ extentEnd e ≤ s.heap.heapEnd
  headers : ∀ e ∈ s.live, ∀ h, OnChain s.heap h →
    RangeApart e.1 (extentEnd e) h (h + headerSize)
  aligned : ∀ e ∈ s.live, 0x10 ∣ e.1
  unavailable : ∀ e ∈ s.live, ∀ h, OnChain s.heap h → free s.heap.mem h = true →
    RangeApart e.1 (extentEnd e) (h + headerSize)
      (h + headerSize + length s.heap.mem h)

section Ownership

variable {pages : Nat → Nat} {a n lo hi : Nat} {s : HeapRun} {heap : Heap}
  {bs : List Block}

theorem OnChain.mem {h : Nat} (hon : OnChain heap h) (hrep : Represents heap bs)
    (hne : bs ≠ []) : ∃ b ∈ bs, b.addr = h := by
  induction hon with
  | start =>
      have hstart := hrep.start
      cases bs with
      | nil => contradiction
      | cons b bs => exact ⟨b, List.mem_cons_self, hstart⟩
  | next _ hnext ih =>
      obtain ⟨b, hb, rfl⟩ := ih
      obtain ⟨before, after, rfl⟩ := List.append_of_mem hb
      rw [hrep.split.2.1.next] at hnext ⊢
      cases after with
      | nil => contradiction
      | cons c rest => exact ⟨c, by simp, rfl⟩

theorem Tiles.dvd_addr (h : Tiles lo hi bs) (hlo : 16 ∣ lo)
    (hgranular : ∀ b ∈ bs, 16 ∣ b.length) : ∀ b ∈ bs, 16 ∣ b.addr := by
  induction bs generalizing lo with
  | nil => simp
  | cons c bs ih =>
      obtain ⟨rfl, hrest⟩ := h
      intro b hb
      rcases List.mem_cons.mp hb with rfl | hmem
      · exact hlo
      · have hc := hgranular c (by simp)
        refine ih hrest ?_ (fun d hd => hgranular d (by simp [hd])) b hmem
        simp only [Block.stop, headerSize]
        omega

theorem owned_of_runInv (hinv : RunInv s) (ha : 0x10 ∣ s.heap.heapStart) :
    Owned s := by
  obtain ⟨bs, hheap, htracks⟩ := hinv
  have htiles := hheap.wellFormed.tiles
  have hblock : ∀ e ∈ s.live, ∃ b ∈ bs, b.free = false ∧ e.1 = b.addr + headerSize ∧
      extentEnd e ≤ b.stop := by
    intro e he
    obtain ⟨b, hb, hused, hpayload, -, -, hfits⟩ := htracks.owned e he
    refine ⟨b, hb, hused, hpayload.symm, ?_⟩
    rw [extentEnd, ← hpayload]
    simp only [Block.payload, Block.stop]
    omega
  constructor
  · refine (List.pairwise_map.mp htracks.distinct).imp_of_mem ?_
    intro e e' he he' hne
    obtain ⟨b, hb, -, hp, hfits⟩ := hblock e he
    obtain ⟨b', hb', -, hp', hfits'⟩ := hblock e' he'
    rcases htiles.eq_or_apart hb hb' with rfl | hapart | hapart
    · exact absurd (hp.trans hp'.symm) hne
    · exact Or.inl (by omega)
    · exact Or.inr (by omega)
  · intro e he
    obtain ⟨b, hb, -, hp, hfits⟩ := hblock e he
    have hbound := htiles.bounds hb
    omega
  · intro e he h hon
    obtain ⟨b, hb, -, hp, hfits⟩ := hblock e he
    obtain ⟨c, hc, rfl⟩ := hon.mem hheap.represents hheap.wellFormed.nonempty
    rcases htiles.eq_or_apart hb hc with rfl | hapart | hapart
    · exact Or.inr (by omega)
    · exact Or.inl (by omega)
    · simp only [Block.stop] at hapart
      exact Or.inr (by omega)
  · intro e he
    obtain ⟨b, hb, -, hp, -⟩ := hblock e he
    have hdvd := htiles.dvd_addr ha hheap.wellFormed.granular b hb
    simp only [headerSize] at hp
    omega
  · intro e he h hon hfree
    obtain ⟨b, hb, hused, hp, hfits⟩ := hblock e he
    obtain ⟨c, hc, rfl⟩ := hon.mem hheap.represents hheap.wellFormed.nonempty
    obtain ⟨prev, next, hstored⟩ := hheap.represents.stored hc
    rw [hstored.length]
    rcases htiles.eq_or_apart hb hc with rfl | hapart | hapart
    · rw [hstored.free, hused] at hfree
      contradiction
    · exact Or.inl (by omega)
    · exact Or.inr (by simpa only [Block.stop, hp] using Nat.le_add_right_of_le hapart)

theorem not_owned_of_twice {e : Nat × Nat} {rest : List (Nat × Nat)}
    (hlive : s.live = e :: e :: rest) (hpos : 0 < Heap.roundUp 0x10 e.2) : ¬ Owned s := by
  intro howned
  have hpair := howned.disjoint
  rw [hlive, List.pairwise_cons] at hpair
  rcases hpair.1 e List.mem_cons_self with hle | hle <;>
  · simp only [extentEnd] at hle
    omega

/--
A page-aligned heap gives every live allocation its memory to itself, in every
state of every run, exactly when it does not start at address 0.
-/
theorem allocations_owned_iff (ha : 0x1000 ∣ a) :
    (∀ n pages s, 0 < n → (∀ k, pages k ≠ nullptr) → HeapReachable pages a n s →
      BelowTop s → Owned s) ↔ a ≠ 0 := by
  constructor
  · rintro hall rfl
    obtain ⟨s, hreach, hend, hlive⟩ := nullHeap_run
    exact not_owned_of_twice hlive (by decide)
      (hall 1 freshPages s Nat.one_pos (by simp [freshPages, nullptr]) hreach hend)
  · intro hpos n pages s hn hpages hreach hend
    have hstart := (regionInv hreach).start
    exact owned_of_runInv (runInv hn hpages (by omega) hreach hend) (by omega)

theorem allocations_owned_kernel :
    ∃ s, HeapReachable freshPages 0x100000000000 1 s ∧ Owned s := by
  obtain ⟨s, hreach, hend, -⟩ := kernelHeap_run
  exact ⟨s, hreach, (allocations_owned_iff (by decide)).mpr (by decide) 1 freshPages s
    Nat.one_pos (by simp [freshPages, nullptr]) hreach hend⟩

theorem null_heap_overlap :
    ∃ s, HeapReachable freshPages 0 1 s ∧ BelowTop s ∧ ¬ Owned s := by
  obtain ⟨s, hreach, hend, hlive⟩ := nullHeap_run
  exact ⟨s, hreach, hend, not_owned_of_twice hlive (by decide)⟩

end Ownership

end UnifiedOS.Memory
