import UnifiedOS.Memory.MallocSearch

/-!
# The stores of `Split`

`Split` stores `Next->Prev` without looking whether there is a `Next`.  The
calls that one `malloc` makes are read off its searches, and the condition
under which each of them meets a header of the chain is computed from the heap
before the call.
-/

namespace UnifiedOS.Memory

open UnifiedOS.Foundation
open HeapBlockHeader

/-! ## The calls of `Split` -/

namespace Heap

/-- The block on which the search from `current` on calls `Split`, if it does. -/
def splitCall (s : Heap) (size : Nat) : Nat → Nat → Option Nat
  | 0, _ => none
  | fuel + 1, current =>
      if HeapBlockHeader.free s.mem current ∧ length s.mem current > size then some current
      else if HeapBlockHeader.free s.mem current ∧ length s.mem current = size then none
      else if next s.mem current = nullptr then none
      else splitCall s size fuel (next s.mem current)

def SplitPasses (s : Heap) (this splitLength : Nat) : Prop :=
  ¬ splitLength < 0x10 ∧
    ¬ toInt64 (sub64 (sub64 (length s.mem this) splitLength) headerSize) < 0x10

/-- Every `Split` of the search that gets past its checks has a `Next` on the chain. -/
def SplitsInside (s : Heap) (size : Nat) : Prop :=
  ∀ fuel this, s.splitCall size fuel s.heapStart = some this → s.SplitPasses this size →
    next s.mem this ≠ nullptr ∧ OnChain s (next s.mem this)

end Heap

/-- No call of `Split` that `malloc(size)` makes stores through a null `Next`. -/
def SplitSafe (pages : Nat → Nat) (s : Heap) (size : Nat) : Prop :=
  ∀ fuel searched, Heap.searches pages fuel s size = some searched →
    ∀ t ∈ searched, t.SplitsInside (Heap.roundUp 0x10 size)

section Calls

variable {s t : Heap} {pages : Nat → Nat} {size fuel fuel' current this : Nat} {b : Block}
  {bs before skipped after : List Block}

theorem splitPasses_iff (h : Represents s (before ++ b :: after)) (hmin : 0x10 ≤ size)
    (hfits : size ≤ b.length) : s.SplitPasses b.addr size ↔ Splits size b := by
  have hlength : b.length < 2 ^ 64 := by
    rw [← h.split.2.1.length]
    exact s.mem.load_word_lt b.addr
  unfold Heap.SplitPasses
  rw [h.split.2.1.length, toInt64_lt_sixteen (sub64_lt _ _)]
  simp only [Splits, sub64, headerSize]
  omega

theorem splitCall_fits (hon : OnChain s current)
    (hcall : s.splitCall size fuel current = some this) : Fits s size this := by
  induction fuel generalizing current with
  | zero => simp [Heap.splitCall] at hcall
  | succ fuel ih =>
      unfold Heap.splitCall at hcall
      split at hcall
      · rename_i hlarger
        obtain rfl := Option.some.inj hcall
        exact ⟨hon, hlarger.1, Nat.le_of_lt hlarger.2⟩
      · split at hcall
        · contradiction
        · split at hcall
          · contradiction
          · rename_i hend
            exact ih (OnChain.next hon hend) hcall

theorem Represents.first_ne_nullptr (h : Represents s (before ++ bs)) (hne : bs ≠ []) :
    LinkedSegment.first Block.addr nullptr bs ≠ nullptr := by
  cases bs with
  | nil => contradiction
  | cons b bs => exact Nat.ne_of_gt (h.positive (by simp : b ∈ before ++ b :: bs))

theorem splitCall_eq (h : Represents s (before ++ (skipped ++ b :: after)))
    (hskip : ∀ c ∈ skipped, ¬ (c.free = true ∧ size ≤ c.length)) (hfree : b.free = true)
    (hfits : size ≤ b.length) :
    s.splitCall size fuel
        (LinkedSegment.first Block.addr nullptr (skipped ++ b :: after)) =
      if skipped.length < fuel ∧ size < b.length then some b.addr else none := by
  induction skipped generalizing before fuel with
  | nil =>
      have hb := h.split.2.1
      cases fuel with
      | zero => simp [Heap.splitCall]
      | succ fuel =>
          unfold Heap.splitCall
          rw [List.nil_append, LinkedSegment.first_cons, hb.free, hb.length]
          rcases Nat.lt_or_eq_of_le hfits with hlt | heq
          · simp [hfree, hlt]
          · simp [hfree, heq]
  | cons c skipped ih =>
      rw [List.cons_append] at h ⊢
      have hc := h.split.2.1
      have hmiss := hskip c List.mem_cons_self
      have hrest : Represents s ((before ++ [c]) ++ (skipped ++ b :: after)) := by
        simpa using h
      cases fuel with
      | zero => simp [Heap.splitCall]
      | succ fuel =>
          unfold Heap.splitCall
          rw [LinkedSegment.first_cons, hc.free, hc.length, hc.next,
            if_neg (fun hlarger => hmiss ⟨hlarger.1, Nat.le_of_lt hlarger.2⟩),
            if_neg (fun hexact => hmiss ⟨hexact.1, Nat.le_of_eq hexact.2.symm⟩),
            if_neg (hrest.first_ne_nullptr (by simp)),
            ih hrest (fun d hd => hskip d (List.mem_cons_of_mem _ hd))]
          simp

/-- The one `Split` of a search is sound unless it is of the last block. -/
theorem splitsInside_iff (h : HeapInv s (skipped ++ b :: after)) (hmin : 0x10 ≤ size)
    (hskip : ∀ c ∈ skipped, ¬ (c.free = true ∧ size ≤ c.length)) (hfree : b.free = true)
    (hfits : size ≤ b.length) : s.SplitsInside size ↔ (Splits size b → after ≠ []) := by
  have hrep : Represents s ([] ++ (skipped ++ b :: after)) := h.represents
  have hcall := fun fuel => @splitCall_eq s size fuel b [] skipped after hrep hskip hfree hfits
  have hstart := h.represents.start
  have hnext := h.represents.split.2.1.next
  constructor
  · rintro hinside hsplit rfl
    have hlarger : size < b.length := by
      have hrest := hsplit.1
      simp only [headerSize] at hrest
      omega
    have hmade := hcall (skipped.length + 1)
    rw [hstart, if_pos ⟨Nat.lt_succ_self _, hlarger⟩] at hmade
    exact (hinside _ _ hmade
      ((splitPasses_iff h.represents hmin hfits).mpr hsplit)).1 hnext
  · intro hlast fuel this hmade hpasses
    rw [← hstart, hcall fuel] at hmade
    split at hmade
    · obtain rfl := Option.some.inj hmade
      have hafter := hlast ((splitPasses_iff h.represents hmin hfits).mp hpasses)
      have hpos : next s.mem b.addr ≠ nullptr := by
        have hrest : Represents s ((skipped ++ [b]) ++ after) := by simpa using h.represents
        rw [hnext]
        exact hrest.first_ne_nullptr hafter
      exact ⟨hpos, OnChain.next (h.represents.onChain (by simp)) hpos⟩
    · contradiction

theorem splitsInside_of_miss (hmiss : ¬ HasFit s size) : s.SplitsInside size := by
  intro fuel this hcall
  exact absurd ⟨this, splitCall_fits OnChain.start hcall⟩ hmiss

theorem searches_mono {searched : List Heap} (hle : fuel ≤ fuel')
    (hs : Heap.searches pages fuel s size = some searched) :
    Heap.searches pages fuel' s size = some searched := by
  induction fuel generalizing fuel' s size searched with
  | zero => simp [Heap.searches] at hs
  | succ fuel ih =>
      obtain ⟨fuel', rfl⟩ := Nat.exists_eq_add_of_le' (Nat.le_trans (Nat.le_add_left 1 _) hle)
      unfold Heap.searches at hs ⊢
      by_cases hzero : Heap.roundUp 0x10 size = 0
      · simpa [hzero] using hs
      · simp only [hzero, if_false] at hs ⊢
        cases hfind : s.findBlock (Heap.roundUp 0x10 size) (fuel + 1) s.heapStart with
        | none => simp [hfind] at hs
        | some found =>
            rw [hfind] at hs
            rw [findBlock_mono hle hfind]
            cases found with
            | some found => exact hs
            | none =>
                obtain ⟨rest, hrest, rfl⟩ := Option.map_eq_some_iff.mp hs
                exact Option.map_eq_some_iff.mpr
                  ⟨rest, ih (Nat.le_of_succ_le_succ hle) hrest, rfl⟩

end Calls

/-! ## When `Next` is there -/

/-- What `size` bytes leave of `len` is a header and 16 bytes, or more. -/
def LeavesBlock (size len : Nat) : Prop :=
  size + headerSize + 0x10 ≤ len ∧ len < 2 ^ 63 + size + headerSize

/--
A request of the rounded `size` does not split the last block: neither the
block first fit takes, nor the last block of the grown heap if nothing fits.
-/
def KeepsNext (s : Heap) (size : Nat) : Prop :=
  (∀ h, FirstFit s size h → next s.mem h = nullptr → ¬ LeavesBlock size (length s.mem h)) ∧
    (¬ HasFit s size → ¬ LeavesBlock size (grownLength s size))

section Runs

variable {pages : Nat → Nat} {a n size p : Nat} {s : HeapRun} {heap scanned s' : Heap}
  {failed : List Heap} {bs blocks : List Block}

theorem splitSafe_iff_scanned
    (h : Allocates pages heap size failed scanned blocks p s') :
    SplitSafe pages heap size ↔ scanned.SplitsInside (Heap.roundUp 0x10 size) := by
  obtain ⟨⟨bound, hanswers⟩, -, hfailing, -⟩ := h
  constructor
  · intro hsafe
    exact hsafe bound _ (hanswers bound (Nat.le_refl _)).2 scanned (by simp)
  · intro hinside fuel searched hsearch t ht
    have hlarge := (hanswers (bound + fuel) (Nat.le_add_right _ _)).2
    rw [searches_mono (Nat.le_add_left fuel bound) hsearch] at hlarge
    obtain rfl := Option.some.inj hlarge
    rcases List.mem_append.mp ht with hmem | hmem
    · exact splitsInside_of_miss (hfailing t hmem)
    · rwa [List.mem_singleton.mp hmem]

theorem keepsNext_of_fit (h : HeapInv heap bs) {bs' : List Block}
    (ha : allocate size bs = some (p, bs')) (hmin : 0x10 ≤ size) :
    heap.SplitsInside size ↔ KeepsNext heap size := by
  have hfit : HasFit heap size := (hasFit_iff h).mpr (by simp [ha])
  obtain ⟨x, hx, hfirst⟩ := firstFit_of_allocate h ha
  obtain ⟨before, b, after, rfl, hfree, hfits, hskip, rfl, -⟩ := allocate_eq_some ha
  obtain rfl : b.addr = x := Nat.add_right_cancel hx
  have hb := h.represents.split.2.1
  have honly : ∀ y, FirstFit heap size y ↔ y = b.addr := by
    intro y
    constructor
    · exact fun hy => Nat.le_antisymm (hy.lowest _ hfirst.fits) (hfirst.lowest _ hy.fits)
    · rintro rfl
      exact hfirst
  have hend : LinkedSegment.first Block.addr nullptr after = nullptr ↔ after = [] := by
    constructor
    · intro hnull
      by_contra hne
      have hrest : Represents heap ((before ++ [b]) ++ after) := by
        simpa using h.represents
      exact hrest.first_ne_nullptr hne hnull
    · rintro rfl
      rfl
  rw [splitsInside_iff h hmin hskip hfree hfits]
  simp only [KeepsNext, honly, forall_eq, hb.next, hb.length, hend, hfit, not_true,
    false_implies, and_true]
  exact ⟨fun hlast hnil hsplit => hlast hsplit hnil, fun hkeeps hsplit hnil => hkeeps hnil hsplit⟩

theorem keepsNext_of_miss {init : List Block} {g : Block} (hmiss : ¬ HasFit heap size)
    (hscanned : HeapInv scanned (init ++ [g])) (hmin : 0x10 ≤ size)
    (hinit : allocate size init = none) (hfree : g.free = true) (hfits : size ≤ g.length)
    (hlength : g.length = grownLength heap size) :
    scanned.SplitsInside size ↔ KeepsNext heap size := by
  have hnone : ∀ y, ¬ FirstFit heap size y := fun y hy => hmiss ⟨y, hy.fits⟩
  rw [splitsInside_iff hscanned hmin (allocate_eq_none.mp hinit) hfree hfits]
  simp only [KeepsNext, hnone, false_implies, implies_true, hmiss, not_false_eq_true,
    true_implies, true_and, ne_eq, not_true, imp_false]
  rw [← hlength]
  rfl

/--
In every state of every run, no `Split` of `malloc(size)` stores through a null
`Next` exactly when the last block is not the one that is split.
-/
theorem split_safe_iff (hn : 0 < n) (hpages : ∀ k, pages k ≠ nullptr) (ha : 24 ≤ a)
    (hreach : RoundingReachable pages a n s) (hsize : size + 0x1000 ≤ 2 ^ 64)
    (hroom : HasRoom s.heap (Heap.roundUp 0x10 size)) :
    SplitSafe pages s.heap size ↔
      (0 < size → KeepsNext s.heap (Heap.roundUp 0x10 size)) := by
  rcases Nat.eq_zero_or_pos size with rfl | hpos
  · refine ⟨fun _ h => absurd h (Nat.lt_irrefl 0), fun _ fuel searched hsearch => ?_⟩
    have hzero : Heap.roundUp 0x10 0 = 0 := by decide
    cases fuel with
    | zero => simp [Heap.searches] at hsearch
    | succ fuel =>
        simp only [Heap.searches, hzero, if_true, Option.some.injEq] at hsearch
        simp [← hsearch]
  · obtain ⟨bs, hheap, -⟩ := runInv_rounding hn hpages ha hreach hroom.belowTop
    obtain ⟨-, hmin, -, -⟩ := roundUp_sixteen hpos hsize
    obtain ⟨failed, scanned, blocks, p, s', hcall, -, hfound⟩ :=
      malloc_allocates hheap hpages hpos hsize hroom
    obtain ⟨bs', halloc, -⟩ := hcall.taken
    rw [splitSafe_iff_scanned hcall, forall_prop_of_true hpos]
    rcases hfound with ⟨-, rfl, rfl⟩ | ⟨hmiss, init, g, rfl, hinit, hfree, hlength⟩
    · exact keepsNext_of_fit hheap halloc hmin
    · have hfits : Heap.roundUp 0x10 size ≤ g.length := by
        rw [allocate_last hinit hfree] at halloc
        split at halloc
        · assumption
        · contradiction
      exact keepsNext_of_miss hmiss hcall.searched hmin hinit hfree hfits hlength

theorem split_safe_kernel :
    SplitSafe freshPages kernelHeap.heap 4064 ↔
      (0 < 4064 → KeepsNext kernelHeap.heap (Heap.roundUp 0x10 4064)) :=
  split_safe_iff Nat.one_pos (by simp [freshPages, nullptr]) (by norm_num)
    kernelHeap_start.1.rounding (by norm_num) (kernelHeap_hasRoom (by decide +kernel))

/-- The first small allocation splits the only block, whose `Next` is null. -/
theorem split_null_next :
    HeapReachable freshPages 0x100000000000 1 kernelHeap ∧
      ¬ SplitSafe freshPages kernelHeap.heap 16 := by
  refine ⟨kernelHeap_start.1, fun hsafe => ?_⟩
  have hround : Heap.roundUp 0x10 16 = 16 := by decide
  have hfind : (kernelHeap.heap.findBlock 16 1 kernelHeap.heap.heapStart).map
      Option.isSome = some true := by
    decide +kernel
  obtain ⟨found, hfind, hsome⟩ := Option.map_eq_some_iff.mp hfind
  obtain ⟨taken, rfl⟩ := Option.isSome_iff_exists.mp hsome
  have hsearch : Heap.searches freshPages 1 kernelHeap.heap 16 = some [kernelHeap.heap] := by
    simp [Heap.searches, hround, hfind]
  have hcall : kernelHeap.heap.splitCall (Heap.roundUp 0x10 16) 1 kernelHeap.heap.heapStart =
      some 0x100000000000 := by
    decide +kernel
  have hpasses : kernelHeap.heap.SplitPasses 0x100000000000 (Heap.roundUp 0x10 16) := by
    unfold Heap.SplitPasses
    decide +kernel
  have hnext : next kernelHeap.heap.mem 0x100000000000 = nullptr := by decide +kernel
  exact (hsafe 1 _ hsearch _ List.mem_cons_self 1 _ hcall hpasses).1 hnext

end Runs

end UnifiedOS.Memory
