import UnifiedOS.Memory.HeapRun

/-!
# The searches of `malloc`

`malloc` searches the chain, and while nothing fits it grows the heap and
searches again.  The growth is computed exactly: a last block that is free
takes the new segment in, any other last block leaves it by itself, 32 bytes
short of the pages asked for, and then a second segment joins the first.  So
the second search after a growth succeeds at the latest.
-/

namespace UnifiedOS.Memory

open UnifiedOS.Foundation
open HeapBlockHeader

/-! ## Fuel -/

section Fuel

variable {s s' : Heap} {pages : Nat → Nat} {size fuel fuel' current : Nat}

theorem findBlock_mono {found : Option (Nat × Heap)} (hle : fuel ≤ fuel')
    (hfound : s.findBlock size fuel current = some found) :
    s.findBlock size fuel' current = some found := by
  induction fuel generalizing fuel' current with
  | zero => simp [Heap.findBlock] at hfound
  | succ fuel ih =>
      obtain ⟨fuel', rfl⟩ := Nat.exists_eq_add_of_le' (Nat.le_trans (Nat.le_add_left 1 _) hle)
      unfold Heap.findBlock at hfound ⊢
      split at hfound
      · rename_i hlarger
        rwa [if_pos hlarger]
      · rename_i hlarger
        rw [if_neg hlarger]
        split at hfound
        · rename_i hexact
          rwa [if_pos hexact]
        · rename_i hexact
          rw [if_neg hexact]
          split at hfound
          · rename_i hend
            rwa [if_pos hend]
          · rename_i hend
            rw [if_neg hend]
            exact ih (Nat.le_of_succ_le_succ hle) hfound

theorem malloc_found {found : Nat × Heap} (hzero : Heap.roundUp 0x10 size ≠ 0)
    (hfind : s.findBlock (Heap.roundUp 0x10 size) (fuel + 1) s.heapStart =
      some (some found)) :
    Heap.malloc pages (fuel + 1) s size = some found := by
  simp [Heap.malloc, hzero, hfind]

theorem malloc_grows (hzero : Heap.roundUp 0x10 size ≠ 0)
    (hfind : s.findBlock (Heap.roundUp 0x10 size) (fuel + 1) s.heapStart = some none) :
    Heap.malloc pages (fuel + 1) s size =
      Heap.malloc pages fuel (s.expandHeap pages (Heap.roundUp 0x10 size))
        (Heap.roundUp 0x10 size) := by
  conv_lhs => unfold Heap.malloc
  simp [hzero, hfind]

theorem malloc_mono {found : Nat × Heap} (hle : fuel ≤ fuel')
    (hm : Heap.malloc pages fuel s size = some found) :
    Heap.malloc pages fuel' s size = some found := by
  induction fuel generalizing fuel' s size with
  | zero => simp [Heap.malloc] at hm
  | succ fuel ih =>
      obtain ⟨fuel', rfl⟩ := Nat.exists_eq_add_of_le' (Nat.le_trans (Nat.le_add_left 1 _) hle)
      obtain ⟨p, s'⟩ := found
      rcases malloc_cases hm with ⟨hzero, rfl, rfl⟩ | ⟨hzero, hfind⟩ | ⟨hzero, hfind, hretry⟩
      · simp [Heap.malloc, hzero]
      · exact malloc_found hzero (findBlock_mono hle hfind)
      · rw [malloc_grows hzero (findBlock_mono hle hfind)]
        exact ih (Nat.le_of_succ_le_succ hle) hretry

end Fuel

/-! ## The heaps searched -/

/--
The heaps that one call of `malloc` searches, in turn.  Between two of them
lies one call of `ExpandHeap`; every search but the last one fails.
-/
def Heap.searches (pages : Nat → Nat) : Nat → Heap → Nat → Option (List Heap)
  | 0, _, _ => none
  | fuel + 1, s, size =>
      let size := roundUp 0x10 size
      if size = 0 then some []
      else
        match findBlock s size (fuel + 1) s.heapStart with
        | none => none
        | some (some _) => some [s]
        | some none => (searches pages fuel (s.expandHeap pages size) size).map (s :: ·)

/--
`malloc` returns `p` and leaves `s'`, once `fuel` is large enough; it searches
the heaps `failed` in vain and then `scanned`.
-/
def Answers (pages : Nat → Nat) (s : Heap) (size p : Nat) (s' : Heap)
    (failed : List Heap) (scanned : Heap) : Prop :=
  ∃ bound, ∀ fuel, bound ≤ fuel →
    Heap.malloc pages fuel s size = some (p, s') ∧
      Heap.searches pages fuel s size = some (failed ++ [scanned])

section Search

variable {s s' scanned : Heap} {pages : Nat → Nat} {size fuel p bound : Nat}
  {failed : List Heap} {b : Block} {bs bs' before after : List Block}

theorem answers_found (hzero : Heap.roundUp 0x10 size ≠ 0)
    (hfind : ∀ fuel, bound ≤ fuel →
      s.findBlock (Heap.roundUp 0x10 size) fuel s.heapStart = some (some (p, s'))) :
    Answers pages s size p s' [] s := by
  refine ⟨bound + 1, ?_⟩
  intro fuel hfuel
  obtain ⟨fuel, rfl⟩ := Nat.exists_eq_add_of_le' (Nat.le_trans (Nat.le_add_left 1 _) hfuel)
  have hfound := hfind (fuel + 1) (Nat.le_of_succ_le hfuel)
  refine ⟨malloc_found hzero hfound, ?_⟩
  simp [Heap.searches, hzero, hfound]

theorem answers_grows (hzero : Heap.roundUp 0x10 size ≠ 0)
    (hfind : ∀ fuel, bound ≤ fuel →
      s.findBlock (Heap.roundUp 0x10 size) fuel s.heapStart = some none)
    (hretry : Answers pages (s.expandHeap pages (Heap.roundUp 0x10 size))
      (Heap.roundUp 0x10 size) p s' failed scanned) :
    Answers pages s size p s' (s :: failed) scanned := by
  obtain ⟨bound', hretry⟩ := hretry
  refine ⟨bound + bound' + 1, ?_⟩
  intro fuel hfuel
  obtain ⟨fuel, rfl⟩ := Nat.exists_eq_add_of_le' (Nat.le_trans (Nat.le_add_left 1 _) hfuel)
  have hfailed := hfind (fuel + 1) (by omega)
  obtain ⟨hm, hsearch⟩ := hretry fuel (by omega)
  refine ⟨(malloc_grows hzero hfailed).trans hm, ?_⟩
  simp [Heap.searches, hzero, hfailed, hsearch]

theorem Answers.eq_of_malloc {q : Nat} {s'' : Heap}
    (h : Answers pages s size p s' failed scanned)
    (hm : Heap.malloc pages fuel s size = some (q, s'')) : q = p ∧ s'' = s' := by
  obtain ⟨bound, h⟩ := h
  have hlarge := (h (bound + fuel) (Nat.le_add_right _ _)).1
  rw [malloc_mono (Nat.le_add_left _ _) hm] at hlarge
  exact Prod.mk.inj (Option.some.inj hlarge)

theorem findBlock_returns (h : Represents s (before ++ after)) (hne : after ≠ [])
    (hfuel : after.length ≤ fuel) :
    ∃ found, s.findBlock size fuel (LinkedSegment.first Block.addr nullptr after) =
      some found := by
  induction after generalizing before fuel with
  | nil => contradiction
  | cons b after ih =>
      obtain ⟨fuel, rfl⟩ := Nat.exists_eq_add_of_le'
        (Nat.le_trans (Nat.succ_le_succ (Nat.zero_le _)) hfuel)
      have hnext := h.split.2.1.next
      unfold Heap.findBlock
      split
      · exact ⟨_, rfl⟩
      · split
        · exact ⟨_, rfl⟩
        · split
          · exact ⟨_, rfl⟩
          · rename_i hend
            rw [LinkedSegment.first_cons, hnext] at hend ⊢
            cases after with
            | nil => simp at hend
            | cons c rest =>
                exact @ih fuel (before ++ [b]) (by simpa using h) (by simp)
                  (Nat.le_of_succ_le_succ hfuel)

theorem search_outcome (h : HeapInv s bs) (hsize : 0x10 ≤ size) (hdvd : 16 ∣ size) :
    (allocate size bs = none ∧
      ∀ fuel, bs.length ≤ fuel → s.findBlock size fuel s.heapStart = some none) ∨
    ∃ p s' bs', allocate size bs = some (p, bs') ∧ HeapInv s' bs' ∧
      ∀ fuel, bs.length ≤ fuel →
        s.findBlock size fuel s.heapStart = some (some (p, s')) := by
  have hrep : Represents s ([] ++ bs) := h.represents
  have hne := h.wellFormed.nonempty
  obtain ⟨found, hfound⟩ := @findBlock_returns s size _ _ _ hrep hne (Nat.le_refl _)
  have hmono : ∀ fuel, bs.length ≤ fuel → s.findBlock size fuel s.heapStart = some found := by
    intro fuel hfuel
    rw [← h.represents.start]
    exact findBlock_mono hfuel hfound
  rcases findBlock_refines hrep h.wellFormed.tiles h.low h.bounded hsize hne hfound with
    ⟨rfl, hnone⟩ | ⟨p, s', bs', rfl, halloc, hrep'⟩
  · exact Or.inl ⟨hnone, hmono⟩
  · have hsame := sameRegion_findBlock (hmono _ (Nat.le_refl _))
    exact Or.inr ⟨p, s', bs', halloc,
      h.of_sameRegion hsame hrep' (allocate_wellFormed h.wellFormed hdvd halloc), hmono⟩

end Search

/-! ## What is on the chain -/

structure Fits (s : Heap) (size h : Nat) : Prop where
  on : OnChain s h
  free : free s.mem h = true
  length : size ≤ length s.mem h

def HasFit (s : Heap) (size : Nat) : Prop := ∃ h, Fits s size h

/-- The lowest-addressed free block that is large enough. -/
structure FirstFit (s : Heap) (size h : Nat) : Prop where
  fits : Fits s size h
  lowest : ∀ h', Fits s size h' → h ≤ h'

structure SameChain (s s' : Heap) : Prop where
  start : s'.heapStart = s.heapStart
  last : s'.lastHdr = s.lastHdr
  on : ∀ h, OnChain s' h ↔ OnChain s h
  headers : ∀ h, OnChain s h → readHeader s'.mem h = readHeader s.mem h

section OnChain

variable {s s' : Heap} {size p : Nat} {b : Block} {bs bs' : List Block}

theorem Represents.onChain (h : Represents s bs) (hb : b ∈ bs) : OnChain s b.addr := by
  obtain ⟨before, after, rfl⟩ := List.append_of_mem hb
  clear hb
  induction before using List.reverseRecOn generalizing b after with
  | nil =>
      have hstart := h.start
      rw [List.nil_append, LinkedSegment.first_cons] at hstart
      rw [hstart]
      exact OnChain.start
  | append_singleton before a ih =>
      have h' : Represents s (before ++ a :: (b :: after)) := by simpa using h
      have hnext := h'.split.2.1.next
      rw [LinkedSegment.first_cons] at hnext
      have hpos : b.addr ≠ nullptr := Nat.ne_of_gt (h'.positive (by simp))
      rw [← hnext] at hpos ⊢
      exact OnChain.next (ih (b :: after) h') hpos

theorem fits_iff (h : HeapInv s bs) {x : Nat} :
    Fits s size x ↔ ∃ b ∈ bs, b.addr = x ∧ b.free = true ∧ size ≤ b.length := by
  constructor
  · rintro ⟨hon, hfree, hlength⟩
    obtain ⟨b, hb, rfl⟩ := hon.mem h.represents h.wellFormed.nonempty
    obtain ⟨prev, next, hstored⟩ := h.represents.stored hb
    rw [hstored.free] at hfree
    rw [hstored.length] at hlength
    exact ⟨b, hb, rfl, hfree, hlength⟩
  · rintro ⟨b, hb, rfl, hfree, hlength⟩
    obtain ⟨prev, next, hstored⟩ := h.represents.stored hb
    exact ⟨h.represents.onChain hb, hstored.free.trans hfree, hstored.length ▸ hlength⟩

theorem hasFit_iff (h : HeapInv s bs) : HasFit s size ↔ allocate size bs ≠ none := by
  simp only [HasFit, fits_iff h, ne_eq, allocate_eq_none, not_forall, not_not, exists_prop]
  constructor
  · rintro ⟨_, b, hb, -, hfit⟩
    exact ⟨b, hb, hfit⟩
  · rintro ⟨b, hb, hfit⟩
    exact ⟨b.addr, b, hb, rfl, hfit⟩

theorem firstFit_of_allocate (h : HeapInv s bs) (ha : allocate size bs = some (p, bs')) :
    ∃ x, p = x + headerSize ∧ FirstFit s size x := by
  obtain ⟨before, b, after, rfl, hfree, hfits, hskip, rfl, -⟩ := allocate_eq_some ha
  refine ⟨b.addr, rfl, (fits_iff h).mpr ⟨b, by simp, rfl, hfree, hfits⟩, ?_⟩
  intro x hx
  obtain ⟨c, hc, rfl, hcfit⟩ := (fits_iff h).mp hx
  obtain ⟨mid, -, hb, hafter⟩ := tiles_append.mp h.wellFormed.tiles
  rcases List.mem_append.mp hc with hmem | hmem
  · exact absurd hcfit (hskip c hmem)
  · rcases List.mem_cons.mp hmem with rfl | hmem
    · exact Nat.le_refl _
    · have hbound := (hafter.bounds hmem).1
      simp only [Block.stop] at hbound
      omega

theorem length_of_allocate (h : HeapInv s bs) (h' : HeapInv s' bs')
    (ha : allocate size bs = some (p, bs')) :
    size ≤ length s'.mem (p - headerSize) := by
  obtain ⟨d, hd, -, rfl, hlength, -, -⟩ := mem_allocate_used h.wellFormed ha
  obtain ⟨prev, next, hstored⟩ := h'.represents.stored hd
  have haddr : d.payload - headerSize = d.addr := Nat.add_sub_cancel _ _
  rwa [haddr, hstored.length]

private theorem onChain_of_represents (h : Represents s bs) (h' : Represents s' bs)
    (hne : bs ≠ []) {x : Nat} (hon : OnChain s' x) : OnChain s x := by
  obtain ⟨b, hb, rfl⟩ := hon.mem h' hne
  exact h.onChain hb

theorem Represents.sameChain (h : Represents s bs) (h' : Represents s' bs)
    (hne : bs ≠ []) : SameChain s s' := by
  constructor
  · exact h'.start.symm.trans h.start
  · exact h'.last.symm.trans h.last
  · exact fun x => ⟨onChain_of_represents h h' hne, onChain_of_represents h' h hne⟩
  · intro x hon
    obtain ⟨b, hb, rfl⟩ := hon.mem h hne
    obtain ⟨before, after, rfl⟩ := List.append_of_mem hb
    exact h'.split.2.1.trans h.split.2.1.symm

end OnChain

/-! ## Freeing what was just allocated -/

section Undo

variable {pages : Nat → Nat} {a n size : Nat} {s : HeapRun}

theorem roundUp_sixteen (hpos : 0 < size) (hsize : size + 0x1000 ≤ 2 ^ 64) :
    16 ∣ Heap.roundUp 0x10 size ∧ 0x10 ≤ Heap.roundUp 0x10 size ∧
      Heap.roundUp 0x10 size + 0x1000 ≤ 2 ^ 64 ∧
      Heap.roundUp 0x10 (Heap.roundUp 0x10 size) = Heap.roundUp 0x10 size := by
  obtain ⟨hdvd, hle, hlt⟩ := Heap.roundUp_spec (by decide : 0 < 0x10)
    (by omega : size + 0x10 ≤ 2 ^ 64)
  exact ⟨hdvd, by omega, by omega, Heap.roundUp_of_dvd hdvd⟩

/--
When some free block is large enough, `malloc` returns, and freeing the pointer
it returned leaves the chain as it was before the call.
-/
theorem malloc_free_restores (hn : 0 < n) (hpages : ∀ k, pages k ≠ nullptr)
    (hreach : HeapReachable pages a n s) (hend : BelowTop s)
    (hnull : NullWriteOutside s.heap) (hpos : 0 < size) (hsize : size < 2 ^ 40)
    (hfit : HasFit s.heap (Heap.roundUp 0x10 size)) :
    (∃ fuel p s', Heap.malloc pages fuel s.heap size = some (p, s')) ∧
      ∀ fuel p s', Heap.malloc pages fuel s.heap size = some (p, s') →
        SameChain s.heap (s'.free p) := by
  obtain ⟨bs, hheap, -⟩ :=
    runInv hn hpages (low_of_nullWrite hn hreach hend hnull) hreach hend
  obtain ⟨hdvd, hmin, -, -⟩ := roundUp_sixteen hpos (by omega)
  rcases search_outcome hheap hmin hdvd with
    ⟨hnone, -⟩ | ⟨p, s', bs', halloc, hheap', hfind⟩
  · exact absurd hnone ((hasFit_iff hheap).mp hfit)
  · have hanswers : Answers pages s.heap size p s' [] s.heap :=
      answers_found (by omega) hfind
    constructor
    · obtain ⟨bound, hanswers⟩ := hanswers
      exact ⟨bound, p, s', (hanswers bound (Nat.le_refl _)).1⟩
    · intro fuel q s'' hm
      obtain ⟨rfl, rfl⟩ := hanswers.eq_of_malloc hm
      obtain ⟨d, hd, -, rfl, -⟩ := mem_allocate_used hheap.wellFormed halloc
      have hfreed := (heapInv_free hheap' hd).represents
      rw [release_allocate hheap.wellFormed halloc] at hfreed
      exact hheap.represents.sameChain hfreed hheap.wellFormed.nonempty

def kernelHeap : HeapRun := freshHeap freshPages 0x100000000000 1 fun _ => 0

theorem kernelHeap_start :
    HeapReachable freshPages 0x100000000000 1 kernelHeap ∧ BelowTop kernelHeap ∧
      NullWriteOutside kernelHeap.heap ∧ HasFit kernelHeap.heap 112 := by
  have hmapped : kernelHeap.heap.mapped.length = 1 := by decide +kernel
  refine ⟨Reachable.start ⟨_, rfl⟩, ?_, Or.inl ?_, ?_⟩
  · change 0x100000000000 + 0x1000 * kernelHeap.heap.mapped.length < 2 ^ 64
    rw [hmapped]
    norm_num
  · change 24 ≤ 0x100000000000
    norm_num
  · exact ⟨_, OnChain.start, by decide +kernel, by decide +kernel⟩

theorem malloc_free_restores_kernel :
    ∃ fuel p s', Heap.malloc freshPages fuel kernelHeap.heap 100 = some (p, s') ∧
      SameChain kernelHeap.heap (s'.free p) := by
  obtain ⟨hreach, hend, hnull, hfit⟩ := kernelHeap_start
  obtain ⟨⟨fuel, p, s', hm⟩, hsame⟩ := malloc_free_restores Nat.one_pos
    (by simp [freshPages, nullptr]) hreach hend hnull (by decide : 0 < 100) (by decide) hfit
  exact ⟨fuel, p, s', hm, hsame fuel p s' hm⟩

end Undo

/-! ## How much the heap grows -/

open scoped Classical in
/-- The calls of `ExpandHeap` that a request of the rounded `size` takes. -/
noncomputable def expansionsNeeded (s : Heap) (size : Nat) : Nat :=
  if HasFit s size then 0
  else if free s.mem s.lastHdr = true ∨ size + headerSize ≤ Heap.roundUp 0x1000 size then 1
  else 2

def grownLength (s : Heap) (size : Nat) : Nat :=
  let total := Heap.roundUp 0x1000 size
  if free s.mem s.lastHdr = true then length s.mem s.lastHdr + total
  else if size + headerSize ≤ total then total - headerSize
  else 2 * total - headerSize

def HasRoom (s : Heap) (size : Nat) : Prop :=
  s.heapStart + 0x1000 * s.mapped.length +
    expansionsNeeded s size * Heap.roundUp 0x1000 size < 2 ^ 64

section Growth

variable {s s' scanned : Heap} {pages : Nat → Nat} {size p : Nat} {z : Block}
  {init bs : List Block}

theorem expansionsNeeded_le (s : Heap) (size : Nat) : expansionsNeeded s size ≤ 2 := by
  unfold expansionsNeeded
  split
  · exact Nat.zero_le _
  · split <;> omega

theorem HeapInv.lastHdr (h : HeapInv s (init ++ [z])) :
    free s.mem s.lastHdr = z.free ∧ length s.mem s.lastHdr = z.length ∧
      next s.mem s.lastHdr = nullptr := by
  have hlast := h.represents.last
  have hz := h.represents.split.2.1
  rw [LinkedSegment.last_append, LinkedSegment.last_cons, LinkedSegment.last_nil] at hlast
  rw [← hlast]
  exact ⟨hz.free, hz.length, hz.next⟩

theorem roundUp_page_of_pos (hpos : 0 < size) (hsize : size + 0x1000 ≤ 2 ^ 64) :
    0x1000 ≤ Heap.roundUp 0x1000 size ∧ size ≤ Heap.roundUp 0x1000 size ∧
      Heap.roundUp 0x1000 size < size + 0x1000 := by
  obtain ⟨⟨k, hk⟩, hle, hlt⟩ := Heap.roundUp_spec (by decide : 0 < 0x1000) hsize
  omega

theorem grow_once (h : HeapInv s (init ++ [z])) (hpages : ∀ k, pages k ≠ nullptr)
    (hpos : 0 < size) (hsize : size + 0x1000 ≤ 2 ^ 64)
    (hroom : s.heapEnd + Heap.roundUp 0x1000 size < 2 ^ 64)
    (hnone : allocate size (init ++ [z]) = none) :
    ∃ init' g, HeapInv (s.expandHeap pages size) (init' ++ [g]) ∧
      (s.expandHeap pages size).heapEnd = s.heapEnd + Heap.roundUp 0x1000 size ∧
      allocate size init' = none ∧ g.free = true ∧
      g.length = (if z.free = true then z.length + Heap.roundUp 0x1000 size
        else Heap.roundUp 0x1000 size - headerSize) := by
  obtain ⟨hpage, -, -⟩ := roundUp_page_of_pos hpos hsize
  obtain ⟨hgrown, hend⟩ := heapInv_expandHeap h hpages hpos hsize hroom
  have hcoalesced := h.wellFormed.coalesced
  by_cases hfree : z.free = true
  · rw [grow_free hcoalesced hfree rfl] at hgrown
    refine ⟨init, z.merge (newSegment s size), hgrown, hend, ?_, hfree, ?_⟩
    · rw [allocate_eq_none] at hnone ⊢
      exact fun b hb => hnone b (List.mem_append_left _ hb)
    · simp only [Block.merge, newSegment, headerSize, hfree, if_true]
      omega
  · rw [grow_used hcoalesced (by simpa using hfree)] at hgrown
    refine ⟨init ++ [z], newSegment s size, by simpa using hgrown, hend, hnone, rfl, ?_⟩
    rw [if_neg hfree]
    rfl

theorem allocate_last {g : Block} (hinit : allocate size init = none) (hfree : g.free = true) :
    allocate size (init ++ [g]) =
      if size ≤ g.length then some (g.payload, init ++ carve size g) else none := by
  rw [allocate_append hinit, allocate]
  by_cases hfits : size ≤ g.length
  · simp [hfree, hfits]
  · simp [hfits, allocate]

structure Allocates (pages : Nat → Nat) (s : Heap) (size : Nat) (failed : List Heap)
    (scanned : Heap) (blocks : List Block) (p : Nat) (s' : Heap) : Prop where
  answers : Answers pages s size p s' failed scanned
  searched : HeapInv scanned blocks
  failing : ∀ t ∈ failed, ¬ HasFit t (Heap.roundUp 0x10 size)
  taken : ∃ bs', allocate (Heap.roundUp 0x10 size) blocks = some (p, bs') ∧ HeapInv s' bs'

theorem allocates_found (h : HeapInv s bs) (hpos : 0 < size) (hsize : size + 0x1000 ≤ 2 ^ 64)
    (hfit : allocate (Heap.roundUp 0x10 size) bs ≠ none) :
    ∃ p s', Allocates pages s size [] s bs p s' := by
  obtain ⟨hdvd, hmin, -, -⟩ := roundUp_sixteen hpos hsize
  rcases search_outcome h hmin hdvd with ⟨hnone, -⟩ | ⟨p, s', bs', halloc, h', hfind⟩
  · exact absurd hnone hfit
  · exact ⟨p, s', answers_found (by omega) hfind, h, by simp, bs', halloc, h'⟩

theorem allocates_grows {failed : List Heap} {blocks : List Block} (h : HeapInv s bs)
    (hpos : 0 < size) (hsize : size + 0x1000 ≤ 2 ^ 64)
    (hnone : allocate (Heap.roundUp 0x10 size) bs = none)
    (hretry : Allocates pages (s.expandHeap pages (Heap.roundUp 0x10 size))
      (Heap.roundUp 0x10 size) failed scanned blocks p s') :
    Allocates pages s size (s :: failed) scanned blocks p s' := by
  obtain ⟨hdvd, hmin, -, hidem⟩ := roundUp_sixteen hpos hsize
  obtain ⟨hanswers, hsearched, hfailing, htaken⟩ := hretry
  rw [hidem] at hfailing htaken
  rcases search_outcome h hmin hdvd with ⟨-, hfind⟩ | ⟨q, s'', bs', halloc, -⟩
  · refine ⟨answers_grows (by omega) hfind hanswers, hsearched, ?_, htaken⟩
    intro t ht
    rcases List.mem_cons.mp ht with rfl | hmem
    · rw [hasFit_iff h, not_not]
      exact hnone
    · exact hfailing t hmem
  · rw [hnone] at halloc
    contradiction

theorem allocates_last {g : Block} (h : HeapInv s (init ++ [g])) (hpos : 0 < size)
    (hsize : size + 0x1000 ≤ 2 ^ 64) (hinit : allocate (Heap.roundUp 0x10 size) init = none)
    (hfree : g.free = true) (hfits : Heap.roundUp 0x10 size ≤ g.length) :
    ∃ p s', Allocates pages s size [] s (init ++ [g]) p s' := by
  apply allocates_found h hpos hsize
  rw [allocate_last hinit hfree, if_pos hfits]
  simp

theorem malloc_grows_once (h : HeapInv s (init ++ [z])) (hpages : ∀ k, pages k ≠ nullptr)
    (hpos : 0 < size) (hsize : size + 0x1000 ≤ 2 ^ 64) (hround : Heap.roundUp 0x10 size = size)
    (hnone : allocate size (init ++ [z]) = none)
    (hroom : s.heapEnd + Heap.roundUp 0x1000 size < 2 ^ 64)
    (honce : z.free = true ∨ size + headerSize ≤ Heap.roundUp 0x1000 size) :
    ∃ failed scanned init' g p s',
      Allocates pages s size failed scanned (init' ++ [g]) p s' ∧ failed.length = 1 ∧
      allocate size init' = none ∧ g.free = true ∧
      g.length = (if z.free = true then z.length + Heap.roundUp 0x1000 size
        else Heap.roundUp 0x1000 size - headerSize) := by
  obtain ⟨-, hle, -⟩ := roundUp_page_of_pos hpos hsize
  obtain ⟨init', g, hgrown, -, hinit', hg, hlength⟩ :=
    grow_once h hpages hpos hsize hroom hnone
  have hfits : size ≤ g.length := by
    rw [hlength]
    split
    · omega
    · rename_i hfree
      have hspare := honce.resolve_left hfree
      omega
  obtain ⟨p, s', hfound⟩ := @allocates_last _ pages size init' g hgrown hpos hsize
    (hround.symm ▸ hinit') hg (hround.symm ▸ hfits)
  have hcall := allocates_grows h hpos hsize (hround.symm ▸ hnone) (by rwa [hround])
  exact ⟨_, _, init', g, p, s', hcall, rfl, hinit', hg, hlength⟩

theorem malloc_grows_twice (h : HeapInv s (init ++ [z])) (hpages : ∀ k, pages k ≠ nullptr)
    (hpos : 0 < size) (hsize : size + 0x1000 ≤ 2 ^ 64) (hround : Heap.roundUp 0x10 size = size)
    (hnone : allocate size (init ++ [z]) = none)
    (hroom : s.heapEnd + 2 * Heap.roundUp 0x1000 size < 2 ^ 64)
    (hfree : z.free = false) (hshort : Heap.roundUp 0x1000 size < size + headerSize) :
    ∃ failed scanned init' g p s',
      Allocates pages s size failed scanned (init' ++ [g]) p s' ∧ failed.length = 2 ∧
      allocate size init' = none ∧ g.free = true ∧
      g.length = 2 * Heap.roundUp 0x1000 size - headerSize := by
  obtain ⟨hpage, hle, -⟩ := roundUp_page_of_pos hpos hsize
  obtain ⟨init', g, hgrown, hend, hinit', hg, hlength⟩ :=
    grow_once h hpages hpos hsize (by omega) hnone
  rw [if_neg (by simp [hfree])] at hlength
  have hmiss : allocate size (init' ++ [g]) = none := by
    rw [allocate_last hinit' hg, if_neg]
    simp only [headerSize] at hlength hshort
    omega
  obtain ⟨failed, scanned, init'', g', p, s', hcall, hcount, hinit'', hg', hlength'⟩ :=
    malloc_grows_once hgrown hpages hpos hsize hround hmiss (by omega) (Or.inl hg)
  have hcalls := allocates_grows h hpos hsize (hround.symm ▸ hnone) (by rwa [hround])
  refine ⟨_, _, init'', g', p, s', hcalls, by rw [List.length_cons, hcount], hinit'', hg', ?_⟩
  rw [hlength', if_pos hg, hlength]
  simp only [headerSize]
  omega

theorem Allocates.of_roundUp {failed : List Heap} {blocks : List Block}
    (hround : Heap.roundUp 0x10 (Heap.roundUp 0x10 size) = Heap.roundUp 0x10 size)
    (h : Allocates pages s (Heap.roundUp 0x10 size) failed scanned blocks p s') :
    Allocates pages s size failed scanned blocks p s' := by
  obtain ⟨⟨bound, hanswers⟩, hsearched, hfailing, htaken⟩ := h
  rw [hround] at hfailing htaken
  refine ⟨⟨bound, ?_⟩, hsearched, hfailing, htaken⟩
  intro fuel hfuel
  have hcall := hanswers fuel hfuel
  cases fuel with
  | zero => exact hcall
  | succ fuel => simpa only [Heap.malloc, Heap.searches, hround] using hcall

def FoundIn (s : Heap) (bs : List Block) (size : Nat) (scanned : Heap)
    (blocks : List Block) : Prop :=
  (HasFit s size ∧ scanned = s ∧ blocks = bs) ∨
    (¬ HasFit s size ∧ ∃ init g, blocks = init ++ [g] ∧ allocate size init = none ∧
      g.free = true ∧ g.length = grownLength s size)

theorem malloc_allocates (h : HeapInv s bs) (hpages : ∀ k, pages k ≠ nullptr)
    (hpos : 0 < size) (hsize : size + 0x1000 ≤ 2 ^ 64)
    (hroom : HasRoom s (Heap.roundUp 0x10 size)) :
    ∃ failed scanned blocks p s', Allocates pages s size failed scanned blocks p s' ∧
      failed.length = expansionsNeeded s (Heap.roundUp 0x10 size) ∧
      FoundIn s bs (Heap.roundUp 0x10 size) scanned blocks := by
  have hfit := @hasFit_iff s (Heap.roundUp 0x10 size) bs h
  by_cases hnone : allocate (Heap.roundUp 0x10 size) bs = none
  · have hmiss : ¬ HasFit s (Heap.roundUp 0x10 size) := by simp [hfit, hnone]
    obtain ⟨-, hmin, hmax, hround⟩ := roundUp_sixteen hpos hsize
    obtain ⟨init, z, rfl⟩ := h.wellFormed.exists_last
    obtain ⟨hfree, hlength, -⟩ := h.lastHdr
    unfold HasRoom at hroom
    rw [← h.mappedEnd] at hroom
    unfold FoundIn expansionsNeeded grownLength at *
    simp only [hmiss, if_false, hfree, hlength] at hroom ⊢
    by_cases honce : z.free = true ∨
        Heap.roundUp 0x10 size + headerSize ≤ Heap.roundUp 0x1000 (Heap.roundUp 0x10 size)
    · rw [if_pos honce, Nat.one_mul] at hroom
      obtain ⟨failed, scanned, init', g, p, s', hcall, hcount, hinit', hg, hgLength⟩ :=
        malloc_grows_once h hpages (by omega) hmax hround hnone hroom honce
      refine ⟨failed, scanned, _, p, s', hcall.of_roundUp hround, ?_,
        Or.inr ⟨not_false, init', g, rfl, hinit', hg, ?_⟩⟩
      · rw [if_pos honce, hcount]
      · rw [hgLength]
        by_cases hz : z.free = true
        · rw [if_pos hz, if_pos hz]
        · rw [if_neg hz, if_neg hz, if_pos (honce.resolve_left hz)]
    · rw [if_neg honce] at hroom
      rw [not_or, Bool.not_eq_true] at honce
      obtain ⟨hz, hshort⟩ := honce
      obtain ⟨failed, scanned, init', g, p, s', hcall, hcount, hinit', hg, hgLength⟩ :=
        malloc_grows_twice h hpages (by omega) hmax hround hnone hroom hz (by omega)
      refine ⟨failed, scanned, _, p, s', hcall.of_roundUp hround, ?_,
        Or.inr ⟨not_false, init', g, rfl, hinit', hg, ?_⟩⟩
      · rw [if_neg (by simp [hz, hshort]), hcount]
      · rw [hgLength, if_neg (by simp [hz]), if_neg hshort]
  · obtain ⟨p, s', hfound⟩ := @allocates_found s pages size bs h hpos hsize hnone
    refine ⟨[], s, bs, p, s', hfound, ?_, Or.inl ⟨hfit.mpr hnone, rfl, rfl⟩⟩
    rw [expansionsNeeded, if_pos (hfit.mpr hnone)]
    rfl

end Growth

/-! ## First fit on every run -/

/--
`malloc(size)` returns after at most two calls of `ExpandHeap`, and without one
if a free block was large enough.  It returns the lowest-addressed free block
that is large enough in the heap it searched last.
-/
def MallocFirstFit (pages : Nat → Nat) (s : Heap) (size : Nat) : Prop :=
  ∃ p s' failed scanned, Answers pages s size p s' failed scanned ∧
    failed.length ≤ 2 ∧ (HasFit s (Heap.roundUp 0x10 size) → failed = []) ∧
    ∃ h, p = h + headerSize ∧ FirstFit scanned (Heap.roundUp 0x10 size) h ∧
      Heap.roundUp 0x10 size ≤ length s'.mem h

section Runs

variable {pages : Nat → Nat} {a n size fuel : Nat} {s : HeapRun} {heap : Heap}
  {bs : List Block} {hs : List Heap}

theorem mallocFirstFit_of_heapInv (h : HeapInv heap bs) (hpages : ∀ k, pages k ≠ nullptr)
    (hpos : 0 < size) (hsize : size < 2 ^ 40)
    (hroom : HasRoom heap (Heap.roundUp 0x10 size)) : MallocFirstFit pages heap size := by
  obtain ⟨failed, scanned, blocks, p, s', hcall, hcount, -⟩ :=
    malloc_allocates h hpages hpos (by omega) hroom
  obtain ⟨hanswers, hsearched, -, bs', halloc, hleft⟩ := hcall
  obtain ⟨x, rfl, hfirst⟩ := firstFit_of_allocate hsearched halloc
  refine ⟨x + headerSize, s', failed, scanned, hanswers, ?_, ?_, x, rfl, hfirst, ?_⟩
  · rw [hcount]
    exact expansionsNeeded_le _ _
  · intro hfit
    rw [expansionsNeeded, if_pos hfit] at hcount
    exact List.eq_nil_of_length_eq_zero hcount
  · have hlength := length_of_allocate hsearched hleft halloc
    rwa [Nat.add_sub_cancel] at hlength

theorem HasRoom.belowTop (hroom : HasRoom s.heap size) : BelowTop s :=
  Nat.lt_of_le_of_lt (Nat.le_add_right _ _) hroom

theorem searches_grows (hround : Heap.roundUp 0x10 size = size) (hpos : 0 < size)
    {fuel' : Nat} (hfind : heap.findBlock size fuel' heap.heapStart = some none)
    (hsearch : Heap.searches pages fuel heap size = some hs) :
    ∃ fuel rest, hs = heap :: rest ∧
      Heap.searches pages fuel (heap.expandHeap pages size) size = some rest := by
  cases fuel with
  | zero => simp [Heap.searches] at hsearch
  | succ fuel =>
      unfold Heap.searches at hsearch
      simp only [hround, Nat.ne_of_gt hpos, if_false] at hsearch
      have hlarge := findBlock_mono (Nat.le_add_right fuel' (fuel + 1)) hfind
      cases hown : heap.findBlock size (fuel + 1) heap.heapStart with
      | none => simp [hown] at hsearch
      | some found =>
          rw [findBlock_mono (Nat.le_add_left (fuel + 1) fuel') hown] at hlarge
          obtain rfl := Option.some.inj hlarge
          rw [hown] at hsearch
          obtain ⟨rest, hrest, rfl⟩ := Option.map_eq_some_iff.mp hsearch
          exact ⟨fuel, rest, rfl, hrest⟩

theorem searches_ne_nil (hzero : Heap.roundUp 0x10 size ≠ 0)
    (hsearch : Heap.searches pages fuel heap size = some hs) : hs ≠ [] := by
  cases fuel with
  | zero => simp [Heap.searches] at hsearch
  | succ fuel =>
      unfold Heap.searches at hsearch
      simp only [hzero, if_false] at hsearch
      split at hsearch
      · contradiction
      · rw [← Option.some.inj hsearch]
        exact List.cons_ne_nil _ _
      · obtain ⟨rest, -, rfl⟩ := Option.map_eq_some_iff.mp hsearch
        exact List.cons_ne_nil _ _

/-- Three searches in vain are more than first fit takes. -/
theorem not_mallocFirstFit (hround : Heap.roundUp 0x10 size = size) (hpos : 0 < size)
    (hfind : heap.findBlock size fuel heap.heapStart = some none)
    (hfind' : (heap.expandHeap pages size).findBlock size fuel
      (heap.expandHeap pages size).heapStart = some none)
    (hfind'' : ((heap.expandHeap pages size).expandHeap pages size).findBlock size fuel
      ((heap.expandHeap pages size).expandHeap pages size).heapStart = some none) :
    ¬ MallocFirstFit pages heap size := by
  rintro ⟨p, s', failed, scanned, ⟨bound, hanswers⟩, hcount, -⟩
  have hsearch := (hanswers bound (Nat.le_refl _)).2
  obtain ⟨fuel₁, rest₁, heq₁, hsearch₁⟩ := searches_grows hround hpos hfind hsearch
  obtain ⟨fuel₂, rest₂, rfl, hsearch₂⟩ := searches_grows hround hpos hfind' hsearch₁
  obtain ⟨fuel₃, rest₃, rfl, hsearch₃⟩ := searches_grows hround hpos hfind'' hsearch₂
  have hrest := List.length_pos_of_ne_nil (searches_ne_nil (by omega) hsearch₃)
  have hlength := congrArg List.length heq₁
  simp only [List.length_append, List.length_cons, List.length_nil] at hlength
  omega

/--
A heap at address 0, where freeing the first block goes through its stale back
link and makes a header that is no longer on the chain the last one.
-/
def stuckHeapCalls : List HeapCall :=
  [.malloc 16, .malloc 16, .malloc 3968, .malloc 4064, .free 80 16, .free 128 3968,
    .malloc 4016, .free 4128 4064, .free 32 16]

theorem stuckHeap_run :
    ∃ s, HeapReachable freshPages 0 1 s ∧ HasRoom s.heap (Heap.roundUp 0x10 8000) ∧
      ¬ MallocFirstFit freshPages s.heap 8000 := by
  have hrun : (HeapRun.calls freshPages 6 stuckHeapCalls
      (freshHeap freshPages 0 1 fun _ => 0)).map (fun s =>
        (s.heap.heapStart, s.heap.mapped.length,
          [s.heap, s.heap.expandHeap freshPages 8000,
            (s.heap.expandHeap freshPages 8000).expandHeap freshPages 8000].map fun t =>
              (t.findBlock 8000 5 t.heapStart).map Option.isSome)) =
      some (0, 2, [some false, some false, some false]) := by
    decide +kernel
  obtain ⟨s, hcalls, hregion⟩ := Option.map_eq_some_iff.mp hrun
  simp only [Prod.mk.injEq, List.map_cons, List.map_nil, List.cons.injEq,
    Option.map_eq_some_iff, Option.isSome_eq_false_iff, Option.isNone_iff_eq_none,
    exists_eq_right, and_true] at hregion
  obtain ⟨hstart, hmapped, hfind, hfind', hfind''⟩ := hregion
  refine ⟨s, HeapReachable.calls (Reachable.start ⟨_, rfl⟩) hcalls, ?_,
    not_mallocFirstFit (Heap.roundUp_of_dvd (by decide)) (by decide) hfind hfind' hfind''⟩
  have hcount := expansionsNeeded_le s.heap (Heap.roundUp 0x10 8000)
  have htotal : Heap.roundUp 0x1000 (Heap.roundUp 0x10 8000) = 8192 := by decide +kernel
  unfold HasRoom
  rw [hstart, hmapped, htotal]
  omega

/--
In a page-aligned heap every call of `malloc`, in every state of every run, is
first fit after at most two growths, exactly when the heap does not start at
address 0.
-/
theorem malloc_first_fit_iff (ha : 0x1000 ∣ a) :
    (∀ n pages s size, 0 < n → (∀ k, pages k ≠ nullptr) → HeapReachable pages a n s →
      0 < size → size < 2 ^ 40 → HasRoom s.heap (Heap.roundUp 0x10 size) →
      MallocFirstFit pages s.heap size) ↔ a ≠ 0 := by
  constructor
  · rintro hall rfl
    obtain ⟨s, hreach, hroom, hstuck⟩ := stuckHeap_run
    exact hstuck (hall 1 freshPages s 8000 Nat.one_pos (by simp [freshPages, nullptr]) hreach
      (by decide) (by decide) hroom)
  · intro hstart n pages s size hn hpages hreach hpos hsize hroom
    obtain ⟨bs, hheap, -⟩ := runInv hn hpages (by omega) hreach hroom.belowTop
    exact mallocFirstFit_of_heapInv hheap hpages hpos hsize hroom

theorem kernelHeap_hasRoom (htotal : Heap.roundUp 0x1000 size ≤ 0x1000) :
    HasRoom kernelHeap.heap size := by
  have hcount := expansionsNeeded_le kernelHeap.heap size
  have hstart : kernelHeap.heap.heapStart = 0x100000000000 := by decide +kernel
  have hmapped : kernelHeap.heap.mapped.length = 1 := by decide +kernel
  have hgrowth := Nat.mul_le_mul hcount htotal
  unfold HasRoom
  rw [hstart, hmapped]
  omega

theorem malloc_first_fit_kernel : MallocFirstFit freshPages kernelHeap.heap 100 :=
  (malloc_first_fit_iff (by decide)).mpr (by decide) 1 freshPages kernelHeap 100
    Nat.one_pos (by simp [freshPages, nullptr]) kernelHeap_start.1 (by decide) (by decide)
    (kernelHeap_hasRoom (by decide))

theorem malloc_null_heap_stuck :
    ∃ s, HeapReachable freshPages 0 1 s ∧ HasRoom s.heap (Heap.roundUp 0x10 8000) ∧
      ¬ MallocFirstFit freshPages s.heap 8000 :=
  stuckHeap_run

end Runs

end UnifiedOS.Memory
