import UnifiedOS.Memory.HeapRun

/-!
# Growing the heap when pages run out

`ExpandHeap` gives its new segment the length that was asked for, whether or
not the pages were granted, and rounds the request up in 64-bit arithmetic.
The chain after the call is computed for every answer of the page allocator,
and with it the exact condition under which its blocks add up to the region.
-/

namespace UnifiedOS.Memory

open UnifiedOS.Foundation
open HeapBlockHeader

/-! ## The chain is determined by the memory -/

section Unique

variable {s : Heap} {m : ByteMemory} {bs bs' : List Block} {p p' : Nat}

private theorem linked_unique
    (h : LinkedSegment Block.addr (Stored m) p nullptr bs)
    (h' : LinkedSegment Block.addr (Stored m) p' nullptr bs')
    (hpos : ∀ b ∈ bs, nullptr < b.addr) (hpos' : ∀ b ∈ bs', nullptr < b.addr)
    (hfirst : LinkedSegment.first Block.addr nullptr bs =
      LinkedSegment.first Block.addr nullptr bs') : bs = bs' := by
  induction bs generalizing p p' bs' with
  | nil =>
      cases bs' with
      | nil => rfl
      | cons b bs' => exact absurd hfirst (Nat.ne_of_lt (hpos' b List.mem_cons_self))
  | cons b bs ih =>
      cases bs' with
      | nil =>
          exact absurd hfirst.symm (Nat.ne_of_lt (hpos b List.mem_cons_self))
      | cons b' bs' =>
          obtain ⟨hb, hrest⟩ := h
          obtain ⟨hb', hrest'⟩ := h'
          simp only [LinkedSegment.first_cons] at hfirst
          unfold Stored at hb hb'
          rw [hfirst, hb'] at hb
          obtain ⟨hlength, hnext, -, hfree⟩ := HeaderFields.mk.inj hb
          have hsame : b = b' := by
            cases b
            cases b'
            simp only [Block.mk.injEq]
            exact ⟨hfirst, hlength.symm, hfree.symm⟩
          rw [hsame, ih hrest hrest' (fun c hc => hpos c (List.mem_cons_of_mem _ hc))
            (fun c hc => hpos' c (List.mem_cons_of_mem _ hc)) hnext.symm]

theorem Represents.unique (h : Represents s bs) (h' : Represents s bs') : bs = bs' :=
  linked_unique h.linked h'.linked (fun _ hb => h.positive hb)
    (fun _ hb => h'.positive hb) (h.start.trans h'.start.symm)

end Unique

/-! ## What the chain covers -/

def covered (bs : List Block) : Nat := (bs.map fun b => headerSize + b.length).sum

@[simp] theorem covered_append (bs bs' : List Block) :
    covered (bs ++ bs') = covered bs + covered bs' := by
  simp [covered]

@[simp] theorem covered_singleton (b : Block) :
    covered [b] = headerSize + b.length := by
  simp [covered]

def SpansRegion (s : Heap) : Prop :=
  ∃ bs, Represents s bs ∧ covered bs = sub64 s.heapEnd s.heapStart

theorem Represents.spansRegion_iff {s : Heap} {bs : List Block}
    (h : Represents s bs) :
    SpansRegion s ↔ covered bs = sub64 s.heapEnd s.heapStart := by
  constructor
  · rintro ⟨bs', h', hcovered⟩
    rwa [h.unique h']
  · exact fun hcovered => ⟨bs, h, hcovered⟩

/-! ## The chain after `ExpandHeap` -/

section Growth

variable {s : Heap} {pages : Nat → Nat} {len : Nat} {init : List Block} {z : Block}

/-- The segment joins a last block that is free and stands by itself otherwise. -/
def appendSegment (init : List Block) (z c : Block) : List Block :=
  if z.free then init ++ [z.absorb c] else init ++ [z, c]

theorem represents_expandHeap (h : Represents s (init ++ [z]))
    (htiles : Tiles s.heapStart s.heapEnd (init ++ [z])) (hend : s.heapEnd < 2 ^ 64)
    (len : Nat) :
    Represents (s.expandHeap pages len)
        (appendSegment init z
          ⟨s.heapEnd, sub64 (Heap.roundUp 0x1000 len) headerSize, true⟩) ∧
      (s.expandHeap pages len).heapStart = s.heapStart ∧
      (s.expandHeap pages len).heapEnd = wrap64 (s.heapEnd +
        0x1000 * granted pages s.requests (Heap.roundUp 0x1000 len / 0x1000)) := by
  obtain ⟨stop, pairs, hpairs, hstop, heq⟩ := @expandHeap_eq s pages len
  rw [heq]
  generalize hlinked : linkSegment _ s.heapEnd _ = s₁
  have hsame := @sameRegion_combineBackward s₁ s.heapEnd
  have hfresh : ∀ b ∈ init ++ [z], b.addr + headerSize ≤ s.heapEnd := by
    intro b hb
    have hbound := (htiles.bounds hb).2
    simp only [Block.stop] at hbound
    omega
  have hrep : Represents s₁
      (init ++ [z, ⟨s.heapEnd, sub64 (Heap.roundUp 0x1000 len) headerSize, true⟩]) := by
    have hbase : Represents
        { s with
          heapEnd := stop
          requests := s.requests + Heap.roundUp 0x1000 len / 0x1000
          mapped := s.mapped ++ pairs } (init ++ [z]) :=
      ⟨h.linked, h.start, h.last, h.placed⟩
    rw [← hlinked]
    simpa using represents_segment hbase (by simp) hfresh hend (sub64_lt _ _)
  refine ⟨?_, ?_, ?_⟩
  · unfold appendSegment
    by_cases hfree : z.free = true
    · rw [if_pos hfree]
      have hmerged := represents_combineBackward hrep hfree rfl
      exact hmerged
    · rw [if_neg hfree]
      have hrep' : Represents s₁ ((init ++ [z]) ++
          [⟨s.heapEnd, sub64 (Heap.roundUp 0x1000 len) headerSize, true⟩]) := by
        simpa using hrep
      have hkept := combineBackward_used hrep' (by
        rintro init' a heq'
        obtain ⟨-, rfl⟩ := List.append_singleton_inj.mp heq'
        simpa using hfree)
      rw [hkept]
      exact hrep
  · rw [hsame.start, ← hlinked]
    rfl
  · rw [hsame.stop, ← hlinked, ← hpairs]
    exact hstop hend

/-- The request fits: the new end and the length of the segment do not wrap. -/
def GrowthFits (s : Heap) (total : Nat) : Prop :=
  (total ≠ 0 ∧ s.heapEnd - s.heapStart + total < 2 ^ 64) ∨
    (free s.mem s.lastHdr = true ∧
      (total = 0 ∨ 2 ^ 64 ≤ length s.mem s.lastHdr + total))

theorem granted_eq_iff (pages : Nat → Nat) (first count : Nat) :
    granted pages first count = count ↔
      ∀ k, first ≤ k → k < first + count → pages k ≠ nullptr := by
  have hlength : (List.range' first count).length = count := by simp
  unfold granted
  constructor
  · intro hall k hlo hhi
    rw [← hlength] at hall
    have hk := List.countP_eq_length.mp (by simpa using hall) k
      (List.mem_range'_1.mpr ⟨hlo, hhi⟩)
    simpa using hk
  · intro hall
    rw [List.countP_eq_length.mpr, hlength]
    intro k hk
    obtain ⟨hlo, hhi⟩ := List.mem_range'_1.mp hk
    simpa using hall k hlo hhi

theorem roundUp_page (hlen : len < 2 ^ 64) :
    0x1000 ∣ Heap.roundUp 0x1000 len ∧ Heap.roundUp 0x1000 len < 2 ^ 64 := by
  unfold Heap.roundUp
  by_cases hrest : len % 0x1000 > 0
  · rw [if_pos hrest]
    simp only [wrap64]
    omega
  · rw [if_neg hrest]
    omega

private theorem mod_cases {n : Nat} (hn : n < 2 ^ 65) :
    n % 2 ^ 64 < 2 ^ 64 ∧ (n % 2 ^ 64 = n ∨ n % 2 ^ 64 + 2 ^ 64 = n) := by
  omega

private theorem apart_covers_iff {span total count g : Nat} (hspan : span < 2 ^ 64)
    (htotal : total < 2 ^ 64) (hcount : total = 0x1000 * count) (hg : g ≤ count) :
    span + (headerSize + sub64 total headerSize) = (span + 0x1000 * g) % 2 ^ 64 ↔
      g = count ∧ total ≠ 0 ∧ span + total < 2 ^ 64 := by
  have hsegment : headerSize + sub64 total headerSize =
      if total = 0 then 2 ^ 64 else total := by
    simp only [sub64, headerSize]
    split <;> omega
  obtain ⟨hlt, hmod⟩ := mod_cases (by omega : span + 0x1000 * g < 2 ^ 65)
  rw [hsegment]
  generalize (span + 0x1000 * g) % 2 ^ 64 = r at *
  by_cases hzero : total = 0
  · rw [if_pos hzero]
    omega
  · rw [if_neg hzero]
    omega

/-- A segment that joins the last block can wrap that block's length. -/
private theorem joined_covers_iff {span last total count g : Nat}
    (hspan : span < 2 ^ 64) (hlast : headerSize + last ≤ span)
    (htotal : total < 2 ^ 64) (hcount : total = 0x1000 * count) (hg : g ≤ count) :
    span - (headerSize + last) + (headerSize +
        wrap64 (last + sub64 total headerSize + headerSize)) =
        (span + 0x1000 * g) % 2 ^ 64 ↔
      g = count ∧ ((total ≠ 0 ∧ span + total < 2 ^ 64) ∨
        (total = 0 ∨ 2 ^ 64 ≤ last + total)) := by
  have hjoined : wrap64 (last + sub64 total headerSize + headerSize) =
      (last + total) % 2 ^ 64 := by
    simp only [sub64, headerSize, wrap64]
    omega
  obtain ⟨hlt, hmod⟩ := mod_cases (by omega : span + 0x1000 * g < 2 ^ 65)
  obtain ⟨hlt', hmod'⟩ := mod_cases (by omega : last + total < 2 ^ 65)
  rw [hjoined]
  generalize (span + 0x1000 * g) % 2 ^ 64 = r at *
  generalize (last + total) % 2 ^ 64 = joined at *
  rcases hmod' with hmod' | hmod'
  · omega
  · omega

/--
After `ExpandHeap(len)` the chain covers exactly the heap's region if and only
if every page asked for was granted and the request did not wrap.
-/
theorem expandHeap_spansRegion_iff {bs : List Block} (hrep : Represents s bs)
    (hwell : WellFormed s.heapStart s.heapEnd bs) (hend : s.heapEnd < 2 ^ 64)
    (hlen : len < 2 ^ 64) :
    SpansRegion (s.expandHeap pages len) ↔
      (∀ k, s.requests ≤ k →
        k < s.requests + Heap.roundUp 0x1000 len / 0x1000 → pages k ≠ nullptr) ∧
      GrowthFits s (Heap.roundUp 0x1000 len) := by
  obtain ⟨init, z, rfl⟩ := hwell.exists_last
  obtain ⟨hdvd, htotal⟩ := roundUp_page hlen
  obtain ⟨hgrown, hstart, hstop⟩ :=
    @represents_expandHeap s pages init z hrep hwell.tiles hend len
  have hlastHdr : s.lastHdr = z.addr := by
    rw [← hrep.last]
    simp
  have hz := hrep.split.2.1
  have hspan := hwell.tiles.span
  have hle := hwell.tiles.le
  change s.heapStart + covered (init ++ [z]) = s.heapEnd at hspan
  have hlast : headerSize + z.length ≤ covered (init ++ [z]) := by simp
  have hgranted := granted_le pages s.requests (Heap.roundUp 0x1000 len / 0x1000)
  have hall := granted_eq_iff pages s.requests (Heap.roundUp 0x1000 len / 0x1000)
  generalize granted pages s.requests (Heap.roundUp 0x1000 len / 0x1000) = g at *
  generalize Heap.roundUp 0x1000 len = total at *
  have hregion : sub64 (wrap64 (s.heapEnd + 0x1000 * g)) s.heapStart =
      (covered (init ++ [z]) + 0x1000 * g) % 2 ^ 64 := by
    simp only [sub64, wrap64]
    omega
  have hspanEq : s.heapEnd - s.heapStart = covered (init ++ [z]) := by omega
  rw [hgrown.spansRegion_iff, hstart, hstop, hregion, ← hall, GrowthFits, hspanEq,
    hlastHdr, hz.free, hz.length, appendSegment]
  by_cases hfree : z.free = true
  · rw [if_pos hfree]
    have hcovered : covered (init ++ [z.absorb ⟨s.heapEnd, sub64 total headerSize, true⟩]) =
        covered (init ++ [z]) - (headerSize + z.length) +
          (headerSize + wrap64 (z.length + sub64 total headerSize + headerSize)) := by
      simp [Block.absorb]
    rw [hcovered, joined_covers_iff (by omega) hlast htotal (by omega) hgranted]
    simp [hfree]
  · rw [if_neg hfree]
    have hcovered : covered (init ++ [z, ⟨s.heapEnd, sub64 total headerSize, true⟩]) =
        covered (init ++ [z]) + (headerSize + sub64 total headerSize) := by
      rw [← covered_singleton ⟨s.heapEnd, sub64 total headerSize, true⟩,
        ← covered_append, List.append_assoc]
      rfl
    rw [hcovered, apart_covers_iff (by omega) htotal (by omega) hgranted]
    simp [hfree]

def onePageHeap (pages : Nat → Nat) : Heap :=
  (freshHeap pages 0x1000 1 fun _ => 0).heap

theorem onePageHeap_inv (pages : Nat → Nat) :
    ∃ bs, HeapInv (onePageHeap pages) bs := by
  have hend : BelowTop (freshHeap pages 0x1000 1 fun _ => 0) := by
    obtain ⟨pairs, hlength, heq⟩ := @freshHeap_eq pages 0x1000 1 fun _ => 0
    rw [heq]
    change 0x1000 + 0x1000 * pairs.length < 2 ^ 64
    omega
  obtain ⟨bs, hheap, -⟩ := runInv_fresh Nat.one_pos (by norm_num) _ hend
  exact ⟨bs, hheap⟩

theorem expandHeap_spansRegion_granted :
    SpansRegion ((onePageHeap freshPages).expandHeap freshPages 0x2000) := by
  obtain ⟨bs, hheap⟩ := onePageHeap_inv freshPages
  refine (expandHeap_spansRegion_iff hheap.represents hheap.wellFormed hheap.bounded
    (by norm_num)).mpr ⟨by simp [freshPages, nullptr], Or.inl ?_⟩
  decide +kernel

def refusingPages : Nat → Nat := fun k => if k = 2 then nullptr else 0x1000 * (k + 1)

theorem expandHeap_overruns_region :
    ∃ bs, Represents (onePageHeap refusingPages) bs ∧
      WellFormed (onePageHeap refusingPages).heapStart
        (onePageHeap refusingPages).heapEnd bs ∧
      ¬ SpansRegion ((onePageHeap refusingPages).expandHeap refusingPages 0x2000) := by
  obtain ⟨bs, hheap⟩ := onePageHeap_inv refusingPages
  refine ⟨bs, hheap.represents, hheap.wellFormed, ?_⟩
  have hafter : Represents ((onePageHeap refusingPages).expandHeap refusingPages 0x2000)
      [⟨0x1000, 0x3000 - headerSize, true⟩] := by
    constructor
    · exact ⟨by unfold Stored; decide +kernel, trivial⟩
    · decide +kernel
    · decide +kernel
    · exact ⟨by simp, by simp [nullptr], by simp⟩
  rw [hafter.spansRegion_iff]
  decide +kernel

end Growth

end UnifiedOS.Memory
