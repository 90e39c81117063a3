import UnifiedOS.Memory.HeapChain

/-!
# The heap functions refine the abstract operations

On a memory that represents a well-formed block list, `free` is `release`,
the search of `malloc` is `allocate`, and `ExpandHeap` with every page granted
is `grow`.  `HeapInv` collects what holds of the heap between two calls.
-/

namespace UnifiedOS.Memory

open UnifiedOS.Foundation
open HeapBlockHeader

/-! ## What the operations leave alone -/

structure SameRegion (s s' : Heap) : Prop where
  start : s'.heapStart = s.heapStart
  stop : s'.heapEnd = s.heapEnd
  mapped : s'.mapped = s.mapped

section Region

variable {s s' s'' : Heap}

theorem SameRegion.refl (s : Heap) : SameRegion s s := ⟨rfl, rfl, rfl⟩

theorem SameRegion.trans (h : SameRegion s s') (h' : SameRegion s' s'') :
    SameRegion s s'' :=
  ⟨h'.start.trans h.start, h'.stop.trans h.stop, h'.mapped.trans h.mapped⟩

theorem sameRegion_withMem (m : ByteMemory) : SameRegion s (s.withMem m) :=
  ⟨rfl, rfl, rfl⟩

theorem sameRegion_combineForward (this : Nat) :
    SameRegion s (s.combineForward this) := by
  unfold Heap.combineForward
  by_cases hnext : next s.mem this = nullptr
  · rw [if_pos hnext]
    exact SameRegion.refl s
  · rw [if_neg hnext]
    by_cases hfree : HeapBlockHeader.free s.mem (next s.mem this) = false
    · rw [if_pos hfree]
      exact SameRegion.refl s
    · rw [if_neg hfree]
      constructor <;> rfl

theorem sameRegion_combineBackward (this : Nat) :
    SameRegion s (s.combineBackward this) := by
  unfold Heap.combineBackward
  by_cases hprev : prev s.mem this ≠ nullptr ∧
      HeapBlockHeader.free s.mem (prev s.mem this) = true
  · rw [if_pos hprev]
    exact sameRegion_combineForward _
  · rw [if_neg hprev]
    exact SameRegion.refl s

theorem sameRegion_split (this splitLength : Nat) :
    SameRegion s (s.split this splitLength).2 := by
  unfold Heap.split
  by_cases htiny : splitLength < 0x10
  · rw [if_pos htiny]
    exact SameRegion.refl s
  · rw [if_neg htiny]
    by_cases hrest : toInt64 (sub64 (sub64 (length s.mem this) splitLength)
        headerSize) < 0x10
    · simp only [hrest, if_true]
      exact SameRegion.refl s
    · simp only [hrest, if_false]
      constructor <;> rfl

theorem sameRegion_free (address : Nat) : SameRegion s (s.free address) :=
  ((sameRegion_withMem _).trans (sameRegion_combineForward _)).trans
    (sameRegion_combineBackward _)

theorem sameRegion_findBlock {size fuel current p : Nat}
    (h : s.findBlock size fuel current = some (some (p, s'))) :
    SameRegion s s' := by
  induction fuel generalizing current with
  | zero => simp [Heap.findBlock] at h
  | succ fuel ih =>
      unfold Heap.findBlock at h
      by_cases hlarger : HeapBlockHeader.free s.mem current ∧
          length s.mem current > size
      · rw [if_pos hlarger] at h
        have hs' := (Prod.mk.inj (Option.some.inj (Option.some.inj h))).2
        rw [← hs']
        exact (sameRegion_split _ _).trans (sameRegion_withMem _)
      · rw [if_neg hlarger] at h
        by_cases hexact : HeapBlockHeader.free s.mem current ∧
            length s.mem current = size
        · rw [if_pos hexact] at h
          have hs' := (Prod.mk.inj (Option.some.inj (Option.some.inj h))).2
          rw [← hs']
          exact sameRegion_withMem _
        · rw [if_neg hexact] at h
          by_cases hend : next s.mem current = nullptr
          · rw [if_pos hend] at h
            simp at h
          · rw [if_neg hend] at h
            exact ih h

end Region

/-! ## Freeing -/

section Freeing

variable {s : Heap} {b : Block} {bs before after : List Block} {lo hi : Nat}

theorem mergeForward_eq_cons (b : Block) (after : List Block) :
    ∃ d rest, mergeForward b after = d :: rest ∧ d.addr = b.addr ∧ d.free = b.free := by
  cases after with
  | nil => exact ⟨b, [], rfl, rfl, rfl⟩
  | cons c rest =>
      by_cases hfree : c.free = true
      · exact ⟨b.merge c, rest, by simp [mergeForward, hfree], rfl, rfl⟩
      · exact ⟨b, c :: rest, by simp [mergeForward, hfree], rfl, rfl⟩

theorem combineForward_refines (h : Represents s (before ++ b :: after))
    (htiles : Tiles lo hi (before ++ b :: after)) (hhi : hi < 2 ^ 64) :
    Represents (s.combineForward b.addr) (before ++ mergeForward b after) := by
  cases after with
  | nil =>
      rw [combineForward_used h (by simp)]
      exact h
  | cons c rest =>
      by_cases hfree : c.free = true
      · obtain ⟨mid, -, -, hc, -⟩ := tiles_append.mp htiles
        have hstop := (htiles.bounds (by simp : c ∈ before ++ b :: c :: rest)).2
        have hmerged := represents_combineForward h hfree
        rw [Block.absorb_eq_merge (by omega) hc] at hmerged
        simpa [mergeForward, hfree] using hmerged
      · rw [combineForward_used h]
        · simpa [mergeForward, hfree] using h
        · rintro d rest' heq
          obtain ⟨rfl, -⟩ := List.cons.inj heq
          simpa using hfree

theorem combineBackward_refines (h : Represents s (before ++ b :: after))
    (htiles : Tiles lo hi (before ++ b :: after)) (hhi : hi < 2 ^ 64)
    (hfree : b.free = true) (hbefore : Coalesced before) :
    Represents (s.combineBackward b.addr) (before.foldr attach (b :: after)) := by
  rcases List.eq_nil_or_concat before with rfl | ⟨init, a, rfl⟩
  · rw [combineBackward_used h (by simp)]
    exact h
  · rw [List.concat_eq_append] at h htiles hbefore ⊢
    rw [List.foldr_append, List.foldr_cons, List.foldr_nil]
    by_cases ha : a.free = true
    · have h' : Represents s (init ++ a :: b :: after) := by simpa using h
      have htiles' : Tiles lo hi (init ++ a :: b :: after) := by simpa using htiles
      obtain ⟨mid, -, -, hb, -⟩ := tiles_append.mp htiles'
      have hstop := (htiles'.bounds (by simp : b ∈ init ++ a :: b :: after)).2
      have hmerged := represents_combineBackward h' ha hfree
      rw [Block.absorb_eq_merge (by omega) hb] at hmerged
      have hattach : attach a (b :: after) = a.merge b :: after := by
        simp [attach, mergeForward, ha, hfree]
      have hkept : a.free = (a.merge b).free := rfl
      rw [hattach, foldr_attach_of_coalesced hbefore hkept]
      exact hmerged
    · have hattach : attach a (b :: after) = a :: b :: after := by
        simp [attach, ha]
      rw [hattach, foldr_attach_of_coalesced hbefore rfl, combineBackward_used h]
      · simpa using h
      · rintro init' a' heq
        obtain ⟨-, rfl⟩ := List.append_singleton_inj.mp heq
        simpa using ha

/-- Freeing a block in the chain marks it and merges it with its neighbours. -/
theorem free_refines (h : Represents s bs) (hwell : WellFormed lo hi bs)
    (hhi : hi < 2 ^ 64) (hb : b ∈ bs) :
    Represents (s.free b.payload) (release b.payload bs) := by
  obtain ⟨before, after, rfl⟩ := List.append_of_mem hb
  have htiles := hwell.tiles
  have hstop := (htiles.bounds hb).2
  have hsegment : sub64 b.payload headerSize = b.addr := by
    simp only [Block.stop, Block.payload, headerSize, sub64] at hstop ⊢
    omega
  have hother : ∀ c ∈ before ++ after, c.payload ≠ b.payload := by
    intro c hc hpayload
    have hplaced := h.placed.apart
    rw [List.map_append, List.map_cons, List.pairwise_append, List.pairwise_cons]
      at hplaced
    have haddr : c.addr = b.addr := Nat.add_right_cancel hpayload
    rcases List.mem_append.mp hc with hmem | hmem
    · have hapart := hplaced.2.2 _ (List.mem_map_of_mem hmem) b.addr
        List.mem_cons_self
      simp only [headerSize] at hapart
      omega
    · have hapart := hplaced.2.1.1 _ (List.mem_map_of_mem hmem)
      simp only [headerSize] at hapart
      omega
  have hmark : (before ++ b :: after).map
      (fun c => if c.payload = b.payload then { c with free := true } else c) =
      before ++ { b with free := true } :: after := by
    rw [List.map_append, List.map_cons, if_pos rfl,
      markFree_of_absent fun c hc => hother c (List.mem_append_left _ hc),
      markFree_of_absent fun c hc => hother c (List.mem_append_right _ hc)]
  have hmarked := represents_setFree h true
  have htilesMarked := hmark ▸ tiles_markFree htiles (p := b.payload)
  have hbefore : Coalesced before := hwell.coalesced.left_of_append
  have hafter : Coalesced after :=
    Coalesced.tail (hwell.coalesced.right_of_append)
  have hforward := combineForward_refines hmarked htilesMarked hhi
  obtain ⟨d, rest, hmerge, haddr, hdfree⟩ :=
    mergeForward_eq_cons { b with free := true } after
  have htilesForward : Tiles lo hi (before ++ mergeForward { b with free := true } after) := by
    obtain ⟨mid, hpre, hpost⟩ := tiles_append.mp htilesMarked
    exact tiles_append.mpr ⟨mid, hpre, by simpa [attach] using tiles_attach hpost⟩
  rw [hmerge] at hforward htilesForward
  have hbackward :=
    combineBackward_refines hforward htilesForward hhi hdfree hbefore
  have hrelease : release b.payload (before ++ b :: after) =
      before.foldr attach (d :: rest) := by
    rw [release, hmark, coalesce_append, coalesce_cons,
      coalesce_of_coalesced hafter, ← hmerge]
    rfl
  unfold Heap.free
  rw [hsegment, hrelease]
  rw [haddr] at hbackward
  exact hbackward

end Freeing

/-! ## The search of `malloc` -/

section Searching

variable {s s' : Heap} {b : Block} {before after : List Block} {lo hi size : Nat}

theorem carve_of_splits (hsplit : Splits size b) (hfree : b.free = true) :
    carve size b = [⟨b.addr, size, false⟩, upperBlock size b] := by
  rw [carve, if_pos hsplit, upperBlock, hfree]

theorem take_refines (h : Represents s (before ++ b :: after))
    (htiles : Tiles lo hi (before ++ b :: after)) (hlo : 24 ≤ lo)
    (hhi : hi < 2 ^ 64) (hsize : 0x10 ≤ size) (hfits : size ≤ b.length)
    (hfree : b.free = true) :
    Represents ((s.split b.addr size).2.withMem
        (setFree (s.split b.addr size).2.mem b.addr false))
      (before ++ (carve size b ++ after)) := by
  have hstop := (htiles.bounds (by simp : b ∈ before ++ b :: after)).2
  by_cases hsplit : Splits size b
  · have hnull : ∀ e ∈ before ++ b :: after, 24 ≤ e.addr :=
      fun e he => Nat.le_trans hlo (htiles.bounds he).1
    obtain ⟨mid, -, -, hafter⟩ := tiles_append.mp htiles
    have hroom : ∀ e ∈ after, b.stop ≤ e.addr := fun e he => (hafter.bounds he).1
    have hs := represents_split h hsize hsplit hnull hroom (by omega)
    rw [carve_of_splits hsplit hfree]
    exact represents_setFree hs false
  · rw [split_refused h hfits hsplit, carve, if_neg hsplit]
    exact represents_setFree h false

theorem carve_exact (hlength : b.length = size) :
    carve size b = [{ b with free := false }] := by
  rw [carve, if_neg]
  rintro ⟨hfits, -⟩
  omega

/--
The search from `after` on returns what first fit does there, or runs out of
blocks exactly when first fit does.
-/
theorem findBlock_refines {fuel : Nat} {found : Option (Nat × Heap)}
    (h : Represents s (before ++ after)) (htiles : Tiles lo hi (before ++ after))
    (hlo : 24 ≤ lo) (hhi : hi < 2 ^ 64) (hsize : 0x10 ≤ size) (hne : after ≠ [])
    (hfound : s.findBlock size fuel (LinkedSegment.first Block.addr nullptr after) =
      some found) :
    (found = none ∧ allocate size after = none) ∨
      ∃ p s' bs', found = some (p, s') ∧ allocate size after = some (p, bs') ∧
        Represents s' (before ++ bs') := by
  induction fuel generalizing before after with
  | zero => simp [Heap.findBlock] at hfound
  | succ fuel ih =>
      cases after with
      | nil => contradiction
      | cons b after =>
          have hb := h.split.2.1
          have hstop := (htiles.bounds (by simp : b ∈ before ++ b :: after)).2
          have hpayload : wrap64 (b.addr + headerSize) = b.payload := by
            apply wrap64_of_lt
            simp only [Block.stop] at hstop
            omega
          unfold Heap.findBlock at hfound
          rw [LinkedSegment.first_cons, hb.free, hb.length, hb.next, hpayload]
            at hfound
          by_cases hlarger : b.free = true ∧ b.length > size
          · rw [if_pos hlarger] at hfound
            right
            refine ⟨_, _, _, (Option.some.inj hfound).symm, ?_,
              take_refines h htiles hlo hhi hsize (by omega) hlarger.1⟩
            rw [allocate, if_pos ⟨hlarger.1, by omega⟩]
          · rw [if_neg hlarger] at hfound
            by_cases hexact : b.free = true ∧ b.length = size
            · rw [if_pos hexact] at hfound
              right
              refine ⟨_, _, carve size b ++ after, (Option.some.inj hfound).symm, ?_, ?_⟩
              · rw [allocate, if_pos ⟨hexact.1, by omega⟩]
              · rw [carve_exact hexact.2]
                exact represents_setFree h false
            · rw [if_neg hexact] at hfound
              have hskip : ¬ (b.free = true ∧ size ≤ b.length) := by
                rintro ⟨hfree, hle⟩
                rcases Nat.lt_or_eq_of_le hle with hlt | heq
                · exact hlarger ⟨hfree, hlt⟩
                · exact hexact ⟨hfree, heq.symm⟩
              cases after with
              | nil =>
                  rw [LinkedSegment.first_nil, if_pos rfl] at hfound
                  left
                  refine ⟨(Option.some.inj hfound).symm, ?_⟩
                  rw [allocate, if_neg hskip]
                  rfl
              | cons c rest =>
                  have hc : c.addr ≠ nullptr := Nat.ne_of_gt (h.positive (by simp))
                  rw [LinkedSegment.first_cons, if_neg hc] at hfound
                  have hstep := @ih (before ++ [b]) (c :: rest)
                    (by simpa using h) (by simpa using htiles) (by simp) hfound
                  rw [allocate, if_neg hskip]
                  rcases hstep with ⟨hnone, hmissing⟩ | ⟨p, s', bs', hsome, halloc, hrep⟩
                  · exact Or.inl ⟨hnone, by rw [hmissing]; rfl⟩
                  · right
                    refine ⟨p, s', b :: bs', hsome, by rw [halloc]; rfl, ?_⟩
                    simpa using hrep

end Searching

/-! ## Growing -/

def granted (pages : Nat → Nat) (first count : Nat) : Nat :=
  (List.range' first count).countP fun k => decide (pages k ≠ nullptr)

theorem granted_le (pages : Nat → Nat) (first count : Nat) :
    granted pages first count ≤ count :=
  List.countP_le_length.trans_eq (by simp)

theorem granted_all {pages : Nat → Nat} (hpages : ∀ k, pages k ≠ nullptr)
    (first count : Nat) : granted pages first count = count := by
  rw [granted, List.countP_eq_length.mpr (by simp [hpages])]
  simp

def segmentStores (m : ByteMemory) (newSegment lastHdr length : Nat) : ByteMemory :=
  let m := setFree m newSegment true
  let m := setPrev m newSegment lastHdr
  let m := setNext m lastHdr newSegment
  let m := setNext m newSegment nullptr
  setLength m newSegment length

def linkSegment (s : Heap) (newSegment length : Nat) : Heap :=
  { s with
    mem := segmentStores s.mem newSegment s.lastHdr length
    lastHdr := newSegment }

section Stores

variable {m : ByteMemory} {new last len e : Nat}

theorem segmentStores_kept (hnew : Apart new e) (hlast : Apart last e) :
    readHeader (segmentStores m new last len) e = readHeader m e := by
  simp only [segmentStores, readHeader_setLength_apart _ _ hnew,
    readHeader_setNext_apart _ _ hnew, readHeader_setNext_apart _ _ hlast,
    readHeader_setPrev_apart _ _ hnew, readHeader_setFree_apart _ _ hnew]

theorem segmentStores_last (hnew : Apart new last) (hlt : new < 2 ^ 64) :
    readHeader (segmentStores m new last len) last =
      { readHeader m last with next := new } := by
  simp only [segmentStores, readHeader_setLength_apart _ _ hnew,
    readHeader_setNext_apart _ _ hnew, readHeader_setNext hlt,
    readHeader_setPrev_apart _ _ hnew, readHeader_setFree_apart _ _ hnew]

theorem segmentStores_new (hnew : Apart new last) (hlast : last < 2 ^ 64)
    (hlen : len < 2 ^ 64) :
    readHeader (segmentStores m new last len) new = ⟨len, nullptr, last, true⟩ := by
  have hnull : nullptr < 2 ^ 64 := Nat.two_pow_pos 64
  simp only [segmentStores, readHeader_setLength hlen, readHeader_setNext hnull,
    readHeader_setNext_apart _ _ hnew.symm, readHeader_setPrev hlast,
    readHeader_setFree]

end Stores

section Growing

variable {s : Heap} {bs : List Block} {pages : Nat → Nat} {lo hi len : Nat}

theorem attachPages_skip (count : Nat) (hpage : pages s.requests = nullptr) :
    Heap.attachPages pages (count + 1) s =
      Heap.attachPages pages count { s with requests := s.requests + 1 } := by
  change Heap.attachPages pages count (if pages s.requests ≠ nullptr then _ else _) = _
  rw [if_neg (not_not.mpr hpage)]

theorem attachPages_grant (count : Nat) (hpage : pages s.requests ≠ nullptr) :
    Heap.attachPages pages (count + 1) s =
      Heap.attachPages pages count
        { s with
          requests := s.requests + 1
          mapped := s.mapped ++ [(s.heapEnd, pages s.requests)]
          heapEnd := wrap64 (s.heapEnd + 0x1000) } := by
  change Heap.attachPages pages count (if pages s.requests ≠ nullptr then _ else _) = _
  rw [if_pos hpage]
  rfl

theorem attachPages_eq (count : Nat) :
    ∃ stop pairs, pairs.length = granted pages s.requests count ∧
      (s.heapEnd < 2 ^ 64 → stop = wrap64 (s.heapEnd + 0x1000 * pairs.length)) ∧
      Heap.attachPages pages count s =
        { s with
          heapEnd := stop
          requests := s.requests + count
          mapped := s.mapped ++ pairs } := by
  induction count generalizing s with
  | zero =>
      refine ⟨s.heapEnd, [], rfl, ?_, ?_⟩
      · intro hend
        rw [List.length_nil, Nat.mul_zero, Nat.add_zero, wrap64_of_lt hend]
      · rw [List.append_nil]
        rfl
  | succ count ih =>
      by_cases hpage : pages s.requests = nullptr
      · rw [attachPages_skip count hpage]
        obtain ⟨stop, pairs, hlength, hstop, heq⟩ :=
          @ih { s with requests := s.requests + 1 }
        refine ⟨stop, pairs, ?_, hstop, ?_⟩
        · rw [hlength, granted, granted, List.range'_succ, List.countP_cons]
          simp [hpage]
        · rw [heq, Nat.add_assoc, Nat.add_comm 1 count]
      · rw [attachPages_grant count hpage]
        obtain ⟨stop, pairs, hlength, hstop, heq⟩ := @ih
          { s with
            requests := s.requests + 1
            mapped := s.mapped ++ [(s.heapEnd, pages s.requests)]
            heapEnd := wrap64 (s.heapEnd + 0x1000) }
        refine ⟨stop, (s.heapEnd, pages s.requests) :: pairs, ?_, ?_, ?_⟩
        · rw [List.length_cons, hlength, granted, granted, List.range'_succ,
            List.countP_cons]
          simp [hpage]
        · intro _
          rw [hstop (wrap64_lt _), List.length_cons]
          simp only [wrap64]
          omega
        · rw [heq, Nat.add_assoc, Nat.add_comm 1 count, List.append_assoc]
          rfl

theorem expandHeap_eq (len : Nat) :
    ∃ stop pairs,
      pairs.length = granted pages s.requests (Heap.roundUp 0x1000 len / 0x1000) ∧
      (s.heapEnd < 2 ^ 64 → stop = wrap64 (s.heapEnd + 0x1000 * pairs.length)) ∧
      s.expandHeap pages len =
        (linkSegment
          { s with
            heapEnd := stop
            requests := s.requests + Heap.roundUp 0x1000 len / 0x1000
            mapped := s.mapped ++ pairs }
          s.heapEnd (sub64 (Heap.roundUp 0x1000 len) headerSize)).combineBackward
            s.heapEnd := by
  obtain ⟨stop, pairs, hlength, hstop, heq⟩ :=
    @attachPages_eq s pages (Heap.roundUp 0x1000 len / 0x1000)
  have hexpand : s.expandHeap pages len =
      (linkSegment (Heap.attachPages pages (Heap.roundUp 0x1000 len / 0x1000) s)
        s.heapEnd (sub64 (Heap.roundUp 0x1000 len) headerSize)).combineBackward
          s.heapEnd := rfl
  exact ⟨stop, pairs, hlength, hstop, by rw [hexpand, heq]⟩

theorem represents_segment (h : Represents s bs) (hne : bs ≠ []) {new : Nat}
    (hfresh : ∀ b ∈ bs, b.addr + headerSize ≤ new) (hnew : new < 2 ^ 64)
    (hlen : len < 2 ^ 64) :
    Represents (linkSegment s new len) (bs ++ [⟨new, len, true⟩]) := by
  rcases List.eq_nil_or_concat bs with rfl | ⟨init, z, rfl⟩
  · contradiction
  rw [List.concat_eq_append] at h hfresh ⊢
  have hz : s.lastHdr = z.addr := by simpa using h.last.symm
  have hzNew : Apart new z.addr := Or.inr (hfresh z (by simp))
  have hzLt : z.addr < 2 ^ 64 := h.bounded (by simp)
  have hmem : (linkSegment s new len).mem = segmentStores s.mem new z.addr len := by
    rw [linkSegment, hz]
  constructor
  · rw [LinkedSegment.append]
    constructor
    · apply h.linked.relink_last
      · intro p hold
        unfold Stored at hold ⊢
        rw [hmem, segmentStores_last hzNew hnew, hold]
        rfl
      · intro e he p n hold
        have hapart : Apart z.addr e.addr :=
          (apart_of_placed h.placed he List.mem_cons_self).symm
        rw [hmem]
        exact hold.of_eq
          (segmentStores_kept (Or.inr (hfresh e (by simp [he]))) hapart)
    · refine ⟨?_, trivial⟩
      unfold Stored
      rw [hmem, segmentStores_new hzNew hzLt hlen]
      simp
  · have hstart := h.start
    rw [LinkedSegment.first_append] at hstart
    rw [LinkedSegment.first_append, LinkedSegment.first_append]
    exact hstart
  · rw [LinkedSegment.last_append]
    rfl
  · have hplaced := h.placed
    rw [List.map_append, List.map_cons, List.map_nil] at hplaced
    have hafter := hplaced.insert (hfresh z (by simp)) (by simp) hnew
    simpa using hafter

end Growing

/-! ## Where the region goes -/

structure Grown (s s' : Heap) : Prop where
  start : s'.heapStart = s.heapStart
  mapped : s.mapped.length ≤ s'.mapped.length
  stop : s.heapEnd < 2 ^ 64 → s'.heapEnd =
    wrap64 (s.heapEnd + 0x1000 * (s'.mapped.length - s.mapped.length))

section Growth

variable {s s' s'' : Heap} {pages : Nat → Nat} {p size len : Nat}

theorem SameRegion.grown (h : SameRegion s s') : Grown s s' := by
  refine ⟨h.start, by rw [h.mapped], ?_⟩
  intro hend
  rw [h.stop, h.mapped, Nat.sub_self, Nat.mul_zero, Nat.add_zero, wrap64_of_lt hend]

theorem Grown.trans (h : Grown s s') (h' : Grown s' s'') : Grown s s'' := by
  have hmore := h.mapped
  have hmore' := h'.mapped
  refine ⟨h'.start.trans h.start, Nat.le_trans hmore hmore', ?_⟩
  intro hend
  have hstop := h.stop hend
  rw [h'.stop (hstop ▸ wrap64_lt _), hstop]
  simp only [wrap64]
  omega

theorem grown_expandHeap : Grown s (s.expandHeap pages len) := by
  obtain ⟨stop, pairs, -, hstop, heq⟩ := @expandHeap_eq s pages len
  rw [heq]
  have hsame := @sameRegion_combineBackward
    (linkSegment
      { s with
        heapEnd := stop
        requests := s.requests + Heap.roundUp 0x1000 len / 0x1000
        mapped := s.mapped ++ pairs }
      s.heapEnd (sub64 (Heap.roundUp 0x1000 len) headerSize)) s.heapEnd
  constructor
  · exact hsame.start
  · rw [hsame.mapped]
    simp [linkSegment]
  · intro hend
    rw [hsame.stop, hsame.mapped]
    simpa [linkSegment] using hstop hend

end Growth

/-! ## Between two calls -/

structure HeapInv (s : Heap) (bs : List Block) : Prop where
  represents : Represents s bs
  wellFormed : WellFormed s.heapStart s.heapEnd bs
  low : 24 ≤ s.heapStart
  bounded : s.heapEnd < 2 ^ 64
  mappedEnd : s.heapEnd = s.heapStart + 0x1000 * s.mapped.length

section Calls

variable {s s' : Heap} {b : Block} {bs bs' : List Block} {pages : Nat → Nat}
  {p size len : Nat}

theorem HeapInv.of_sameRegion (h : HeapInv s bs) (hsame : SameRegion s s')
    (hrep : Represents s' bs') (hwell : WellFormed s.heapStart s.heapEnd bs') :
    HeapInv s' bs' := by
  constructor
  · exact hrep
  · rw [hsame.start, hsame.stop]
    exact hwell
  · rw [hsame.start]
    exact h.low
  · rw [hsame.stop]
    exact h.bounded
  · rw [hsame.start, hsame.stop, hsame.mapped]
    exact h.mappedEnd

theorem heapInv_free (h : HeapInv s bs) (hb : b ∈ bs) :
    HeapInv (s.free b.payload) (release b.payload bs) :=
  h.of_sameRegion (sameRegion_free _)
    (free_refines h.represents h.wellFormed h.bounded hb)
    (release_wellFormed h.wellFormed)

theorem grow_eq_foldr {c : Block} (hfree : c.free = true) :
    grow bs c = bs.foldr attach [c] := by
  rw [grow, coalesce_append, coalesce_cons, coalesce_nil]
  simp [attach, mergeForward, hfree]

theorem mapped_expandHeap (hpages : ∀ k, pages k ≠ nullptr) :
    (s.expandHeap pages len).mapped.length =
      s.mapped.length + Heap.roundUp 0x1000 len / 0x1000 := by
  obtain ⟨stop, pairs, hpairs, -, heq⟩ := @expandHeap_eq s pages len
  rw [granted_all hpages] at hpairs
  rw [heq, (sameRegion_combineBackward s.heapEnd).mapped, ← hpairs]
  exact List.length_append

def newSegment (s : Heap) (len : Nat) : Block :=
  ⟨s.heapEnd, Heap.roundUp 0x1000 len - headerSize, true⟩

theorem heapInv_expandHeap (h : HeapInv s bs) (hpages : ∀ k, pages k ≠ nullptr)
    (hpos : 0 < len) (hlen : len + 0x1000 ≤ 2 ^ 64)
    (hroom : s.heapEnd + Heap.roundUp 0x1000 len < 2 ^ 64) :
    HeapInv (s.expandHeap pages len) (grow bs (newSegment s len)) ∧
      (s.expandHeap pages len).heapEnd = s.heapEnd + Heap.roundUp 0x1000 len := by
  obtain ⟨hdvd, hle, hlt⟩ := Heap.roundUp_spec (by decide : 0 < 0x1000) hlen
  obtain ⟨stop, pairs, hpairs, hstop, heq⟩ := @expandHeap_eq s pages len
  rw [heq, newSegment]
  rw [granted_all hpages] at hpairs
  generalize Heap.roundUp 0x1000 len = total at *
  have hend := h.mappedEnd
  have hlength : sub64 total headerSize = total - headerSize := by
    simp only [headerSize, sub64]
    omega
  rw [hlength]
  generalize hgrown : { s with
    heapEnd := stop
    requests := s.requests + total / 0x1000
    mapped := s.mapped ++ pairs } = s₁ at *
  have hrep : Represents s₁ bs := by
    rw [← hgrown]
    exact ⟨h.represents.linked, h.represents.start, h.represents.last,
      h.represents.placed⟩
  have hmapped : s₁.mapped.length = s.mapped.length + pairs.length := by
    rw [← hgrown, List.length_append]
  have hsame := (⟨rfl, rfl, rfl⟩ :
    SameRegion s₁ (linkSegment s₁ s.heapEnd (total - headerSize))).trans
      (sameRegion_combineBackward s.heapEnd)
  have hstop₁ : s₁.heapEnd = s.heapEnd + total := by
    rw [← hgrown]
    change stop = _
    rw [hstop h.bounded, wrap64_of_lt (by omega)]
    omega
  have hstart : s₁.heapStart = s.heapStart := by rw [← hgrown]
  have hfresh : ∀ b ∈ bs, b.addr + headerSize ≤ s.heapEnd := by
    intro b hb
    have hbound := (h.wellFormed.tiles.bounds hb).2
    simp only [Block.stop] at hbound
    omega
  have hnew : (⟨s.heapEnd, total - headerSize, true⟩ : Block).stop = s₁.heapEnd := by
    simp only [Block.stop, headerSize, hstop₁]
    omega
  have htiles : Tiles s.heapStart s₁.heapEnd
      (bs ++ [⟨s.heapEnd, total - headerSize, true⟩]) :=
    tiles_append.mpr ⟨s.heapEnd, h.wellFormed.tiles, rfl, hnew⟩
  have hsegment := represents_segment hrep h.wellFormed.nonempty hfresh h.bounded
    (by omega : total - headerSize < 2 ^ 64)
  have hmerged := combineBackward_refines hsegment htiles (by omega) rfl
    h.wellFormed.coalesced
  refine ⟨?_, hsame.stop.trans hstop₁⟩
  constructor
  · rw [grow_eq_foldr rfl]
    exact hmerged
  · rw [hsame.start, hsame.stop, hstart, ← hnew]
    exact grow_wellFormed h.wellFormed rfl (by simp only [headerSize]; omega)
  · rw [hsame.start, hstart]
    exact h.low
  · rw [hsame.stop]
    omega
  · rw [hsame.start, hsame.stop, hsame.mapped, hstart, hmapped]
    omega

theorem malloc_cases {fuel : Nat}
    (hm : Heap.malloc pages (fuel + 1) s size = some (p, s')) :
    (Heap.roundUp 0x10 size = 0 ∧ p = nullptr ∧ s' = s) ∨
    (Heap.roundUp 0x10 size ≠ 0 ∧
      s.findBlock (Heap.roundUp 0x10 size) (fuel + 1) s.heapStart =
        some (some (p, s'))) ∨
    (Heap.roundUp 0x10 size ≠ 0 ∧
      s.findBlock (Heap.roundUp 0x10 size) (fuel + 1) s.heapStart = some none ∧
      Heap.malloc pages fuel (s.expandHeap pages (Heap.roundUp 0x10 size))
        (Heap.roundUp 0x10 size) = some (p, s')) := by
  unfold Heap.malloc at hm
  by_cases hzero : Heap.roundUp 0x10 size = 0
  · simp only [hzero, if_true] at hm
    obtain ⟨rfl, rfl⟩ := Prod.mk.inj (Option.some.inj hm)
    exact Or.inl ⟨hzero, rfl, rfl⟩
  · simp only [hzero, if_false] at hm
    right
    cases hfind : s.findBlock (Heap.roundUp 0x10 size) (fuel + 1) s.heapStart with
    | none => simp [hfind] at hm
    | some found =>
        cases found with
        | none =>
            rw [hfind] at hm
            exact Or.inr ⟨hzero, rfl, hm⟩
        | some found =>
            rw [hfind] at hm
            exact Or.inl ⟨hzero, by rw [← hm]⟩

theorem malloc_grown {fuel : Nat}
    (hm : Heap.malloc pages fuel s size = some (p, s')) : Grown s s' := by
  induction fuel generalizing s size with
  | zero => simp [Heap.malloc] at hm
  | succ fuel ih =>
      rcases malloc_cases hm with ⟨-, -, rfl⟩ | ⟨-, hfind⟩ | ⟨-, -, hretry⟩
      · exact (SameRegion.refl _).grown
      · exact (sameRegion_findBlock hfind).grown
      · exact grown_expandHeap.trans (ih hretry)

/--
`malloc` of a nonzero size is first fit, perhaps after some growth: the blocks
it chooses from have the same blocks in use as before.
-/
theorem malloc_refines {fuel : Nat} (h : HeapInv s bs)
    (hpages : ∀ k, pages k ≠ nullptr) (hsize : size + 0x1000 ≤ 2 ^ 64)
    (hm : Heap.malloc pages fuel s size = some (p, s'))
    (hroom : s'.heapStart + 0x1000 * s'.mapped.length < 2 ^ 64) :
    (size = 0 ∧ p = nullptr ∧ s' = s) ∨
    0 < size ∧ ∃ grown bs',
      WellFormed s'.heapStart s'.heapEnd grown ∧
      (∀ c, c ∈ grown ∧ c.free = false ↔ c ∈ bs ∧ c.free = false) ∧
      allocate (Heap.roundUp 0x10 size) grown = some (p, bs') ∧
      HeapInv s' bs' := by
  induction fuel generalizing s bs size with
  | zero => simp [Heap.malloc] at hm
  | succ fuel ih =>
      obtain ⟨hdvd, hle, hlt⟩ := Heap.roundUp_spec (by decide : 0 < 0x10)
        (by omega : size + 0x10 ≤ 2 ^ 64)
      have hlong : Heap.roundUp 0x10 size + 0x1000 ≤ 2 ^ 64 := by omega
      have hpos : Heap.roundUp 0x10 size ≠ 0 → 0 < size := by
        intro hzero
        by_contra hsmall
        obtain rfl : size = 0 := by omega
        exact hzero (Heap.roundUp_of_dvd (by decide))
      rcases malloc_cases hm with ⟨hzero, rfl, rfl⟩ | ⟨hzero, hfind⟩ | ⟨hzero, -, hretry⟩
      · exact Or.inl ⟨by omega, rfl, rfl⟩
      · right
        rw [← h.represents.start] at hfind
        have hrep : Represents s ([] ++ bs) := h.represents
        rcases findBlock_refines hrep h.wellFormed.tiles h.low h.bounded (by omega)
          h.wellFormed.nonempty hfind with
          ⟨hnone, -⟩ | ⟨q, s₁, bs', hsome, halloc, hrep⟩
        · contradiction
        · obtain ⟨rfl, rfl⟩ := Prod.mk.inj (Option.some.inj hsome)
          have hsame := sameRegion_findBlock hfind
          refine ⟨hpos hzero, bs, bs', ?_, fun c => Iff.rfl, halloc, ?_⟩
          · rw [hsame.start, hsame.stop]
            exact h.wellFormed
          · exact h.of_sameRegion hsame hrep
              (allocate_wellFormed h.wellFormed hdvd halloc)
      · have hlen : 0 < Heap.roundUp 0x10 size := Nat.pos_of_ne_zero hzero
        have hexpand : Grown s (s.expandHeap pages (Heap.roundUp 0x10 size)) :=
          grown_expandHeap
        have hmapped := (malloc_grown hretry).mapped
        have hstart := (hexpand.trans (malloc_grown hretry)).start
        have hpagesMapped := @mapped_expandHeap s pages (Heap.roundUp 0x10 size) hpages
        obtain ⟨hpage, -⟩ := Heap.roundUp_spec (by decide : 0 < 0x1000) hlong
        have hend := h.mappedEnd
        obtain ⟨hgrown, -⟩ := heapInv_expandHeap h hpages hlen hlong (by omega)
        have hidem : Heap.roundUp 0x10 (Heap.roundUp 0x10 size) =
            Heap.roundUp 0x10 size := Heap.roundUp_of_dvd hdvd
        rcases ih hgrown hlong hretry with ⟨hnil, -⟩ | ⟨-, grown, bs', hrest⟩
        · omega
        · right
          refine ⟨hpos hzero, grown, bs', hrest.1, ?_, ?_, hrest.2.2.2⟩
          · intro d
            rw [hrest.2.1 d, mem_grow_used rfl]
          · rw [← hidem]
            exact hrest.2.2.1

end Calls

end UnifiedOS.Memory
