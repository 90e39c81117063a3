import UnifiedOS.Paging.PageFrameAllocator
import Mathlib.Data.UInt

/-!
# The memory map

`ReadEFIMemoryMap` sizes the bitmap from the total of all descriptors, puts it
at the start of the largest conventional segment, reserves every page, gives
the conventional pages back, and takes the first MiB and the bitmap's own
pages out again.  The value of every bit afterwards is computed from the pages
each of those loops visits.  `RequestPage` hands out exactly the clear bits, so
the frames it can ever hand out are known as well.
-/

namespace UnifiedOS.Paging

open UnifiedOS.Foundation

structure Descriptor where
  type : UInt32
  physAddr : UInt64
  numPages : UInt64

def conventional : UInt32 := 7

def getMemorySize (mMap : List Descriptor) : Nat :=
  mMap.foldl (fun bytes desc => wrap64 (bytes + desc.numPages.toNat * 4096)) 0

/-- Address and size of the largest conventional segment, the first of its size. -/
def largestSegment (mMap : List Descriptor) : Nat × Nat :=
  mMap.foldl
    (fun largest desc =>
      if desc.type = conventional ∧ wrap64 (desc.numPages.toNat * 4096) > largest.2 then
        (desc.physAddr.toNat, wrap64 (desc.numPages.toNat * 4096))
      else largest)
    (NULL, 0)

def bitmapOf (mMap : List Descriptor) : Bitmap :=
  ⟨getMemorySize mMap / 4096 / 8 + 1, (largestSegment mMap).1⟩

namespace PageFrameAllocator

def initBitmap (s : PageFrameAllocator) (bitMapSize bufferAddress : Nat) :
    PageFrameAllocator :=
  forInt bitMapSize
    (fun b s => { s with mem := s.mem.poke (bufferAddress + intToU64 b) 0 })
    { s with pageBitmap := ⟨bitMapSize, bufferAddress⟩ }

def unreserveConventional (s : PageFrameAllocator) (mMap : List Descriptor) :
    PageFrameAllocator :=
  mMap.foldl
    (fun s desc =>
      if desc.type = conventional then
        s.unreservePages desc.physAddr.toNat desc.numPages.toNat
      else s) s

/-- The four passes over the bitmap, in their order. -/
def markPages (s : PageFrameAllocator) (mMap : List Descriptor) : PageFrameAllocator :=
  let s := s.reservePages 0 (getMemorySize mMap / 4096 + 1)
  let s := s.unreserveConventional mMap
  let s := s.reservePages 0 0x100
  s.lockPages s.pageBitmap.buffer (s.pageBitmap.size / 4096 + 1)

/--
`PageFrameAllocator::ReadEFIMemoryMap`.  The descriptors are taken as already
read; the map itself is not in conventional memory.
-/
def readEFIMemoryMap (s : PageFrameAllocator) (mMap : List Descriptor) :
    PageFrameAllocator :=
  if s.initialised then s
  else
    let memorySize := getMemorySize mMap
    let s :=
      { s with
        initialised := true
        totalMemory := memorySize
        freeMemory := memorySize }
    let s := s.initBitmap (memorySize / 4096 / 8 + 1) (largestSegment mMap).1
    s.markPages mMap

def afterRequests : Nat → PageFrameAllocator → PageFrameAllocator
  | 0, s => s
  | k + 1, s => afterRequests k s.requestPage.2

end PageFrameAllocator

open PageFrameAllocator

/-! ## The cursor -/

section Cursor

variable {s : PageFrameAllocator} {value : Bool} {address pageCount i : Nat}
  {account : Nat → PageFrameAllocator → PageFrameAllocator}

theorem pageBitmapIndex_setPage_le
    (haccount : ∀ i s, (account i s).pageBitmapIndex ≤ s.pageBitmapIndex) :
    (setPage value account s address).pageBitmapIndex ≤ s.pageBitmapIndex := by
  rcases setPage_cases value account s address with ⟨heq, -⟩ | ⟨-, -, heq⟩
  · rw [heq]
  · rw [heq]
    exact haccount _ _

theorem pageBitmapIndex_overPages_le (hcount : pageCount < 2 ^ 64)
    (haccount : ∀ i s, (account i s).pageBitmapIndex ≤ s.pageBitmapIndex) :
    (overPages (setPage value account) s address pageCount).pageBitmapIndex ≤
      s.pageBitmapIndex := by
  rw [overPages, forInt_eq_foldl hcount]
  induction intIterations pageCount with
  | zero => exact Nat.le_refl _
  | succ count ih =>
      rw [List.range_succ, List.foldl_append, List.foldl_cons, List.foldl_nil]
      exact Nat.le_trans (pageBitmapIndex_setPage_le haccount) ih

theorem pullBack_le (index : Nat) (s : PageFrameAllocator) :
    (pullBack index s).pageBitmapIndex ≤ s.pageBitmapIndex := by
  simp only [pullBack]
  split <;> omega

theorem pageBitmapIndex_lockPage :
    (s.lockPage address).pageBitmapIndex = s.pageBitmapIndex := by
  unfold lockPage
  rcases setPage_cases true _ s address with ⟨heq, -⟩ | ⟨-, -, heq⟩
  · rw [heq]
  · rw [heq]

end Cursor

/-! ## What `RequestPage` hands out in the long run -/

section Requests

variable {s : PageFrameAllocator} {i k : Nat}

theorem requestPage_skip (hset : s.bit s.pageBitmapIndex = true)
    (hlt : s.pageBitmapIndex < s.limit) :
    s.requestPage = (withIndex s (s.pageBitmapIndex + 1)).requestPage := by
  unfold requestPage
  rw [show s.limit - s.pageBitmapIndex = s.limit - (s.pageBitmapIndex + 1) + 1 by omega,
    requestPageLoop, if_pos hset]
  rfl

theorem requestPage_keeps (s : PageFrameAllocator) :
    s.requestPage.2.limit = s.limit ∧
      s.pageBitmapIndex ≤ s.requestPage.2.pageBitmapIndex ∧
      ∀ j, s.requestPage.2.bit j = false → s.bit j = false := by
  rcases @requestPage_cases s with ⟨i, hi, -, -, -, heq⟩ | ⟨-, index, hindex, -, heq⟩
  · rw [heq]
    refine ⟨?_, ?_, ?_⟩
    · rw [limit, pageBitmap_lockPage]
      rfl
    · rw [pageBitmapIndex_lockPage]
      exact hi
    · intro j hclear
      rw [bit_lockPage] at hclear
      split at hclear
      · contradiction
      · exact hclear
  · rw [heq]
    exact ⟨rfl, hindex, fun j hclear => hclear⟩

theorem afterRequests_keeps (k : Nat) (s : PageFrameAllocator) :
    (afterRequests k s).limit = s.limit ∧
      s.pageBitmapIndex ≤ (afterRequests k s).pageBitmapIndex ∧
      ∀ j, (afterRequests k s).bit j = false → s.bit j = false := by
  induction k generalizing s with
  | zero => exact ⟨rfl, Nat.le_refl _, fun j hclear => hclear⟩
  | succ k ih =>
      obtain ⟨hlimit, hindex, hbit⟩ := ih s.requestPage.2
      obtain ⟨hlimit', hindex', hbit'⟩ := requestPage_keeps s
      exact ⟨hlimit.trans hlimit', Nat.le_trans hindex' hindex,
        fun j hclear => hbit' j (hbit j hclear)⟩

theorem exists_request (hlimit : s.limit ≤ 2 ^ 52) (hlo : s.pageBitmapIndex ≤ i)
    (hhi : i < s.limit) (hclear : s.bit i = false) :
    ∃ k, (afterRequests k s).requestPage.1 = i * 4096 := by
  generalize hn : i - s.pageBitmapIndex = n
  induction n using Nat.strong_induction_on generalizing s with
  | _ n ih =>
      rcases @requestPage_cases s with ⟨j, hj, hjlt, hbefore, hjclear, heq⟩ | ⟨hall, -⟩
      · rcases Nat.lt_trichotomy j i with hji | rfl | hij
        · generalize hlocked :
            (withIndex s j).lockPage (wrap64 (j * 4096)) = s' at heq
          have haddress : wrap64 (j * 4096) / 4096 = j := by
            rw [wrap64_of_lt (by omega)]
            omega
          have hbit : ∀ x, s'.bit x = if x = j ∧ x ≤ s.limit then true else s.bit x := by
            intro x
            rw [← hlocked, bit_lockPage, haddress]
            rfl
          have hindex : s'.pageBitmapIndex = j := by
            rw [← hlocked, pageBitmapIndex_lockPage]
            rfl
          have hsame : s'.limit = s.limit := by
            rw [← hlocked, limit, pageBitmap_lockPage]
            rfl
          have hskip := @requestPage_skip s'
            (by rw [hindex, hbit, if_pos ⟨rfl, by omega⟩]) (by omega)
          obtain ⟨k, hk⟩ := @ih (i - (j + 1)) (by omega)
            (withIndex s' (s'.pageBitmapIndex + 1)) (by
              change s'.limit ≤ 2 ^ 52
              omega) (by
              change s'.pageBitmapIndex + 1 ≤ i
              omega) (by
              change i < s'.limit
              omega) (by
              change s'.bit i = false
              rw [hbit, if_neg (by omega)]
              exact hclear) (by
              change i - (s'.pageBitmapIndex + 1) = _
              rw [hindex])
          refine ⟨k + 1, ?_⟩
          rw [afterRequests, heq]
          cases k with
          | zero =>
              change s'.requestPage.1 = _
              rw [hskip]
              exact hk
          | succ k =>
              rw [afterRequests, hskip]
              exact hk
        · refine ⟨0, ?_⟩
          rw [afterRequests, heq]
          exact wrap64_of_lt (by omega)
        · rw [hbefore i hlo hij] at hclear
          contradiction
      · rw [hall i hlo hhi] at hclear
        contradiction

/-- The frames handed out are exactly those of the clear bits from the cursor on. -/
theorem handed_out_iff (hlimit : s.limit ≤ 2 ^ 52) (P : Nat → Prop) :
    (∀ k, (afterRequests k s).requestPage.1 ≠ NULL →
      P (afterRequests k s).requestPage.1) ↔
    ∀ i, s.pageBitmapIndex ≤ i → i < s.limit → s.bit i = false → i ≠ 0 →
      P (i * 4096) := by
  constructor
  · intro hall i hlo hhi hclear hpos
    obtain ⟨k, hk⟩ := exists_request hlimit hlo hhi hclear
    have hgood := hall k
    rw [hk] at hgood
    exact hgood (by simp only [NULL]; omega)
  · intro hall k hne
    obtain ⟨hsame, hindex, hbit⟩ := afterRequests_keeps k s
    rcases @requestPage_cases (afterRequests k s) with
      ⟨i, hi, hlt, -, hclear, heq⟩ | ⟨-, index, -, -, heq⟩
    · rw [heq] at hne ⊢
      simp only at hne ⊢
      rw [wrap64_of_lt (by omega)] at hne ⊢
      refine hall i (by omega) (by omega) (hbit i hclear) ?_
      rintro rfl
      exact hne rfl
    · rw [heq] at hne
      exact absurd rfl hne

end Requests

/-! ## Every bit after `ReadEFIMemoryMap` -/

section Bits

variable {s : PageFrameAllocator} {mMap : List Descriptor} {i j : Nat}

theorem getMemorySize_lt (mMap : List Descriptor) : getMemorySize mMap < 2 ^ 64 := by
  unfold getMemorySize
  rcases List.eq_nil_or_concat mMap with rfl | ⟨init, desc, rfl⟩
  · norm_num
  · rw [List.concat_eq_append, List.foldl_append]
    exact wrap64_lt _

theorem bitmapOf_size (mMap : List Descriptor) :
    (bitmapOf mMap).size ≤ 2 ^ 49 := by
  have hlt := getMemorySize_lt mMap
  simp only [bitmapOf]
  omega

/-- From the `2 ^ 31`-th on the index is negative, and the byte far above the buffer. -/
private theorem foldl_poke (s : PageFrameAllocator) (base count : Nat)
    (hcount : count ≤ 2 ^ 32) :
    (List.range count).foldl
        (fun s k => { s with mem := s.mem.poke (base + intToU64 (BitVec.ofNat 32 k)) 0 }) s =
      { s with
        mem := fun x =>
          if base ≤ x ∧ x < base + min count (2 ^ 31) ∨
              base + (2 ^ 64 - 2 ^ 31) ≤ x ∧ x < base + (2 ^ 64 - 2 ^ 32) + count then 0
          else s.mem x } := by
  induction count with
  | zero =>
      have hempty : ∀ x, ¬ (base ≤ x ∧ x < base + min 0 (2 ^ 31) ∨
          base + (2 ^ 64 - 2 ^ 31) ≤ x ∧ x < base + (2 ^ 64 - 2 ^ 32) + 0) := by
        omega
      simp only [hempty, if_false]
      rfl
  | succ count ih =>
      rw [List.range_succ, List.foldl_append, List.foldl_cons, List.foldl_nil, ih (by omega)]
      have hwritten := intToU64_ofNat (t := count) (by omega)
      congr 1
      funext x
      simp only [ByteMemory.poke]
      by_cases hx : x = base + intToU64 (BitVec.ofNat 32 count)
      · rw [if_pos hx, if_pos]
        split at hwritten <;> omega
      · rw [if_neg hx]
        congr 1
        rw [eq_iff_iff]
        split at hwritten <;> omega

/-- The bytes of the buffer after `InitBitmap`: its `int` index reaches 2 GiB of them. -/
theorem initBitmap_spec (s : PageFrameAllocator) {size : Nat} (hsize : size < 2 ^ 64)
    (buffer : Nat) :
    ∃ mem : ByteMemory,
      s.initBitmap size buffer = { s with pageBitmap := ⟨size, buffer⟩, mem := mem } ∧
      (∀ x < buffer + 2 ^ 63, mem x = s.mem.fill buffer (min size (2 ^ 31)) 0 x) ∧
      (size ≤ 2 ^ 63 → mem = s.mem.fill buffer (min size (2 ^ 31)) 0) := by
  have hiterations : min (intIterations size) (2 ^ 31) = min size (2 ^ 31) ∧
      (size ≤ 2 ^ 63 → intIterations size ≤ 2 ^ 31) := by
    simp only [intIterations]
    split
    · omega
    · split <;> omega
  have hbound := intIterations_lt hsize
  have hrun := foldl_poke { s with pageBitmap := ⟨size, buffer⟩ } buffer (intIterations size)
    (by omega)
  refine ⟨_, (forInt_eq_foldl hsize _ _).trans hrun, fun x hx => ?_,
    fun hsmall => funext fun x => ?_⟩
  · simp only [ByteMemory.fill]
    congr 1
    rw [eq_iff_iff]
    omega
  · have hfew := hiterations.2 hsmall
    simp only [ByteMemory.fill]
    congr 1
    rw [eq_iff_iff]
    omega

theorem initBitmap_eq (s : PageFrameAllocator) {size : Nat} (hsize : size ≤ 2 ^ 63)
    (buffer : Nat) :
    s.initBitmap size buffer =
      { s with
        pageBitmap := ⟨size, buffer⟩
        mem := s.mem.fill buffer (min size (2 ^ 31)) 0 } := by
  have hlt : size < 2 ^ 64 := by omega
  obtain ⟨mem, heq, -, hmem⟩ := initBitmap_spec s hlt buffer
  rw [heq, hmem hsize]

/-- A bit `InitBitmap` does not reach keeps what memory held before. -/
def Stale (mMap : List Descriptor) (mem : ByteMemory) (i : Nat) : Prop :=
  2 ^ 31 ≤ i / 8 ∧ (bitmapOf mMap).get mem i = true

theorem bit_of_initBitmap {size buffer : Nat} (hsize : size < 2 ^ 64)
    (hi : i < wrap64 (size * 8)) :
    (s.initBitmap size buffer).bit i = true ↔
      2 ^ 31 ≤ i / 8 ∧ Bitmap.get ⟨size, buffer⟩ s.mem i = true := by
  obtain ⟨mem, heq, hmem, -⟩ := initBitmap_spec s hsize buffer
  have hbits : wrap64 (size * 8) ≤ size * 8 := Nat.mod_le _ _
  have hroom := wrap64_lt (size * 8)
  have hle : i ≤ wrap64 ((⟨size, buffer⟩ : Bitmap).size * 8) := Nat.le_of_lt hi
  rw [heq, bit]
  change Bitmap.get ⟨size, buffer⟩ mem i = true ↔ _
  rw [Bitmap.get_of_le hle, Bitmap.get_of_le hle, Bitmap.bit, Bitmap.bit]
  dsimp only
  rw [hmem _ (by omega)]
  simp only [ByteMemory.fill]
  by_cases hreached : i / 8 < 2 ^ 31
  · rw [if_pos (by omega)]
    simp only [BitVec.ofNat_eq_ofNat, BitVec.getLsbD_zero, Bool.false_eq_true, false_iff,
      not_and]
    omega
  · rw [if_neg (by omega)]
    simp only [iff_and_self]
    omega

theorem bit_initBitmap (hi : i < (bitmapOf mMap).size * 8) :
    (s.initBitmap (bitmapOf mMap).size (bitmapOf mMap).buffer).bit i = true ↔
      Stale mMap s.mem i := by
  have hsize := bitmapOf_size mMap
  exact bit_of_initBitmap (by omega) (by rw [wrap64_of_lt (by omega)]; exact hi)

theorem unreserveConventional_bit (hi : i ≤ s.limit) :
    (s.unreserveConventional mMap).pageBitmap = s.pageBitmap ∧
      (s.unreserveConventional mMap).pageBitmapIndex ≤ s.pageBitmapIndex ∧
      ((s.unreserveConventional mMap).bit i = true ↔
        s.bit i = true ∧ ∀ desc ∈ mMap, desc.type = conventional →
          ¬ Visits desc.physAddr.toNat desc.numPages.toNat i) := by
  unfold unreserveConventional
  induction mMap generalizing s with
  | nil => simp
  | cons desc mMap ih =>
      rw [List.foldl_cons]
      by_cases htype : desc.type = conventional
      · have hcount : desc.numPages.toNat < 2 ^ 64 := desc.numPages.toNat_lt
        have hbitmap : (s.unreservePages desc.physAddr.toNat desc.numPages.toNat).pageBitmap =
            s.pageBitmap := pageBitmap_unreservePages hcount
        have hsame : (s.unreservePages desc.physAddr.toNat desc.numPages.toNat).limit =
            s.limit := by
          rw [limit, hbitmap]
          rfl
        obtain ⟨hrestBitmap, hrestIndex, hrestBit⟩ :=
          @ih (s.unreservePages desc.physAddr.toNat desc.numPages.toNat) (by omega)
        rw [if_pos htype]
        refine ⟨hrestBitmap.trans hbitmap, Nat.le_trans hrestIndex ?_, ?_⟩
        · exact pageBitmapIndex_overPages_le hcount fun i s => pullBack_le _ _
        · rw [hrestBit, bit_unreservePages hcount]
          simp only [List.forall_mem_cons, htype, true_implies, hi, and_true]
          by_cases hvisit : Visits desc.physAddr.toNat desc.numPages.toNat i
          · simp [hvisit]
          · simp [hvisit]
      · rw [if_neg htype]
        obtain ⟨hrestBitmap, hrestIndex, hrestBit⟩ := ih hi
        refine ⟨hrestBitmap, hrestIndex, ?_⟩
        rw [hrestBit]
        simp [htype]

/--
Page `i` is withheld: reserved, or set before and never cleared, and not given
back with a conventional segment; or in the first MiB; or locked with the bitmap.
-/
def Withheld (mMap : List Descriptor) (mem : ByteMemory) (i : Nat) : Prop :=
  ((Stale mMap mem i ∨ Reaches 0 (getMemorySize mMap / 4096 + 1) i) ∧
      ∀ desc ∈ mMap, desc.type = conventional →
        ¬ Reaches desc.physAddr.toNat desc.numPages.toNat i) ∨
    i < 0x100 ∨
    Reaches (bitmapOf mMap).buffer ((bitmapOf mMap).size / 4096 + 1) i

theorem bitmapOf_buffer_lt (mMap : List Descriptor) :
    (bitmapOf mMap).buffer < 2 ^ 64 := by
  unfold bitmapOf largestSegment
  suffices hfold : ∀ largest : Nat × Nat, largest.1 < 2 ^ 64 →
      (mMap.foldl
        (fun largest desc =>
          if desc.type = conventional ∧
              wrap64 (desc.numPages.toNat * 4096) > largest.2 then
            (desc.physAddr.toNat, wrap64 (desc.numPages.toNat * 4096))
          else largest) largest).1 < 2 ^ 64 from
    hfold (NULL, 0) (Nat.two_pow_pos 64)
  induction mMap with
  | nil => exact fun largest hlargest => hlargest
  | cons desc mMap ih =>
      intro largest hlargest
      rw [List.foldl_cons]
      apply ih
      split
      · exact desc.physAddr.toNat_lt
      · exact hlargest

theorem limit_of_bitmapOf (h : s.pageBitmap = bitmapOf mMap) :
    s.limit = (bitmapOf mMap).size * 8 := by
  have hsize := bitmapOf_size mMap
  rw [limit, h, wrap64_of_lt (by omega)]

theorem markPages_spec (hbitmap : s.pageBitmap = bitmapOf mMap)
    (hi : i < (bitmapOf mMap).size * 8) :
    (s.markPages mMap).pageBitmap = bitmapOf mMap ∧
      (s.markPages mMap).pageBitmapIndex ≤ s.pageBitmapIndex ∧
      ((s.markPages mMap).bit i = true ↔
        ((s.bit i = true ∨ Visits 0 (getMemorySize mMap / 4096 + 1) i) ∧
          ∀ desc ∈ mMap, desc.type = conventional →
            ¬ Visits desc.physAddr.toNat desc.numPages.toNat i) ∨
        i < 0x100 ∨
        Visits (bitmapOf mMap).buffer ((bitmapOf mMap).size / 4096 + 1) i) := by
  have hmemory := getMemorySize_lt mMap
  have hsize := bitmapOf_size mMap
  have hpages : getMemorySize mMap / 4096 + 1 < 2 ^ 64 := by omega
  have hlock : (bitmapOf mMap).size / 4096 + 1 < 2 ^ 64 := by omega
  unfold markPages
  dsimp only
  generalize hs₁ : s.reservePages 0 (getMemorySize mMap / 4096 + 1) = s₁
  have hbitmap₁ : s₁.pageBitmap = bitmapOf mMap := by
    rw [← hs₁, pageBitmap_reservePages hpages, hbitmap]
  have hlimit₁ := limit_of_bitmapOf hbitmap₁
  obtain ⟨hbitmap₂, hindex₂, hbit₂⟩ :=
    @unreserveConventional_bit s₁ mMap i (by omega)
  generalize s₁.unreserveConventional mMap = s₂ at *
  rw [hbitmap₁] at hbitmap₂
  have hlimit₂ := limit_of_bitmapOf hbitmap₂
  generalize hs₃ : s₂.reservePages 0 0x100 = s₃
  have hbitmap₃ : s₃.pageBitmap = bitmapOf mMap := by
    rw [← hs₃, pageBitmap_reservePages (by norm_num), hbitmap₂]
  have hlimit₃ := limit_of_bitmapOf hbitmap₃
  have hindex₁ : s₁.pageBitmapIndex ≤ s.pageBitmapIndex := by
    rw [← hs₁]
    exact pageBitmapIndex_overPages_le hpages fun _ _ => Nat.le_refl _
  have hindex₃ : s₃.pageBitmapIndex ≤ s₂.pageBitmapIndex := by
    rw [← hs₃]
    exact pageBitmapIndex_overPages_le (by norm_num) fun _ _ => Nat.le_refl _
  rw [hbitmap₃]
  refine ⟨?_, ?_, ?_⟩
  · rw [pageBitmap_lockPages hlock, hbitmap₃]
  · have hindex₄ : (s₃.lockPages (bitmapOf mMap).buffer
        ((bitmapOf mMap).size / 4096 + 1)).pageBitmapIndex ≤ s₃.pageBitmapIndex :=
      pageBitmapIndex_overPages_le hlock fun _ _ => Nat.le_refl _
    omega
  · have hbios : Visits 0 0x100 i ↔ i < 0x100 := by
      rw [visits_iff (by norm_num) (by norm_num) (by norm_num)]
      omega
    rw [bit_lockPages hlock, ← hs₃, bit_reservePages (by norm_num)]
    rw [← hs₁, bit_reservePages hpages] at hbit₂
    have hi₀ : i ≤ s.limit := by
      rw [limit_of_bitmapOf hbitmap]
      omega
    have hi₂ : i ≤ s₂.limit := by omega
    have hi₃ : i ≤ (s₂.reservePages 0 0x100).limit := by
      rw [hs₃]
      omega
    simp only [hi₀, hi₂, hi₃, and_true, hbios] at hbit₂ ⊢
    by_cases hlocked : Visits (bitmapOf mMap).buffer ((bitmapOf mMap).size / 4096 + 1) i
    · simp [hlocked]
    · by_cases hlow : i < 0x100
      · simp [hlow]
      · simp only [hlocked, hlow, if_false, or_false, hbit₂]
        by_cases hreserved : Visits 0 (getMemorySize mMap / 4096 + 1) i
        · simp [hreserved]
        · simp [hreserved]

theorem readEFIMemoryMap_spec (hfresh : s.initialised = false)
    (hi : i < (bitmapOf mMap).size * 8) :
    (s.readEFIMemoryMap mMap).pageBitmap = bitmapOf mMap ∧
      (s.readEFIMemoryMap mMap).pageBitmapIndex ≤ s.pageBitmapIndex ∧
      ((s.readEFIMemoryMap mMap).bit i = true ↔ Withheld mMap s.mem i) := by
  have hsize := bitmapOf_size mMap
  have heq : s.readEFIMemoryMap mMap =
      (PageFrameAllocator.initBitmap
        { s with
          initialised := true
          totalMemory := getMemorySize mMap
          freeMemory := getMemorySize mMap }
        (bitmapOf mMap).size (bitmapOf mMap).buffer).markPages mMap := by
    rw [readEFIMemoryMap, if_neg (by simp [hfresh])]
    rfl
  have hbit₁ := @bit_initBitmap
    { s with
      initialised := true
      totalMemory := getMemorySize mMap
      freeMemory := getMemorySize mMap } mMap i hi
  rw [heq]
  generalize hs₁ : PageFrameAllocator.initBitmap _ _ _ = s₁ at hbit₁ ⊢
  rw [initBitmap_eq _ (by omega)] at hs₁
  have hbitmap₁ : s₁.pageBitmap = bitmapOf mMap := by rw [← hs₁]
  have hindex₁ : s₁.pageBitmapIndex = s.pageBitmapIndex := by rw [← hs₁]
  have hmarked := markPages_spec hbitmap₁ hi
  have hmemory := getMemorySize_lt mMap
  rw [hbit₁, hindex₁, visits_iff_reaches (by omega) (by norm_num),
    visits_iff_reaches (by omega) (bitmapOf_buffer_lt mMap)] at hmarked
  have hgiven : ∀ desc : Descriptor, Visits desc.physAddr.toNat desc.numPages.toNat i ↔
      Reaches desc.physAddr.toNat desc.numPages.toNat i := fun desc =>
    visits_iff_reaches desc.numPages.toNat_lt desc.physAddr.toNat_lt
  simp only [hgiven] at hmarked
  exact hmarked

/-- Page `i` is conventional memory above the first MiB, clear of the bitmap. -/
def Usable (mMap : List Descriptor) (i : Nat) : Prop :=
  (∃ desc ∈ mMap, desc.type = conventional ∧ desc.physAddr.toNat ≤ i * 4096 ∧
    (i + 1) * 4096 ≤ desc.physAddr.toNat + desc.numPages.toNat * 4096) ∧
  0x100 ≤ i ∧
  ((i + 1) * 4096 ≤ (bitmapOf mMap).buffer ∨
    (bitmapOf mMap).buffer + (bitmapOf mMap).size ≤ i * 4096)

/--
After `ReadEFIMemoryMap` only usable frames are ever handed out if and only if
every page below `Size * 8` that is not usable is withheld by its loops.
-/
theorem frames_usable_iff (hfresh : s.initialised = false)
    (hindex : s.pageBitmapIndex = 0) :
    (∀ k, (afterRequests k (s.readEFIMemoryMap mMap)).requestPage.1 ≠ NULL →
      Usable mMap
        ((afterRequests k (s.readEFIMemoryMap mMap)).requestPage.1 / 4096)) ↔
    ∀ i, i < (bitmapOf mMap).size * 8 → ¬ Usable mMap i →
      Withheld mMap s.mem i := by
  have hsize := bitmapOf_size mMap
  have hfirst : 0 < (bitmapOf mMap).size * 8 := by
    simp only [bitmapOf]
    omega
  obtain ⟨hbitmap, hcursor, -⟩ := readEFIMemoryMap_spec hfresh hfirst
  have hlimit := limit_of_bitmapOf hbitmap
  rw [handed_out_iff (by omega) fun p => Usable mMap (p / 4096)]
  constructor
  · intro hall i hi hbad
    rw [← (readEFIMemoryMap_spec hfresh hi).2.2]
    by_contra hclear
    have hlow : i ≠ 0 := by
      rintro rfl
      exact hclear ((readEFIMemoryMap_spec hfresh hi).2.2.mpr (Or.inr (Or.inl (by norm_num))))
    have hgood := hall i (by omega) (by omega) (by simpa using hclear) hlow
    rw [Nat.mul_div_cancel i (by decide : 0 < 4096)] at hgood
    exact hbad hgood
  · intro hall i _ hi hclear _
    rw [Nat.mul_div_cancel i (by decide : 0 < 4096)]
    by_contra hbad
    have hset := (readEFIMemoryMap_spec hfresh (by omega)).2.2.mpr
      (hall i (by omega) hbad)
    rw [hclear] at hset
    contradiction

/-- Seven conventional pages above 1 MiB make a total that fills the bitmap. -/
def filledMap : List Descriptor := [⟨0, 0, 0x100⟩, ⟨7, 0x100000, 7⟩]

/-- One conventional page above 1 MiB leaves six spare bits. -/
def spareMap : List Descriptor := [⟨0, 0, 0x100⟩, ⟨7, 0x100000, 1⟩]

def freshAllocator : PageFrameAllocator :=
  ⟨fun _ => 0, ⟨0, 0⟩, 0, 0, 0, 0, 0, false⟩

section SegmentMap

variable {pages : UInt64}

private def segmentMap (pages : UInt64) : List Descriptor := [⟨0, 0, 0x100⟩, ⟨7, 0x100000, pages⟩]

private theorem segmentMap_sizes (hpos : 0 < pages.toNat) (hfew : pages.toNat ≤ 0x100) :
    getMemorySize (segmentMap pages) = (0x100 + pages.toNat) * 4096 ∧
    largestSegment (segmentMap pages) = (0x100000, pages.toNat * 4096) := by
  constructor
  · change wrap64 (0x100 * 4096 + pages.toNat * 4096) = _
    rw [wrap64_of_lt (by omega)]
    omega
  · have hsize : wrap64 (pages.toNat * 4096) = pages.toNat * 4096 := wrap64_of_lt (by omega)
    simp [largestSegment, segmentMap, conventional, hsize, hpos]

private theorem reaches_iff {address pageCount i : Nat} (hcount : pageCount ≤ 2 ^ 19)
    (hroom : address / 4096 + pageCount ≤ 2 ^ 52) (haddress : address < 2 ^ 64) :
    Reaches address pageCount i ↔ address / 4096 ≤ i ∧ i < address / 4096 + pageCount :=
  (visits_iff_reaches (by omega) haddress).symm.trans (visits_iff hcount hroom haddress)

/-- The bits after the map is read: the last page counted stays reserved, and none behind it. -/
private theorem bit_segmentMap (hpos : 0 < pages.toNat) (hfew : pages.toNat ≤ 0x100) {i : Nat}
    (hi : i < (bitmapOf (segmentMap pages)).size * 8) :
    (freshAllocator.readEFIMemoryMap (segmentMap pages)).bit i = true ↔
      i ≤ 0x100 ∨ i = 0x100 + pages.toNat := by
  obtain ⟨hmemory, hlargest⟩ := segmentMap_sizes hpos hfew
  have hbitmap : bitmapOf (segmentMap pages) = ⟨(0x100 + pages.toNat) / 8 + 1, 0x100000⟩ := by
    rw [bitmapOf, hmemory, hlargest, Nat.mul_div_cancel _ (by norm_num)]
  rw [hbitmap] at hi
  dsimp only at hi
  have hstale : ¬ Stale (segmentMap pages) freshAllocator.mem i := fun h => by
    have hlow := h.1
    omega
  have hreserved : Reaches 0 (getMemorySize (segmentMap pages) / 4096 + 1) i ↔
      i ≤ 0x100 + pages.toNat := by
    rw [hmemory, reaches_iff (by omega) (by omega) (by norm_num)]
    omega
  have hlocked : Reaches (bitmapOf (segmentMap pages)).buffer
      ((bitmapOf (segmentMap pages)).size / 4096 + 1) i ↔ i = 0x100 := by
    rw [hbitmap]
    dsimp only
    rw [reaches_iff (by omega) (by omega) (by norm_num)]
    omega
  have hgiven : (∀ desc ∈ segmentMap pages, desc.type = conventional →
      ¬ Reaches desc.physAddr.toNat desc.numPages.toNat i) ↔
        ¬ (0x100 ≤ i ∧ i < 0x100 + pages.toNat) := by
    have hsegment : Reaches 0x100000 pages.toNat i ↔ 0x100 ≤ i ∧ i < 0x100 + pages.toNat :=
      reaches_iff (by omega) (by omega) (by norm_num)
    rw [← hsegment]
    simp [segmentMap, conventional]
  rw [(readEFIMemoryMap_spec rfl (by rw [hbitmap]; exact hi)).2.2, Withheld, hreserved, hlocked,
    hgiven]
  simp only [hstale, false_or]
  omega

private theorem requestPage_segmentMap (hpos : 0 < pages.toNat) (hfew : pages.toNat ≤ 0x100)
    {i : Nat} (hi : i < (bitmapOf (segmentMap pages)).size * 8)
    (hclear : ¬ (i ≤ 0x100 ∨ i = 0x100 + pages.toNat))
    (hbefore : ∀ j < i, j ≤ 0x100 ∨ j = 0x100 + pages.toNat) :
    (freshAllocator.readEFIMemoryMap (segmentMap pages)).requestPage.1 = wrap64 (i * 4096) := by
  have hcursor : (freshAllocator.readEFIMemoryMap (segmentMap pages)).pageBitmapIndex ≤ 0 :=
    (readEFIMemoryMap_spec rfl hi).2.1
  have hlimit := limit_of_bitmapOf (readEFIMemoryMap_spec (s := freshAllocator) rfl hi).1
  rw [requestPage_eq (i := i) (by omega) (by omega)]
  · intro j _ hj
    exact (bit_segmentMap hpos hfew (by omega)).mpr (hbefore j hj)
  · rw [← Bool.not_eq_true, bit_segmentMap hpos hfew hi]
    exact hclear

end SegmentMap

theorem bit_filledMap {i : Nat} (hi : i < (bitmapOf filledMap).size * 8) :
    (freshAllocator.readEFIMemoryMap filledMap).bit i = true ↔ i ≤ 0x100 ∨ i = 0x107 :=
  @bit_segmentMap 7 (by decide) (by decide) i hi

theorem frames_usable_filled :
    (freshAllocator.readEFIMemoryMap filledMap).requestPage.1 = 0x101000 ∧
      Usable filledMap 0x101 := by
  have hbitmap : bitmapOf filledMap = ⟨33, 0x100000⟩ := by decide
  have hmemory : getMemorySize filledMap = 263 * 4096 := by decide
  have hwithheld : ∀ i, i < (bitmapOf filledMap).size * 8 → ¬ Usable filledMap i →
      Withheld filledMap freshAllocator.mem i := by
    intro i hi hbad
    rw [hbitmap] at hi
    simp only [Nat.reduceMul] at hi
    simp only [Withheld, hbitmap, hmemory, Reaches]
    by_cases hbios : i < 0x100
    · exact Or.inr (Or.inl hbios)
    · by_cases hlocked : i = 0x100
      · exact Or.inr (Or.inr ⟨0, by omega, by omega⟩)
      · by_cases hsegment : i < 0x107
        · refine absurd ⟨⟨⟨7, 0x100000, 7⟩, by simp [filledMap], rfl, ?_, ?_⟩, ?_, ?_⟩ hbad
          · change 0x100000 ≤ i * 4096
            omega
          · change (i + 1) * 4096 ≤ 0x100000 + 7 * 4096
            omega
          · omega
          · rw [hbitmap]
            exact Or.inr (by simp only; omega)
        · refine Or.inl ⟨Or.inr ⟨i, by omega, by omega⟩, ?_⟩
          intro desc hdesc htype
          simp only [filledMap, List.mem_cons, List.not_mem_nil, or_false] at hdesc
          rcases hdesc with rfl | rfl
          · simp [conventional] at htype
          · change ¬ ∃ t, t < 7 ∧ _
            rintro ⟨t, ht, heq⟩
            change (t < 2 ^ 19 ∧ i = (0x100000 / 4096 + t) % 2 ^ 52) ∨ (2 ^ 19 ≤ t ∧ _) at heq
            omega
  have hfirst : (freshAllocator.readEFIMemoryMap filledMap).requestPage.1 = 0x101000 :=
    @requestPage_segmentMap 7 (by decide) (by decide) 0x101 (by decide) (by decide)
      (fun j hj => by omega)
  have hgood := (frames_usable_iff (rfl : freshAllocator.initialised = false) rfl).mpr
    hwithheld 0
  rw [afterRequests, hfirst] at hgood
  exact ⟨hfirst, hgood (by decide)⟩

/-- The first frame handed out lies past the end of all memory. -/
theorem spare_frame_handed_out :
    (bitmapOf spareMap).size ≤ (largestSegment spareMap).2 ∧
      (freshAllocator.readEFIMemoryMap spareMap).requestPage.1 = 0x102000 ∧
      ¬ Usable spareMap 0x102 := by
  refine ⟨by decide, @requestPage_segmentMap 1 (by decide) (by decide) 0x102 (by decide)
    (by decide) (fun j hj => ?_), ?_⟩
  · change j ≤ 0x100 ∨ j = 0x100 + 1
    omega
  rintro ⟨⟨desc, hdesc, htype, hlo, hhi⟩, -⟩
  simp only [spareMap, List.mem_cons, List.not_mem_nil, or_false] at hdesc
  rcases hdesc with rfl | rfl
  · simp [conventional] at htype
  · change (0x102 + 1) * 4096 ≤ 0x100000 + 1 * 4096 at hhi
    omega

end Bits

end UnifiedOS.Paging
