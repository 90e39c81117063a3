import UnifiedOS.Foundation.TransitionSystem
import UnifiedOS.Paging.MemoryMap

/-!
# Free frames stay in reach

`RequestPage` looks for a clear bit from the cursor on.  It finds every free
frame as long as none lies below the cursor.  Requests for single pages and
freed pages see to that, but a request for several pages leaves the cursor at
the run it found, whatever it passed over.  Frame 0 cannot be told from a
failure.
-/

namespace UnifiedOS.Paging

open UnifiedOS.Foundation
open PageFrameAllocator

inductive PageOperation where
  | requestPage
  | requestPages (count : UInt64)
  | lockPage (address : UInt64)
  | lockPages (address pageCount : UInt64)
  | freePage (address : UInt64)
  | freePages (address pageCount : UInt64)

def PageOperation.apply (s : PageFrameAllocator) : PageOperation → PageFrameAllocator
  | .requestPage => s.requestPage.2
  | .requestPages count => (s.requestPages count.toNat).2
  | .lockPage address => s.lockPage address.toNat
  | .lockPages address pageCount => s.lockPages address.toNat pageCount.toNat
  | .freePage address => s.freePage address.toNat
  | .freePages address pageCount => s.freePages address.toNat pageCount.toNat

/-- The first free run of `count` pages, if there is one, is not behind a free frame. -/
def PassesNoFrame (s : PageFrameAllocator) (count : Nat) : Prop :=
  ∀ i, s.pageBitmapIndex ≤ i → i < s.limit → s.runFree i count = true →
    (∀ j, s.pageBitmapIndex ≤ j → j < i → s.runFree j count = false) →
    ∀ j, s.pageBitmapIndex ≤ j → j < i → s.bit j = true

def LeavesNoFrame (s : PageFrameAllocator) : PageOperation → Prop
  | .requestPages count => PassesNoFrame s count.toNat
  | .freePage address => address.toNat / 4096 ≠ 0
  | .freePages address pageCount => ¬ Visits address.toNat pageCount.toNat 0
  | _ => True

/-- The states after `ReadEFIMemoryMap` and operations as they are `allowed`. -/
def ReachableFromMap (allowed : PageFrameAllocator → PageOperation → Prop) :
    PageFrameAllocator → Prop :=
  Reachable
    (fun s => ∃ (fresh : PageFrameAllocator) (mMap : List Descriptor),
      fresh.initialised = false ∧ fresh.pageBitmapIndex = 0 ∧ s = fresh.readEFIMemoryMap mMap)
    fun s s' => ∃ op, allowed s op ∧ s' = op.apply s

/-- Every free frame is at or above the cursor, and frame 0 is not free. -/
structure InReach (s : PageFrameAllocator) : Prop where
  nonempty : 0 < s.limit
  small : s.limit ≤ 2 ^ 52
  first : s.bit 0 = true
  below : ∀ j < s.pageBitmapIndex, j < s.limit → s.bit j = true

section Reach

variable {s s' : PageFrameAllocator} {address pageCount : Nat}

/-- Marking frames is harmless as long as the cursor passes over marked ones. -/
theorem InReach.raise (h : InReach s) (hbitmap : s'.pageBitmap = s.pageBitmap)
    (hraised : ∀ j, s.bit j = true → s'.bit j = true)
    (hpassed : ∀ j < s'.pageBitmapIndex, j < s.limit → s.bit j = true) : InReach s' := by
  have hlimit : s'.limit = s.limit := limit_congr hbitmap
  constructor
  · rw [hlimit]
    exact h.nonempty
  · rw [hlimit]
    exact h.small
  · exact hraised 0 h.first
  · rw [hlimit]
    exact fun j hj hlt => hraised j (hpassed j hj hlt)

theorem bit_lockPage_of_bit {j : Nat} (h : s.bit j = true) :
    (s.lockPage address).bit j = true := by
  rw [bit_lockPage]
  split
  · rfl
  · exact h

theorem bit_lockPages_of_bit {j : Nat} (hcount : pageCount < 2 ^ 64) (h : s.bit j = true) :
    (s.lockPages address pageCount).bit j = true := by
  rw [bit_lockPages hcount]
  split
  · rfl
  · exact h

theorem pageBitmapIndex_lockPages (hcount : pageCount < 2 ^ 64) :
    (s.lockPages address pageCount).pageBitmapIndex = s.pageBitmapIndex := by
  rw [lockPages, overPages, forInt_eq_foldl hcount]
  induction intIterations pageCount with
  | zero => rfl
  | succ count ih =>
      rw [List.range_succ, List.foldl_append, List.foldl_cons, List.foldl_nil,
        pageBitmapIndex_lockPage, ih]

theorem pageBitmapIndex_freePage (hset : s.bit (address / 4096) = true)
    (hle : address / 4096 ≤ s.limit) :
    (s.freePage address).pageBitmapIndex = min s.pageBitmapIndex (address / 4096) := by
  have hwritten : (s.pageBitmap.set s.mem (address / 4096) false).1 = true := by
    rw [Bitmap.set, if_neg (by rw [limit] at hle; omega)]
  simp only [freePage, setPage, hset, Bool.true_eq_false, if_false, hwritten, if_true, pullBack]
  split <;> omega

theorem InReach.freePage (h : InReach s) (haddress : address / 4096 ≠ 0) :
    InReach (s.freePage address) := by
  have hlimit : (s.freePage address).limit = s.limit := limit_congr pageBitmap_freePage
  constructor
  · rw [hlimit]
    exact h.nonempty
  · rw [hlimit]
    exact h.small
  · rw [bit_freePage, if_neg fun hzero => haddress hzero.1.symm]
    exact h.first
  · rw [hlimit]
    intro j hj hlt
    have hdown : (s.freePage address).pageBitmapIndex ≤ s.pageBitmapIndex :=
      pageBitmapIndex_setPage_le fun i s => pullBack_le i _
    have hold : s.bit j = true := h.below j (by omega) hlt
    rw [bit_freePage]
    by_cases hfreed : j = address / 4096 ∧ j ≤ s.limit
    · have hpulled := pageBitmapIndex_freePage (hfreed.1 ▸ hold) (hfreed.1 ▸ hfreed.2)
      omega
    · rw [if_neg hfreed]
      exact hold

theorem InReach.freePages (h : InReach s) (hcount : pageCount < 2 ^ 64)
    (hzero : ¬ Visits address pageCount 0) : InReach (s.freePages address pageCount) := by
  have hvisited : ∀ t < intIterations pageCount,
      pageAt address (BitVec.ofNat 32 t) / 4096 ≠ 0 := fun t ht hpage =>
    hzero ⟨t, ht, hpage⟩
  rw [PageFrameAllocator.freePages, overPages, forInt_eq_foldl hcount]
  clear hzero
  generalize intIterations pageCount = iterations at hvisited
  induction iterations with
  | zero => exact h
  | succ count ih =>
      rw [List.range_succ, List.foldl_append]
      exact (ih fun t ht => hvisited t (by omega)).freePage (hvisited count (by omega))

theorem InReach.apply {op : PageOperation} (h : InReach s) (hop : LeavesNoFrame s op) :
    InReach (op.apply s) := by
  cases op with
  | requestPage =>
      rcases @requestPage_cases s with ⟨i, -, -, hmarked, -, heq⟩ | ⟨hall, index, -, -, heq⟩
      · rw [PageOperation.apply, heq]
        apply h.raise
        · exact pageBitmap_lockPage
        · exact fun j hj => bit_lockPage_of_bit hj
        · intro j hj hlt
          rw [pageBitmapIndex_lockPage] at hj
          by_cases hbelow : j < s.pageBitmapIndex
          · exact h.below j hbelow hlt
          · exact hmarked j (by omega) hj
      · rw [PageOperation.apply, heq]
        apply h.raise
        · rfl
        · exact fun j hj => hj
        · intro j _ hlt
          by_cases hbelow : j < s.pageBitmapIndex
          · exact h.below j hbelow hlt
          · exact hall j (by omega) hlt
  | requestPages count =>
      have hcount := count.toNat_lt
      rcases @requestPages_cases s count.toNat with ⟨i, hi, hlt, hfree, hfirst, heq⟩ | ⟨-, heq⟩
      · have hmarked := hop i hi hlt hfree hfirst
        rw [PageOperation.apply, heq]
        apply h.raise
        · exact pageBitmap_lockPages hcount
        · exact fun j hj => bit_lockPages_of_bit hcount hj
        · intro j hj hlt
          rw [pageBitmapIndex_lockPages hcount] at hj
          have hlow : j < i := hj
          by_cases hbelow : j < s.pageBitmapIndex
          · exact h.below j hbelow hlt
          · exact hmarked j (by omega) (by omega)
      · rw [PageOperation.apply, heq]
        exact h
  | lockPage address =>
      apply h.raise
      · exact pageBitmap_lockPage
      · exact fun j hj => bit_lockPage_of_bit hj
      · intro j hj hlt
        rw [PageOperation.apply, pageBitmapIndex_lockPage] at hj
        exact h.below j hj hlt
  | lockPages address pageCount =>
      apply h.raise
      · exact pageBitmap_lockPages pageCount.toNat_lt
      · exact fun j hj => bit_lockPages_of_bit pageCount.toNat_lt hj
      · intro j hj hlt
        rw [PageOperation.apply, pageBitmapIndex_lockPages pageCount.toNat_lt] at hj
        exact h.below j hj hlt
  | freePage address => exact h.freePage hop
  | freePages address pageCount => exact h.freePages pageCount.toNat_lt hop

/-- The memory map withholds the frames of the BIOS, and the cursor starts at 0. -/
theorem inReach_readEFIMemoryMap {mMap : List Descriptor} (hfresh : s.initialised = false)
    (hindex : s.pageBitmapIndex = 0) : InReach (s.readEFIMemoryMap mMap) := by
  have hsize := bitmapOf_size mMap
  have hfirst : 0 < (bitmapOf mMap).size * 8 := by
    simp only [bitmapOf]
    omega
  obtain ⟨hbitmap, hcursor, hbit⟩ := readEFIMemoryMap_spec hfresh hfirst
  have hlimit := limit_of_bitmapOf hbitmap
  constructor
  · rw [hlimit]
    exact hfirst
  · rw [hlimit]
    omega
  · exact hbit.mpr (.inr (.inl (by omega)))
  · intro j hj
    omega

/-- A state in which no free frame is out of reach answers null only when all are taken. -/
theorem InReach.complete (h : InReach s) (hnull : s.requestPage.1 = NULL) :
    ∀ j < s.limit, s.bit j = true := by
  have hsmall := h.small
  rcases @requestPage_cases s with ⟨i, -, hi, -, hclear, heq⟩ | ⟨hall, -⟩
  · rw [heq] at hnull
    have hzero : i * 4096 = 0 := by
      rw [← wrap64_of_lt (show i * 4096 < 2 ^ 64 by omega)]
      exact hnull
    have hfirst : i = 0 := by omega
    rw [hfirst, h.first] at hclear
    contradiction
  · intro j hj
    by_cases hbelow : j < s.pageBitmapIndex
    · exact h.below j hbelow hj
    · exact hall j (by omega) hj

/--
As long as no request for several pages passes over a free frame and frame 0 is
not freed, `RequestPage` fails only when no frame is free, and none is ever
below the cursor.
-/
theorem requestPage_complete (s : PageFrameAllocator)
    (hreach : ReachableFromMap LeavesNoFrame s) :
    (s.requestPage.1 = NULL → ∀ j < s.limit, s.bit j = true) ∧
      ∀ j < s.pageBitmapIndex, j < s.limit → s.bit j = true := by
  have hinv : InReach s := by
    apply Reachable.invariant hreach
    · rintro _ ⟨fresh, mMap, hfresh, hindex, rfl⟩
      exact inReach_readEFIMemoryMap hfresh hindex
    · rintro s _ h ⟨op, hop, rfl⟩
      exact h.apply hop
  exact ⟨hinv.complete, hinv.below⟩

/-! ## Following a run -/

/-- There are `n` frames, the cursor is at `c`, and these frames are free. -/
structure Frames (s : PageFrameAllocator) (n c : Nat) (free : Nat → Prop) : Prop where
  limit : s.limit = n
  small : n ≤ 2 ^ 52
  cursor : s.pageBitmapIndex = c
  free : ∀ i < n, s.bit i = false ↔ free i

namespace Frames

variable {n c i : Nat} {free : Nat → Prop}

theorem bit_set (h : Frames s n c free) (hi : i < n) (hused : ¬ free i) : s.bit i = true := by
  rw [← Bool.not_eq_false, h.free i hi]
  exact hused

theorem requestPage (h : Frames s n c free) (hlo : c ≤ i) (hhi : i < n) (hfree : free i)
    (hfirst : ∀ j, c ≤ j → j < i → ¬ free j) :
    Frames s.requestPage.2 n i fun j => free j ∧ j ≠ i := by
  have hlimit := h.limit
  have hsmall := h.small
  have hcursor := h.cursor
  have hframe : wrap64 (i * 4096) / 4096 = i := by
    rw [wrap64_of_lt (by omega), Nat.mul_div_cancel _ (by norm_num)]
  have hbefore : ∀ j, s.pageBitmapIndex ≤ j → j < i → s.bit j = true := fun j hj hji =>
    h.bit_set (by omega) (hfirst j (by omega) hji)
  rw [requestPage_eq (by omega) (by omega) hbefore ((h.free i hhi).mpr hfree)]
  constructor
  · rw [limit_congr pageBitmap_lockPage, limit_withIndex, hlimit]
  · exact hsmall
  · exact pageBitmapIndex_lockPage
  · intro j hj
    rw [bit_lockPage, hframe, limit_withIndex, bit_withIndex, hlimit]
    by_cases hsame : j = i
    · simp [hsame, hhi.le]
    · simp [hsame, h.free j hj]

theorem requestPage_null (h : Frames s n c free) (hnone : ∀ j, c ≤ j → j < n → ¬ free j) :
    s.requestPage.1 = NULL := by
  have hlimit := h.limit
  have hcursor := h.cursor
  exact Paging.requestPage_null fun j hj hlt => h.bit_set (by omega) (hnone j (by omega) (by omega))

theorem requestPages {count : Nat} (h : Frames s n c free) (hcount : count ≤ 2 ^ 19)
    (hlo : c ≤ i) (hhi : i < n) (hroom : i + count ≤ n) (hfree : ∀ t < count, free (i + t))
    (hfirst : ∀ j, c ≤ j → j < i → ∃ t < count, j + t < n ∧ ¬ free (j + t)) :
    Frames (s.requestPages count).2 n i fun j => free j ∧ ¬ (i ≤ j ∧ j < i + count) := by
  have hlimit := h.limit
  have hsmall := h.small
  have hcursor := h.cursor
  have hframe : wrap64 (i * 4096) / 4096 = i := by
    rw [wrap64_of_lt (by omega), Nat.mul_div_cancel _ (by norm_num)]
  have hbefore : ∀ j, s.pageBitmapIndex ≤ j → j < i → s.runFree j count = false := by
    intro j hj hji
    obtain ⟨t, ht, htn, hused⟩ := hfirst j (by omega) hji
    rw [← Bool.not_eq_true, runFree_iff (by omega) (by omega)]
    intro hall
    exact hused ((h.free _ htn).mp (hall t ht))
  have hrun : s.runFree i count = true :=
    (runFree_iff (by omega) (by omega)).mpr fun t ht => (h.free _ (by omega)).mpr (hfree t ht)
  rw [requestPages_eq (by omega) (by omega) hbefore hrun]
  constructor
  · rw [limit_congr (pageBitmap_lockPages (by omega)), limit_withIndex, hlimit]
  · exact hsmall
  · exact pageBitmapIndex_lockPages (by omega)
  · intro j hj
    have hvisits : Visits (wrap64 (i * 4096)) count j ↔ i ≤ j ∧ j < i + count := by
      rw [visits_iff hcount (by omega) (wrap64_lt _), hframe]
    rw [bit_lockPages (by omega), limit_withIndex, bit_withIndex, hlimit]
    by_cases hinside : i ≤ j ∧ j < i + count
    · simp [hvisits, hinside, hj.le]
    · simp [hvisits, hinside, h.free j hj]

theorem freePage {address : Nat} (h : Frames s n c free) (hhi : address / 4096 < n)
    (hused : ¬ free (address / 4096)) :
    Frames (s.freePage address) n (min c (address / 4096)) fun j =>
      free j ∨ j = address / 4096 := by
  have hlimit := h.limit
  constructor
  · rw [limit_congr pageBitmap_freePage, hlimit]
  · exact h.small
  · rw [pageBitmapIndex_freePage (h.bit_set hhi hused) (by omega), h.cursor]
  · intro j hj
    rw [bit_freePage, hlimit]
    by_cases hsame : j = address / 4096
    · simp [hsame, hhi.le]
    · simp [hsame, h.free j hj]

end Frames

/-! One operation more. -/

section Steps

variable {allowed : PageFrameAllocator → PageOperation → Prop}

private theorem reachable_requestPage (h : ReachableFromMap allowed s)
    (hallowed : allowed s .requestPage) : ReachableFromMap allowed s.requestPage.2 :=
  .next h ⟨.requestPage, hallowed, rfl⟩

private theorem reachable_requestPages {count : UInt64} {n : Nat} (hn : count.toNat = n)
    (h : ReachableFromMap allowed s) (hallowed : allowed s (.requestPages count)) :
    ReachableFromMap allowed (s.requestPages n).2 :=
  .next h ⟨.requestPages count, hallowed, hn ▸ rfl⟩

private theorem reachable_freePage {address : UInt64} {n : Nat} (hn : address.toNat = n)
    (h : ReachableFromMap allowed s) (hallowed : allowed s (.freePage address)) :
    ReachableFromMap allowed (s.freePage n) :=
  .next h ⟨.freePage address, hallowed, hn ▸ rfl⟩

private theorem reachable_filledMap :
    ReachableFromMap allowed (freshAllocator.readEFIMemoryMap filledMap) :=
  .start ⟨freshAllocator, filledMap, rfl, rfl, rfl⟩

end Steps

theorem requestPage_complete_filled :
    let s := (freshAllocator.readEFIMemoryMap filledMap).requestPage.2.freePage 0x101000
    (s.requestPage.1 = NULL → ∀ j < s.limit, s.bit j = true) ∧
      ∀ j < s.pageBitmapIndex, j < s.limit → s.bit j = true := by
  have haddress : LeavesNoFrame (freshAllocator.readEFIMemoryMap filledMap).requestPage.2
      (.freePage 0x101000) := by
    change (0x101000 : UInt64).toNat / 4096 ≠ 0
    decide
  exact requestPage_complete _
    (reachable_freePage (by decide) (reachable_requestPage reachable_filledMap trivial) haddress)

theorem frames_filledMap :
    Frames (freshAllocator.readEFIMemoryMap filledMap) 264 0 fun j => 0x101 ≤ j ∧ j ≤ 0x106 := by
  have hsize : (bitmapOf filledMap).size * 8 = 264 := by decide
  obtain ⟨hbitmap, hcursor, -⟩ := readEFIMemoryMap_spec (s := freshAllocator) rfl
    (show 0 < (bitmapOf filledMap).size * 8 by omega)
  constructor
  · rw [limit_of_bitmapOf hbitmap, hsize]
  · norm_num
  · exact Nat.le_zero.mp hcursor
  · intro j hj
    rw [← Bool.not_eq_true, bit_filledMap (by omega)]
    omega

/--
The two frames of the run are handed out, and all behind it, but not the freed
one before it.
-/
theorem freed_frame_stranded :
    ¬ ∀ s, ReachableFromMap (fun _ _ => True) s → s.requestPage.1 = NULL →
      ∀ j < s.limit, s.bit j = true := by
  intro hcomplete
  have hreach : ReachableFromMap (fun _ _ => True) (freshAllocator.readEFIMemoryMap filledMap) :=
    reachable_filledMap
  have hframes := frames_filledMap
  generalize freshAllocator.readEFIMemoryMap filledMap = s at hreach hframes
  -- two requests, and the first frame back
  have hreach := reachable_requestPage (reachable_requestPage hreach trivial) trivial
  have hframes := hframes.requestPage (i := 0x101) (by omega) (by omega) (by omega) (by omega)
  have hframes := hframes.requestPage (i := 0x102) (by omega) (by omega) (by omega) (by omega)
  generalize s.requestPage.2.requestPage.2 = s at hreach hframes
  have hreach := reachable_freePage (show (0x101000 : UInt64).toNat = 0x101000 by decide)
    hreach trivial
  have hframes := hframes.freePage (show 0x101000 / 4096 < 264 by norm_num) (by norm_num)
  generalize s.freePage 0x101000 = s at hreach hframes
  -- a run of two, which the freed frame is too small for, and the two frames left behind it
  have hreach := reachable_requestPage (reachable_requestPage (reachable_requestPages
    (show (2 : UInt64).toNat = 2 by decide) hreach trivial) trivial) trivial
  have hframes := hframes.requestPages (i := 0x103) (show 2 ≤ 2 ^ 19 by norm_num) (by omega)
    (by omega) (by omega) (fun t ht => by omega) fun j hlo hhi =>
      ⟨0x102 - j, by omega, by omega, by omega⟩
  have hframes := hframes.requestPage (i := 0x105) (by omega) (by omega) (by omega) (by omega)
  have hframes := hframes.requestPage (i := 0x106) (by omega) (by omega) (by omega) (by omega)
  generalize (s.requestPages 2).2.requestPage.2.requestPage.2 = s at hreach hframes
  have hnull := hframes.requestPage_null fun j hlo hhi => by omega
  have hset := hcomplete s hreach hnull 0x101 (by rw [hframes.limit]; norm_num)
  rw [(hframes.free 0x101 (by norm_num)).mpr (by omega)] at hset
  exact Bool.false_ne_true hset

end Reach

end UnifiedOS.Paging
