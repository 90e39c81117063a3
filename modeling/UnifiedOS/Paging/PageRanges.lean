import UnifiedOS.Paging.PageFrameAllocator
import Mathlib.Data.UInt

/-!
# Operations on several pages

The four range operations and `RequestPages` against the ranges they are asked
for.  Their `int` offset is the first thing that goes wrong, after 2 GiB.  The
second is the index `Size * 8`, which the bitmap lets pass: a range over the end
of the bitmap writes one bit behind the buffer, and a run of clear bits may
start in the bitmap and end outside.
-/

namespace UnifiedOS.Paging

open UnifiedOS.Foundation
open PageFrameAllocator

/-! ## The range operations -/

inductive PageAction where
  | free
  | lock
  | reserve
  | unreserve
  deriving DecidableEq, Repr

namespace PageAction

def value : PageAction → Bool
  | free => false
  | lock => true
  | reserve => true
  | unreserve => false

def onPage : PageAction → PageFrameAllocator → Nat → PageFrameAllocator
  | free => freePage
  | lock => lockPage
  | reserve => reservePage
  | unreserve => unreservePage

def onPages : PageAction → PageFrameAllocator → Nat → Nat → PageFrameAllocator
  | free => freePages
  | lock => lockPages
  | reserve => reservePages
  | unreserve => unreservePages

end PageAction

def InRange (s : PageFrameAllocator) (address pageCount j : Nat) : Prop :=
  address / 4096 ≤ j ∧ j < address / 4096 + pageCount ∧ j < s.limit

instance (s : PageFrameAllocator) (address pageCount j : Nat) :
    Decidable (InRange s address pageCount j) :=
  inferInstanceAs (Decidable (_ ∧ _ ∧ _))

def CoversRange (action : PageAction) (s : PageFrameAllocator) (address pageCount : UInt64) :
    Prop :=
  ∀ j, (action.onPages s address.toNat pageCount.toNat).bit j =
    if InRange s address.toNat pageCount.toNat j then action.value else s.bit j

section Ranges

variable {s : PageFrameAllocator} {address pageCount : Nat}

theorem bit_onPages (action : PageAction) (hcount : pageCount < 2 ^ 64) (j : Nat) :
    (action.onPages s address pageCount).bit j =
      if Visits address pageCount j ∧ j ≤ s.limit then action.value else s.bit j := by
  cases action with
  | free => exact bit_freePages hcount
  | lock => exact bit_lockPages hcount
  | reserve => exact bit_reservePages hcount
  | unreserve => exact bit_unreservePages hcount

/--
An operation covers its range exactly if every frame that the loop leaves out,
and every one that it strays to, has the value already.
-/
theorem coversRange_iff (action : PageAction) (s : PageFrameAllocator)
    (address pageCount : UInt64) :
    CoversRange action s address pageCount ↔
      ∀ j ≤ s.limit, (Reaches address.toNat pageCount.toNat j ↔
        ¬ InRange s address.toNat pageCount.toNat j) → s.bit j = action.value := by
  have hvisits : ∀ j, Visits address.toNat pageCount.toNat j ↔
      Reaches address.toNat pageCount.toNat j :=
    fun j => visits_iff_reaches pageCount.toNat_lt address.toNat_lt
  constructor
  · intro h j hj hdiffer
    have hbit := h j
    rw [bit_onPages action pageCount.toNat_lt] at hbit
    by_cases hin : InRange s address.toNat pageCount.toNat j
    · have hmissed : ¬ (Visits address.toNat pageCount.toNat j ∧ j ≤ s.limit) :=
        fun hvisit => hdiffer.mp ((hvisits j).mp hvisit.1) hin
      rw [if_neg hmissed, if_pos hin] at hbit
      exact hbit
    · have hstray : Visits address.toNat pageCount.toNat j ∧ j ≤ s.limit :=
        ⟨(hvisits j).mpr (hdiffer.mpr hin), hj⟩
      rw [if_pos hstray, if_neg hin] at hbit
      exact hbit.symm
  · intro h j
    rw [bit_onPages action pageCount.toNat_lt]
    by_cases hvisit : Visits address.toNat pageCount.toNat j ∧ j ≤ s.limit
    · rw [if_pos hvisit]
      by_cases hin : InRange s address.toNat pageCount.toNat j
      · rw [if_pos hin]
      · rw [if_neg hin]
        exact (h j hvisit.2 (iff_of_true ((hvisits j).mp hvisit.1) hin)).symm
    · rw [if_neg hvisit]
      by_cases hin : InRange s address.toNat pageCount.toNat j
      · have hj : j ≤ s.limit := Nat.le_of_lt hin.2.2
        have hmissed : ¬ Reaches address.toNat pageCount.toNat j :=
          fun hreach => hvisit ⟨(hvisits j).mpr hreach, hj⟩
        rw [if_pos hin]
        exact h j hj (iff_of_false hmissed (not_not_intro hin))
      · rw [if_neg hin]

theorem coversRange_of_le (action : PageAction) (s : PageFrameAllocator)
    {address pageCount : UInt64} (hcount : pageCount.toNat ≤ 2 ^ 19)
    (hend : address.toNat / 4096 + pageCount.toNat ≤ s.limit)
    (hroom : address.toNat / 4096 + pageCount.toNat ≤ 2 ^ 52) :
    CoversRange action s address pageCount := by
  intro j
  rw [bit_onPages action pageCount.toNat_lt]
  congr 1
  rw [visits_iff hcount hroom address.toNat_lt, InRange, eq_iff_iff]
  omega

/-- An empty bitmap for the `2 ^ 19 + 1` frames of a machine with more than 2 GiB. -/
def emptyBitmap : PageFrameAllocator :=
  ⟨fun _ => 0, ⟨(2 ^ 19 + 1) / 8 + 1, 0x100000⟩, 0, 0, 0, 0, (2 ^ 19 + 1) * 4096, true⟩

/-- `ReservePages(0, TotalMemory / 4096 + 1)` leaves the last frame of the machine out. -/
theorem reservePages_leaves_frame :
    ¬ CoversRange .reserve emptyBitmap 0 (2 ^ 19 + 2) ∧
      (PageAction.reserve.onPages emptyBitmap 0 (2 ^ 19 + 2)).bit (2 ^ 19) = false := by
  have hleft : (PageAction.reserve.onPages emptyBitmap 0 (2 ^ 19 + 2)).bit (2 ^ 19) =
      false := by
    have hmissed : ¬ Visits 0 (2 ^ 19 + 2) (2 ^ 19) := by
      rw [visits_iff_reaches (by norm_num) (by norm_num)]
      rintro ⟨t, -, ⟨hsmall, heq⟩ | ⟨-, hlarge, heq⟩⟩
      · omega
      · omega
    rw [bit_onPages .reserve (by norm_num), if_neg fun h => hmissed h.1]
    decide
  refine ⟨fun h => ?_, hleft⟩
  have hcovered := h (2 ^ 19)
  rw [if_pos (by decide)] at hcovered
  exact Bool.false_ne_true (hleft.symm.trans hcovered)

end Ranges

/-! ## Requests for several pages -/

/-- `i` is where the search for `count` pages ends. -/
structure FirstRun (s : PageFrameAllocator) (count i : Nat) : Prop where
  fromCursor : s.pageBitmapIndex ≤ i
  inside : i < s.limit
  free : s.runFree i count = true
  first : ∀ j, s.pageBitmapIndex ≤ j → j < i → s.runFree j count = false

/-- What is granted was free, lies in the bitmap and is marked; a failure changes nothing. -/
structure GrantsTracked (s : PageFrameAllocator) (count : Nat) : Prop where
  granted : (s.requestPages count).1 ≠ NULL → ∀ t < count,
    (s.requestPages count).1 / 4096 + t < s.limit ∧
    s.bit ((s.requestPages count).1 / 4096 + t) = false ∧
    (s.requestPages count).2.bit ((s.requestPages count).1 / 4096 + t) = true
  failed : (s.requestPages count).1 = NULL →
    (∀ j, (s.requestPages count).2.bit j = s.bit j) ∧
    (s.requestPages count).2.pageBitmapIndex = s.pageBitmapIndex

section Requests

variable {s : PageFrameAllocator} {count i : Nat}

theorem limit_le (hsize : s.pageBitmap.size ≤ 2 ^ 49) : s.limit ≤ 2 ^ 52 := by
  rw [limit, wrap64_of_lt (by omega)]
  omega

/-- Beyond 2 GiB the loop that marks the run does not come to its frames. -/
theorem not_visits_beyond (hcount : count < 2 ^ 64) (hroom : i + 2 ^ 19 < 2 ^ 52) :
    ¬ Visits (i * 4096) count (i + 2 ^ 19) := by
  rw [visits_iff_reaches hcount (by omega), Reaches, Nat.mul_div_cancel i (by norm_num)]
  rintro ⟨k, -, ⟨hsmall, heq⟩ | ⟨hlo, hhi, heq⟩⟩
  · omega
  · omega

theorem FirstRun.requestPages (hrun : FirstRun s count i) (hsize : s.pageBitmap.size ≤ 2 ^ 49) :
    s.requestPages count = (i * 4096, (withIndex s i).lockPages (i * 4096) count) := by
  have hi := hrun.inside
  have hlimit := limit_le hsize
  have haddress : wrap64 (i * 4096) = i * 4096 := wrap64_of_lt (by omega)
  rw [requestPages_eq hrun.fromCursor hi hrun.first hrun.free, haddress]

/-- A run at frame 0 is marked, and answered with `NULL`. -/
theorem GrantsTracked.start_pos (h : GrantsTracked s count) (hrun : FirstRun s count i)
    (hsize : s.pageBitmap.size ≤ 2 ^ 49) (hpos : 1 ≤ count) (hcount : count < 2 ^ 64) :
    0 < i := by
  by_contra hzero
  obtain rfl : i = 0 := by omega
  have hrequest := hrun.requestPages hsize
  have hclear := bit_of_runFree (by omega) hcount (by norm_num) hrun.free
  obtain ⟨hkept, -⟩ := h.failed (by rw [hrequest]; rfl)
  have hfirst := hkept 0
  have hvisited : Visits (0 * 4096) count 0 :=
    ⟨0, intIterations_pos (by omega), by decide⟩
  rw [hrequest, bit_lockPages hcount, if_pos ⟨hvisited, Nat.zero_le _⟩, hclear] at hfirst
  exact Bool.false_ne_true hfirst.symm

theorem GrantsTracked.run_fits (h : GrantsTracked s count) (hrun : FirstRun s count i)
    (hsize : s.pageBitmap.size ≤ 2 ^ 49) (hpos : 1 ≤ count) (hcount : count < 2 ^ 64) :
    count ≤ 2 ^ 19 ∧ i + count ≤ s.limit := by
  have hlimit := limit_le hsize
  have hnonzero := h.start_pos hrun hsize hpos hcount
  have hrequest := hrun.requestPages hsize
  have hgranted := h.granted (by rw [hrequest]; simp only [NULL]; omega)
  rw [hrequest] at hgranted
  simp only [Nat.mul_div_cancel i (by norm_num : 0 < 4096)] at hgranted
  have hend := (hgranted (count - 1) (by omega)).1
  refine ⟨?_, by omega⟩
  by_contra hlarge
  obtain ⟨hin, hbefore, hafter⟩ := hgranted (2 ^ 19) (by omega)
  rw [bit_lockPages hcount, if_neg fun hvisit =>
    not_visits_beyond hcount (by omega) hvisit.1, bit_withIndex, hbefore] at hafter
  exact Bool.false_ne_true hafter

theorem FirstRun.grantsTracked (hrun : FirstRun s count i) (hsize : s.pageBitmap.size ≤ 2 ^ 49)
    (hnonzero : 0 < i) (hsmall : count ≤ 2 ^ 19) (hend : i + count ≤ s.limit) :
    GrantsTracked s count := by
  have hlimit := limit_le hsize
  have hrequest := hrun.requestPages hsize
  constructor
  · intro _ t ht
    rw [hrequest]
    simp only [Nat.mul_div_cancel i (by norm_num : 0 < 4096)]
    refine ⟨by omega, (runFree_iff (by omega) (by omega)).mp hrun.free t ht, ?_⟩
    rw [bit_lockPages (by omega), if_pos]
    refine ⟨?_, by rw [limit_withIndex]; omega⟩
    rw [visits_iff hsmall (by omega) (by omega)]
    omega
  · intro hnull
    rw [hrequest] at hnull
    simp only [NULL] at hnull
    omega

/--
`RequestPages` grants tracked frames exactly if the run it finds is not at frame
0, has at most `2 ^ 19` frames and ends in the bitmap.
-/
theorem requestPages_tracked_iff (hsize : s.pageBitmap.size ≤ 2 ^ 49) (hpos : 1 ≤ count)
    (hcount : count < 2 ^ 64) :
    GrantsTracked s count ↔
      ∀ i, FirstRun s count i → 0 < i ∧ count ≤ 2 ^ 19 ∧ i + count ≤ s.limit := by
  constructor
  · intro h i hrun
    exact ⟨h.start_pos hrun hsize hpos hcount, h.run_fits hrun hsize hpos hcount⟩
  · intro h
    rcases @requestPages_cases s count with ⟨i, hlo, hi, hfree, hbefore, -⟩ | ⟨-, heq⟩
    · have hrun : FirstRun s count i := ⟨hlo, hi, hfree, hbefore⟩
      obtain ⟨hnonzero, hsmall, hend⟩ := h i hrun
      exact hrun.grantsTracked hsize hnonzero hsmall hend
    · constructor
      · intro hne
        rw [heq] at hne
        exact absurd rfl hne
      · intro _
        rw [heq]
        exact ⟨fun _ => rfl, rfl⟩

def lastFrame : PageFrameAllocator :=
  ⟨fun _ => 0, ⟨1, 0x1000⟩, 7, 0, 0, 0, 0, true⟩

theorem requestPages_tracked_one : GrantsTracked lastFrame 1 := by
  refine (requestPages_tracked_iff (by decide) (by norm_num) (by norm_num)).mpr ?_
  intro i hrun
  have hlo : 7 ≤ i := hrun.fromCursor
  have hi : i < 8 := hrun.inside
  have hlimit : lastFrame.limit = 8 := by decide
  omega

/-- Two frames are granted, and the bitmap has the first one only. -/
theorem requestPages_overruns_bitmap : ¬ GrantsTracked lastFrame 2 := by
  intro h
  have hsecond := (h.granted (by decide +kernel) 1 (by norm_num)).1
  exact absurd hsecond (by decide +kernel)

end Requests

end UnifiedOS.Paging
