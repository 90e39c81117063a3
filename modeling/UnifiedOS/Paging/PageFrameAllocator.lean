import UnifiedOS.Paging.Bitmap
import Mathlib.Data.List.Range

/-!
# The page frame allocator

The page operations of `PageFrameAllocator`.  Locking, freeing, reserving and
unreserving a page differ only in the bit they write and the counters they
move, so each is `setPage` with its own values; the four range operations are
`overPages`, whose byte offset `t * 4096` is computed in 32-bit `int`
arithmetic.  `RequestPage` and `RequestPages` scan upwards from
`pageBitmapIndex` and never past the last index, so their loops are bounded by
the distance to it.
-/

namespace UnifiedOS.Paging

open UnifiedOS.Foundation

def NULL : Nat := 0

structure PageFrameAllocator where
  mem : ByteMemory
  pageBitmap : Bitmap
  pageBitmapIndex : Nat
  freeMemory : Nat
  reservedMemory : Nat
  usedMemory : Nat
  totalMemory : Nat
  initialised : Bool

namespace PageFrameAllocator

def bit (s : PageFrameAllocator) (index : Nat) : Bool := s.pageBitmap.get s.mem index

/-- `PageBitmap.Size * 8`, the bound of every scan. -/
def limit (s : PageFrameAllocator) : Nat := wrap64 (s.pageBitmap.size * 8)

/-! ## One page -/

/-- Write `value` to the page's bit; where the bit changes, `account` follows. -/
def setPage (value : Bool) (account : Nat → PageFrameAllocator → PageFrameAllocator)
    (s : PageFrameAllocator) (address : Nat) : PageFrameAllocator :=
  let index := address / 4096
  if s.bit index = value then s
  else
    let result := s.pageBitmap.set s.mem index value
    if result.1 then account index { s with mem := result.2 }
    else { s with mem := result.2 }

def pullBack (index : Nat) (s : PageFrameAllocator) : PageFrameAllocator :=
  { s with
    pageBitmapIndex := if s.pageBitmapIndex > index then index else s.pageBitmapIndex }

def freePage : PageFrameAllocator → Nat → PageFrameAllocator :=
  setPage false fun index s =>
    pullBack index
      { s with
        freeMemory := wrap64 (s.freeMemory + 4096)
        usedMemory := sub64 s.usedMemory 4096 }

def lockPage : PageFrameAllocator → Nat → PageFrameAllocator :=
  setPage true fun _ s =>
    { s with
      freeMemory := sub64 s.freeMemory 4096
      usedMemory := wrap64 (s.usedMemory + 4096) }

def reservePage : PageFrameAllocator → Nat → PageFrameAllocator :=
  setPage true fun _ s =>
    { s with
      freeMemory := sub64 s.freeMemory 4096
      reservedMemory := wrap64 (s.reservedMemory + 4096) }

def unreservePage : PageFrameAllocator → Nat → PageFrameAllocator :=
  setPage false fun index s =>
    pullBack index
      { s with
        freeMemory := wrap64 (s.freeMemory + 4096)
        reservedMemory := sub64 s.reservedMemory 4096 }

/-! ## Ranges of pages -/

def pageAt (address : Nat) (t : BitVec 32) : Nat :=
  wrap64 (address + intToU64 (t * 4096#32))

def overPages (op : PageFrameAllocator → Nat → PageFrameAllocator)
    (s : PageFrameAllocator) (address pageCount : Nat) : PageFrameAllocator :=
  forInt pageCount (fun t s => op s (pageAt address t)) s

def freePages : PageFrameAllocator → Nat → Nat → PageFrameAllocator :=
  overPages freePage

def lockPages : PageFrameAllocator → Nat → Nat → PageFrameAllocator :=
  overPages lockPage

def reservePages : PageFrameAllocator → Nat → Nat → PageFrameAllocator :=
  overPages reservePage

def unreservePages : PageFrameAllocator → Nat → Nat → PageFrameAllocator :=
  overPages unreservePage

/-! ## Requests -/

def requestPageLoop : Nat → PageFrameAllocator → Nat × PageFrameAllocator
  | 0, s => (NULL, s)
  | fuel + 1, s =>
      if s.bit s.pageBitmapIndex then
        requestPageLoop fuel { s with pageBitmapIndex := s.pageBitmapIndex + 1 }
      else
        (wrap64 (s.pageBitmapIndex * 4096),
          s.lockPage (wrap64 (s.pageBitmapIndex * 4096)))

def requestPage (s : PageFrameAllocator) : Nat × PageFrameAllocator :=
  requestPageLoop (s.limit - s.pageBitmapIndex) s

/-- The inner loop of `RequestPages`: no bit of the run at `start` is set. -/
def runFree (s : PageFrameAllocator) (start count : Nat) : Bool :=
  forInt count
    (fun i found => if s.bit (wrap64 (start + intToU64 i)) then false else found) true

/-- The outer loop of `RequestPages`; `none` when it runs to the end. -/
def requestPagesLoop (count : Nat) :
    Nat → PageFrameAllocator → Option (Nat × PageFrameAllocator)
  | 0, _ => none
  | fuel + 1, s =>
      if s.runFree s.pageBitmapIndex count then
        some (wrap64 (s.pageBitmapIndex * 4096),
          s.lockPages (wrap64 (s.pageBitmapIndex * 4096)) count)
      else
        requestPagesLoop count fuel { s with pageBitmapIndex := s.pageBitmapIndex + 1 }

/-- `PageFrameAllocator::RequestPages`; a failed search puts the index back. -/
def requestPages (s : PageFrameAllocator) (count : Nat) : Nat × PageFrameAllocator :=
  match requestPagesLoop count (s.limit - s.pageBitmapIndex) s with
  | some result => result
  | none => (NULL, s)

end PageFrameAllocator

open PageFrameAllocator

/-! ## What the page operations do to the bits -/

structure KeepsBitmap (s s' : PageFrameAllocator) : Prop where
  mem : s'.mem = s.mem
  pageBitmap : s'.pageBitmap = s.pageBitmap

section Bits

variable {s : PageFrameAllocator} {value : Bool} {address pageCount index j : Nat}
  {account : Nat → PageFrameAllocator → PageFrameAllocator}

theorem limit_congr {s' : PageFrameAllocator} (h : s'.pageBitmap = s.pageBitmap) :
    s'.limit = s.limit := by
  rw [limit, limit, h]

theorem setPage_of_bit (h : s.bit (address / 4096) = value) :
    setPage value account s address = s := by
  unfold setPage
  rw [if_pos h]

theorem setPage_cases (value : Bool)
    (account : Nat → PageFrameAllocator → PageFrameAllocator) (s : PageFrameAllocator)
    (address : Nat) :
    setPage value account s address = s ∧
        (s.bit (address / 4096) = value ∨ s.limit < address / 4096) ∨
      s.bit (address / 4096) ≠ value ∧ address / 4096 ≤ s.limit ∧
        setPage value account s address = account (address / 4096)
          { s with mem := (s.pageBitmap.set s.mem (address / 4096) value).2 } := by
  by_cases hsame : s.bit (address / 4096) = value
  · exact Or.inl ⟨setPage_of_bit hsame, Or.inl hsame⟩
  · by_cases hle : address / 4096 ≤ s.limit
    · refine Or.inr ⟨hsame, hle, ?_⟩
      unfold setPage
      dsimp only
      rw [if_neg hsame, if_pos (Bitmap.set_fst_of_le hle)]
    · have hbehind : s.limit < address / 4096 := Nat.lt_of_not_le hle
      refine Or.inl ⟨?_, Or.inr hbehind⟩
      unfold setPage
      dsimp only
      rw [if_neg hsame, Bitmap.set_of_gt hbehind]
      rfl

theorem pageBitmap_setPage (haccount : ∀ i s, KeepsBitmap s (account i s)) :
    (setPage value account s address).pageBitmap = s.pageBitmap := by
  rcases setPage_cases value account s address with ⟨heq, -⟩ | ⟨-, -, heq⟩
  · rw [heq]
  · rw [heq, (haccount _ _).pageBitmap]

theorem bit_setPage (haccount : ∀ i s, KeepsBitmap s (account i s)) :
    (setPage value account s address).bit j =
      if j = address / 4096 ∧ j ≤ s.limit then value else s.bit j := by
  rcases setPage_cases value account s address with ⟨heq, hnothing⟩ | ⟨-, hle, heq⟩
  · rw [heq]
    split
    · rename_i hj
      rw [hj.1]
      exact hnothing.resolve_right (by omega)
    · rfl
  · rw [heq, bit, (haccount _ _).pageBitmap, (haccount _ _).mem]
    dsimp only
    rw [Bitmap.get_set]
    by_cases hj : j = address / 4096
    · rw [hj]
      rfl
    · simp [hj, bit]

/-! ## What the range operations do to the bits -/

/-- The loop over `pageCount` pages from `address` on comes to the page `index`. -/
def Visits (address pageCount index : Nat) : Prop :=
  ∃ t, t < intIterations pageCount ∧ pageAt address (BitVec.ofNat 32 t) / 4096 = index

instance : Decidable (Visits address pageCount index) :=
  inferInstanceAs (Decidable (∃ t, t < _ ∧ _))

private theorem bit_foldl_setPage (haccount : ∀ i s, KeepsBitmap s (account i s))
    (count : Nat) :
    let s' := (List.range count).foldl
      (fun s k => setPage value account s (pageAt address (BitVec.ofNat 32 k))) s
    s'.pageBitmap = s.pageBitmap ∧
      s'.bit j =
        if (∃ t, t < count ∧ pageAt address (BitVec.ofNat 32 t) / 4096 = j) ∧
          j ≤ s.limit then value else s.bit j := by
  induction count with
  | zero => simp
  | succ count ih =>
      obtain ⟨hbitmap, hbit⟩ := ih
      simp only [List.range_succ, List.foldl_append, List.foldl_cons, List.foldl_nil]
      refine ⟨(pageBitmap_setPage haccount).trans hbitmap, ?_⟩
      rw [bit_setPage haccount, limit_congr hbitmap, hbit]
      by_cases hj : j ≤ s.limit
      · by_cases hlast : j = pageAt address (BitVec.ofNat 32 count) / 4096
        · rw [if_pos ⟨hlast, hj⟩, if_pos ⟨⟨count, by omega, hlast.symm⟩, hj⟩]
        · rw [if_neg (fun h => hlast h.1)]
          congr 1
          simp only [hj, and_true, eq_iff_iff]
          constructor
          · rintro ⟨t, ht, heq⟩
            exact ⟨t, by omega, heq⟩
          · rintro ⟨t, ht, heq⟩
            refine ⟨t, ?_, heq⟩
            have hne : t ≠ count := by
              rintro rfl
              exact hlast heq.symm
            omega
      · simp [hj]

theorem pageBitmap_overPages (haccount : ∀ i s, KeepsBitmap s (account i s))
    (hcount : pageCount < 2 ^ 64) :
    (overPages (setPage value account) s address pageCount).pageBitmap =
      s.pageBitmap := by
  rw [overPages, forInt_eq_foldl hcount]
  exact (@bit_foldl_setPage s value address 0 account haccount _).1

theorem bit_overPages (haccount : ∀ i s, KeepsBitmap s (account i s))
    (hcount : pageCount < 2 ^ 64) :
    (overPages (setPage value account) s address pageCount).bit j =
      if Visits address pageCount j ∧ j ≤ s.limit then value else s.bit j := by
  rw [overPages, forInt_eq_foldl hcount]
  exact (@bit_foldl_setPage s value address j account haccount _).2

/-! The four operations and their ranges. -/

theorem bit_lockPage : (s.lockPage address).bit j =
    if j = address / 4096 ∧ j ≤ s.limit then true else s.bit j :=
  bit_setPage fun _ _ => ⟨rfl, rfl⟩

theorem bit_freePage : (s.freePage address).bit j =
    if j = address / 4096 ∧ j ≤ s.limit then false else s.bit j :=
  bit_setPage fun _ _ => ⟨rfl, rfl⟩

theorem pageBitmap_lockPage : (s.lockPage address).pageBitmap = s.pageBitmap :=
  pageBitmap_setPage fun _ _ => ⟨rfl, rfl⟩

theorem pageBitmap_freePage : (s.freePage address).pageBitmap = s.pageBitmap :=
  pageBitmap_setPage fun _ _ => ⟨rfl, rfl⟩

theorem bit_lockPages (hcount : pageCount < 2 ^ 64) :
    (s.lockPages address pageCount).bit j =
      if Visits address pageCount j ∧ j ≤ s.limit then true else s.bit j :=
  bit_overPages (fun _ _ => ⟨rfl, rfl⟩) hcount

theorem bit_freePages (hcount : pageCount < 2 ^ 64) :
    (s.freePages address pageCount).bit j =
      if Visits address pageCount j ∧ j ≤ s.limit then false else s.bit j :=
  bit_overPages (fun _ _ => ⟨rfl, rfl⟩) hcount

theorem bit_reservePages (hcount : pageCount < 2 ^ 64) :
    (s.reservePages address pageCount).bit j =
      if Visits address pageCount j ∧ j ≤ s.limit then true else s.bit j :=
  bit_overPages (fun _ _ => ⟨rfl, rfl⟩) hcount

theorem bit_unreservePages (hcount : pageCount < 2 ^ 64) :
    (s.unreservePages address pageCount).bit j =
      if Visits address pageCount j ∧ j ≤ s.limit then false else s.bit j :=
  bit_overPages (fun _ _ => ⟨rfl, rfl⟩) hcount

theorem pageBitmap_lockPages (hcount : pageCount < 2 ^ 64) :
    (s.lockPages address pageCount).pageBitmap = s.pageBitmap :=
  pageBitmap_overPages (fun _ _ => ⟨rfl, rfl⟩) hcount

theorem pageBitmap_freePages (hcount : pageCount < 2 ^ 64) :
    (s.freePages address pageCount).pageBitmap = s.pageBitmap :=
  pageBitmap_overPages (fun _ _ => ⟨rfl, rfl⟩) hcount

theorem pageBitmap_reservePages (hcount : pageCount < 2 ^ 64) :
    (s.reservePages address pageCount).pageBitmap = s.pageBitmap :=
  pageBitmap_overPages (fun _ _ => ⟨rfl, rfl⟩) hcount

theorem pageBitmap_unreservePages (hcount : pageCount < 2 ^ 64) :
    (s.unreservePages address pageCount).pageBitmap = s.pageBitmap :=
  pageBitmap_overPages (fun _ _ => ⟨rfl, rfl⟩) hcount

theorem pageOffset_eq (t : Nat) :
    intToU64 (BitVec.ofNat 32 t * 4096#32) =
      if t % 2 ^ 20 < 2 ^ 19 then t % 2 ^ 20 * 4096
      else t % 2 ^ 20 * 4096 + (2 ^ 64 - 2 ^ 32) := by
  have hproduct : BitVec.ofNat 32 t * 4096#32 = BitVec.ofNat 32 (t % 2 ^ 20 * 4096) := by
    apply BitVec.eq_of_toNat_eq
    rw [BitVec.toNat_mul, BitVec.toNat_ofNat, BitVec.toNat_ofNat, BitVec.toNat_ofNat]
    omega
  rw [hproduct, intToU64_ofNat (by omega)]
  by_cases hsmall : t % 2 ^ 20 < 2 ^ 19
  · rw [if_pos (by omega), if_pos hsmall]
  · rw [if_neg (by omega), if_neg hsmall]

/-- Within 2 GiB and below the top of the address space the loop visits its range. -/
theorem visits_iff (hcount : pageCount ≤ 2 ^ 19)
    (hroom : address / 4096 + pageCount ≤ 2 ^ 52) (haddress : address < 2 ^ 64) :
    Visits address pageCount index ↔
      address / 4096 ≤ index ∧ index < address / 4096 + pageCount := by
  have hpage : ∀ t, t < pageCount →
      pageAt address (BitVec.ofNat 32 t) / 4096 = address / 4096 + t := by
    intro t ht
    rw [pageAt, pageOffset_eq, if_pos (by omega)]
    simp only [wrap64]
    omega
  rw [Visits, intIterations_of_le (by omega)]
  constructor
  · rintro ⟨t, ht, heq⟩
    rw [hpage t ht] at heq
    omega
  · rintro ⟨hlo, hhi⟩
    exact ⟨index - address / 4096, by omega, by rw [hpage _ (by omega)]; omega⟩

/--
The pages an `int` loop of `pageCount` pages comes to: up to 2 GiB upwards from
`address` and then, where the byte offset has turned negative, the 2 GiB below.
-/
def Reaches (address pageCount index : Nat) : Prop :=
  ∃ t, t < pageCount ∧
    ((t < 2 ^ 19 ∧ index = (address / 4096 + t) % 2 ^ 52) ∨
      (2 ^ 19 ≤ t ∧ t < 2 ^ 20 ∧ index = (address / 4096 + t + 2 ^ 52 - 2 ^ 20) % 2 ^ 52))

theorem visits_iff_reaches (hcount : pageCount < 2 ^ 64) (haddress : address < 2 ^ 64) :
    Visits address pageCount index ↔ Reaches address pageCount index := by
  have hup : ∀ t, t % 2 ^ 20 < 2 ^ 19 →
      pageAt address (BitVec.ofNat 32 t) / 4096 =
        (address / 4096 + t % 2 ^ 20) % 2 ^ 52 := by
    intro t ht
    rw [pageAt, pageOffset_eq, if_pos ht]
    simp only [wrap64]
    omega
  have hdown : ∀ t, ¬ t % 2 ^ 20 < 2 ^ 19 →
      pageAt address (BitVec.ofNat 32 t) / 4096 =
        (address / 4096 + t % 2 ^ 20 + 2 ^ 52 - 2 ^ 20) % 2 ^ 52 := by
    intro t ht
    rw [pageAt, pageOffset_eq, if_neg ht]
    simp only [wrap64]
    omega
  have hiterations : min pageCount (2 ^ 31) ≤ intIterations pageCount ∧
      intIterations pageCount ≤ pageCount := by
    simp only [intIterations]
    split
    · omega
    · split <;> omega
  constructor
  · rintro ⟨t, ht, heq⟩
    refine ⟨t % 2 ^ 20, by omega, ?_⟩
    by_cases hsmall : t % 2 ^ 20 < 2 ^ 19
    · exact Or.inl ⟨hsmall, by rw [← heq, hup t hsmall]⟩
    · exact Or.inr ⟨by omega, by omega, by rw [← heq, hdown t hsmall]⟩
  · rintro ⟨t, ht, ⟨hsmall, heq⟩ | ⟨hlo, hhi, heq⟩⟩
    · refine ⟨t, by omega, ?_⟩
      rw [hup t (by omega), heq, Nat.mod_eq_of_lt (by omega : t < 2 ^ 20)]
    · refine ⟨t, by omega, ?_⟩
      rw [hdown t (by omega), heq, Nat.mod_eq_of_lt hhi]

end Bits

/-! ## What a request finds -/

section Requests

variable {s s' : PageFrameAllocator} {count p : Nat}

def withIndex (s : PageFrameAllocator) (index : Nat) : PageFrameAllocator :=
  { s with pageBitmapIndex := index }

@[simp] theorem bit_withIndex (index j : Nat) : (withIndex s index).bit j = s.bit j := rfl

@[simp] theorem limit_withIndex (index : Nat) : (withIndex s index).limit = s.limit := rfl

private theorem requestPageLoop_cases (fuel : Nat) :
    (∃ i, s.pageBitmapIndex ≤ i ∧ i < s.pageBitmapIndex + fuel ∧
      (∀ j, s.pageBitmapIndex ≤ j → j < i → s.bit j = true) ∧ s.bit i = false ∧
      requestPageLoop fuel s =
        (wrap64 (i * 4096), (withIndex s i).lockPage (wrap64 (i * 4096)))) ∨
    ((∀ j, s.pageBitmapIndex ≤ j → j < s.pageBitmapIndex + fuel → s.bit j = true) ∧
      requestPageLoop fuel s = (NULL, withIndex s (s.pageBitmapIndex + fuel))) := by
  induction fuel generalizing s with
  | zero =>
      right
      exact ⟨fun j hlo hhi => by omega, rfl⟩
  | succ fuel ih =>
      by_cases hset : s.bit s.pageBitmapIndex = true
      · have hstep : requestPageLoop (fuel + 1) s =
            requestPageLoop fuel (withIndex s (s.pageBitmapIndex + 1)) := by
          rw [requestPageLoop, if_pos hset]
          rfl
        have hbelow : ∀ j, s.pageBitmapIndex ≤ j → ¬ s.pageBitmapIndex + 1 ≤ j →
            s.bit j = true := by
          intro j hlo hhi
          obtain rfl : j = s.pageBitmapIndex := by omega
          exact hset
        rw [hstep]
        rcases @ih (withIndex s (s.pageBitmapIndex + 1)) with
          ⟨i, hlo, hhi, hbefore, hclear, heq⟩ | ⟨hall, heq⟩
        · left
          simp only [withIndex] at hlo hhi hbefore
          refine ⟨i, by omega, by omega, ?_, hclear, heq⟩
          intro j hj hji
          by_cases hj' : s.pageBitmapIndex + 1 ≤ j
          · exact hbefore j hj' hji
          · exact hbelow j hj hj'
        · right
          simp only [withIndex] at hall
          refine ⟨?_, ?_⟩
          · intro j hj hji
            by_cases hj' : s.pageBitmapIndex + 1 ≤ j
            · exact hall j hj' (by omega)
            · exact hbelow j hj hj'
          · rw [heq]
            simp only [withIndex, Nat.add_assoc, Nat.add_comm 1 fuel]
      · left
        refine ⟨s.pageBitmapIndex, Nat.le_refl _, by omega, fun j hlo hhi => by omega,
          by simpa using hset, ?_⟩
        rw [requestPageLoop, if_neg hset]
        rfl

theorem requestPage_cases :
    (∃ i, s.pageBitmapIndex ≤ i ∧ i < s.limit ∧
      (∀ j, s.pageBitmapIndex ≤ j → j < i → s.bit j = true) ∧ s.bit i = false ∧
      s.requestPage =
        (wrap64 (i * 4096), (withIndex s i).lockPage (wrap64 (i * 4096)))) ∨
    ((∀ j, s.pageBitmapIndex ≤ j → j < s.limit → s.bit j = true) ∧
      ∃ index, s.pageBitmapIndex ≤ index ∧ s.limit ≤ index ∧
        s.requestPage = (NULL, withIndex s index)) := by
  rcases requestPageLoop_cases (s.limit - s.pageBitmapIndex) with
    ⟨i, hlo, hhi, hbefore, hclear, heq⟩ | ⟨hall, heq⟩
  · exact Or.inl ⟨i, hlo, by omega, hbefore, hclear, heq⟩
  · exact Or.inr ⟨fun j hlo hhi => hall j hlo (by omega), _, by omega, by omega, heq⟩

theorem requestPage_eq {i : Nat} (hlo : s.pageBitmapIndex ≤ i) (hhi : i < s.limit)
    (hbefore : ∀ j, s.pageBitmapIndex ≤ j → j < i → s.bit j = true) (hclear : s.bit i = false) :
    s.requestPage = (wrap64 (i * 4096), (withIndex s i).lockPage (wrap64 (i * 4096))) := by
  rcases @requestPage_cases s with ⟨k, hlo', -, hbefore', hclear', heq⟩ | ⟨hall, -⟩
  · have hfirst : k = i := by
      by_contra hne
      cases Nat.lt_or_gt_of_ne hne with
      | inl hlt => simp [hbefore k hlo' hlt] at hclear'
      | inr hgt => simp [hbefore' i hlo hgt] at hclear
    rw [heq, hfirst]
  · simp [hall i hlo hhi] at hclear

theorem requestPage_null
    (hall : ∀ j, s.pageBitmapIndex ≤ j → j < s.limit → s.bit j = true) :
    s.requestPage.1 = NULL := by
  rcases @requestPage_cases s with ⟨i, hlo, hhi, -, hclear, -⟩ | ⟨-, index, -, -, heq⟩
  · simp [hall i hlo hhi] at hclear
  · rw [heq]

private theorem requestPagesLoop_cases (fuel : Nat) :
    (∃ i, s.pageBitmapIndex ≤ i ∧ i < s.pageBitmapIndex + fuel ∧
      s.runFree i count = true ∧
      (∀ j, s.pageBitmapIndex ≤ j → j < i → s.runFree j count = false) ∧
      requestPagesLoop count fuel s =
        some (wrap64 (i * 4096), (withIndex s i).lockPages (wrap64 (i * 4096)) count)) ∨
    ((∀ j, s.pageBitmapIndex ≤ j → j < s.pageBitmapIndex + fuel →
        s.runFree j count = false) ∧
      requestPagesLoop count fuel s = none) := by
  induction fuel generalizing s with
  | zero =>
      right
      exact ⟨fun j hlo hhi => by omega, rfl⟩
  | succ fuel ih =>
      by_cases hfound : s.runFree s.pageBitmapIndex count = true
      · left
        refine ⟨s.pageBitmapIndex, Nat.le_refl _, by omega, hfound,
          fun j hlo hhi => by omega, ?_⟩
        rw [requestPagesLoop, if_pos hfound]
        rfl
      · have hstep : requestPagesLoop count (fuel + 1) s =
            requestPagesLoop count fuel (withIndex s (s.pageBitmapIndex + 1)) := by
          rw [requestPagesLoop, if_neg hfound]
          rfl
        have hbelow : ∀ j, s.pageBitmapIndex ≤ j → ¬ s.pageBitmapIndex + 1 ≤ j →
            s.runFree j count = false := by
          intro j hlo hhi
          obtain rfl : j = s.pageBitmapIndex := by omega
          simpa using hfound
        rw [hstep]
        rcases @ih (withIndex s (s.pageBitmapIndex + 1)) with
          ⟨i, hlo, hhi, hfree, hbefore, heq⟩ | ⟨hall, heq⟩
        · left
          simp only [withIndex] at hlo hhi hbefore
          refine ⟨i, by omega, by omega, hfree, ?_, heq⟩
          intro j hj hji
          by_cases hj' : s.pageBitmapIndex + 1 ≤ j
          · exact hbefore j hj' hji
          · exact hbelow j hj hj'
        · right
          simp only [withIndex] at hall
          refine ⟨?_, heq⟩
          intro j hj hji
          by_cases hj' : s.pageBitmapIndex + 1 ≤ j
          · exact hall j hj' (by omega)
          · exact hbelow j hj hj'

theorem requestPages_cases :
    (∃ i, s.pageBitmapIndex ≤ i ∧ i < s.limit ∧ s.runFree i count = true ∧
      (∀ j, s.pageBitmapIndex ≤ j → j < i → s.runFree j count = false) ∧
      s.requestPages count =
        (wrap64 (i * 4096), (withIndex s i).lockPages (wrap64 (i * 4096)) count)) ∨
    ((∀ j, s.pageBitmapIndex ≤ j → j < s.limit → s.runFree j count = false) ∧
      s.requestPages count = (NULL, s)) := by
  unfold requestPages
  rcases @requestPagesLoop_cases s count (s.limit - s.pageBitmapIndex) with
    ⟨i, hlo, hhi, hfree, hbefore, heq⟩ | ⟨hall, heq⟩
  · exact Or.inl ⟨i, hlo, by omega, hfree, hbefore, by rw [heq]⟩
  · exact Or.inr ⟨fun j hlo hhi => hall j hlo (by omega), by rw [heq]⟩

theorem requestPages_eq {i : Nat} (hlo : s.pageBitmapIndex ≤ i) (hhi : i < s.limit)
    (hbefore : ∀ j, s.pageBitmapIndex ≤ j → j < i → s.runFree j count = false)
    (hfree : s.runFree i count = true) :
    s.requestPages count =
      (wrap64 (i * 4096), (withIndex s i).lockPages (wrap64 (i * 4096)) count) := by
  rcases @requestPages_cases s count with ⟨k, hlo', -, hfree', hbefore', heq⟩ | ⟨hall, -⟩
  · have hfirst : k = i := by
      by_contra hne
      cases Nat.lt_or_gt_of_ne hne with
      | inl hlt => simp [hbefore k hlo' hlt] at hfree'
      | inr hgt => simp [hbefore' i hlo hgt] at hfree
    rw [heq, hfirst]
  · simp [hall i hlo hhi] at hfree

private theorem foldl_scan (test : Nat → Bool) (count : Nat) :
    (List.range count).foldl (fun found k => if test k then false else found) true =
      true ↔ ∀ t, t < count → test t = false := by
  induction count with
  | zero => simp
  | succ count ih =>
      rw [List.range_succ, List.foldl_append, List.foldl_cons, List.foldl_nil]
      by_cases hlast : test count = true
      · rw [if_pos hlast]
        constructor
        · intro h
          contradiction
        · intro hall
          rw [hall count (by omega)] at hlast
          contradiction
      · rw [if_neg hlast, ih]
        constructor
        · intro hall t ht
          by_cases htlast : t = count
          · rw [htlast]
            simpa using hlast
          · exact hall t (by omega)
        · exact fun hall t ht => hall t (by omega)

theorem bit_of_runFree {start : Nat} (hpos : 0 < count) (hcount : count < 2 ^ 64)
    (hstart : start < 2 ^ 64) (h : s.runFree start count = true) : s.bit start = false := by
  rw [runFree, forInt_eq_foldl hcount, foldl_scan] at h
  have hfirst := h 0 (intIterations_pos hpos)
  rw [intToU64_ofNat (by norm_num), if_pos (by norm_num), Nat.add_zero,
    wrap64_of_lt hstart] at hfirst
  exact hfirst

theorem runFree_iff {start : Nat} (hcount : count ≤ 2 ^ 31)
    (hstart : start + count < 2 ^ 64) :
    s.runFree start count = true ↔ ∀ t, t < count → s.bit (start + t) = false := by
  rw [runFree, forInt_eq_foldl (by omega), intIterations_of_le hcount, foldl_scan]
  constructor
  · intro hall t ht
    have hclear := hall t ht
    rw [intToU64_ofNat (by omega), if_pos (by omega), wrap64_of_lt (by omega)] at hclear
    exact hclear
  · intro hall t ht
    rw [intToU64_ofNat (by omega), if_pos (by omega), wrap64_of_lt (by omega)]
    exact hall t ht

end Requests

end UnifiedOS.Paging
