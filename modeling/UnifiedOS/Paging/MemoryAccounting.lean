import UnifiedOS.Paging.FreeFrames
import UnifiedOS.Paging.PageRanges
import UnifiedOS.Paging.BitmapLaws

/-!
# Memory accounting

Every page operation that changes a bit moves 4096 bytes from `FreeMemory` to
one of the other counters, or back.  Modulo `2 ^ 64` the counters therefore keep
their distance to the number of set bits, whatever is locked, reserved or freed
twice.  They start at a distance, though: the bitmap has up to eight bits more
than there are frames, and these count as free frames that `FreeMemory` does
not have.
-/

namespace UnifiedOS.Paging

open UnifiedOS.Foundation
open PageFrameAllocator

namespace PageFrameAllocator

def getFreeRAM (s : PageFrameAllocator) : Nat := s.freeMemory

def getUsedRAM (s : PageFrameAllocator) : Nat := s.usedMemory

def getReservedRAM (s : PageFrameAllocator) : Nat := s.reservedMemory

def setBits (s : PageFrameAllocator) (n : Nat) : Nat := Nat.count (fun i => s.bit i = true) n

def clearBits (s : PageFrameAllocator) (n : Nat) : Nat := Nat.count (fun i => s.bit i = false) n

end PageFrameAllocator

section Bits

variable {s s' : PageFrameAllocator} {n : Nat}

theorem clearBits_add_setBits (s : PageFrameAllocator) (n : Nat) :
    s.clearBits n + s.setBits n = n := by
  induction n with
  | zero => rfl
  | succ n ih =>
      simp only [clearBits, setBits, Nat.count_succ] at ih ⊢
      cases s.bit n with
      | true => simp only [Bool.true_eq_false, if_false, if_true]; omega
      | false => simp only [Bool.false_eq_true, if_false, if_true]; omega

end Bits

/-! ## The counters and the set bits -/

/-- The counters moved with the number of set bits among the first `n`. -/
structure Balanced (n : Nat) (s s' : PageFrameAllocator) : Prop where
  pageBitmap : s'.pageBitmap = s.pageBitmap
  totalMemory : s'.totalMemory = s.totalMemory
  free : (s'.freeMemory + 4096 * s'.setBits n) % 2 ^ 64 =
    (s.freeMemory + 4096 * s.setBits n) % 2 ^ 64
  taken : (s'.usedMemory + s'.reservedMemory + 4096 * s.setBits n) % 2 ^ 64 =
    (s.usedMemory + s.reservedMemory + 4096 * s'.setBits n) % 2 ^ 64

/-- Where a bit changes to `value`, `account` moves the 4096 bytes of its page. -/
structure Accounts (value : Bool) (account : Nat → PageFrameAllocator → PageFrameAllocator) :
    Prop where
  keeps : ∀ i s, KeepsBitmap s (account i s)
  totalMemory : ∀ i s, (account i s).totalMemory = s.totalMemory
  free : ∀ i s, ((account i s).freeMemory + if value then 4096 else 0) % 2 ^ 64 =
    (s.freeMemory + if value then 0 else 4096) % 2 ^ 64
  taken : ∀ i s, ((account i s).usedMemory + (account i s).reservedMemory +
      if value then 0 else 4096) % 2 ^ 64 =
    (s.usedMemory + s.reservedMemory + if value then 4096 else 0) % 2 ^ 64

section Balanced

variable {n : Nat} {s s' s'' : PageFrameAllocator} {value : Bool} {address pageCount : Nat}
  {account : Nat → PageFrameAllocator → PageFrameAllocator}

theorem Balanced.refl (n : Nat) (s : PageFrameAllocator) : Balanced n s s :=
  ⟨rfl, rfl, rfl, rfl⟩

theorem Balanced.trans (h : Balanced n s s') (h' : Balanced n s' s'') : Balanced n s s'' := by
  have hfree := h.free
  have hfree' := h'.free
  have htaken := h.taken
  have htaken' := h'.taken
  exact ⟨h'.pageBitmap.trans h.pageBitmap, h'.totalMemory.trans h.totalMemory,
    hfree'.trans hfree, by omega⟩

theorem Balanced.limit (h : Balanced n s s') : s'.limit = s.limit := limit_congr h.pageBitmap

/-- Only a page whose bit is counted may change the counters. -/
theorem setPage_balanced (haccount : Accounts value account)
    (hcounted : address / 4096 ≤ s.limit → address / 4096 < n) :
    Balanced n s (setPage value account s address) := by
  rcases setPage_cases value account s address with ⟨heq, -⟩ | ⟨hdiffer, hle, heq⟩
  · rw [heq]
    exact Balanced.refl n s
  · have hbit : ∀ j, (setPage value account s address).bit j =
        if j = address / 4096 ∧ j ≤ s.limit then value else s.bit j :=
      fun j => bit_setPage haccount.keeps
    have hother : ∀ j, j ≠ address / 4096 →
        ((setPage value account s address).bit j = true ↔ s.bit j = true) := by
      intro j hj
      rw [hbit, if_neg fun h => hj h.1]
    have hpage := hbit (address / 4096)
    rw [if_pos ⟨rfl, hle⟩] at hpage
    obtain ⟨s₁, hs₁⟩ : ∃ s₁, s₁ =
        { s with mem := (s.pageBitmap.set s.mem (address / 4096) value).2 } := ⟨_, rfl⟩
    have hfree := haccount.free (address / 4096) s₁
    have htaken := haccount.taken (address / 4096) s₁
    have htotal := haccount.totalMemory (address / 4096) s₁
    have hbitmap := (haccount.keeps (address / 4096) s₁).pageBitmap
    rw [hs₁, ← heq] at hfree htaken htotal hbitmap
    dsimp only at hfree htaken htotal hbitmap
    cases value with
    | true =>
        have hcount : (setPage true account s address).setBits n = s.setBits n + 1 :=
          count_insert (hcounted hle) hdiffer hpage hother
        simp only [if_true] at hfree htaken
        exact ⟨hbitmap, htotal, by omega, by omega⟩
    | false =>
        have hset : s.bit (address / 4096) = true := by simpa using hdiffer
        have hcount : s.setBits n = (setPage false account s address).setBits n + 1 :=
          count_insert (hcounted hle) (by simp [hpage]) hset fun j hj => (hother j hj).symm
        simp only [Bool.false_eq_true, if_false] at hfree htaken
        exact ⟨hbitmap, htotal, by omega, by omega⟩

theorem overPages_balanced (haccount : Accounts value account) (hcount : pageCount < 2 ^ 64)
    (hcounted : ∀ j, Visits address pageCount j → j ≤ s.limit → j < n) :
    Balanced n s (overPages (setPage value account) s address pageCount) := by
  rw [overPages, forInt_eq_foldl hcount]
  have hrun : ∀ k ≤ intIterations pageCount, Balanced n s ((List.range k).foldl
      (fun s t => setPage value account s (pageAt address (BitVec.ofNat 32 t))) s) := by
    intro k hk
    induction k with
    | zero => exact Balanced.refl n s
    | succ k ih =>
        have hbefore := ih (by omega)
        rw [List.range_succ, List.foldl_append, List.foldl_cons, List.foldl_nil]
        refine hbefore.trans (setPage_balanced haccount ?_)
        rw [hbefore.limit]
        exact hcounted _ ⟨k, by omega, rfl⟩
  exact hrun _ (Nat.le_refl _)

/-! ## The operations -/

private theorem sub64_mod (a : Nat) : (sub64 a 4096 + 4096) % 2 ^ 64 = a % 2 ^ 64 := by
  unfold sub64
  omega

private theorem wrap64_mod (a : Nat) : wrap64 a % 2 ^ 64 = a % 2 ^ 64 := by
  unfold wrap64
  omega

private theorem accounts_pullBack (h : Accounts value account) :
    Accounts value fun i s => pullBack i (account i s) :=
  ⟨fun i s => ⟨(h.keeps i s).mem, (h.keeps i s).pageBitmap⟩, h.totalMemory, h.free, h.taken⟩

private theorem accounts_mark (counters : PageFrameAllocator → Nat × Nat)
    (htaken : ∀ s, ((counters s).1 + (counters s).2) % 2 ^ 64 =
      (s.usedMemory + s.reservedMemory + 4096) % 2 ^ 64) :
    Accounts true fun _ s =>
      { s with
        freeMemory := sub64 s.freeMemory 4096
        usedMemory := (counters s).1
        reservedMemory := (counters s).2 } :=
  ⟨fun _ _ => ⟨rfl, rfl⟩, fun _ _ => rfl,
    fun _ s => by simpa using sub64_mod s.freeMemory,
    fun _ s => by simpa using htaken s⟩

private theorem accounts_clear (counters : PageFrameAllocator → Nat × Nat)
    (htaken : ∀ s, ((counters s).1 + (counters s).2 + 4096) % 2 ^ 64 =
      (s.usedMemory + s.reservedMemory) % 2 ^ 64) :
    Accounts false fun _ s =>
      { s with
        freeMemory := wrap64 (s.freeMemory + 4096)
        usedMemory := (counters s).1
        reservedMemory := (counters s).2 } :=
  ⟨fun _ _ => ⟨rfl, rfl⟩, fun _ _ => rfl,
    fun _ s => by simpa using wrap64_mod (s.freeMemory + 4096),
    fun _ s => by simpa using htaken s⟩

theorem PageAction.exists_account (action : PageAction) :
    ∃ account, Accounts action.value account ∧
      action.onPage = setPage action.value account ∧
      action.onPages = overPages (setPage action.value account) := by
  cases action with
  | free =>
      refine ⟨_, accounts_pullBack (accounts_clear
        (fun s => (sub64 s.usedMemory 4096, s.reservedMemory)) fun s => ?_), rfl, rfl⟩
      have hmoved := sub64_mod s.usedMemory
      dsimp only
      omega
  | lock =>
      refine ⟨_, accounts_mark
        (fun s => (wrap64 (s.usedMemory + 4096), s.reservedMemory)) fun s => ?_, rfl, rfl⟩
      have hmoved := wrap64_mod (s.usedMemory + 4096)
      dsimp only
      omega
  | reserve =>
      refine ⟨_, accounts_mark
        (fun s => (s.usedMemory, wrap64 (s.reservedMemory + 4096))) fun s => ?_, rfl, rfl⟩
      have hmoved := wrap64_mod (s.reservedMemory + 4096)
      dsimp only
      omega
  | unreserve =>
      refine ⟨_, accounts_pullBack (accounts_clear
        (fun s => (s.usedMemory, sub64 s.reservedMemory 4096)) fun s => ?_), rfl, rfl⟩
      have hmoved := sub64_mod s.reservedMemory
      dsimp only
      omega

theorem onPage_balanced (action : PageAction)
    (hcounted : address / 4096 ≤ s.limit → address / 4096 < n) :
    Balanced n s (action.onPage s address) := by
  obtain ⟨account, haccount, heq, -⟩ := action.exists_account
  rw [heq]
  exact setPage_balanced haccount hcounted

theorem onPages_balanced (action : PageAction) (hcount : pageCount < 2 ^ 64)
    (hcounted : ∀ j, Visits address pageCount j → j ≤ s.limit → j < n) :
    Balanced n s (action.onPages s address pageCount) := by
  obtain ⟨account, haccount, -, heq⟩ := action.exists_account
  rw [heq]
  exact overPages_balanced haccount hcount hcounted

theorem withIndex_balanced (n index : Nat) (s : PageFrameAllocator) :
    Balanced n s (withIndex s index) :=
  ⟨rfl, rfl, rfl, rfl⟩

theorem requestPage_balanced (hn : s.limit ≤ n) : Balanced n s s.requestPage.2 := by
  rcases @requestPage_cases s with ⟨i, -, hi, -, -, heq⟩ | ⟨-, index, -, -, heq⟩
  · rw [heq]
    refine (withIndex_balanced n i s).trans (onPage_balanced .lock fun _ => ?_)
    have hwrapped : wrap64 (i * 4096) ≤ i * 4096 := Nat.mod_le _ _
    omega
  · rw [heq]
    exact withIndex_balanced n index s

theorem requestPages_balanced {count : Nat} (hcount : count < 2 ^ 64) :
    Balanced (s.limit + 1) s (s.requestPages count).2 := by
  rcases @requestPages_cases s count with ⟨i, -, -, -, -, heq⟩ | ⟨-, heq⟩
  · rw [heq]
    exact (withIndex_balanced _ i s).trans
      (onPages_balanced .lock hcount fun _ _ hj => Nat.lt_succ_of_le hj)
  · rw [heq]
    exact Balanced.refl _ s

theorem PageOperation.apply_balanced (op : PageOperation) :
    Balanced (s.limit + 1) s (op.apply s) := by
  cases op with
  | requestPage => exact requestPage_balanced (Nat.le_succ _)
  | requestPages count => exact requestPages_balanced count.toNat_lt
  | lockPage address => exact onPage_balanced .lock Nat.lt_succ_of_le
  | lockPages address pageCount =>
      exact onPages_balanced .lock pageCount.toNat_lt fun _ _ hj => Nat.lt_succ_of_le hj
  | freePage address => exact onPage_balanced .free Nat.lt_succ_of_le
  | freePages address pageCount =>
      exact onPages_balanced .free pageCount.toNat_lt fun _ _ hj => Nat.lt_succ_of_le hj

end Balanced

/-! ## Accounting from a memory map on -/

section Map

variable {s fresh : PageFrameAllocator} {mMap : List Descriptor} {n : Nat}

theorem unreserveConventional_balanced (hn : s.limit < n) :
    Balanced n s (s.unreserveConventional mMap) := by
  unfold unreserveConventional
  induction mMap generalizing s with
  | nil => exact Balanced.refl n s
  | cons desc mMap ih =>
      rw [List.foldl_cons]
      split
      · have hgiven : Balanced n s
            (s.unreservePages desc.physAddr.toNat desc.numPages.toNat) :=
          onPages_balanced .unreserve desc.numPages.toNat_lt fun _ _ hj => by omega
        exact hgiven.trans (ih (by rw [hgiven.limit]; exact hn))
      · exact ih hn

theorem markPages_balanced (hbitmap : s.pageBitmap = bitmapOf mMap) (hn : s.limit < n) :
    Balanced n s (s.markPages mMap) := by
  have hmemory := getMemorySize_lt mMap
  have hsize := bitmapOf_size mMap
  have hreserved : Balanced n s (s.reservePages 0 (getMemorySize mMap / 4096 + 1)) :=
    onPages_balanced .reserve (by omega) fun _ _ hj => by omega
  have hgiven := hreserved.trans (@unreserveConventional_balanced _ mMap n
    (by rw [hreserved.limit]; exact hn))
  have hlow : Balanced n s (((s.reservePages 0 (getMemorySize mMap / 4096 + 1)
      ).unreserveConventional mMap).reservePages 0 0x100) :=
    hgiven.trans (onPages_balanced .reserve (by norm_num) fun _ _ hj => by
      rw [hgiven.limit] at hj; omega)
  refine hlow.trans (onPages_balanced .lock ?_ fun _ _ hj => ?_)
  · rw [hlow.pageBitmap, hbitmap]
    omega
  · rw [hlow.limit] at hj
    omega

def bitmapReady (fresh : PageFrameAllocator) (mMap : List Descriptor) : PageFrameAllocator :=
  PageFrameAllocator.initBitmap
    { fresh with
      initialised := true
      totalMemory := getMemorySize mMap
      freeMemory := getMemorySize mMap }
    (bitmapOf mMap).size (bitmapOf mMap).buffer

theorem bitmapReady_eq (fresh : PageFrameAllocator) (mMap : List Descriptor) :
    bitmapReady fresh mMap =
      { fresh with
        initialised := true
        totalMemory := getMemorySize mMap
        freeMemory := getMemorySize mMap
        pageBitmap := bitmapOf mMap
        mem := fresh.mem.fill (bitmapOf mMap).buffer (min (bitmapOf mMap).size (2 ^ 31)) 0 } := by
  have hsize := bitmapOf_size mMap
  rw [bitmapReady, initBitmap_eq _ (by omega)]

theorem limit_bitmapReady (fresh : PageFrameAllocator) (mMap : List Descriptor) :
    (bitmapReady fresh mMap).limit = (bitmapOf mMap).size * 8 :=
  limit_of_bitmapOf (by rw [bitmapReady_eq])

theorem readEFIMemoryMap_balanced (hfresh : fresh.initialised = false) :
    Balanced ((bitmapOf mMap).size * 8 + 1) (bitmapReady fresh mMap)
      (fresh.readEFIMemoryMap mMap) := by
  have heq : fresh.readEFIMemoryMap mMap = (bitmapReady fresh mMap).markPages mMap := by
    rw [readEFIMemoryMap, if_neg (by simp [hfresh])]
    rfl
  rw [heq]
  refine markPages_balanced ?_ ?_
  · rw [bitmapReady_eq]
  · rw [limit_bitmapReady]
    exact Nat.lt_succ_self _

def StaysInside (s : PageFrameAllocator) : PageOperation → Prop
  | .requestPage => True
  | .requestPages count => ∀ i j, FirstRun s count.toNat i →
      Visits (wrap64 (i * 4096)) count.toNat j → j < s.limit
  | .lockPage address => address.toNat / 4096 < s.limit
  | .lockPages address pageCount => ∀ j, Visits address.toNat pageCount.toNat j → j < s.limit
  | .freePage address => address.toNat / 4096 < s.limit
  | .freePages address pageCount => ∀ j, Visits address.toNat pageCount.toNat j → j < s.limit

def AccountedFrom (fresh : PageFrameAllocator) (mMap : List Descriptor) :
    PageFrameAllocator → Prop :=
  Reachable (fun s => s = fresh.readEFIMemoryMap mMap)
    fun s s' => ∃ op, StaysInside s op ∧ s' = op.apply s

/-- `FreeMemory` and the set bits add up to the total and the bits that were set before. -/
theorem AccountedFrom.balanced (hfresh : fresh.initialised = false)
    (h : AccountedFrom fresh mMap s) :
    Balanced ((bitmapOf mMap).size * 8 + 1) (bitmapReady fresh mMap) s := by
  refine h.invariant ?_ ?_
  · rintro s rfl
    exact readEFIMemoryMap_balanced hfresh
  · rintro s s' hbefore ⟨op, -, rfl⟩
    have hlimit : s.limit = (bitmapOf mMap).size * 8 :=
      hbefore.limit.trans (limit_bitmapReady fresh mMap)
    have hstep : Balanced (s.limit + 1) s (op.apply s) := op.apply_balanced
    rw [hlimit] at hstep
    exact hbefore.trans hstep

/-- Where the memory of the bitmap was clear, `GetFreeRAM` is wrong in every state. -/
theorem getFreeRAM_ne (hfresh : fresh.initialised = false)
    (hclear : ∀ x, (bitmapOf mMap).buffer ≤ x →
      x ≤ (bitmapOf mMap).buffer + (bitmapOf mMap).size → fresh.mem x = 0)
    (h : AccountedFrom fresh mMap s) : s.getFreeRAM ≠ 4096 * s.clearBits s.limit := by
  have hbalanced := h.balanced hfresh
  have hmemory := getMemorySize_lt mMap
  have hsize := bitmapOf_size mMap
  have hlimit : s.limit = (bitmapOf mMap).size * 8 :=
    hbalanced.limit.trans (limit_bitmapReady fresh mMap)
  have hnone : (bitmapReady fresh mMap).setBits ((bitmapOf mMap).size * 8 + 1) = 0 := by
    rw [setBits, Nat.count_iff_forall_not]
    intro i hi
    have hle : i ≤ wrap64 ((bitmapOf mMap).size * 8) := by
      rw [wrap64_of_lt (by omega)]
      omega
    have hbyte : (bitmapReady fresh mMap).mem ((bitmapOf mMap).buffer + i / 8) = 0 := by
      rw [bitmapReady_eq]
      simp only [ByteMemory.fill]
      split
      · rfl
      · exact hclear _ (by omega) (by omega)
    rw [bit, show (bitmapReady fresh mMap).pageBitmap = bitmapOf mMap by rw [bitmapReady_eq],
      Bitmap.get_of_le hle, Bitmap.bit, hbyte]
    simp
  have hready : (bitmapReady fresh mMap).freeMemory = getMemorySize mMap := by
    rw [bitmapReady_eq]
  have hfree := hbalanced.free
  rw [hnone, hready] at hfree
  have hlast : s.setBits ((bitmapOf mMap).size * 8 + 1) =
      s.setBits s.limit + if s.bit s.limit = true then 1 else 0 := by
    rw [hlimit, setBits, setBits, Nat.count_succ]
  have hcount := clearBits_add_setBits s s.limit
  have hrounded : (bitmapOf mMap).size = getMemorySize mMap / 4096 / 8 + 1 := rfl
  intro hexact
  rw [getFreeRAM] at hexact
  rw [hlast, hexact] at hfree
  split at hfree
  · omega
  · omega

/-- What the accounts promise in one state, and of the next update in it. -/
structure AccountingExact (s : PageFrameAllocator) : Prop where
  freeRAM : s.getFreeRAM = 4096 * s.clearBits s.limit
  sum : s.getFreeRAM + s.getUsedRAM + s.getReservedRAM = s.totalMemory
  lockFits : ∀ index < s.limit, s.bit index = false →
    4096 ≤ s.getFreeRAM ∧ s.getUsedRAM + 4096 < 2 ^ 64
  freeFits : ∀ index < s.limit, s.bit index = true →
    4096 ≤ s.getUsedRAM ∧ s.getFreeRAM + 4096 < 2 ^ 64

theorem exists_allFree (hfresh : fresh.initialised = false) :
    ∃ s, AccountedFrom fresh mMap s ∧ ∀ i < s.limit, s.bit i = false := by
  have hsize := bitmapOf_size mMap
  have hrun : ∀ n ≤ (bitmapOf mMap).size * 8, ∃ s, AccountedFrom fresh mMap s ∧
      ∀ i < n, s.bit i = false := by
    intro n hn
    induction n with
    | zero => exact ⟨_, Reachable.start rfl, fun i hi => absurd hi (Nat.not_lt_zero i)⟩
    | succ n ih =>
        obtain ⟨s, hreach, hfree⟩ := ih (by omega)
        have hlimit : s.limit = (bitmapOf mMap).size * 8 :=
          (hreach.balanced hfresh).limit.trans (limit_bitmapReady fresh mMap)
        have haddress : (UInt64.ofNat (n * 4096)).toNat / 4096 = n := by
          rw [UInt64.toNat_ofNat_of_lt' (by rw [UInt64.size]; omega)]
          omega
        have hinside : StaysInside s (.freePage (UInt64.ofNat (n * 4096))) := by
          rw [StaysInside, haddress]
          omega
        refine ⟨_, hreach.next ⟨_, hinside, rfl⟩, fun i hi => ?_⟩
        rw [PageOperation.apply, bit_freePage, haddress]
        split
        · rfl
        · exact hfree i (by omega)
  obtain ⟨s, hreach, hfree⟩ := hrun _ (Nat.le_refl _)
  have hlimit : s.limit = (bitmapOf mMap).size * 8 :=
    (hreach.balanced hfresh).limit.trans (limit_bitmapReady fresh mMap)
  exact ⟨s, hreach, fun i hi => hfree i (by omega)⟩

/--
From no memory map on are the accounts exact: once every frame is free, the bits
of the bitmap stand for more memory than there is.
-/
theorem accounting_never_exact (hfresh : fresh.initialised = false) :
    ¬ ∀ s, AccountedFrom fresh mMap s → AccountingExact s := by
  intro hall
  obtain ⟨s, hreach, hfree⟩ := @exists_allFree fresh mMap hfresh
  have hbalanced := hreach.balanced hfresh
  have hlimit : s.limit = (bitmapOf mMap).size * 8 :=
    hbalanced.limit.trans (limit_bitmapReady fresh mMap)
  have htotal : s.totalMemory = getMemorySize mMap := by
    rw [hbalanced.totalMemory, bitmapReady_eq]
  have hclear : s.clearBits s.limit = s.limit := Nat.count_iff_forall.mpr hfree
  have hfreeRAM := (hall s hreach).freeRAM
  have hsum := (hall s hreach).sum
  have hrounded : (bitmapOf mMap).size = getMemorySize mMap / 4096 / 8 + 1 := rfl
  omega

theorem accounting_never_exact_filled :
    ¬ ∀ s, AccountedFrom freshAllocator filledMap s → AccountingExact s :=
  accounting_never_exact rfl

/-- The frames of the map fill all but one bit, and that one counts as free. -/
theorem filledMap_accounting : ¬ AccountingExact (freshAllocator.readEFIMemoryMap filledMap) :=
  fun h => getFreeRAM_ne (by rfl) (fun _ _ _ => rfl) (Reachable.start rfl) h.freeRAM

end Map

/-! ## Accounting from an empty bitmap on -/

inductive CountedOperation where
  | page (action : PageAction) (address : UInt64)
  | pages (action : PageAction) (address pageCount : UInt64)
  | requestPage

namespace CountedOperation

def apply (s : PageFrameAllocator) : CountedOperation → PageFrameAllocator
  | page action address => action.onPage s address.toNat
  | pages action address pageCount => action.onPages s address.toNat pageCount.toNat
  | requestPage => s.requestPage.2

/-- The bitmap has the operation's pages, and a range ends after 2 GiB. -/
def Inside (s : PageFrameAllocator) : CountedOperation → Prop
  | page _ address => address.toNat / 4096 < s.limit
  | pages _ address pageCount =>
      pageCount.toNat ≤ 2 ^ 19 ∧ ∀ j, Visits address.toNat pageCount.toNat j → j < s.limit
  | requestPage => True

end CountedOperation

/-- `InitBitmap` with the counters of taken memory at zero. -/
def emptied (fresh : PageFrameAllocator) (bitMapSize buffer : UInt64) : PageFrameAllocator :=
  PageFrameAllocator.initBitmap { fresh with usedMemory := 0, reservedMemory := 0 }
    bitMapSize.toNat buffer.toNat

def CountedFrom (fresh : PageFrameAllocator) (bitMapSize buffer : UInt64) :
    PageFrameAllocator → Prop :=
  Reachable (fun s => s = emptied fresh bitMapSize buffer)
    fun s s' => ∃ op : CountedOperation, op.Inside s ∧ s' = op.apply s

/-- Taken memory is what the set bits stand for, and a bit is not set or cleared twice. -/
structure CountsSetBits (s : PageFrameAllocator) : Prop where
  taken : (s.getUsedRAM + s.getReservedRAM) % 2 ^ 64 = 4096 * s.setBits s.limit % 2 ^ 64
  settled : ∀ (action : PageAction) (address : UInt64),
    s.bit (address.toNat / 4096) = action.value → action.onPage s address.toNat = s

/-- How many bits of the bitmap were set in the memory that `InitBitmap` does not reach. -/
def staleBits (mem : ByteMemory) (bitMapSize buffer : UInt64) : Nat :=
  Nat.count
    (fun i => 2 ^ 31 ≤ i / 8 ∧ Bitmap.get ⟨bitMapSize.toNat, buffer.toNat⟩ mem i = true)
    (wrap64 (bitMapSize.toNat * 8))

section Counting

variable {s fresh : PageFrameAllocator} {bitMapSize buffer : UInt64}

theorem PageAction.onPage_of_bit (action : PageAction) {address : Nat}
    (h : s.bit (address / 4096) = action.value) : action.onPage s address = s := by
  obtain ⟨account, -, heq, -⟩ := action.exists_account
  rw [heq, setPage_of_bit h]

theorem CountedOperation.apply_balanced {op : CountedOperation} (h : op.Inside s) :
    Balanced s.limit s (op.apply s) := by
  cases op with
  | page action address => exact onPage_balanced action fun _ => h
  | pages action address pageCount =>
      exact onPages_balanced action pageCount.toNat_lt fun j hj _ => h.2 j hj
  | requestPage => exact requestPage_balanced (Nat.le_refl _)

theorem emptied_fields (fresh : PageFrameAllocator) (bitMapSize buffer : UInt64) :
    (emptied fresh bitMapSize buffer).usedMemory = 0 ∧
      (emptied fresh bitMapSize buffer).reservedMemory = 0 ∧
      (emptied fresh bitMapSize buffer).limit = wrap64 (bitMapSize.toNat * 8) := by
  obtain ⟨mem, heq, -⟩ := initBitmap_spec { fresh with usedMemory := 0, reservedMemory := 0 }
    bitMapSize.toNat_lt buffer.toNat
  rw [emptied, heq]
  exact ⟨rfl, rfl, rfl⟩

theorem setBits_emptied (fresh : PageFrameAllocator) (bitMapSize buffer : UInt64) :
    (emptied fresh bitMapSize buffer).setBits (emptied fresh bitMapSize buffer).limit =
      staleBits fresh.mem bitMapSize buffer := by
  rw [(emptied_fields fresh bitMapSize buffer).2.2]
  exact count_congr fun i hi => bit_of_initBitmap bitMapSize.toNat_lt hi

theorem CountedFrom.balanced (h : CountedFrom fresh bitMapSize buffer s) :
    Balanced (emptied fresh bitMapSize buffer).limit (emptied fresh bitMapSize buffer) s := by
  refine h.invariant ?_ ?_
  · rintro s rfl
    exact Balanced.refl _ _
  · rintro s s' hbefore ⟨op, hinside, rfl⟩
    have hstep := op.apply_balanced hinside
    rw [hbefore.limit] at hstep
    exact hbefore.trans hstep

/--
The counters count the set bits in every run exactly if the stale bits stand for
a multiple of `2 ^ 64` bytes, which up to 2 GiB of bitmap are none.
-/
theorem countsSetBits_iff (fresh : PageFrameAllocator) (bitMapSize buffer : UInt64) :
    (∀ s, CountedFrom fresh bitMapSize buffer s → CountsSetBits s) ↔
      2 ^ 52 ∣ staleBits fresh.mem bitMapSize buffer := by
  obtain ⟨hused, hreserved, -⟩ := emptied_fields fresh bitMapSize buffer
  have hstale := setBits_emptied fresh bitMapSize buffer
  constructor
  · intro hall
    have htaken := (hall _ (Reachable.start rfl)).taken
    rw [getUsedRAM, getReservedRAM, hused, hreserved, hstale] at htaken
    omega
  · intro hdvd s hreach
    have hbalanced := hreach.balanced
    have htaken := hbalanced.taken
    rw [hused, hreserved, hstale] at htaken
    refine ⟨?_, fun action address hbit => action.onPage_of_bit hbit⟩
    rw [getUsedRAM, getReservedRAM, hbalanced.limit]
    omega

theorem staleBits_of_le (mem : ByteMemory) (hsize : bitMapSize.toNat ≤ 2 ^ 31) :
    staleBits mem bitMapSize buffer = 0 := by
  rw [staleBits, Nat.count_iff_forall_not]
  rintro i hi ⟨hfar, -⟩
  rw [wrap64_of_lt (by omega)] at hi
  omega

def filledWithOnes : PageFrameAllocator := ⟨fun _ => 0xFF, ⟨0, 0⟩, 0, 0, 0, 0, 0, false⟩

/-- The last byte of a bitmap of `2 ^ 31 + 1` bytes keeps its set bits. -/
theorem stale_bits_uncounted : ¬ CountsSetBits (emptied filledWithOnes (2 ^ 31 + 1) 0) := by
  intro h
  have htaken := h.taken
  obtain ⟨hused, hreserved, -⟩ := emptied_fields filledWithOnes (2 ^ 31 + 1) 0
  rw [getUsedRAM, getReservedRAM, hused, hreserved, setBits_emptied] at htaken
  have hlimit : wrap64 ((2 ^ 31 + 1 : UInt64).toNat * 8) = 2 ^ 34 + 8 := by decide
  have hfew : staleBits filledWithOnes.mem (2 ^ 31 + 1) 0 ≤ 2 ^ 34 + 8 := by
    rw [staleBits, hlimit]
    exact Nat.count_le _
  have hsome : staleBits filledWithOnes.mem (2 ^ 31 + 1) 0 ≠ 0 := by
    rw [staleBits, hlimit, Ne, Nat.count_iff_forall_not]
    intro hnone
    refine hnone (2 ^ 34) (by norm_num) ⟨by norm_num, ?_⟩
    rw [Bitmap.get_of_le (by rw [hlimit]; norm_num)]
    decide
  omega

end Counting

end UnifiedOS.Paging
