import UnifiedOS.Paging.MemoryIsolation
import UnifiedOS.Paging.MemoryAccounting
import UnifiedOS.Paging.TableGraph

/-!
# `InitialisePaging`

The kernel locks its image, takes a page for the `PML4` and maps all memory and the
framebuffer to themselves.  The tables for that come from the memory being mapped.
If it has a free frame for each of them the loops succeed, and what the memory map
withheld and the kernel image are never granted or written from then on.
-/

namespace UnifiedOS.Paging

open UnifiedOS.Foundation
open PageFrameAllocator PageDirectoryEntry

/-- What the boot loader passes on, and the linker's `_KernelStart` and `_KernelEnd`. -/
structure BootInfo where
  mMap : List Descriptor
  kernelStart : UInt64
  kernelEnd : UInt64
  baseAddress : UInt64
  bufferSize : UInt64

/-- A loop that maps the pages from `t` to `stop` to themselves; `none` if `fuel` ran out. -/
def mapPages (pml4 : Nat) : Nat → Nat → Nat → PageFrameAllocator → Option PageFrameAllocator
  | 0, _, _, _ => none
  | fuel + 1, t, stop, s =>
      if t < stop then
        mapPages pml4 fuel (wrap64 (t + 0x1000)) stop
          (s.mapMemory pml4 (BitVec.ofNat 64 t) (BitVec.ofNat 64 t))
      else some s

namespace BootInfo

def pageCountOfKernel (boot : BootInfo) : UInt64 :=
  (boot.kernelEnd - boot.kernelStart) / 0x1000 + 1

def framebufferSize (boot : BootInfo) : UInt64 := boot.bufferSize + 0x1000

end BootInfo

def initialisePaging (fuel : Nat) (s : PageFrameAllocator) (boot : BootInfo) :
    Option (Nat × PageFrameAllocator) :=
  let s := s.readEFIMemoryMap boot.mMap
  -- `TotalMemory` is assigned by `GetMemorySize` only
  let totalMemorySize := s.totalMemory
  let s := s.lockPages boot.kernelStart.toNat boot.pageCountOfKernel.toNat
  let (pml4, s) := s.requestPage
  let s := { s with mem := s.mem.fill pml4 0x1000 0 }
  (mapPages pml4 fuel 0 totalMemorySize s).bind fun s =>
    let s := s.lockPages boot.baseAddress.toNat (boot.framebufferSize / 0x1000 + 1).toNat
    (mapPages pml4 fuel boot.baseAddress.toNat (boot.baseAddress + boot.framebufferSize).toNat
      s).map fun s => (pml4, s)

/-! ## Enough free frames -/

/-- Requests reach every free frame, and there is one for every table that is missing. -/
structure Enough (s : PageFrameAllocator) (node : TableTree) (needed : Finset (Nat × Nat)) :
    Prop where
  reach : InReach s
  room : (absentTables node needed).card ≤ (freeFrames s).card

section Enough

variable {s s' : PageFrameAllocator} {grants tables tables' path : List (Nat × Nat)}
  {pml4 t : BitVec 64} {node node' : TableTree} {needed : Finset (Nat × Nat)} {k a i : Nat}

theorem Mapped.enough (h : Mapped pml4 grants path s tables node s' tables' node')
    (hpath : ∀ slot ∈ path, slot ∈ needed) (henough : Enough s node needed) :
    Enough s' node' needed := by
  refine ⟨h.reach henough.reach, ?_⟩
  have hspends := h.spends needed hpath
  have hroom := henough.room
  omega

theorem Enough.tableAnswered (h : Enough s node needed)
    (hmemory : MemoryInv s grants tables pml4 node) (hk : k < 4)
    (ht : node (k + 1) a = some t) (hi : i < 512) (hslot : (k, a * 512 + i) ∈ needed) :
    TableAnswered s t.toNat i := by
  intro habsent
  have hentry := hmemory.backs.entries k a t i hk ht hi
  have hnone : node k (a * 512 + i) = none := by
    by_contra hsome
    obtain ⟨u, hu⟩ := Option.ne_none_iff_exists'.mp hsome
    rw [hu] at hentry
    have hpresent := hentry.present
    rw [habsent] at hpresent
    contradiction
  have hmissing : (k, a * 512 + i) ∈ absentTables node needed := by
    simp only [absentTables, Finset.mem_filter]
    exact ⟨hslot, hnone⟩
  exact h.reach.granted (Nat.lt_of_lt_of_le (Finset.card_pos.mpr ⟨_, hmissing⟩) h.room)

theorem Enough.answeredAlong {is : List Nat} (h : Enough s node needed)
    (hmemory : MemoryInv s grants tables pml4 node) (hlevel : is.length ≤ 3)
    (hindices : ∀ i ∈ is, i < 512) (ht : node (is.length + 1) a = some t)
    (hpath : ∀ slot ∈ pathBelow a is, slot ∈ needed) : AnsweredAlong s t.toNat is := by
  induction is generalizing s tables node a t with
  | nil => trivial
  | cons i is ih =>
      simp only [List.length_cons] at hlevel ht
      have hi := hindices i List.mem_cons_self
      have hanswered := h.tableAnswered hmemory (by omega) ht hi (hpath _ List.mem_cons_self)
      obtain ⟨tables₁, node₁, u₁, hmapped₁, hnode₁, htable₁, -⟩ :=
        nextTable_mapped hmemory (Nat.le_add_left 1 _) (by omega) ht hi hanswered
      refine ⟨hanswered, ?_⟩
      rw [htable₁]
      refine ih (hmapped₁.enough ?_ h) hmapped₁.inv (by omega)
        (fun j hj => hindices j (List.mem_cons_of_mem _ hj)) hnode₁
        fun slot hslot => hpath slot (List.mem_cons_of_mem _ hslot)
      intro slot hslot
      rw [List.mem_singleton.mp hslot]
      exact hpath _ List.mem_cons_self

theorem Enough.answered (h : Enough s node needed) (hmemory : MemoryInv s grants tables pml4 node)
    (v : BitVec 64) (hpath : ∀ slot ∈ pathBelow 0 (tableIndices v), slot ∈ needed) :
    Answered s pml4.toNat v :=
  h.answeredAlong hmemory (Nat.le_refl 3) (tableIndices_lt v) hmemory.backs.root hpath

theorem Enough.lockPages {address pageCount : Nat} (h : Enough s node needed)
    (hcount : pageCount < 2 ^ 64)
    (hlocked : ∀ j < s.limit, Visits address pageCount j → s.bit j = true) :
    Enough (s.lockPages address pageCount) node needed := by
  refine ⟨?_, ?_⟩
  · refine h.reach.raise (pageBitmap_lockPages hcount) (fun j hj => bit_lockPages_of_bit hcount hj)
      fun j hj => ?_
    rw [pageBitmapIndex_lockPages hcount] at hj
    exact h.reach.below j hj
  · have hsame : freeFrames (s.lockPages address pageCount) = freeFrames s := by
      rw [freeFrames, freeFrames, limit_congr (pageBitmap_lockPages hcount)]
      refine Finset.filter_congr fun j hj => ?_
      rw [bit_lockPages hcount]
      by_cases hvisits : Visits address pageCount j ∧ j ≤ s.limit
      · rw [if_pos hvisits, hlocked j (Finset.mem_range.mp hj) hvisits.1]
      · rw [if_neg hvisits]
    rw [hsame]
    exact h.room

end Enough

/-! ## The loops -/

def identityCalls : Nat → Nat → List (BitVec 64 × BitVec 64)
  | _, 0 => []
  | t, count + 1 => (BitVec.ofNat 64 t, BitVec.ofNat 64 t) :: identityCalls (t + 0x1000) count

def rounds (t stop : Nat) : Nat := (stop - t + 0xfff) / 0x1000

def tablesOf (calls : List (BitVec 64 × BitVec 64)) : Finset (Nat × Nat) :=
  (calls.flatMap fun call => pathBelow 0 (tableIndices call.1)).toFinset

def PageFrameAllocator.mapAll (s : PageFrameAllocator) (pml4 : Nat)
    (calls : List (BitVec 64 × BitVec 64)) : PageFrameAllocator :=
  calls.foldl (fun s call => s.mapMemory pml4 call.1 call.2) s

section Loops

variable {s : PageFrameAllocator} {pml4 t stop fuel count : Nat}

theorem mapAll_cons {v p : BitVec 64} {calls : List (BitVec 64 × BitVec 64)} :
    s.mapAll pml4 ((v, p) :: calls) = (s.mapMemory pml4 v p).mapAll pml4 calls := rfl

theorem mapPages_eq (hfuel : count < fuel) (hroom : t + 0x1000 * count < 2 ^ 64)
    (hstop : stop ≤ t + 0x1000 * count) (hlast : count = 0 ∨ t + 0x1000 * (count - 1) < stop) :
    mapPages pml4 fuel t stop s = some (s.mapAll pml4 (identityCalls t count)) := by
  induction count generalizing t fuel s with
  | zero =>
      obtain ⟨fuel, rfl⟩ := Nat.exists_eq_add_of_lt hfuel
      rw [Nat.zero_add, mapPages, if_neg (by omega)]
      rfl
  | succ count ih =>
      obtain ⟨fuel, rfl⟩ : ∃ k, fuel = k + 1 := ⟨fuel - 1, by omega⟩
      have hone : 0x1000 ≤ 0x1000 * (count + 1) := by omega
      have hwrap : wrap64 (t + 0x1000) = t + 0x1000 :=
        wrap64_of_lt (Nat.lt_of_le_of_lt (Nat.add_le_add_left hone t) hroom)
      have hmore : t < stop := by omega
      rw [mapPages, if_pos hmore, hwrap, identityCalls, mapAll_cons]
      exact ih (by omega) (by omega) (by omega) (by omega)

theorem mapPages_rounds (hfuel : rounds t stop < fuel)
    (hroom : t + 0x1000 * rounds t stop < 2 ^ 64) :
    mapPages pml4 fuel t stop s = some (s.mapAll pml4 (identityCalls t (rounds t stop))) := by
  have hrounds : stop ≤ t + 0x1000 * rounds t stop ∧
      (rounds t stop = 0 ∨ t + 0x1000 * (rounds t stop - 1) < stop) := by
    unfold rounds
    omega
  exact mapPages_eq hfuel hroom hrounds.1 hrounds.2

theorem mem_identityCalls {call : BitVec 64 × BitVec 64} :
    call ∈ identityCalls t count ↔
      ∃ i < count, call = (BitVec.ofNat 64 (t + 0x1000 * i), BitVec.ofNat 64 (t + 0x1000 * i)) := by
  induction count generalizing t with
  | zero => simp [identityCalls]
  | succ count ih =>
      rw [identityCalls, List.mem_cons, ih]
      constructor
      · rintro (rfl | ⟨i, hi, rfl⟩)
        · exact ⟨0, by omega, rfl⟩
        · refine ⟨i + 1, by omega, ?_⟩
          rw [Nat.mul_add, Nat.mul_one, Nat.add_right_comm, Nat.add_assoc]
      · rintro ⟨i, hi, rfl⟩
        cases i with
        | zero => exact Or.inl rfl
        | succ i =>
            refine Or.inr ⟨i, by omega, ?_⟩
            rw [Nat.mul_add, Nat.mul_one, Nat.add_right_comm, Nat.add_assoc]

end Loops

theorem RunInv.mapAll {pml4 : BitVec 64} {start s : KernelRun} {tables : List (Nat × Nat)}
    {node : TableTree} {needed : Finset (Nat × Nat)} {calls : List (BitVec 64 × BitVec 64)}
    (h : RunInv pml4 start s tables node) (henough : Enough s.allocator node needed)
    (hreach : Reachable (· = start) (KernelStep pml4) s)
    (hneeded : ∀ call ∈ calls, ∀ slot ∈ pathBelow 0 (tableIndices call.1), slot ∈ needed) :
    ∃ tables' node',
      RunInv pml4 start ⟨s.allocator.mapAll pml4.toNat calls, s.grants, s.calls ++ calls⟩
        tables' node' ∧
      Enough (s.allocator.mapAll pml4.toNat calls) node' needed ∧
      Reachable (· = start) (KernelStep pml4)
        ⟨s.allocator.mapAll pml4.toNat calls, s.grants, s.calls ++ calls⟩ := by
  induction calls generalizing s tables node with
  | nil =>
      rw [List.append_nil]
      exact ⟨tables, node, h, henough, hreach⟩
  | cons call calls ih =>
      obtain ⟨v, p⟩ := call
      have hpath := hneeded _ List.mem_cons_self
      have hanswered := henough.answered h.memory v hpath
      obtain ⟨tables₁, node₁, hmapped, hleaves⟩ := mapMemory_mapped h.memory v p hanswered
      have hrest := ih (h.mapped hmapped hleaves) (hmapped.enough hpath henough)
        (hreach.next (.mapMemory s v p hanswered))
        fun call hcall => hneeded call (List.mem_cons_of_mem _ hcall)
      rw [List.append_assoc] at hrest
      exact hrest

/-! ## What the identity calls map -/

section Identity

variable {calls : List (BitVec 64 × BitVec 64)} {t count x : Nat}

theorem and_addressMask_eq (p : BitVec 64) :
    p &&& addressMask = BitVec.ofNat 64 (4096 * frameOf p) := by
  have haddress := (leadsTo_mapping ⟨0⟩ p).address
  rw [← haddress, address_eq, toNat_getAddress_mapping]

theorem frameOf_ofNat (hx : x < 2 ^ 48) : frameOf (BitVec.ofNat 64 x) = x / 4096 := by
  rw [frameOf, BitVec.toNat_ofNat]
  omega

theorem lastMapped_identity (hx : x < 2 ^ 48)
    (hcalls : ∀ call ∈ calls, ∃ t < 2 ^ 48, call = (BitVec.ofNat 64 t, BitVec.ofNat 64 t)) :
    (lastMapped calls (BitVec.ofNat 64 x)).map (· &&& addressMask) =
      if ∃ call ∈ calls, pageNumber call.1 = x / 4096 then
        some (BitVec.ofNat 64 (4096 * (x / 4096)))
      else none := by
  rw [lastMapped, pageNumber_ofNat hx, Option.map_map]
  cases hfind : calls.reverse.find? fun call => pageNumber call.1 = x / 4096 with
  | some call =>
      have hmem := List.mem_reverse.mp (List.mem_of_find?_eq_some hfind)
      have hpage : pageNumber call.1 = x / 4096 := by simpa using List.find?_some hfind
      rw [if_pos ⟨call, hmem, hpage⟩]
      obtain ⟨t, ht, rfl⟩ := hcalls call hmem
      rw [pageNumber_ofNat ht] at hpage
      rw [Option.map_some, Function.comp_apply, and_addressMask_eq, frameOf_ofNat ht, hpage]
  | none =>
      rw [if_neg, Option.map_none]
      rintro ⟨call, hmem, hpage⟩
      have hnone := List.find?_eq_none.mp hfind call (List.mem_reverse.mpr hmem)
      exact hnone (by simpa using hpage)

theorem exists_identityCalls (hroom : t + 0x1000 * count ≤ 2 ^ 48) :
    (∃ call ∈ identityCalls t count, pageNumber call.1 = x / 4096) ↔
      t / 4096 ≤ x / 4096 ∧ x / 4096 < t / 4096 + count := by
  constructor
  · rintro ⟨call, hmem, hpage⟩
    obtain ⟨i, hi, rfl⟩ := mem_identityCalls.mp hmem
    have hlt : t + 0x1000 * i < 2 ^ 48 := by omega
    rw [pageNumber_ofNat hlt] at hpage
    omega
  · rintro ⟨hlo, hhi⟩
    obtain ⟨i, hi⟩ := Nat.exists_eq_add_of_le hlo
    refine ⟨_, mem_identityCalls.mpr ⟨i, by omega, rfl⟩, ?_⟩
    have hlt : t + 0x1000 * i < 2 ^ 48 := by omega
    rw [pageNumber_ofNat hlt]
    omega

theorem identityCalls_identity (hroom : t + 0x1000 * count ≤ 2 ^ 48) :
    ∀ call ∈ identityCalls t count,
      ∃ t < 2 ^ 48, call = (BitVec.ofNat 64 t, BitVec.ofNat 64 t) := by
  intro call hmem
  obtain ⟨i, hi, rfl⟩ := mem_identityCalls.mp hmem
  exact ⟨t + 0x1000 * i, by omega, rfl⟩

theorem getMemorySize_aligned (mMap : List Descriptor) : getMemorySize mMap % 4096 = 0 := by
  unfold getMemorySize
  induction mMap using List.reverseRecOn with
  | nil => rfl
  | append_singleton mMap desc ih =>
      rw [List.foldl_append, List.foldl_cons, List.foldl_nil, wrap64]
      omega

end Identity

/-! ## Up to the `PML4` -/

def bootCalls (boot : BootInfo) : List (BitVec 64 × BitVec 64) :=
  identityCalls 0 (rounds 0 (getMemorySize boot.mMap)) ++
    identityCalls boot.baseAddress.toNat
      (rounds boot.baseAddress.toNat (boot.baseAddress + boot.framebufferSize).toNat)

def bootAllocator (s : PageFrameAllocator) (boot : BootInfo) : PageFrameAllocator :=
  (s.readEFIMemoryMap boot.mMap).lockPages boot.kernelStart.toNat boot.pageCountOfKernel.toNat

def KernelImage (boot : BootInfo) (x : Nat) : Prop :=
  boot.kernelStart.toNat ≤ x ∧ x < boot.kernelEnd.toNat

def FramebufferPage (boot : BootInfo) (x : Nat) : Prop :=
  boot.baseAddress.toNat / 4096 ≤ x / 4096 ∧
    x / 4096 < boot.baseAddress.toNat / 4096 + (boot.bufferSize.toNat + 0x1fff) / 0x1000

instance (boot : BootInfo) (x : Nat) : Decidable (FramebufferPage boot x) :=
  inferInstanceAs (Decidable (_ ∧ _))

/--
The globals are fresh; descriptors and image are page aligned, the image is smaller
than 2 GiB, the bitmap lies inside the memory it describes and the framebuffer is no
usable memory; and one frame is free for each table and the `PML4`.
-/
structure Bootable (s : PageFrameAllocator) (boot : BootInfo) : Prop where
  fresh : s.initialised = false
  cursor : s.pageBitmapIndex = 0
  memory : getMemorySize boot.mMap ≤ 2 ^ 45
  aligned : ∀ desc ∈ boot.mMap, desc.physAddr.toNat % 4096 = 0
  image : boot.kernelStart.toNat % 4096 = 0 ∧ boot.kernelStart.toNat ≤ boot.kernelEnd.toNat ∧
    boot.kernelEnd.toNat < boot.kernelStart.toNat + 0x7ffff000 ∧ boot.kernelEnd.toNat ≤ 2 ^ 52
  bitmap : (bitmapOf boot.mMap).buffer + (bitmapOf boot.mMap).size <
    4096 * ((bitmapOf boot.mMap).size * 8)
  framebuffer : boot.baseAddress.toNat + boot.bufferSize.toNat + 0x2000 ≤ 2 ^ 48
  withheld : ∀ i < (bitmapOf boot.mMap).size * 8,
    Visits boot.baseAddress.toNat (boot.framebufferSize / 0x1000 + 1).toNat i →
    Withheld boot.mMap s.mem i
  room : (tablesOf (bootCalls boot)).card < (freeFrames (bootAllocator s boot)).card

section Start

variable {s : PageFrameAllocator} {boot : BootInfo} {mMap : List Descriptor} {x : Nat}

theorem bitmapOf_aligned (haligned : ∀ desc ∈ mMap, desc.physAddr.toNat % 4096 = 0) :
    (bitmapOf mMap).buffer % 4096 = 0 := by
  unfold bitmapOf largestSegment
  induction mMap using List.reverseRecOn with
  | nil => rfl
  | append_singleton mMap desc ih =>
      rw [List.foldl_append, List.foldl_cons, List.foldl_nil]
      dsimp only
      split
      · exact haligned desc (by simp)
      · exact ih fun desc hdesc => haligned desc (List.mem_append_left _ hdesc)

theorem keepsOutside_reserveLow (haddressable : s.pageBitmap.Addressable) :
    KeepsOutside s (s.reservePages 0 0x100) :=
  keepsOutside_overPages (fun _ _ => ⟨rfl, rfl⟩) haddressable (by norm_num)

theorem keepsOutside_unreserveConventional (haddressable : s.pageBitmap.Addressable) :
    KeepsOutside s (s.unreserveConventional mMap) := by
  unfold unreserveConventional
  induction mMap using List.reverseRecOn with
  | nil => exact .refl s
  | append_singleton mMap desc ih =>
      rw [List.foldl_append, List.foldl_cons, List.foldl_nil]
      split
      · exact ih.trans (keepsOutside_overPages (fun _ _ => ⟨rfl, rfl⟩)
          (by rw [ih.pageBitmap]; exact haddressable) desc.numPages.toNat_lt)
      · exact ih

theorem mem_readEFIMemoryMap (hfresh : s.initialised = false)
    (haddressable : (bitmapOf mMap).Addressable)
    (hx : ¬ ((bitmapOf mMap).buffer ≤ x ∧ x ≤ (bitmapOf mMap).buffer + (bitmapOf mMap).size)) :
    (s.readEFIMemoryMap mMap).mem x = s.mem x := by
  have hmemory := getMemorySize_lt mMap
  have hsize := bitmapOf_size mMap
  have heq : s.readEFIMemoryMap mMap = (bitmapReady s mMap).markPages mMap := by
    rw [readEFIMemoryMap, if_neg (by simp [hfresh])]
    rfl
  have hready : (bitmapReady s mMap).pageBitmap = bitmapOf mMap := by rw [bitmapReady_eq]
  have hmem : (bitmapReady s mMap).mem x = s.mem x := by
    rw [bitmapReady_eq]
    exact ByteMemory.fill_outside _ (by omega)
  rw [heq, ← hmem]
  generalize bitmapReady s mMap = s₁ at *
  have h₂ : KeepsOutside s₁ (s₁.reservePages 0 (getMemorySize mMap / 4096 + 1)) :=
    keepsOutside_overPages (fun _ _ => ⟨rfl, rfl⟩) (by rw [hready]; exact haddressable) (by omega)
  have h₃ := h₂.trans (@keepsOutside_unreserveConventional _ mMap
    (by rw [h₂.pageBitmap, hready]; exact haddressable))
  have h₄ := h₃.trans (keepsOutside_reserveLow (by rw [h₃.pageBitmap, hready]; exact haddressable))
  have h₅ := h₄.trans (@keepsOutside_lockPages _ (bitmapOf mMap).buffer
    ((bitmapOf mMap).size / 4096 + 1)
    (by rw [h₄.pageBitmap, hready]; exact haddressable) (by omega))
  have hmark : s₁.markPages mMap = (((s₁.reservePages 0 (getMemorySize mMap / 4096 + 1)
      ).unreserveConventional mMap).reservePages 0 0x100).lockPages (bitmapOf mMap).buffer
        ((bitmapOf mMap).size / 4096 + 1) := by
    rw [markPages, h₄.pageBitmap, hready]
  rw [hmark]
  exact h₅.mem x (by rw [InBitmap, hready]; exact hx)

theorem Bootable.addressable (h : Bootable s boot) : (bitmapOf boot.mMap).Addressable := by
  have hmemory := h.memory
  have hbitmap := h.bitmap
  have hsize : (bitmapOf boot.mMap).size = getMemorySize boot.mMap / 4096 / 8 + 1 := rfl
  unfold Bitmap.Addressable
  omega

theorem Bootable.bits (h : Bootable s boot) :
    (bootAllocator s boot).pageBitmap = bitmapOf boot.mMap ∧
      (bootAllocator s boot).limit = (bitmapOf boot.mMap).size * 8 ∧
      ∀ i < (bitmapOf boot.mMap).size * 8,
        ((bootAllocator s boot).bit i = true ↔
          Visits boot.kernelStart.toNat boot.pageCountOfKernel.toNat i ∨
            Withheld boot.mMap s.mem i) := by
  have hcount := boot.pageCountOfKernel.toNat_lt
  have hfirst : 0 < (bitmapOf boot.mMap).size * 8 := by
    simp only [bitmapOf]
    omega
  have hbitmap := (readEFIMemoryMap_spec h.fresh hfirst).1
  have hlocked : (bootAllocator s boot).pageBitmap = bitmapOf boot.mMap := by
    rw [bootAllocator, pageBitmap_lockPages hcount, hbitmap]
  refine ⟨hlocked, limit_of_bitmapOf hlocked, fun i hi => ?_⟩
  have hle : i ≤ (s.readEFIMemoryMap boot.mMap).limit := by
    rw [limit_of_bitmapOf hbitmap]
    omega
  rw [bootAllocator, bit_lockPages hcount, ← (readEFIMemoryMap_spec h.fresh hi).2.2]
  by_cases hvisits : Visits boot.kernelStart.toNat boot.pageCountOfKernel.toNat i
  · simp [hvisits, hle]
  · simp [hvisits]

theorem Bootable.framesInv (h : Bootable s boot) : FramesInv (bootAllocator s boot) [] := by
  have hmemory := h.memory
  have hbitmap := h.bitmap
  have hsize : (bitmapOf boot.mMap).size = getMemorySize boot.mMap / 4096 / 8 + 1 := rfl
  have haligned := bitmapOf_aligned h.aligned
  have haddress := bitmapOf_buffer_lt boot.mMap
  obtain ⟨hsame, hlimit, hbits⟩ := h.bits
  refine ⟨⟨by rw [hsame]; exact h.addressable, by simp, by simp, by simp, List.Pairwise.nil⟩, ?_,
    fun x hx => ?_⟩
  · rw [hlimit]
    omega
  · rw [InBitmap, hsame] at hx
    refine ⟨by rw [hlimit]; omega, (hbits _ (by omega)).mpr (Or.inr (Or.inr (Or.inr ?_))),
      by simp⟩
    rw [← visits_iff_reaches (by omega) haddress, visits_iff (by omega) (by omega) haddress]
    omega

theorem Bootable.inReach (h : Bootable s boot) : InReach (bootAllocator s boot) := by
  have hread := @inReach_readEFIMemoryMap s boot.mMap h.fresh h.cursor
  have hcount := boot.pageCountOfKernel.toNat_lt
  refine hread.raise (pageBitmap_lockPages hcount) (fun j hj => bit_lockPages_of_bit hcount hj)
    fun j hj => ?_
  rw [bootAllocator, pageBitmapIndex_lockPages hcount] at hj
  exact hread.below j hj

def pml4Cleared (s : PageFrameAllocator) (boot : BootInfo) : KernelRun :=
  ⟨{ (bootAllocator s boot).requestPage.2 with
    mem := (bootAllocator s boot).requestPage.2.mem.fill (bootAllocator s boot).requestPage.1
      0x1000 0 }, [], []⟩

theorem Bootable.started (h : Bootable s boot) :
    ∃ pml4 : BitVec 64, (bootAllocator s boot).requestPage.1 = pml4.toNat ∧
      Started pml4 (pml4Cleared s boot) ∧
      Enough (pml4Cleared s boot).allocator
        (fun k a => if k = 4 ∧ a = 0 then some pml4 else none) (tablesOf (bootCalls boot)) ∧
      ∀ f, Taken (bootAllocator s boot) [] f →
        Taken (pml4Cleared s boot).allocator [(pml4.toNat, 1)] f := by
  have hframes := h.framesInv
  have hroom := h.room
  have hgranted := h.inReach.granted (by omega)
  have hreach := h.inReach.requestPage
  have hcard := card_freeFrames_requestPage hframes.addressable hgranted
  have hframes₁ := hframes.requestPage hgranted
  have hstep := FrameStep.requestPage ⟨bootAllocator s boot, []⟩
  dsimp only at hstep
  rw [recordGrant, if_neg hgranted] at hstep
  have htaken : ∀ f, Taken (bootAllocator s boot) [] f →
      Taken (bootAllocator s boot).requestPage.2 [((bootAllocator s boot).requestPage.1, 1)] f :=
    fun f hf => hf.frameStep hframes.ledger hstep
  obtain ⟨haligned, hlt⟩ := requestPage_page hframes.physical
  unfold pml4Cleared
  generalize (bootAllocator s boot).requestPage.1 = page at *
  generalize (bootAllocator s boot).requestPage.2 = s₁ at *
  have hvalue : (BitVec.ofNat 64 page).toNat = page := by
    rw [BitVec.toNat_ofNat, Nat.mod_eq_of_lt (by omega)]
  have hbits : ∀ x, InBitmap s₁ x → s₁.mem.fill page 0x1000 0 x = s₁.mem x := by
    intro x hx
    apply ByteMemory.fill_outside
    by_contra hin
    exact hframes₁.page_not_inBitmap List.mem_cons_self haligned (by omega) (by omega) hx
  refine ⟨BitVec.ofNat 64 page, hvalue.symm, ⟨?_, ?_, fun x hlo hhi => ?_, rfl, rfl⟩,
    ⟨hreach.write hframes₁.addressable hbits, ?_⟩, fun f hf => ?_⟩
  · rw [hvalue]
    exact hframes₁.write hbits
  · rw [hvalue]
    exact haligned
  · rw [hvalue] at hlo hhi
    exact if_pos ⟨hlo, hhi⟩
  · rw [@freeFrames_congr s₁ { s₁ with mem := s₁.mem.fill page 0x1000 0 } rfl fun j =>
      bit_of_mem hframes₁.addressable hbits]
    have hfilter := Finset.card_filter_le (tablesOf (bootCalls boot))
      fun slot => (if slot.1 = 4 ∧ slot.2 = 0 then some (BitVec.ofNat 64 page) else none) = none
    exact le_trans hfilter (by omega)
  · rw [hvalue]
    exact (htaken f hf).mark rfl fun hset => by
      rw [bit_of_mem hframes₁.addressable hbits]
      exact hset

theorem Bootable.mem_pml4Cleared (h : Bootable s boot) {pml4 : BitVec 64}
    (hpml4 : (bootAllocator s boot).requestPage.1 = pml4.toNat)
    (hx : Reserved pml4 (pml4Cleared s boot) x)
    (hbitmap : ¬ ((bitmapOf boot.mMap).buffer ≤ x ∧
      x ≤ (bitmapOf boot.mMap).buffer + (bitmapOf boot.mMap).size)) :
    (pml4Cleared s boot).allocator.mem x = s.mem x := by
  have hcount := boot.pageCountOfKernel.toNat_lt
  have hfirst : 0 < (bitmapOf boot.mMap).size * 8 := by
    simp only [bitmapOf]
    omega
  have hread := (readEFIMemoryMap_spec (s := s) h.fresh hfirst).1
  have hlocked : KeepsOutside (s.readEFIMemoryMap boot.mMap) (bootAllocator s boot) :=
    keepsOutside_lockPages (by rw [hread]; exact h.addressable) hcount
  have hrequested : KeepsOutside (bootAllocator s boot) (bootAllocator s boot).requestPage.2 :=
    keepsOutside_requestPage h.framesInv.addressable
  have houtside : ¬ InBitmap (s.readEFIMemoryMap boot.mMap) x := by
    rw [InBitmap, hread]
    exact hbitmap
  have hpage := hx.1.free _ (List.mem_singleton_self _)
  simp only [Covers] at hpage
  rw [← mem_readEFIMemoryMap h.fresh h.addressable hbitmap,
    ← (hlocked.trans hrequested).mem x houtside]
  apply ByteMemory.fill_outside
  have haligned := (requestPage_page h.framesInv.physical).1
  rw [hpml4] at haligned ⊢
  omega

theorem Bootable.kernel_visited (h : Bootable s boot) (hx : KernelImage boot x) :
    Visits boot.kernelStart.toNat boot.pageCountOfKernel.toNat (x / 4096) := by
  obtain ⟨haligned, hle, hsmall, hroom⟩ := h.image
  have hcount : boot.pageCountOfKernel.toNat =
      (boot.kernelEnd.toNat - boot.kernelStart.toNat) / 4096 + 1 := by
    rw [BootInfo.pageCountOfKernel, UInt64.toNat_add, UInt64.toNat_div,
      UInt64.toNat_sub_of_le _ _ (UInt64.le_iff_toNat_le.mpr hle), Nat.mod_eq_of_lt]
    · rfl
    · change (boot.kernelEnd.toNat - boot.kernelStart.toNat) / 4096 + 1 < 2 ^ 64
      omega
  unfold KernelImage at hx
  rw [hcount, visits_iff (by omega) (by omega) (by omega)]
  omega

theorem Bootable.framebuffer_rounds (h : Bootable s boot) :
    boot.baseAddress.toNat +
        0x1000 * rounds boot.baseAddress.toNat (boot.baseAddress + boot.framebufferSize).toNat ≤
      2 ^ 48 ∧
    rounds boot.baseAddress.toNat (boot.baseAddress + boot.framebufferSize).toNat =
      (boot.bufferSize.toNat + 0x1fff) / 0x1000 := by
  have hroom := h.framebuffer
  have hsize : boot.framebufferSize.toNat = boot.bufferSize.toNat + 0x1000 := by
    rw [BootInfo.framebufferSize, UInt64.toNat_add, Nat.mod_eq_of_lt]
    · rfl
    · change boot.bufferSize.toNat + 4096 < 2 ^ 64
      omega
  have hstop : (boot.baseAddress + boot.framebufferSize).toNat =
      boot.baseAddress.toNat + (boot.bufferSize.toNat + 0x1000) := by
    rw [UInt64.toNat_add, hsize, Nat.mod_eq_of_lt (by omega)]
  rw [hstop]
  unfold rounds
  omega

theorem Bootable.translates (h : Bootable s boot) (hx : x < 2 ^ 48) :
    (lastMapped (bootCalls boot) (BitVec.ofNat 64 x)).map (· &&& addressMask) =
      if x < getMemorySize boot.mMap ∨ FramebufferPage boot x then
        some (BitVec.ofNat 64 (4096 * (x / 4096)))
      else none := by
  have hmemory := h.memory
  obtain ⟨hroom, hrounds⟩ := h.framebuffer_rounds
  have haligned := getMemorySize_aligned boot.mMap
  have hlow : 0 + 0x1000 * rounds 0 (getMemorySize boot.mMap) ≤ 2 ^ 48 := by
    unfold rounds
    omega
  have hwhich : (∃ call ∈ bootCalls boot, pageNumber call.1 = x / 4096) ↔
      x < getMemorySize boot.mMap ∨ FramebufferPage boot x := by
    simp only [bootCalls, List.mem_append, or_and_right, exists_or]
    rw [exists_identityCalls hlow, exists_identityCalls hroom, FramebufferPage, hrounds]
    unfold rounds
    omega
  rw [lastMapped_identity hx]
  · simp only [hwhich]
  · intro call hmem
    rcases List.mem_append.mp hmem with hmem | hmem
    · exact identityCalls_identity hlow call hmem
    · exact identityCalls_identity hroom call hmem

/--
`InitialisePaging` returns.  All of memory and the framebuffer translate to themselves
and nothing else translates.  In every run from there on addresses translate as mapped
last and grants stay exclusive; and the kernel image and what the memory map withheld
is never granted, and holds what it held before.
-/
theorem initialisePaging_isolated (h : Bootable s boot) {fuel : Nat}
    (hfuel : rounds 0 (getMemorySize boot.mMap) < fuel ∧
      rounds boot.baseAddress.toNat (boot.baseAddress + boot.framebufferSize).toNat < fuel) :
    ∃ (pml4 : BitVec 64) (s' : PageFrameAllocator),
      initialisePaging fuel s boot = some (pml4.toNat, s') ∧
      (∀ x < 2 ^ 48, translation s'.mem pml4.toNat (BitVec.ofNat 64 x) =
        if x < getMemorySize boot.mMap ∨ FramebufferPage boot x then
          some (BitVec.ofNat 64 (4096 * (x / 4096)))
        else none) ∧
      ∀ run, Reachable (· = ⟨s', [], bootCalls boot⟩) (KernelStep pml4) run →
        (∀ v, Translates run.allocator.mem pml4 v (lastMapped run.calls v)) ∧
        run.grants.Pairwise Exclusive ∧
        ∀ x, KernelImage boot x ∨ Withheld boot.mMap s.mem (x / 4096) →
          x / 4096 < (bitmapOf boot.mMap).size * 8 →
          ¬ ((bitmapOf boot.mMap).buffer ≤ x ∧
            x ≤ (bitmapOf boot.mMap).buffer + (bitmapOf boot.mMap).size) →
          (∀ g ∈ run.grants, ¬ Covers g (x / 4096)) ∧ run.allocator.mem x = s.mem x := by
  have hmemory := h.memory
  obtain ⟨hroom, -⟩ := h.framebuffer_rounds
  obtain ⟨hsame, hlimit, hbits⟩ := h.bits
  have htotal : (s.readEFIMemoryMap boot.mMap).totalMemory = getMemorySize boot.mMap := by
    rw [(readEFIMemoryMap_balanced h.fresh).totalMemory, bitmapReady_eq]
  obtain ⟨pml4, hpml4, hstarted, henough, htaken⟩ := h.started
  have hstart := hstarted.runInv
  have hneeded : ∀ call ∈ bootCalls boot, ∀ slot ∈ pathBelow 0 (tableIndices call.1),
      slot ∈ tablesOf (bootCalls boot) := fun call hcall slot hslot =>
    List.mem_toFinset.mpr (List.mem_flatMap.mpr ⟨call, hcall, hslot⟩)
  have hlow : 0 + 0x1000 * rounds 0 (getMemorySize boot.mMap) < 2 ^ 64 := by
    unfold rounds
    omega
  have hfirst := @mapPages_rounds (pml4Cleared s boot).allocator pml4.toNat _ _ _ hfuel.1 hlow
  obtain ⟨tables₁, node₁, hinv₁, henough₁, hreach₁⟩ := hstart.mapAll henough (Reachable.start rfl)
    fun call hcall => hneeded call (List.mem_append_left _ hcall)
  generalize (pml4Cleared s boot).allocator.mapAll pml4.toNat _ = s₁ at *
  -- the framebuffer is locked, which takes no free frame
  have hcount := (boot.framebufferSize / 0x1000 + 1).toNat_lt
  have hlimit₁ : s₁.limit = (bitmapOf boot.mMap).size * 8 := by
    have hbitmap₁ : s₁.pageBitmap = (bootAllocator s boot).pageBitmap := hinv₁.pageBitmap.trans
      (keepsOutside_requestPage h.framesInv.addressable).pageBitmap
    rw [limit_congr hbitmap₁, hlimit]
  have henough₂ : Enough (s₁.lockPages boot.baseAddress.toNat
      (boot.framebufferSize / 0x1000 + 1).toNat) node₁ (tablesOf (bootCalls boot)) :=
    henough₁.lockPages hcount fun j hj hvisits => by
      rw [hlimit₁] at hj
      have hset := (hbits j hj).mpr (Or.inr (h.withheld j hj hvisits))
      exact (hinv₁.taken j (htaken j ⟨by rw [hlimit]; exact hj, hset, by simp⟩)).marked
  have hinv₂ := hinv₁.lockPages boot.baseAddress (boot.framebufferSize / 0x1000 + 1)
  have hreach₂ := hreach₁.next
    (.lockPages _ boot.baseAddress (boot.framebufferSize / 0x1000 + 1))
  dsimp only at hinv₂ hreach₂
  generalize hs₂ : s₁.lockPages boot.baseAddress.toNat _ = s₂ at *
  have hsecond := @mapPages_rounds s₂ pml4.toNat _ _ _ hfuel.2 (by omega)
  obtain ⟨tables₃, node₃, hinv₃, -, hreach₃⟩ := hinv₂.mapAll henough₂ hreach₂
    fun call hcall => hneeded call (List.mem_append_right _ hcall)
  have hboot : initialisePaging fuel s boot = some (pml4.toNat, s₂.mapAll pml4.toNat
      (identityCalls boot.baseAddress.toNat
        (rounds boot.baseAddress.toNat (boot.baseAddress + boot.framebufferSize).toNat))) := by
    have hpaging : initialisePaging fuel s boot =
        (mapPages (bootAllocator s boot).requestPage.1 fuel 0
          (s.readEFIMemoryMap boot.mMap).totalMemory (pml4Cleared s boot).allocator).bind fun s₁ =>
          (mapPages (bootAllocator s boot).requestPage.1 fuel boot.baseAddress.toNat
            (boot.baseAddress + boot.framebufferSize).toNat
            (s₁.lockPages boot.baseAddress.toNat (boot.framebufferSize / 0x1000 + 1).toNat)).map
            fun s' => ((bootAllocator s boot).requestPage.1, s') := rfl
    rw [hpaging, htotal, hpml4, hfirst, Option.bind_some, hs₂, hsecond, Option.map_some]
  refine ⟨pml4, _, hboot, fun x hx => ?_, fun run hrun => ?_⟩
  · rw [(hinv₃.translates (BitVec.ofNat 64 x)).translation_eq]
    exact h.translates hx
  · have hrun' := hreach₃.trans hrun
    obtain ⟨htranslates, hexclusive, -, hreserved⟩ := memory_isolated hstarted hrun'
    refine ⟨htranslates, hexclusive, fun x hx hlt hbitmap => ?_⟩
    have hmarked : (bootAllocator s boot).bit (x / 4096) = true := by
      rw [hbits _ hlt]
      exact hx.imp_left h.kernel_visited
    have hkept : Reserved pml4 (pml4Cleared s boot) x := by
      refine ⟨htaken _ ⟨by rw [hlimit]; exact hlt, hmarked, by simp⟩, ?_⟩
      have hkeeps := keepsOutside_requestPage (s := bootAllocator s boot) h.framesInv.addressable
      change ¬ InBitmap (bootAllocator s boot).requestPage.2 x
      rw [InBitmap, hkeeps.pageBitmap, hsame]
      exact hbitmap
    obtain ⟨hfree, hmem⟩ := hreserved x hkept
    exact ⟨hfree, hmem.trans (h.mem_pml4Cleared hpml4 hkept hbitmap)⟩

/-- 263 pages, with the image and the framebuffer in the first MiB. -/
def smallBoot : BootInfo := ⟨filledMap, 0x10000, 0x10800, 0xa0000, 0x1000⟩

theorem bootable_small : Bootable freshAllocator smallBoot := by
  have hbitmap : bitmapOf filledMap = ⟨33, 0x100000⟩ := by decide
  have hmemory : getMemorySize filledMap = 263 * 4096 := by decide
  have hcalls : ∀ call ∈ bootCalls smallBoot, pageNumber call.1 < 512 := by
    intro call hcall
    rcases List.mem_append.mp hcall with hmem | hmem
    · obtain ⟨i, hi, rfl⟩ := mem_identityCalls.mp hmem
      have hrounds : rounds 0 (getMemorySize smallBoot.mMap) = 263 := by decide
      rw [hrounds] at hi
      rw [pageNumber_ofNat (by omega)]
      omega
    · obtain ⟨i, hi, rfl⟩ := mem_identityCalls.mp hmem
      have hrounds : rounds smallBoot.baseAddress.toNat
          (smallBoot.baseAddress + smallBoot.framebufferSize).toNat = 2 := by decide
      have hbase : smallBoot.baseAddress.toNat = 0xa0000 := by decide
      rw [hrounds] at hi
      rw [hbase, pageNumber_ofNat (by omega)]
      omega
  have htables : tablesOf (bootCalls smallBoot) ⊆ {(3, 0), (2, 0), (1, 0)} := by
    intro slot hslot
    obtain ⟨call, hcall, hmem⟩ := List.mem_flatMap.mp (List.mem_toFinset.mp hslot)
    have hpage := hcalls call hcall
    have hindices : tableIndices call.1 = [0, 0, 0] := by
      simp only [tableIndices, indexer_eq, List.cons.injEq, and_true]
      omega
    rw [hindices] at hmem
    simpa [pathBelow] using hmem
  have hfree : {0x102, 0x103, 0x104, 0x105} ⊆
      freeFrames (bootAllocator freshAllocator smallBoot) := by
    have hcount : smallBoot.pageCountOfKernel.toNat = 1 := by decide
    have hkernel : smallBoot.kernelStart.toNat = 0x10000 := by decide
    have hread : (freshAllocator.readEFIMemoryMap filledMap).pageBitmap = bitmapOf filledMap :=
      (readEFIMemoryMap_spec (i := 0) rfl (by rw [hbitmap]; norm_num)).1
    have hlimit : (bootAllocator freshAllocator smallBoot).limit = 264 := by
      refine (@limit_of_bitmapOf _ filledMap ?_).trans (by rw [hbitmap]; rfl)
      rw [bootAllocator, pageBitmap_lockPages (by omega)]
      exact hread
    have hclear : ∀ i, 0x101 ≤ i → i < 0x107 →
        (bootAllocator freshAllocator smallBoot).bit i = false := by
      intro i hlo hhi
      rw [bootAllocator, bit_lockPages (by omega), hcount, hkernel, if_neg]
      · rw [← Bool.not_eq_true, smallBoot, bit_filledMap (by rw [hbitmap]; dsimp only; omega)]
        omega
      · rw [visits_iff (by norm_num) (by norm_num) (by norm_num)]
        omega
    intro i hi
    simp only [Finset.mem_insert, Finset.mem_singleton] at hi
    simp only [freeFrames, Finset.mem_filter, Finset.mem_range, hlimit]
    exact ⟨by omega, hclear i (by omega) (by omega)⟩
  refine ⟨rfl, rfl, by rw [smallBoot, hmemory]; norm_num, by decide, by decide, ?_, by decide,
    fun i _ hvisits => ?_, ?_⟩
  · rw [smallBoot, hbitmap]
    norm_num
  · rw [visits_iff (by decide) (by decide) (by decide)] at hvisits
    have hbase : smallBoot.baseAddress.toNat = 0xa0000 := by decide
    have hcount : (smallBoot.framebufferSize / 0x1000 + 1).toNat = 3 := by decide
    rw [hbase, hcount] at hvisits
    exact Or.inr (Or.inl (by omega))
  · have hneeded := Finset.card_le_card htables
    have hroom := Finset.card_le_card hfree
    have hthree : ({(3, 0), (2, 0), (1, 0)} : Finset (Nat × Nat)).card = 3 := by decide
    have hfour : ({0x102, 0x103, 0x104, 0x105} : Finset Nat).card = 4 := by decide
    omega

theorem initialisePaging_isolated_small :
    ∃ (pml4 : BitVec 64) (s' : PageFrameAllocator),
      initialisePaging 300 freshAllocator smallBoot = some (pml4.toNat, s') ∧
        translation s'.mem pml4.toNat 0x102345 = some 0x102000 := by
  obtain ⟨pml4, s', hrun, htranslation, -⟩ :=
    @initialisePaging_isolated _ _ bootable_small 300 (by decide)
  exact ⟨pml4, s', hrun, (htranslation 0x102345 (by norm_num)).trans (by decide)⟩

end Start

end UnifiedOS.Paging
