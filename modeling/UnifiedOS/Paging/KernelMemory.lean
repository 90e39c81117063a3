import UnifiedOS.Paging.FrameOwnership
import UnifiedOS.Paging.FreeFrames
import UnifiedOS.Paging.Translation

/-!
# One physical memory

The bitmap of the allocator, the page tables and the frames handed out lie in the
same memory, and `MapMemory` takes its tables from the same allocator.  One
invariant keeps the three layers apart: requests and releases only write the
bitmap, and `MapMemory` only writes the bitmap and tables.
-/

namespace UnifiedOS.Paging

open UnifiedOS.Foundation
open PageFrameAllocator PageDirectoryEntry

namespace PageFrameAllocator

def nextTable (s : PageFrameAllocator) (table i : Nat) : Nat × PageFrameAllocator :=
  let pde := entry s.mem table i
  if pde.getFlag PTFlag.Present = false then
    let (next, s) := s.requestPage
    let m := s.mem.fill next 0x1000 0
    let pde := pde.setAddress (BitVec.ofNat 64 next >>> 12)
    let pde := pde.setFlag PTFlag.Present true
    let pde := pde.setFlag PTFlag.ReadWrite true
    (next, { s with mem := setEntry m table i pde })
  else ((pde.getAddress <<< 12).toNat, s)

def mapMemory (s : PageFrameAllocator) (pml4 : Nat) (virtualMemory physicalMemory : BitVec 64) :
    PageFrameAllocator :=
  let indexer := PageMapIndexer.ofAddress virtualMemory
  let (pdp, s) := s.nextTable pml4 indexer.pdpI
  let (pd, s) := s.nextTable pdp indexer.pdI
  let (pt, s) := s.nextTable pd indexer.ptI
  let pde := entry s.mem pt indexer.pI
  let pde := pde.setAddress (physicalMemory >>> 12)
  let pde := pde.setFlag PTFlag.Present true
  let pde := pde.setFlag PTFlag.ReadWrite true
  { s with mem := setEntry s.mem pt indexer.pI pde }

end PageFrameAllocator

/-- If this level has no table yet, a page is granted for it. -/
def TableAnswered (s : PageFrameAllocator) (table i : Nat) : Prop :=
  (entry s.mem table i).getFlag PTFlag.Present = false → s.requestPage.1 ≠ NULL

def descend (s : PageFrameAllocator) (table : Nat) : List Nat → Nat × PageFrameAllocator
  | [] => (table, s)
  | i :: is => descend (s.nextTable table i).2 (s.nextTable table i).1 is

def AnsweredAlong (s : PageFrameAllocator) (table : Nat) : List Nat → Prop
  | [] => True
  | i :: is => TableAnswered s table i ∧ AnsweredAlong (s.nextTable table i).2
      (s.nextTable table i).1 is

def tableIndices (virtualMemory : BitVec 64) : List Nat :=
  let indexer := PageMapIndexer.ofAddress virtualMemory
  [indexer.pdpI, indexer.pdI, indexer.ptI]

/-- No request of `MapMemory` for the address is refused. -/
def Answered (s : PageFrameAllocator) (pml4 : Nat) (virtualMemory : BitVec 64) : Prop :=
  AnsweredAlong s pml4 (tableIndices virtualMemory)

/-- A byte of the bitmap.  The last one holds the bit `Size * 8`, which `Set` lets pass. -/
def InBitmap (s : PageFrameAllocator) (x : Nat) : Prop :=
  s.pageBitmap.buffer ≤ x ∧ x ≤ s.pageBitmap.buffer + s.pageBitmap.size

structure KeepsOutside (s s' : PageFrameAllocator) : Prop where
  pageBitmap : s'.pageBitmap = s.pageBitmap
  mem : ∀ x, ¬ InBitmap s x → s'.mem x = s.mem x

/-! ## The allocator writes its bitmap only -/

section Outside

variable {s s' s'' : PageFrameAllocator} {value : Bool} {address pageCount n j x : Nat}
  {account : Nat → PageFrameAllocator → PageFrameAllocator}

theorem KeepsOutside.refl (s : PageFrameAllocator) : KeepsOutside s s :=
  ⟨rfl, fun _ _ => rfl⟩

theorem KeepsOutside.trans (h : KeepsOutside s s') (h' : KeepsOutside s' s'') :
    KeepsOutside s s'' := by
  refine ⟨h'.pageBitmap.trans h.pageBitmap, fun x hx => ?_⟩
  rw [h'.mem x (by rw [InBitmap, h.pageBitmap]; exact hx), h.mem x hx]

theorem keepsOutside_setPage (haccount : ∀ i s, KeepsBitmap s (account i s))
    (haddressable : s.pageBitmap.Addressable) :
    KeepsOutside s (setPage value account s address) := by
  refine ⟨pageBitmap_setPage haccount, fun x hx => ?_⟩
  rcases setPage_cases value account s address with ⟨heq, -⟩ | ⟨-, hle, heq⟩
  · rw [heq]
  · have hlimit := (limit_of_addressable haddressable).1
    rw [heq, (haccount _ _).mem]
    dsimp only
    rw [Bitmap.set_snd_apply (by rw [limit] at hle; exact hle), if_neg]
    rintro rfl
    exact hx ⟨by omega, by omega⟩

theorem keepsOutside_overPages (haccount : ∀ i s, KeepsBitmap s (account i s))
    (haddressable : s.pageBitmap.Addressable) (hcount : pageCount < 2 ^ 64) :
    KeepsOutside s (overPages (setPage value account) s address pageCount) := by
  rw [overPages, forInt_eq_foldl hcount]
  induction intIterations pageCount with
  | zero => exact .refl s
  | succ count ih =>
      rw [List.range_succ, List.foldl_append, List.foldl_cons, List.foldl_nil]
      exact ih.trans (keepsOutside_setPage haccount (by rw [ih.pageBitmap]; exact haddressable))

theorem keepsOutside_lockPage (haddressable : s.pageBitmap.Addressable) :
    KeepsOutside s (s.lockPage address) :=
  keepsOutside_setPage (fun _ _ => ⟨rfl, rfl⟩) haddressable

theorem keepsOutside_lockPages (haddressable : s.pageBitmap.Addressable)
    (hcount : pageCount < 2 ^ 64) : KeepsOutside s (s.lockPages address pageCount) :=
  keepsOutside_overPages (fun _ _ => ⟨rfl, rfl⟩) haddressable hcount

theorem keepsOutside_freePage (haddressable : s.pageBitmap.Addressable) :
    KeepsOutside s (s.freePage address) :=
  keepsOutside_setPage (fun _ _ => ⟨rfl, rfl⟩) haddressable

theorem keepsOutside_freePages (haddressable : s.pageBitmap.Addressable)
    (hcount : pageCount < 2 ^ 64) : KeepsOutside s (s.freePages address pageCount) :=
  keepsOutside_overPages (fun _ _ => ⟨rfl, rfl⟩) haddressable hcount

theorem keepsOutside_requestPage (haddressable : s.pageBitmap.Addressable) :
    KeepsOutside s s.requestPage.2 := by
  rcases @requestPage_cases s with ⟨i, -, -, -, -, heq⟩ | ⟨-, index, -, -, heq⟩
  · rw [heq]
    have hindex : KeepsOutside s (withIndex s i) := ⟨rfl, fun _ _ => rfl⟩
    exact hindex.trans (keepsOutside_lockPage haddressable)
  · rw [heq]
    exact ⟨rfl, fun _ _ => rfl⟩

theorem keepsOutside_requestPages (haddressable : s.pageBitmap.Addressable)
    (hcount : n < 2 ^ 64) : KeepsOutside s (s.requestPages n).2 := by
  rcases @requestPages_cases s n with ⟨i, -, -, -, -, heq⟩ | ⟨-, heq⟩
  · rw [heq]
    have hindex : KeepsOutside s (withIndex s i) := ⟨rfl, fun _ _ => rfl⟩
    exact hindex.trans (keepsOutside_lockPages haddressable hcount)
  · rw [heq]
    exact .refl s

theorem FrameStep.keepsOutside {r r' : FrameRun} (hinv : GrantInv r) (hstep : FrameStep r r') :
    KeepsOutside r.allocator r'.allocator := by
  have haddressable := hinv.addressable
  cases hstep with
  | requestPage => exact keepsOutside_requestPage haddressable
  | requestPages n hpos hmax => exact keepsOutside_requestPages haddressable (by omega)
  | freePage p hgrant => exact keepsOutside_freePage haddressable
  | freePages p n hgrant =>
      have hsize := (hinv.size _ hgrant).2
      simp only at hsize
      exact keepsOutside_freePages haddressable (by omega)

theorem bit_of_mem {m : ByteMemory} (haddressable : s.pageBitmap.Addressable)
    (hm : ∀ x, InBitmap s x → m x = s.mem x) : { s with mem := m }.bit j = s.bit j := by
  have hlimit := (limit_of_addressable haddressable).1
  by_cases hj : j ≤ s.limit
  · rw [limit] at hj hlimit
    rw [bit, bit]
    dsimp only
    rw [Bitmap.get_of_le hj, Bitmap.get_of_le hj, Bitmap.bit, Bitmap.bit,
      hm _ ⟨by omega, by omega⟩]
  · rw [limit] at hj
    rw [bit, bit]
    dsimp only
    rw [Bitmap.get_of_gt (by omega), Bitmap.get_of_gt (by omega)]

end Outside

/-! ## Frames that stay taken -/

/-- The bitmap marks the frame, and no grant covers it. -/
structure Taken (s : PageFrameAllocator) (grants : List (Nat × Nat)) (frame : Nat) : Prop where
  inside : frame < s.limit
  marked : s.bit frame = true
  free : ∀ g ∈ grants, ¬ Covers g frame

section Taken

variable {s s' : PageFrameAllocator} {grants others : List (Nat × Nat)} {frame p n i : Nat}
  {r r' : FrameRun}

theorem Taken.grant (h : Taken s grants frame) (hlimit : s.limit ≤ 2 ^ 51)
    (hi : i < s.limit) (hclear : ∀ t, t < n → s.bit (i + t) = false)
    (hbitmap : s'.pageBitmap = s.pageBitmap)
    (hraised : ∀ j, s.bit j = true → s'.bit j = true) :
    Taken s' (recordGrant (wrap64 (i * 4096)) n grants) frame := by
  refine ⟨by rw [limit_congr hbitmap]; exact h.inside, hraised _ h.marked, fun g hg => ?_⟩
  have hframe : wrap64 (i * 4096) / 4096 = i := by
    rw [wrap64_of_lt (by omega)]
    omega
  have hold : g = (wrap64 (i * 4096), n) ∨ g ∈ grants := by
    unfold recordGrant at hg
    split at hg
    · exact Or.inr hg
    · exact List.mem_cons.mp hg
  rcases hold with rfl | hold
  · intro hcovers
    simp only [Covers, hframe] at hcovers
    have hset := h.marked
    rw [← Nat.add_sub_cancel' hcovers.1, hclear _ (by omega)] at hset
    contradiction
  · exact h.free g hold

theorem Taken.frameStep (hinv : GrantInv r) (hstep : FrameStep r r')
    (h : Taken r.allocator r.grants frame) : Taken r'.allocator r'.grants frame := by
  obtain ⟨-, hlimit⟩ := limit_of_addressable hinv.addressable
  cases hstep with
  | requestPage =>
      rcases @requestPage_cases r.allocator with ⟨i, -, hi, -, hclear, heq⟩ | ⟨-, index, -, -, heq⟩
      · rw [heq]
        refine h.grant hlimit hi ?_ pageBitmap_lockPage fun j hj => ?_
        · intro t ht
          obtain rfl : t = 0 := by omega
          exact hclear
        · rw [bit_lockPage, bit_withIndex, hj, ite_self]
      · rw [heq]
        exact ⟨h.inside, h.marked, h.free⟩
  | requestPages n hpos hmax =>
      rcases @requestPages_cases r.allocator n with ⟨i, -, hi, hfree, -, heq⟩ | ⟨-, heq⟩
      · rw [heq]
        refine h.grant hlimit hi ((runFree_iff (by omega) (by omega)).mp hfree)
          (pageBitmap_lockPages (by omega)) fun j hj => ?_
        rw [bit_lockPages (by omega), bit_withIndex, hj, ite_self]
      · rw [heq]
        exact h
  | freePage p hgrant =>
      refine ⟨by rw [limit_congr pageBitmap_freePage]; exact h.inside, ?_,
        fun g hg => h.free g (List.mem_of_mem_erase hg)⟩
      have hother : frame ≠ p / 4096 := by
        rintro rfl
        exact h.free _ hgrant ⟨Nat.le_refl _, by simp⟩
      rw [bit_freePage, if_neg fun hfreed => hother hfreed.1]
      exact h.marked
  | freePages p n hgrant =>
      have hstart := hinv.start _ hgrant
      have hsize := hinv.size _ hgrant
      simp only at hstart hsize
      refine ⟨by rw [limit_congr (pageBitmap_freePages (by omega))]; exact h.inside, ?_,
        fun g hg => h.free g (List.mem_of_mem_erase hg)⟩
      rw [bit_freePages (by omega), if_neg]
      · exact h.marked
      · rintro ⟨hvisits, -⟩
        rw [visits_iff hsize.2 (by omega) (by omega)] at hvisits
        exact h.free _ hgrant hvisits

theorem Taken.mark (h : Taken s grants frame) (hbitmap : s'.pageBitmap = s.pageBitmap)
    (hraised : s.bit frame = true → s'.bit frame = true) : Taken s' grants frame :=
  ⟨by rw [limit_congr hbitmap]; exact h.inside, hraised h.marked, h.free⟩

theorem FrameStep.append (h : FrameStep ⟨s, grants⟩ r) :
    FrameStep ⟨s, grants ++ others⟩ ⟨r.allocator, r.grants ++ others⟩ := by
  have hrecord : ∀ p n, recordGrant p n grants ++ others =
      recordGrant p n (grants ++ others) := by
    intro p n
    unfold recordGrant
    split <;> rfl
  cases h with
  | requestPage =>
      rw [hrecord]
      exact .requestPage ⟨s, grants ++ others⟩
  | requestPages n hpos hmax =>
      rw [hrecord]
      exact .requestPages ⟨s, grants ++ others⟩ n hpos hmax
  | freePage p hgrant =>
      rw [← List.erase_append_left others hgrant]
      exact .freePage ⟨s, grants ++ others⟩ p (List.mem_append_left _ hgrant)
  | freePages p n hgrant =>
      rw [← List.erase_append_left others hgrant]
      exact .freePages ⟨s, grants ++ others⟩ p n (List.mem_append_left _ hgrant)

theorem GrantInv.perm (h : GrantInv ⟨s, grants⟩) (hperm : grants.Perm others) :
    GrantInv ⟨s, others⟩ := by
  have hmem : ∀ g ∈ others, g ∈ grants := fun g hg => hperm.mem_iff.mpr hg
  exact ⟨h.addressable, fun g hg => h.start g (hmem g hg), fun g hg => h.size g (hmem g hg),
    fun g hg => h.marked g (hmem g hg),
    hperm.pairwise h.exclusive fun hg frame hy hx => hg frame hx hy⟩

end Taken

/-! ## The three layers -/

/-- The ledger of the frames, with the frames of the bitmap outside every grant. -/
structure FramesInv (s : PageFrameAllocator) (grants : List (Nat × Nat)) : Prop where
  ledger : GrantInv ⟨s, grants⟩
  physical : s.limit ≤ 2 ^ 40
  bitmap : ∀ x, InBitmap s x → Taken s grants (x / 4096)

def InTable (node : TableTree) (x : Nat) : Prop :=
  ∃ k a t, 1 ≤ k ∧ node k a = some t ∧ t.toNat ≤ x ∧ x < t.toNat + 0x1000

/-- Frames, and a tree of tables each in a frame that was granted for it. -/
structure MemoryInv (s : PageFrameAllocator) (grants tables : List (Nat × Nat))
    (pml4 : BitVec 64) (node : TableTree) : Prop where
  frames : FramesInv s (grants ++ tables)
  backs : Backs s.mem pml4 node
  tables : ∀ k a t, 1 ≤ k → node k a = some t → (t.toNat, 1) ∈ tables

section Layers

variable {s s' : PageFrameAllocator} {grants grants' tables : List (Nat × Nat)}
  {pml4 : BitVec 64} {node : TableTree} {m : ByteMemory} {g : Nat × Nat} {x : Nat}

theorem FramesInv.addressable (h : FramesInv s grants) : s.pageBitmap.Addressable :=
  h.ledger.addressable

theorem FramesInv.not_inBitmap (h : FramesInv s grants) (hg : g ∈ grants)
    (hx : Covers g (x / 4096)) : ¬ InBitmap s x := fun hin => (h.bitmap x hin).free g hg hx

theorem FramesInv.page_not_inBitmap {page : Nat} (h : FramesInv s grants)
    (hpage : (page, 1) ∈ grants) (haligned : page % 4096 = 0) (hlo : page ≤ x)
    (hhi : x < page + 0x1000) : ¬ InBitmap s x := by
  apply h.not_inBitmap hpage
  simp only [Covers]
  omega

theorem FramesInv.perm (h : FramesInv s grants) (hperm : grants.Perm grants') :
    FramesInv s grants' := by
  refine ⟨h.ledger.perm hperm, h.physical, fun x hx => ?_⟩
  obtain ⟨hinside, hmarked, hfree⟩ := h.bitmap x hx
  exact ⟨hinside, hmarked, fun g hg => hfree g (hperm.mem_iff.mpr hg)⟩

theorem FramesInv.frameStep (h : FramesInv s grants)
    (hstep : FrameStep ⟨s, grants⟩ ⟨s', grants'⟩) : FramesInv s' grants' := by
  have hkeeps := hstep.keepsOutside h.ledger
  refine ⟨grantInv_step h.ledger hstep, ?_, fun x hx => ?_⟩
  · rw [limit_congr hkeeps.pageBitmap]
    exact h.physical
  · rw [InBitmap, hkeeps.pageBitmap] at hx
    exact (h.bitmap x hx).frameStep h.ledger hstep

theorem FramesInv.mark (h : FramesInv s grants) (hbitmap : s'.pageBitmap = s.pageBitmap)
    (hraised : ∀ j, s.bit j = true → s'.bit j = true) : FramesInv s' grants := by
  refine ⟨h.ledger.mark hbitmap fun j _ => hraised j, ?_, fun x hx => ?_⟩
  · rw [limit_congr hbitmap]
    exact h.physical
  · rw [InBitmap, hbitmap] at hx
    exact (h.bitmap x hx).mark hbitmap (hraised _)

theorem FramesInv.write (h : FramesInv s grants) (hm : ∀ x, InBitmap s x → m x = s.mem x) :
    FramesInv { s with mem := m } grants :=
  h.mark rfl fun j hj => by rw [bit_of_mem h.addressable hm]; exact hj

theorem Backs.congr (h : Backs s.mem pml4 node) (hm : ∀ x, InTable node x → m x = s.mem x) :
    Backs m pml4 node := by
  refine ⟨h.root, fun k a t i hk ht hi => ?_, h.closed, h.aligned, h.frames, h.distinct⟩
  have hsame : entry m t.toNat i = entry s.mem t.toNat i := by
    rw [entry, entry, ByteMemory.load_congr fun x hlo hhi =>
      hm x ⟨k + 1, a, t, by omega, ht, by omega, by omega⟩]
  have hentry := h.entries k a t i hk ht hi
  unfold Holds at hentry ⊢
  rw [hsame]
  exact hentry

theorem MemoryInv.covers_table (h : MemoryInv s grants tables pml4 node) (hx : InTable node x) :
    ∃ t ∈ tables, Covers t (x / 4096) := by
  obtain ⟨k, a, t, hk, ht, hlo, hhi⟩ := hx
  have haligned := h.backs.aligned k a t hk ht
  refine ⟨_, h.tables k a t hk ht, ?_⟩
  simp only [Covers]
  omega

theorem MemoryInv.table_not_inBitmap (h : MemoryInv s grants tables pml4 node)
    (hx : InTable node x) : ¬ InBitmap s x := by
  obtain ⟨t, ht, hcovers⟩ := h.covers_table hx
  exact h.frames.not_inBitmap (List.mem_append_right _ ht) hcovers

theorem MemoryInv.not_inTable (h : MemoryInv s grants tables pml4 node) (hg : g ∈ grants)
    (hx : Covers g (x / 4096)) : ¬ InTable node x := by
  intro hin
  obtain ⟨t, ht, hcovers⟩ := h.covers_table hin
  exact (List.pairwise_append.mp h.frames.ledger.exclusive).2.2 g hg t ht _ hx hcovers

theorem MemoryInv.write (h : MemoryInv s grants tables pml4 node)
    (hbitmap : ∀ x, InBitmap s x → m x = s.mem x) (htable : ∀ x, InTable node x → m x = s.mem x) :
    MemoryInv { s with mem := m } grants tables pml4 node :=
  ⟨h.frames.write hbitmap, h.backs.congr htable, h.tables⟩

theorem MemoryInv.frameStep (h : MemoryInv s grants tables pml4 node)
    (hstep : FrameStep ⟨s, grants⟩ ⟨s', grants'⟩) : MemoryInv s' grants' tables pml4 node := by
  have hall : FrameStep ⟨s, grants ++ tables⟩ ⟨s', grants' ++ tables⟩ := hstep.append
  have hkeeps := hall.keepsOutside h.frames.ledger
  exact ⟨h.frames.frameStep hall,
    h.backs.congr fun x hx => hkeeps.mem x (h.table_not_inBitmap hx), h.tables⟩

theorem MemoryInv.lockPages {address pageCount : Nat} (h : MemoryInv s grants tables pml4 node)
    (hcount : pageCount < 2 ^ 64) :
    MemoryInv (s.lockPages address pageCount) grants tables pml4 node := by
  have hkeeps : KeepsOutside s (s.lockPages address pageCount) :=
    keepsOutside_lockPages h.frames.addressable hcount
  refine ⟨h.frames.mark (pageBitmap_lockPages hcount) fun j hj => ?_,
    h.backs.congr fun x hx => hkeeps.mem x (h.table_not_inBitmap hx), h.tables⟩
  rw [bit_lockPages hcount, hj, ite_self]

end Layers

/-! ## Free frames -/

def freeFrames (s : PageFrameAllocator) : Finset Nat :=
  (Finset.range s.limit).filter fun j => s.bit j = false

def absentTables (node : TableTree) (needed : Finset (Nat × Nat)) : Finset (Nat × Nat) :=
  needed.filter fun slot => node slot.1 slot.2 = none

section Free

variable {s s' : PageFrameAllocator} {m : ByteMemory}

theorem freeFrames_congr (hbitmap : s'.pageBitmap = s.pageBitmap)
    (hbit : ∀ j, s'.bit j = s.bit j) : freeFrames s' = freeFrames s := by
  rw [freeFrames, freeFrames, limit_congr hbitmap]
  simp only [hbit]

theorem InReach.write (h : InReach s) (haddressable : s.pageBitmap.Addressable)
    (hm : ∀ x, InBitmap s x → m x = s.mem x) : InReach { s with mem := m } := by
  refine h.raise rfl (fun j hj => ?_) h.below
  rw [bit_of_mem haddressable hm]
  exact hj

theorem InReach.requestPage (h : InReach s) : InReach s.requestPage.2 :=
  @InReach.apply s .requestPage h trivial

theorem InReach.granted (h : InReach s) (hfree : 0 < (freeFrames s).card) :
    s.requestPage.1 ≠ NULL := by
  intro hnull
  obtain ⟨j, hj⟩ := Finset.card_pos.mp hfree
  simp only [freeFrames, Finset.mem_filter, Finset.mem_range] at hj
  rw [h.complete hnull j hj.1] at hj
  exact absurd hj.2 (by decide)

theorem card_freeFrames_requestPage (haddressable : s.pageBitmap.Addressable)
    (hgranted : s.requestPage.1 ≠ NULL) :
    (freeFrames s.requestPage.2).card + 1 = (freeFrames s).card := by
  obtain ⟨-, hlimit⟩ := limit_of_addressable haddressable
  rcases @requestPage_cases s with ⟨i, -, hi, -, hclear, heq⟩ | ⟨-, index, -, -, heq⟩
  · have hframe : wrap64 (i * 4096) / 4096 = i := by
      rw [wrap64_of_lt (by omega)]
      omega
    have herase : freeFrames s.requestPage.2 = (freeFrames s).erase i := by
      ext j
      rw [heq, freeFrames, freeFrames, limit_congr pageBitmap_lockPage, limit_withIndex]
      simp only [Finset.mem_filter, Finset.mem_range, Finset.mem_erase, bit_lockPage, hframe,
        bit_withIndex, limit_withIndex]
      by_cases hj : j = i
      · simp [hj, Nat.le_of_lt hi]
      · simp [hj]
    rw [herase]
    apply Finset.card_erase_add_one
    simp only [freeFrames, Finset.mem_filter, Finset.mem_range]
    exact ⟨hi, hclear⟩
  · rw [heq] at hgranted
    exact absurd rfl hgranted

end Free

/-! ## `MapMemory` -/

/--
What `MapMemory` makes of a memory: the missing tables on a path are added, each in
a free frame.  What was taken stays taken, and only the bitmap and tables are written.
-/
structure Mapped (pml4 : BitVec 64) (grants path : List (Nat × Nat)) (s : PageFrameAllocator)
    (tables : List (Nat × Nat)) (node : TableTree) (s' : PageFrameAllocator)
    (tables' : List (Nat × Nat)) (node' : TableTree) : Prop where
  inv : MemoryInv s' grants tables' pml4 node'
  pageBitmap : s'.pageBitmap = s.pageBitmap
  taken : ∀ frame, Taken s (grants ++ tables) frame → Taken s' (grants ++ tables') frame
  grows : ∀ x, InTable node x → InTable node' x
  mem : ∀ x, ¬ InBitmap s x → ¬ InTable node' x → s'.mem x = s.mem x
  reach : InReach s → InReach s'
  spends : ∀ needed, (∀ slot ∈ path, slot ∈ needed) →
    (absentTables node' needed).card + (freeFrames s).card ≤
      (absentTables node needed).card + (freeFrames s').card

section MapMemory

variable {s s' s'' : PageFrameAllocator}
  {grants tables tables' tables'' path path' : List (Nat × Nat)}
  {pml4 t q p : BitVec 64} {node node' node'' : TableTree} {k a i n : Nat}
  {e : PageDirectoryEntry}

theorem Mapped.refl (h : MemoryInv s grants tables pml4 node) :
    Mapped pml4 grants path s tables node s tables node :=
  ⟨h, rfl, fun _ hf => hf, fun _ hx => hx, fun _ _ _ => rfl, id, fun _ _ => Nat.le_refl _⟩

theorem Mapped.trans (h : Mapped pml4 grants path s tables node s' tables' node')
    (h' : Mapped pml4 grants path' s' tables' node' s'' tables'' node'') :
    Mapped pml4 grants (path ++ path') s tables node s'' tables'' node'' := by
  refine ⟨h'.inv, h'.pageBitmap.trans h.pageBitmap, fun f hf => h'.taken f (h.taken f hf),
    fun x hx => h'.grows x (h.grows x hx), fun x hbitmap htable => ?_,
    fun hs => h'.reach (h.reach hs), fun needed hpath => ?_⟩
  · rw [h'.mem x (by rw [InBitmap, h.pageBitmap]; exact hbitmap) htable,
      h.mem x hbitmap fun hx => htable (h'.grows x hx)]
  · have hfirst := h.spends needed fun slot hmem => hpath slot (List.mem_append_left _ hmem)
    have hsecond := h'.spends needed fun slot hmem => hpath slot (List.mem_append_right _ hmem)
    omega

theorem setEntry_outside {m : ByteMemory} {table x : Nat} (hi : i < 512)
    (hx : x < table ∨ table + 0x1000 ≤ x) : setEntry m table i e x = m x :=
  ByteMemory.store_outside m (by omega)

theorem requestPage_page (hphysical : s.limit ≤ 2 ^ 40) :
    s.requestPage.1 % 4096 = 0 ∧ s.requestPage.1 < 2 ^ 52 := by
  rcases @requestPage_cases s with ⟨i, -, hi, -, -, heq⟩ | ⟨-, index, -, -, heq⟩
  · have haddress : wrap64 (i * 4096) = i * 4096 := wrap64_of_lt (by omega)
    rw [heq, haddress]
    exact ⟨by omega, by omega⟩
  · rw [heq]
    exact ⟨rfl, by norm_num [NULL]⟩

theorem absentTables_insert (needed : Finset (Nat × Nat)) :
    absentTables (node.insert k a t) needed = (absentTables node needed).erase (k, a) := by
  ext ⟨k', a'⟩
  by_cases hslot : k' = k ∧ a' = a
  · obtain ⟨rfl, rfl⟩ := hslot
    simp [absentTables]
  · have hother : node.insert k a t k' a' = node k' a' :=
      TableTree.insert_other (not_and_or.mp hslot)
    simp only [absentTables, Finset.mem_filter, Finset.mem_erase, hother, ne_eq, Prod.mk.injEq,
      hslot, not_false_eq_true, true_and]

theorem card_absentTables_insert (needed : Finset (Nat × Nat)) :
    (absentTables (node.insert k a t) needed).card ≤ (absentTables node needed).card := by
  rw [absentTables_insert]
  exact Finset.card_erase_le

theorem leaf_mapped (h : MemoryInv s grants tables pml4 node) (ht : node 1 a = some t)
    (hi : i < 512) (hleads : LeadsTo e p) :
    Mapped pml4 grants [] s tables node { s with mem := setEntry s.mem t.toNat i e } tables
      (node.insert 0 (a * 512 + i) p) := by
  have hpage : ∀ x, ¬ InTable node x → setEntry s.mem t.toNat i e x = s.mem x := by
    intro x hx
    apply setEntry_outside hi
    by_contra hin
    exact hx ⟨1, a, t, by norm_num, ht, by omega, by omega⟩
  have hbits : ∀ x, InBitmap s x → setEntry s.mem t.toNat i e x = s.mem x :=
    fun x hx => hpage x fun hin => h.table_not_inBitmap hin hx
  have hsame : ∀ x, InTable (node.insert 0 (a * 512 + i) p) x ↔ InTable node x := by
    intro x
    refine exists_congr fun k => exists_congr fun a' => exists_congr fun t' =>
      and_congr_right fun hk => ?_
    rw [TableTree.insert_other (Or.inl (by omega))]
  refine ⟨⟨h.frames.write hbits, backs_setEntry h.backs (by norm_num) ht hi hleads (by omega),
    fun k' a' t' hk' ht' => ?_⟩, rfl, fun f hf => ?_, fun x hx => (hsame x).mpr hx,
    fun x _ htable => hpage x fun hin => htable ((hsame x).mpr hin),
    fun hs => hs.write h.frames.addressable hbits, fun needed _ => ?_⟩
  · rw [TableTree.insert_other (Or.inl (by omega))] at ht'
    exact h.tables k' a' t' hk' ht'
  · exact hf.mark rfl fun hset => by rw [bit_of_mem h.frames.addressable hbits]; exact hset
  · rw [@freeFrames_congr s { s with mem := setEntry s.mem t.toNat i e } rfl fun j =>
      bit_of_mem h.frames.addressable hbits]
    exact Nat.add_le_add_right (card_absentTables_insert _) _

theorem FramesInv.requestPage (h : FramesInv s grants) (hgranted : s.requestPage.1 ≠ NULL) :
    FramesInv s.requestPage.2 ((s.requestPage.1, 1) :: grants) := by
  have hstep := FrameStep.requestPage ⟨s, grants⟩
  dsimp only at hstep
  rw [recordGrant, if_neg hgranted] at hstep
  exact h.frameStep hstep

theorem newTable_bits (h : MemoryInv s grants tables pml4 node) (ht : node (k + 1) a = some t)
    (hi : i < 512) (hgranted : s.requestPage.1 ≠ NULL) (x : Nat)
    (hx : InBitmap s.requestPage.2 x) :
    setEntry (s.requestPage.2.mem.fill s.requestPage.1 0x1000 0) t.toNat i e x =
      s.requestPage.2.mem x := by
  have hframes := h.frames.requestPage hgranted
  have htable := List.mem_cons_of_mem (s.requestPage.1, 1)
    (List.mem_append_right grants (h.tables _ _ _ (Nat.le_add_left 1 k) ht))
  have haligned := h.backs.aligned _ _ _ (Nat.le_add_left 1 k) ht
  have hup : x < t.toNat ∨ t.toNat + 0x1000 ≤ x := by
    by_contra hin
    exact hframes.page_not_inBitmap htable haligned (by omega) (by omega) hx
  have hnew : x < s.requestPage.1 ∨ s.requestPage.1 + 0x1000 ≤ x := by
    by_contra hin
    exact hframes.page_not_inBitmap List.mem_cons_self (requestPage_page h.frames.physical).1
      (by omega) (by omega) hx
  rw [setEntry_outside hi hup, ByteMemory.fill_outside _ (by omega)]

theorem table_mapped (h : MemoryInv s grants tables pml4 node) (hk : 1 ≤ k) (hk' : k < 4)
    (ht : node (k + 1) a = some t) (hi : i < 512) (hbelow : node k (a * 512 + i) = none)
    (hgranted : s.requestPage.1 ≠ NULL) (hq : q = BitVec.ofNat 64 s.requestPage.1)
    (hleads : LeadsTo e q) :
    Mapped pml4 grants [(k, a * 512 + i)] s tables node
      { s.requestPage.2 with
        mem := setEntry (s.requestPage.2.mem.fill s.requestPage.1 0x1000 0) t.toNat i e }
      ((s.requestPage.1, 1) :: tables) (node.insert k (a * 512 + i) q) := by
  obtain ⟨haligned, hlt⟩ := requestPage_page h.frames.physical
  have hmiddle : ((s.requestPage.1, 1) :: (grants ++ tables)).Perm
      (grants ++ (s.requestPage.1, 1) :: tables) := List.perm_middle.symm
  have hstep := FrameStep.requestPage ⟨s, grants ++ tables⟩
  dsimp only at hstep
  rw [recordGrant, if_neg hgranted] at hstep
  have hframes := h.frames.requestPage hgranted
  have hkeeps : KeepsOutside s s.requestPage.2 := keepsOutside_requestPage h.frames.addressable
  have hbits := newTable_bits (e := e) h ht hi hgranted
  have hreach : InReach s → InReach s.requestPage.2 := fun hs => hs.requestPage
  have hfree := card_freeFrames_requestPage h.frames.addressable hgranted
  have htaken : ∀ f, Taken s (grants ++ tables) f →
      Taken s.requestPage.2 ((s.requestPage.1, 1) :: (grants ++ tables)) f :=
    fun f hf => hf.frameStep h.frames.ledger hstep
  generalize hs₁ : s.requestPage.2 = s₁ at *
  generalize hnext : s.requestPage.1 = next at *
  have hvalue : q.toNat = next := by
    rw [hq, BitVec.toNat_ofNat, Nat.mod_eq_of_lt (by omega)]
  have hself : Covers (next, 1) (next / 4096) := ⟨Nat.le_refl _, Nat.lt_succ_self _⟩
  have hexclusive := (List.pairwise_cons.mp hframes.ledger.exclusive).1
  -- the page is none of the tables, since their frames are granted already
  have hfresh : Fresh node q := by
    rintro k' a' t' hk'' ht' rfl
    have hmem := List.mem_append_right grants (h.tables k' a' _ hk'' ht')
    rw [hvalue] at hmem
    exact hexclusive _ hmem _ hself hself
  have hbacks : Backs s₁.mem pml4 node :=
    h.backs.congr fun x hx => hkeeps.mem x (h.table_not_inBitmap hx)
  have hinsert : ∀ x, InTable node x → InTable (node.insert k (a * 512 + i) q) x := by
    rintro x ⟨k', a', t', hk'', ht', hlo, hhi⟩
    refine ⟨k', a', t', hk'', ?_, hlo, hhi⟩
    rw [TableTree.insert_other, ht']
    by_contra hslot
    rw [not_or, not_not, not_not] at hslot
    rw [hslot.1, hslot.2, hbelow] at ht'
    contradiction
  have hpage : ∀ x, ¬ InTable (node.insert k (a * 512 + i) q) x →
      setEntry (s₁.mem.fill next 0x1000 0) t.toNat i e x = s₁.mem x := by
    intro x hx
    have hup : x < t.toNat ∨ t.toNat + 0x1000 ≤ x := by
      by_contra hin
      exact hx (hinsert x ⟨k + 1, a, t, by omega, ht, by omega, by omega⟩)
    have hnew : x < next ∨ next + 0x1000 ≤ x := by
      by_contra hin
      exact hx ⟨k, a * 512 + i, q, hk, TableTree.insert_same, by omega, by omega⟩
    rw [setEntry_outside hi hup, ByteMemory.fill_outside _ (by omega)]
  refine ⟨⟨(hframes.write hbits).perm hmiddle, ?_, fun k' a' t' hk'' ht' => ?_⟩,
    hkeeps.pageBitmap, fun f hf => ?_, hinsert, fun x hbitmap htable => ?_,
    fun hs => (hreach hs).write hframes.addressable hbits, fun needed hpath => ?_⟩
  · have hclear := backs_fill hbacks (hvalue.symm ▸ haligned) hfresh
    rw [hvalue] at hclear
    refine backs_setEntry hclear hk' ht hi hleads fun _ => ⟨hbelow, ⟨?_, ?_⟩, hfresh, ?_⟩
    · rw [hvalue]
      exact haligned
    · rw [hq]
      exact and_addressMask haligned hlt
    · rw [hvalue]
      exact fun j hj => getFlag_entry_fill hj
  · rcases TableTree.insert_cases ht' with ⟨-, -, rfl⟩ | hold
    · rw [hvalue]
      exact List.mem_cons_self
    · exact List.mem_cons_of_mem _ (h.tables k' a' t' hk'' hold)
  · have hf' : Taken { s₁ with mem := setEntry (s₁.mem.fill next 0x1000 0) t.toNat i e } _ f :=
      (htaken f hf).mark rfl fun hset => by
        rw [bit_of_mem hframes.addressable hbits]
        exact hset
    exact ⟨hf'.inside, hf'.marked, fun g hg => hf'.free g (hmiddle.mem_iff.mpr hg)⟩
  · exact (hpage x htable).trans (hkeeps.mem x hbitmap)
  · have hmissing : (k, a * 512 + i) ∈ absentTables node needed := by
      simp only [absentTables, Finset.mem_filter]
      exact ⟨hpath _ (List.mem_singleton_self _), hbelow⟩
    have hcard := Finset.card_erase_add_one hmissing
    rw [absentTables_insert, @freeFrames_congr s₁ { s₁ with
      mem := setEntry (s₁.mem.fill next 0x1000 0) t.toNat i e } rfl fun j =>
        bit_of_mem hframes.addressable hbits]
    omega

theorem nextTable_present (h : LeadsTo (entry s.mem t.toNat i) q) :
    s.nextTable t.toNat i = (((entry s.mem t.toNat i).getAddress <<< 12).toNat, s) := by
  unfold PageFrameAllocator.nextTable
  dsimp only
  rw [if_neg (by simp [h.present])]

theorem nextTable_absent (h : (entry s.mem t.toNat i).getFlag PTFlag.Present = false) :
    s.nextTable t.toNat i = (s.requestPage.1,
      { s.requestPage.2 with
        mem := setEntry (s.requestPage.2.mem.fill s.requestPage.1 0x1000 0) t.toNat i
          ((entry s.mem t.toNat i).mapping (BitVec.ofNat 64 s.requestPage.1)) }) := by
  unfold PageFrameAllocator.nextTable
  dsimp only
  rw [if_pos h]
  rfl

theorem nextTable_mapped (h : MemoryInv s grants tables pml4 node) (hk : 1 ≤ k) (hk' : k < 4)
    (ht : node (k + 1) a = some t) (hi : i < 512) (hanswered : TableAnswered s t.toNat i) :
    ∃ tables' node' u,
      Mapped pml4 grants [(k, a * 512 + i)] s tables node (s.nextTable t.toNat i).2 tables' node' ∧
      node' k (a * 512 + i) = some u ∧ (s.nextTable t.toNat i).1 = u.toNat ∧
      ∀ k' a', k' ≠ k ∨ a' ≠ a * 512 + i → node' k' a' = node k' a' := by
  have hentry := h.backs.entries k a t i hk' ht hi
  cases hbelow : node k (a * 512 + i) with
  | some u =>
      rw [hbelow] at hentry
      have hnext := nextTable_present hentry
      refine ⟨tables, node, u, ?_, hbelow, ?_, fun _ _ _ => rfl⟩
      · rw [hnext]
        exact .refl h
      · rw [hnext, getAddress_shift, hentry.address, h.backs.frames _ _ _ hk hk' hbelow]
  | none =>
      rw [hbelow] at hentry
      have hnext := nextTable_absent hentry
      have hlt := (requestPage_page h.frames.physical).2
      refine ⟨(s.requestPage.1, 1) :: tables,
        node.insert k (a * 512 + i) (BitVec.ofNat 64 s.requestPage.1), BitVec.ofNat 64 _, ?_,
        TableTree.insert_same, ?_, fun _ _ hne => TableTree.insert_other hne⟩
      · rw [hnext]
        exact table_mapped h hk hk' ht hi hbelow (hanswered hentry) rfl (leadsTo_mapping _ _)
      · rw [hnext, BitVec.toNat_ofNat, Nat.mod_eq_of_lt (by omega)]

def below (a : Nat) (is : List Nat) : Nat := is.foldl (fun a i => a * 512 + i) a

def pathBelow (a : Nat) : List Nat → List (Nat × Nat)
  | [] => []
  | i :: is => (is.length + 1, a * 512 + i) :: pathBelow (a * 512 + i) is

theorem descend_mapped {is : List Nat} (h : MemoryInv s grants tables pml4 node)
    (hlevel : is.length ≤ 3) (hindices : ∀ i ∈ is, i < 512)
    (ht : node (is.length + 1) a = some t) (hanswered : AnsweredAlong s t.toNat is) :
    ∃ tables' node' u,
      Mapped pml4 grants (pathBelow a is) s tables node (descend s t.toNat is).2 tables' node' ∧
      node' 1 (below a is) = some u ∧ (descend s t.toNat is).1 = u.toNat ∧
      ∀ n, node' 0 n = node 0 n := by
  induction is generalizing s tables node a t with
  | nil => exact ⟨tables, node, t, .refl h, ht, rfl, fun _ => rfl⟩
  | cons i is ih =>
      simp only [List.length_cons] at hlevel ht
      obtain ⟨tables₁, node₁, u₁, hmapped₁, hnode₁, htable₁, hkept₁⟩ :=
        nextTable_mapped h (Nat.le_add_left 1 _) (by omega) ht (hindices i List.mem_cons_self)
          hanswered.1
      have hrest := hanswered.2
      rw [htable₁] at hrest
      obtain ⟨tables₂, node₂, u₂, hmapped₂, hnode₂, htable₂, hleaves₂⟩ :=
        ih hmapped₁.inv (by omega) (fun j hj => hindices j (List.mem_cons_of_mem _ hj)) hnode₁
          hrest
      refine ⟨tables₂, node₂, u₂, ?_, hnode₂, ?_, fun n => ?_⟩
      · rw [descend, htable₁]
        exact hmapped₁.trans hmapped₂
      · rw [descend, htable₁]
        exact htable₂
      · rw [hleaves₂, hkept₁ 0 n (Or.inl (by omega))]

theorem pageNumber_ofNat {x : Nat} (hx : x < 2 ^ 48) :
    pageNumber (BitVec.ofNat 64 x) = x / 4096 := by
  rw [pageNumber, BitVec.toNat_ofNat]
  omega

theorem tableIndices_lt (v : BitVec 64) : ∀ i ∈ tableIndices v, i < 512 := by
  have hpage : pageNumber v < 2 ^ 36 := Nat.mod_lt _ (by norm_num)
  simp only [tableIndices, indexer_eq, List.mem_cons, List.not_mem_nil, or_false]
  omega

theorem below_tableIndices (v : BitVec 64) : below 0 (tableIndices v) = pageNumber v / 512 := by
  simp only [tableIndices, indexer_eq, below, List.foldl_cons, List.foldl_nil]
  omega

theorem mapMemory_mapped (h : MemoryInv s grants tables pml4 node) (v p : BitVec 64)
    (hanswered : Answered s pml4.toNat v) :
    ∃ tables' node',
      Mapped pml4 grants (pathBelow 0 (tableIndices v)) s tables node
        (s.mapMemory pml4.toNat v p) tables' node' ∧
      ∀ n, node' 0 n = if n = pageNumber v then some p else node 0 n := by
  obtain ⟨tables₁, node₁, t₁, hmapped₁, hnode₁, htable₁, hleaves₁⟩ :=
    descend_mapped h (show (tableIndices v).length ≤ 3 from Nat.le_refl 3) (tableIndices_lt v)
      h.backs.root hanswered
  rw [below_tableIndices] at hnode₁
  have hindex : (PageMapIndexer.ofAddress v).pI = pageNumber v % 512 := by rw [indexer_eq]
  have hmap : s.mapMemory pml4.toNat v p =
      { (descend s pml4.toNat (tableIndices v)).2 with
        mem := setEntry (descend s pml4.toNat (tableIndices v)).2.mem t₁.toNat (pageNumber v % 512)
          ((entry (descend s pml4.toNat (tableIndices v)).2.mem t₁.toNat
            (pageNumber v % 512)).mapping p) } := by
    rw [← htable₁, ← hindex]
    rfl
  rw [hmap]
  generalize (descend s pml4.toNat (tableIndices v)).2 = s₁ at *
  have hleaf := leaf_mapped hmapped₁.inv hnode₁ (Nat.mod_lt (pageNumber v) (by norm_num))
    (leadsTo_mapping (entry s₁.mem t₁.toNat (pageNumber v % 512)) p)
  rw [show pageNumber v / 512 * 512 + pageNumber v % 512 = pageNumber v by omega] at hleaf
  have hboth := hmapped₁.trans hleaf
  rw [List.append_nil] at hboth
  refine ⟨tables₁, _, hboth, fun n => ?_⟩
  by_cases hsame : n = pageNumber v
  · rw [if_pos hsame, hsame, TableTree.insert_same]
  · rw [if_neg hsame, TableTree.insert_other (Or.inr hsame), hleaves₁]

end MapMemory

end UnifiedOS.Paging
