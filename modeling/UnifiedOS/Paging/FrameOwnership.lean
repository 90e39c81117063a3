import UnifiedOS.Foundation.TransitionSystem
import UnifiedOS.Paging.PageFrameAllocator
import Mathlib.Data.List.Nodup

/-!
# Exclusive ownership of frames

A run of the allocator keeps the grants that are outstanding, each the address
returned and the number of pages asked for.  A grant may hang over the end of
the bitmap, where bits read as clear and are never set.  Two grants can only
share such a frame if they share the last frame of the bitmap as well, and
there the bit tells them apart.
-/

namespace UnifiedOS.Paging

open UnifiedOS.Foundation
open PageFrameAllocator

structure FrameRun where
  allocator : PageFrameAllocator
  grants : List (Nat × Nat)

/-- A non-null answer is a grant. -/
def recordGrant (p count : Nat) (grants : List (Nat × Nat)) : List (Nat × Nat) :=
  if p = NULL then grants else (p, count) :: grants

inductive FrameStep : FrameRun → FrameRun → Prop where
  | requestPage (s : FrameRun) :
      FrameStep s ⟨s.allocator.requestPage.2,
        recordGrant s.allocator.requestPage.1 1 s.grants⟩
  | requestPages (s : FrameRun) (n : Nat) (hpos : 1 ≤ n) (hmax : n ≤ 2 ^ 19) :
      FrameStep s ⟨(s.allocator.requestPages n).2,
        recordGrant (s.allocator.requestPages n).1 n s.grants⟩
  | freePage (s : FrameRun) (p : Nat) (hgrant : (p, 1) ∈ s.grants) :
      FrameStep s ⟨s.allocator.freePage p, s.grants.erase (p, 1)⟩
  | freePages (s : FrameRun) (p n : Nat) (hgrant : (p, n) ∈ s.grants) :
      FrameStep s ⟨s.allocator.freePages p n, s.grants.erase (p, n)⟩

/-- A buffer of `Size` bytes that lies in the 48-bit address space. -/
def Bitmap.Addressable (b : Bitmap) : Prop := b.buffer + b.size ≤ 2 ^ 48

/-- The bits and the cursor are arbitrary at the start, and nothing is granted. -/
def FrameReachable : FrameRun → Prop :=
  Reachable (fun s => s.allocator.pageBitmap.Addressable ∧ s.grants = []) FrameStep

def Covers (g : Nat × Nat) (frame : Nat) : Prop :=
  g.1 / 4096 ≤ frame ∧ frame < g.1 / 4096 + g.2

def Exclusive (g g' : Nat × Nat) : Prop := ∀ frame, Covers g frame → ¬ Covers g' frame

/-- Every frame of a grant that the bitmap has is marked, and grants are exclusive. -/
structure GrantInv (s : FrameRun) : Prop where
  addressable : s.allocator.pageBitmap.Addressable
  start : ∀ g ∈ s.grants, g.1 / 4096 < s.allocator.limit
  size : ∀ g ∈ s.grants, 1 ≤ g.2 ∧ g.2 ≤ 2 ^ 19
  marked : ∀ g ∈ s.grants, ∀ frame, Covers g frame → frame < s.allocator.limit →
    s.allocator.bit frame = true
  exclusive : s.grants.Pairwise Exclusive

section Ownership

variable {s : FrameRun} {allocator : PageFrameAllocator} {i n p : Nat}

instance : Std.Symm Exclusive :=
  ⟨fun _ _ h frame hg' hg => h frame hg hg'⟩

theorem limit_of_addressable (h : allocator.pageBitmap.Addressable) :
    allocator.limit = allocator.pageBitmap.size * 8 ∧ allocator.limit ≤ 2 ^ 51 := by
  simp only [Bitmap.Addressable] at h
  rw [limit, wrap64_of_lt (by omega)]
  omega

theorem covers_last {g : Nat × Nat} {limit frame : Nat} (hstart : g.1 / 4096 < limit)
    (hcovers : Covers g frame) (hbeyond : limit ≤ frame) : Covers g (limit - 1) := by
  simp only [Covers] at hcovers ⊢
  omega

theorem GrantInv.mark (hinv : GrantInv s)
    (hbitmap : allocator.pageBitmap = s.allocator.pageBitmap)
    (hmark : ∀ j, j < s.allocator.limit → s.allocator.bit j = true → allocator.bit j = true) :
    GrantInv ⟨allocator, s.grants⟩ := by
  constructor
  · rw [hbitmap]
    exact hinv.addressable
  · rw [limit_congr hbitmap]
    exact hinv.start
  · exact hinv.size
  · rw [limit_congr hbitmap]
    intro g hg frame hcovers hlt
    exact hmark frame hlt (hinv.marked g hg frame hcovers hlt)
  · exact hinv.exclusive

theorem GrantInv.exclusive_of_clear {g new : Nat × Nat} (hinv : GrantInv s) (hg : g ∈ s.grants)
    (hstart : new.1 / 4096 < s.allocator.limit)
    (hclear : ∀ frame, Covers new frame → s.allocator.bit frame = false) :
    Exclusive new g := by
  have hmeet : ∀ shared, Covers new shared → Covers g shared →
      shared < s.allocator.limit → False := by
    intro shared hnew hold hlt
    have hset := hinv.marked g hg shared hold hlt
    rw [hclear shared hnew] at hset
    contradiction
  intro frame hnew hold
  by_cases hlt : frame < s.allocator.limit
  · exact hmeet frame hnew hold hlt
  · have hlast := covers_last hstart hnew (by omega)
    exact hmeet _ hlast (covers_last (hinv.start g hg) hold (by omega)) (by omega)

theorem GrantInv.cons {new : Nat × Nat} (hinv : GrantInv s)
    (hstart : new.1 / 4096 < s.allocator.limit) (hsize : 1 ≤ new.2 ∧ new.2 ≤ 2 ^ 19)
    (hmarked : ∀ frame, Covers new frame → frame < s.allocator.limit →
      s.allocator.bit frame = true)
    (hexclusive : ∀ g ∈ s.grants, Exclusive new g) :
    GrantInv ⟨s.allocator, new :: s.grants⟩ := by
  constructor
  · exact hinv.addressable
  · intro g hg
    rcases List.mem_cons.mp hg with rfl | hmem
    · exact hstart
    · exact hinv.start g hmem
  · intro g hg
    rcases List.mem_cons.mp hg with rfl | hmem
    · exact hsize
    · exact hinv.size g hmem
  · intro g hg
    rcases List.mem_cons.mp hg with rfl | hmem
    · exact hmarked
    · exact hinv.marked g hmem
  · exact List.pairwise_cons.mpr ⟨hexclusive, hinv.exclusive⟩

theorem grantInv_grant (hinv : GrantInv s) (hi : i < s.allocator.limit) (hn : 1 ≤ n)
    (hmax : n ≤ 2 ^ 19)
    (hclear : ∀ t, t < n → s.allocator.bit (i + t) = false)
    (hbitmap : allocator.pageBitmap = s.allocator.pageBitmap)
    (hbit : ∀ j, j < s.allocator.limit → allocator.bit j =
      if i ≤ j ∧ j < i + n then true else s.allocator.bit j) :
    GrantInv ⟨allocator, recordGrant (wrap64 (i * 4096)) n s.grants⟩ := by
  obtain ⟨-, hlimit⟩ := limit_of_addressable hinv.addressable
  have hframe : wrap64 (i * 4096) / 4096 = i := by
    rw [wrap64_of_lt (by omega)]
    omega
  have hcovers : ∀ frame, Covers (wrap64 (i * 4096), n) frame ↔ i ≤ frame ∧ frame < i + n := by
    intro frame
    simp only [Covers, hframe]
  have hmarked : GrantInv ⟨allocator, s.grants⟩ := by
    refine hinv.mark hbitmap fun j hj hset => ?_
    rw [hbit j hj, hset, ite_self]
  unfold recordGrant
  by_cases hnull : wrap64 (i * 4096) = NULL
  · rw [if_pos hnull]
    exact hmarked
  · rw [if_neg hnull]
    have hstart : wrap64 (i * 4096) / 4096 < s.allocator.limit := hframe.symm ▸ hi
    refine hmarked.cons ((limit_congr hbitmap).symm ▸ hstart) ⟨hn, hmax⟩ ?_ fun g hg => ?_
    · intro frame hnew hlt
      rw [limit_congr hbitmap] at hlt
      rw [hbit frame hlt, if_pos ((hcovers frame).mp hnew)]
    · refine hinv.exclusive_of_clear hg hstart fun frame hnew => ?_
      obtain ⟨hlo, hhi⟩ := (hcovers frame).mp hnew
      obtain ⟨t, rfl⟩ := Nat.exists_eq_add_of_le hlo
      exact hclear t (by omega)

theorem grantInv_free (hinv : GrantInv s) (hgrant : (p, n) ∈ s.grants)
    (hbitmap : allocator.pageBitmap = s.allocator.pageBitmap)
    (hbit : ∀ j, j < s.allocator.limit → allocator.bit j =
      if p / 4096 ≤ j ∧ j < p / 4096 + n then false else s.allocator.bit j) :
    GrantInv ⟨allocator, s.grants.erase (p, n)⟩ := by
  have hsame : allocator.limit = s.allocator.limit := limit_congr hbitmap
  have hnodup : s.grants.Nodup := by
    refine hinv.exclusive.imp_of_mem ?_
    rintro g g' hg - hexclusive rfl
    have hself : Covers g (g.1 / 4096) :=
      ⟨Nat.le_refl _, by have hsize := (hinv.size g hg).1; omega⟩
    exact hexclusive _ hself hself
  have hmem : ∀ g ∈ s.grants.erase (p, n), g ∈ s.grants :=
    fun g hg => List.mem_of_mem_erase hg
  constructor
  · rw [hbitmap]
    exact hinv.addressable
  · rw [hsame]
    exact fun g hg => hinv.start g (hmem g hg)
  · exact fun g hg => hinv.size g (hmem g hg)
  · rw [hsame]
    intro g hg frame hcovers hlt
    obtain ⟨hne, hold⟩ := (List.Nodup.mem_erase_iff hnodup).mp hg
    have hexclusive : Exclusive g (p, n) :=
      hinv.exclusive.forall hold hgrant hne
    rw [hbit frame hlt, if_neg]
    · exact hinv.marked g hold frame hcovers hlt
    · exact hexclusive frame hcovers
  · exact hinv.exclusive.sublist List.erase_sublist

theorem grantInv_step {s' : FrameRun} (hinv : GrantInv s) (hstep : FrameStep s s') :
    GrantInv s' := by
  obtain ⟨-, hlimit⟩ := limit_of_addressable hinv.addressable
  cases hstep with
  | requestPage =>
      rcases @requestPage_cases s.allocator with
        ⟨i, -, hi, -, hclear, heq⟩ | ⟨-, index, -, -, heq⟩
      · have hframe : wrap64 (i * 4096) / 4096 = i := by
          rw [wrap64_of_lt (by omega)]
          omega
        rw [heq]
        apply grantInv_grant hinv hi (Nat.le_refl 1) (by norm_num)
        · intro t ht
          obtain rfl : t = 0 := by omega
          exact hclear
        · exact pageBitmap_lockPage
        · intro j hj
          rw [bit_lockPage, hframe]
          change (if j = i ∧ j ≤ s.allocator.limit then true else s.allocator.bit j) = _
          congr 1
          simp only [eq_iff_iff]
          omega
      · rw [heq]
        exact ⟨hinv.addressable, hinv.start, hinv.size, hinv.marked, hinv.exclusive⟩
  | requestPages n hpos hmax =>
      rcases @requestPages_cases s.allocator n with
        ⟨i, -, hi, hfree, -, heq⟩ | ⟨-, heq⟩
      · have haddress : wrap64 (i * 4096) = i * 4096 := wrap64_of_lt (by omega)
        rw [heq]
        apply grantInv_grant hinv hi hpos hmax
        · exact (runFree_iff (by omega) (by omega)).mp hfree
        · exact pageBitmap_lockPages (by omega)
        · intro j hj
          rw [bit_lockPages (by omega)]
          change (if Visits (wrap64 (i * 4096)) n j ∧ j ≤ s.allocator.limit then true
            else s.allocator.bit j) = _
          congr 1
          rw [eq_iff_iff, visits_iff hmax (by omega) (wrap64_lt _)]
          omega
      · rw [heq]
        exact hinv
  | freePage p hgrant =>
      apply grantInv_free hinv hgrant pageBitmap_freePage
      intro j hj
      rw [bit_freePage]
      congr 1
      simp only [eq_iff_iff]
      omega
  | freePages p n hgrant =>
      have hstart := hinv.start _ hgrant
      have hsize := hinv.size _ hgrant
      simp only at hstart hsize
      apply grantInv_free hinv hgrant (pageBitmap_freePages (by omega))
      intro j hj
      rw [bit_freePages (by omega)]
      congr 1
      rw [eq_iff_iff, visits_iff hsize.2 (by omega) (by omega)]
      omega

/--
From any bitmap and any cursor, the frames of all outstanding grants are
pairwise disjoint in every state of every run.
-/
theorem grants_exclusive (hreach : FrameReachable s) : s.grants.Pairwise Exclusive := by
  have hinv : GrantInv s := by
    apply hreach.invariant
    · rintro s ⟨haddressable, hgrants⟩
      exact ⟨haddressable, by simp [hgrants], by simp [hgrants], by simp [hgrants],
        by simp [hgrants]⟩
    · exact fun s s' hinv hstep => grantInv_step hinv hstep
  exact hinv.exclusive

/-- An allocator with one free byte of bitmap, its cursor past frame 0. -/
def smallAllocator : PageFrameAllocator :=
  ⟨fun _ => 0, ⟨1, 0x1000⟩, 1, 0, 0, 0, 0, true⟩

theorem grants_exclusive_small :
    ∃ s, FrameReachable s ∧ s.grants = [(0x2000, 3), (0x1000, 1)] ∧
      s.grants.Pairwise Exclusive := by
  have hstart : FrameReachable ⟨smallAllocator, []⟩ :=
    Reachable.start ⟨by norm_num [Bitmap.Addressable, smallAllocator], rfl⟩
  have hreach : FrameReachable _ :=
    Reachable.next (Reachable.next hstart (FrameStep.requestPage _))
      (FrameStep.requestPages _ 3 (by norm_num) (by norm_num))
  exact ⟨_, hreach, by decide +kernel, grants_exclusive hreach⟩

end Ownership

end UnifiedOS.Paging
