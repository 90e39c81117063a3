import UnifiedOS.Paging.PageTableManager
import Mathlib.Data.List.Induction

/-!
# Translation over whole runs of `MapMemory`

The page tables form a tree: `node k a` is the table at level `k` whose page
numbers begin with `a`, and at level 0 the physical page mapped to page number
`a`.  `Backs` says that memory stores such a tree with every table in a frame
of its own, so that writing an entry of one table changes no other.
-/

namespace UnifiedOS.Paging

open UnifiedOS.Foundation
open PageDirectoryEntry

abbrev TableTree := Nat → Nat → Option (BitVec 64)

/-- One more node, below entry `i` of table `a`. -/
def TableTree.insert (node : TableTree) (k a : Nat) (t : BitVec 64) : TableTree :=
  fun k' a' => if k' = k ∧ a' = a then some t else node k' a'

def Holds (m : ByteMemory) (table i : Nat) : Option (BitVec 64) → Prop
  | none => (entry m table i).getFlag PTFlag.Present = false
  | some t => LeadsTo (entry m table i) t

structure IsFrame (t : BitVec 64) : Prop where
  aligned : t.toNat % 4096 = 0
  field : t &&& addressMask = t

/-- Memory stores the tree below the table `pml4`. -/
structure Backs (m : ByteMemory) (pml4 : BitVec 64) (node : TableTree) : Prop where
  root : node 4 0 = some pml4
  entries : ∀ k a t i, k < 4 → node (k + 1) a = some t → i < 512 →
    Holds m t.toNat i (node k (a * 512 + i))
  closed : ∀ k a t, k < 4 → node k a = some t → ∃ t', node (k + 1) (a / 512) = some t'
  aligned : ∀ k a t, 1 ≤ k → node k a = some t → t.toNat % 4096 = 0
  frames : ∀ k a t, 1 ≤ k → k < 4 → node k a = some t → t &&& addressMask = t
  distinct : ∀ k a k' a' t, 1 ≤ k → 1 ≤ k' → node k a = some t →
    node k' a' = some t → k = k' ∧ a = a'

section Tree

variable {m : ByteMemory} {pml4 t q : BitVec 64} {node : TableTree} {k a i : Nat}
  {e : PageDirectoryEntry}

@[simp] theorem TableTree.insert_same : node.insert k a t k a = some t :=
  if_pos ⟨rfl, rfl⟩

theorem TableTree.insert_other {k' a' : Nat} (h : k' ≠ k ∨ a' ≠ a) :
    node.insert k a t k' a' = node k' a' := by
  rw [TableTree.insert, if_neg]
  rintro ⟨rfl, rfl⟩
  rcases h with h | h <;> exact h rfl

theorem TableTree.insert_cases {k' a' : Nat} {t' : BitVec 64}
    (h : node.insert k a t k' a' = some t') :
    (k' = k ∧ a' = a ∧ t' = t) ∨ node k' a' = some t' := by
  by_cases hsame : k' = k ∧ a' = a
  · rw [hsame.1, hsame.2, TableTree.insert_same] at h
    exact Or.inl ⟨hsame.1, hsame.2, (Option.some.inj h).symm⟩
  · rw [TableTree.insert_other (by omega)] at h
    exact Or.inr h

theorem TableTree.insert_kept {k' a' : Nat} {t' : BitVec 64} (h : node k' a' = some t') :
    ∃ u, node.insert k a t k' a' = some u := by
  by_cases hsame : k' = k ∧ a' = a
  · rw [hsame.1, hsame.2]
    exact ⟨t, TableTree.insert_same⟩
  · exact ⟨t', by rw [TableTree.insert_other (by omega)]; exact h⟩

def Fresh (node : TableTree) (q : BitVec 64) : Prop :=
  ∀ k a t, 1 ≤ k → node k a = some t → t ≠ q

theorem pages_apart {t q : BitVec 64} (ht : t.toNat % 4096 = 0) (hq : q.toNat % 4096 = 0)
    (hne : t ≠ q) : q.toNat + 0x1000 ≤ t.toNat ∨ t.toNat + 0x1000 ≤ q.toNat := by
  have hne' : t.toNat ≠ q.toNat := fun h => hne (BitVec.eq_of_toNat_eq h)
  omega

theorem backs_fill (h : Backs m pml4 node) (hq : q.toNat % 4096 = 0)
    (hfresh : Fresh node q) : Backs (m.fill q.toNat 0x1000 0) pml4 node := by
  refine ⟨h.root, ?_, h.closed, h.aligned, h.frames, h.distinct⟩
  intro k a t i hk ht hi
  have hapart := pages_apart (h.aligned _ _ _ (by omega) ht) hq (hfresh _ _ _ (by omega) ht)
  have hold := h.entries k a t i hk ht hi
  unfold Holds at hold ⊢
  rw [entry_fill_other hi hapart]
  exact hold

theorem Backs.entry_kept (h : Backs m pml4 node) (ht : node (k + 1) a = some t) (hi : i < 512)
    {k' a' j : Nat} {t' : BitVec 64} (ht' : node (k' + 1) a' = some t') (hj : j < 512) :
    (k' = k ∧ a' = a ∧ j = i) ∨
      entry (setEntry m t.toNat i e) t'.toNat j = entry m t'.toNat j := by
  have htAligned := h.aligned _ _ _ (by omega) ht
  have ht'Aligned := h.aligned _ _ _ (by omega) ht'
  by_cases htt : t' = t
  · subst htt
    obtain ⟨hkk, haa⟩ := h.distinct _ _ _ _ _ (by omega) (by omega) ht' ht
    by_cases hij : j = i
    · exact Or.inl ⟨by omega, haa, hij⟩
    · exact Or.inr (entry_setEntry_other (by omega))
  · have hapart := pages_apart ht'Aligned htAligned htt
    exact Or.inr (entry_setEntry_other (by omega))

/--
Storing an entry puts one node below it.  Above level 0 the node is a table of
its own, outside the tree and cleared.
-/
theorem backs_setEntry (h : Backs m pml4 node) (hk : k < 4) (ht : node (k + 1) a = some t)
    (hi : i < 512) (he : LeadsTo e q)
    (htable : 1 ≤ k → node k (a * 512 + i) = none ∧ IsFrame q ∧ Fresh node q ∧
      ∀ j, j < 512 → (entry m q.toNat j).getFlag PTFlag.Present = false) :
    Backs (setEntry m t.toNat i e) pml4 (node.insert k (a * 512 + i) q) := by
  have htAligned := h.aligned _ _ _ (by omega) ht
  have hinserted : ∀ k' a' t', node.insert k (a * 512 + i) q k' a' = some t' →
      (k' = k ∧ a' = a * 512 + i ∧ t' = q) ∨ node k' a' = some t' := fun _ _ _ =>
    TableTree.insert_cases
  constructor
  · rw [TableTree.insert_other (Or.inl (by omega))]
    exact h.root
  · intro k' a' t' j hk' ht' hj
    rcases hinserted _ _ _ ht' with ⟨hkk, haa, rfl⟩ | hold
    · -- the new table itself: nothing is below it, and its page is clear
      obtain ⟨hnone, hframe, hfresh, hclear⟩ := htable (by omega)
      have hbelow : node k' (a' * 512 + j) = none := by
        by_contra hsome
        obtain ⟨u, hu⟩ := Option.ne_none_iff_exists'.mp hsome
        obtain ⟨u', hu'⟩ := h.closed k' _ u (by omega) hu
        rw [show (a' * 512 + j) / 512 = a' by omega, hkk, haa, hnone] at hu'
        contradiction
      rw [TableTree.insert_other (Or.inl (by omega)), hbelow]
      have hapart := pages_apart htAligned hframe.aligned (hfresh _ _ _ (by omega) ht)
      unfold Holds
      rw [entry_setEntry_other (by omega)]
      exact hclear j hj
    · have hentry := h.entries k' a' t' j hk' hold hj
      rcases h.entry_kept (e := e) ht hi hold hj with ⟨rfl, rfl, rfl⟩ | hsame
      · have htt : t' = t := Option.some.inj (hold.symm.trans ht)
        rw [TableTree.insert_same, htt, Holds, entry_setEntry_same]
        exact he
      · by_cases hslot : k' = k ∧ a' * 512 + j = a * 512 + i
        · obtain ⟨rfl, hslot⟩ := hslot
          obtain ⟨rfl, rfl⟩ : a' = a ∧ j = i := by omega
          have htt : t' = t := Option.some.inj (hold.symm.trans ht)
          rw [TableTree.insert_same, htt, Holds, entry_setEntry_same]
          exact he
        · rw [TableTree.insert_other (by omega)]
          unfold Holds at hentry ⊢
          rw [hsame]
          exact hentry
  · intro k' a' t' hk' ht'
    rcases hinserted _ _ _ ht' with ⟨hkk, haa, -⟩ | hold
    · rw [hkk, haa, show (a * 512 + i) / 512 = a by omega]
      exact TableTree.insert_kept ht
    · obtain ⟨u, hu⟩ := h.closed _ _ _ hk' hold
      exact TableTree.insert_kept hu
  · intro k' a' t' hk' ht'
    rcases hinserted _ _ _ ht' with ⟨hkk, -, rfl⟩ | hold
    · exact (htable (by omega)).2.1.aligned
    · exact h.aligned _ _ _ hk' hold
  · intro k' a' t' hk' hk'' ht'
    rcases hinserted _ _ _ ht' with ⟨hkk, -, rfl⟩ | hold
    · exact (htable (by omega)).2.1.field
    · exact h.frames _ _ _ hk' hk'' hold
  · intro k₁ a₁ k₂ a₂ t' hk₁ hk₂ h₁ h₂
    rcases hinserted _ _ _ h₁ with ⟨hkk₁, haa₁, ht₁⟩ | hold₁
    · rcases hinserted _ _ _ h₂ with ⟨hkk₂, haa₂, -⟩ | hold₂
      · exact ⟨hkk₁.trans hkk₂.symm, haa₁.trans haa₂.symm⟩
      · exact absurd ht₁ ((htable (by omega)).2.2.1 _ _ _ hk₂ hold₂)
    · rcases hinserted _ _ _ h₂ with ⟨hkk₂, -, ht₂⟩ | hold₂
      · exact absurd ht₂ ((htable (by omega)).2.2.1 _ _ _ hk₁ hold₁)
      · exact h.distinct _ _ _ _ _ hk₁ hk₂ hold₁ hold₂

end Tree

/-! ## The walk follows the tree -/

section Walk

variable {m : ByteMemory} {pml4 t : BitVec 64} {node : TableTree} {k a i : Nat}

theorem follow_none (h : Holds m t.toNat i none) : follow m t.toNat i = none := by
  rw [follow, if_neg]
  simp only [Holds] at h
  simp [h]

theorem follow_some {u : BitVec 64} (h : Holds m t.toNat i (some u)) :
    ∃ e, follow m t.toNat i = some e ∧ LeadsTo e u := by
  refine ⟨entry m t.toNat i, ?_, h⟩
  rw [follow, if_pos h.present]

theorem follow_table (h : Backs m pml4 node) (hk : 1 ≤ k) (hk' : k < 4)
    (ht : node (k + 1) a = some t) (hi : i < 512) {u : BitVec 64}
    (hu : node k (a * 512 + i) = some u) :
    ∃ e, follow m t.toNat i = some e ∧ e.table = u.toNat := by
  have hentry := h.entries k a t i hk' ht hi
  rw [hu] at hentry
  obtain ⟨e, hfollow, hleads⟩ := follow_some hentry
  refine ⟨e, hfollow, ?_⟩
  rw [PageDirectoryEntry.table, hleads.address, h.frames _ _ _ hk hk' hu]

theorem walk_mapped (h : Backs m pml4 node) {v p : BitVec 64}
    (hleaf : node 0 (pageNumber v) = some p) :
    ∃ e, walk m pml4.toNat v = some e ∧ LeadsTo e p := by
  have hpage : pageNumber v < 2 ^ 36 := Nat.mod_lt _ (by norm_num)
  generalize hn : pageNumber v = n at *
  obtain ⟨t₁, h₁⟩ := h.closed 0 n p (by norm_num) hleaf
  obtain ⟨t₂, h₂⟩ := h.closed 1 _ t₁ (by norm_num) h₁
  obtain ⟨t₃, h₃⟩ := h.closed 2 _ t₂ (by norm_num) h₂
  obtain ⟨e₃, hfollow₃, htable₃⟩ := follow_table h (by norm_num) (by norm_num) h.root
    (by omega : n / 512 / 512 / 512 < 512)
    (by rw [show 0 * 512 + n / 512 / 512 / 512 = n / 512 / 512 / 512 by omega]; exact h₃)
  obtain ⟨e₂, hfollow₂, htable₂⟩ := follow_table h (by norm_num) (by norm_num) h₃
    (by omega : n / 512 / 512 % 512 < 512)
    (by rw [show n / 512 / 512 / 512 * 512 + n / 512 / 512 % 512 = n / 512 / 512 by omega]
        exact h₂)
  obtain ⟨e₁, hfollow₁, htable₁⟩ := follow_table h (by norm_num) (by norm_num) h₂
    (by omega : n / 512 % 512 < 512)
    (by rw [show n / 512 / 512 * 512 + n / 512 % 512 = n / 512 by omega]; exact h₁)
  have hentry := h.entries 0 _ t₁ (n % 512) (by norm_num) h₁ (by omega)
  rw [show n / 512 * 512 + n % 512 = n by omega, hleaf] at hentry
  obtain ⟨e, hfollow, hleads⟩ := follow_some hentry
  refine ⟨e, ?_, hleads⟩
  rw [walk, indexer_eq, hn]
  simp only [hfollow₃, Option.bind_some, htable₃, hfollow₂, htable₂, hfollow₁, htable₁,
    hfollow]

theorem walk_unmapped (h : Backs m pml4 node) {v : BitVec 64}
    (hleaf : node 0 (pageNumber v) = none) : walk m pml4.toNat v = none := by
  have hpage : pageNumber v < 2 ^ 36 := Nat.mod_lt _ (by norm_num)
  rw [walk, indexer_eq]
  generalize pageNumber v = n at *
  dsimp only
  have hroot := h.entries 3 0 pml4 (n / 512 / 512 / 512) (by norm_num) h.root (by omega)
  rw [show 0 * 512 + n / 512 / 512 / 512 = n / 512 / 512 / 512 by omega] at hroot
  cases h₃ : node 3 (n / 512 / 512 / 512) with
  | none =>
      rw [h₃] at hroot
      rw [follow_none hroot, Option.bind_none]
  | some t₃ =>
      obtain ⟨e₃, hfollow₃, htable₃⟩ := follow_table h (by norm_num) (by norm_num) h.root
        (by omega : n / 512 / 512 / 512 < 512)
        (by rw [show 0 * 512 + n / 512 / 512 / 512 = n / 512 / 512 / 512 by omega]; exact h₃)
      rw [hfollow₃, Option.bind_some, htable₃]
      have hentry₂ := h.entries 2 _ t₃ (n / 512 / 512 % 512) (by norm_num) h₃ (by omega)
      rw [show n / 512 / 512 / 512 * 512 + n / 512 / 512 % 512 = n / 512 / 512 by omega]
        at hentry₂
      cases h₂ : node 2 (n / 512 / 512) with
      | none =>
          rw [h₂] at hentry₂
          rw [follow_none hentry₂, Option.bind_none]
      | some t₂ =>
          obtain ⟨e₂, hfollow₂, htable₂⟩ := follow_table h (by norm_num) (by norm_num) h₃
            (by omega : n / 512 / 512 % 512 < 512)
            (by rw [show n / 512 / 512 / 512 * 512 + n / 512 / 512 % 512 = n / 512 / 512 by
                  omega]
                exact h₂)
          rw [hfollow₂, Option.bind_some, htable₂]
          have hentry₁ := h.entries 1 _ t₂ (n / 512 % 512) (by norm_num) h₂ (by omega)
          rw [show n / 512 / 512 * 512 + n / 512 % 512 = n / 512 by omega] at hentry₁
          cases h₁ : node 1 (n / 512) with
          | none =>
              rw [h₁] at hentry₁
              rw [follow_none hentry₁, Option.bind_none]
          | some t₁ =>
              obtain ⟨e₁, hfollow₁, htable₁⟩ := follow_table h (by norm_num) (by norm_num) h₂
                (by omega : n / 512 % 512 < 512)
                (by rw [show n / 512 / 512 * 512 + n / 512 % 512 = n / 512 by omega]
                    exact h₁)
              rw [hfollow₁, Option.bind_some, htable₁]
              have hentry := h.entries 0 _ t₁ (n % 512) (by norm_num) h₁ (by omega)
              rw [show n / 512 * 512 + n % 512 = n by omega, hleaf] at hentry
              exact follow_none hentry

end Walk

/-! ## What `MapMemory` does to the tree -/

/--
The first `count` answers of `RequestPage` are physical pages (aligned, of at
most 52 address bits), none of them the `PML4` and no two of them the same.
-/
def FreshPages (pages : Nat → Nat) (pml4 : BitVec 64) (count : Nat) : Prop :=
  ∀ k < count, pages k % 4096 = 0 ∧ pages k < 2 ^ 52 ∧ pages k ≠ pml4.toNat ∧
    ∀ j < k, pages j ≠ pages k

/-- The tables in memory after some requests: each is the `PML4` or was requested. -/
structure RunTree (pages : Nat → Nat) (pml4 : BitVec 64) (s : PageTables)
    (node : TableTree) : Prop where
  backs : Backs s.mem pml4 node
  requested : ∀ k a t, 1 ≤ k → node k a = some t →
    t = pml4 ∨ ∃ j < s.requests, t.toNat = pages j

section MapMemory

variable {pages : Nat → Nat} {pml4 t : BitVec 64} {s : PageTables} {node : TableTree}
  {k a i count : Nat}

theorem FreshPages.mono {count' : Nat} (h : FreshPages pages pml4 count')
    (hle : count ≤ count') : FreshPages pages pml4 count :=
  fun k hk => h k (by omega)

theorem nextTable_requests_le (table : Nat) :
    s.requests ≤ (nextTable pages s table i).2.requests := by
  unfold nextTable
  dsimp only
  split
  · exact Nat.le_succ _
  · exact Nat.le_refl _

theorem fresh_request (h : RunTree pages pml4 s node)
    (hpages : FreshPages pages pml4 (s.requests + 1)) :
    Fresh node (BitVec.ofNat 64 (pages s.requests)) := by
  obtain ⟨-, hlt, hroot, hothers⟩ := hpages s.requests (by omega)
  have hvalue : (BitVec.ofNat 64 (pages s.requests)).toNat = pages s.requests := by
    rw [BitVec.toNat_ofNat, Nat.mod_eq_of_lt (by omega)]
  rintro k a t hk ht rfl
  rcases h.requested _ _ _ hk ht with heq | ⟨j, hj, heq⟩
  · rw [← heq, hvalue] at hroot
    exact hroot rfl
  · rw [hvalue] at heq
    exact hothers j hj heq.symm

/--
One level down: the table below entry `i` is the one the tree has there, or a
new one; no other node changes.
-/
theorem nextTable_tree (h : RunTree pages pml4 s node) (hk : 1 ≤ k) (hk' : k < 4)
    (ht : node (k + 1) a = some t) (hi : i < 512)
    (hpages : FreshPages pages pml4 (nextTable pages s t.toNat i).2.requests) :
    ∃ node' u, RunTree pages pml4 (nextTable pages s t.toNat i).2 node' ∧
      node' k (a * 512 + i) = some u ∧ (nextTable pages s t.toNat i).1 = u.toNat ∧
      ∀ k' a', k' ≠ k ∨ a' ≠ a * 512 + i → node' k' a' = node k' a' := by
  have hentry := h.backs.entries k a t i hk' ht hi
  cases hbelow : node k (a * 512 + i) with
  | some u =>
      rw [hbelow] at hentry
      have hpresent : (entry s.mem t.toNat i).getFlag PTFlag.Present = true := hentry.present
      have hnext : nextTable pages s t.toNat i =
          (((entry s.mem t.toNat i).getAddress <<< 12).toNat, s) := by
        unfold nextTable
        dsimp only
        rw [if_neg (by simp [hpresent])]
      refine ⟨node, u, ?_, hbelow, ?_, fun _ _ _ => rfl⟩
      · rw [hnext]
        exact h
      · rw [hnext, getAddress_shift, hentry.address, h.backs.frames _ _ _ hk hk' hbelow]
  | none =>
      rw [hbelow] at hentry
      have habsent : (entry s.mem t.toNat i).getFlag PTFlag.Present = false := hentry
      have hnext : nextTable pages s t.toNat i = (pages s.requests,
          ⟨setEntry (s.mem.fill (pages s.requests) 0x1000 0) t.toNat i
            ((entry s.mem t.toNat i).mapping (BitVec.ofNat 64 (pages s.requests))),
            s.requests + 1⟩) := by
        unfold nextTable
        dsimp only
        rw [if_pos habsent]
        rfl
      rw [hnext] at hpages ⊢
      dsimp only at hpages ⊢
      have hfresh := fresh_request h hpages
      obtain ⟨haligned, hlt, -, -⟩ := hpages s.requests (by omega)
      generalize hq : BitVec.ofNat 64 (pages s.requests) = q at *
      have hvalue : q.toNat = pages s.requests := by
        rw [← hq, BitVec.toNat_ofNat, Nat.mod_eq_of_lt (by omega)]
      rw [← hvalue] at haligned
      have hfield : q &&& addressMask = q := by
        rw [← hq]
        exact and_addressMask (by omega) hlt
      have hcleared := backs_fill h.backs haligned hfresh
      refine ⟨node.insert k (a * 512 + i) q, q, ⟨?_, ?_⟩, TableTree.insert_same, hvalue.symm,
        fun _ _ hne => TableTree.insert_other hne⟩
      · rw [← hvalue]
        exact backs_setEntry hcleared hk' ht hi (leadsTo_mapping _ q)
          fun _ => ⟨hbelow, ⟨haligned, hfield⟩, hfresh, fun j hj => getFlag_entry_fill hj⟩
      · intro k' a' u hk'' hu
        by_cases hsame : k' = k ∧ a' = a * 512 + i
        · rw [hsame.1, hsame.2, TableTree.insert_same] at hu
          obtain rfl := Option.some.inj hu
          exact Or.inr ⟨s.requests, Nat.lt_succ_self _, hvalue⟩
        · rw [TableTree.insert_other (by omega)] at hu
          rcases h.requested _ _ _ hk'' hu with hroot | ⟨j, hj, heq⟩
          · exact Or.inl hroot
          · exact Or.inr ⟨j, Nat.lt_succ_of_lt hj, heq⟩

theorem mapMemory_requests_le (v p : BitVec 64) :
    s.requests ≤ (mapMemory pages pml4.toNat s v p).requests := by
  unfold mapMemory
  dsimp only
  exact le_trans (nextTable_requests_le _)
    (le_trans (nextTable_requests_le _) (nextTable_requests_le _))

theorem mapMemory_tree (h : RunTree pages pml4 s node) (v p : BitVec 64)
    (hpages : FreshPages pages pml4 (mapMemory pages pml4.toNat s v p).requests) :
    ∃ node', RunTree pages pml4 (mapMemory pages pml4.toNat s v p) node' ∧
      ∀ n, node' 0 n = if n = pageNumber v then some p else node 0 n := by
  have hpage : pageNumber v < 2 ^ 36 := Nat.mod_lt _ (by norm_num)
  unfold mapMemory at hpages ⊢
  rw [indexer_eq] at hpages ⊢
  dsimp only at hpages ⊢
  generalize pageNumber v = n at *
  have hle₃ := @nextTable_requests_le pages s (n / 512 / 512 / 512) pml4.toNat
  generalize h₃ : nextTable pages s pml4.toNat (n / 512 / 512 / 512) = step₃ at *
  have hle₂ := @nextTable_requests_le pages step₃.2 (n / 512 / 512 % 512) step₃.1
  generalize h₂ : nextTable pages step₃.2 step₃.1 (n / 512 / 512 % 512) = step₂ at *
  have hle₁ := @nextTable_requests_le pages step₂.2 (n / 512 % 512) step₂.1
  generalize h₁ : nextTable pages step₂.2 step₂.1 (n / 512 % 512) = step₁ at *
  -- three levels of tables, each with one more known of the way to page `n`
  obtain ⟨node₃, t₃, htree₃, hnode₃, htable₃, hkept₃⟩ :=
    nextTable_tree (i := n / 512 / 512 / 512) h (by norm_num) (by norm_num) h.backs.root
      (by omega) (by rw [h₃]; exact hpages.mono (le_trans hle₂ hle₁))
  rw [h₃] at htree₃ htable₃
  rw [show 0 * 512 + n / 512 / 512 / 512 = n / 512 / 512 / 512 by omega] at hnode₃
  rw [htable₃] at h₂
  obtain ⟨node₂, t₂, htree₂, hnode₂, htable₂, hkept₂⟩ :=
    nextTable_tree (i := n / 512 / 512 % 512) htree₃ (by norm_num) (by norm_num) hnode₃
      (by omega) (by rw [h₂]; exact hpages.mono hle₁)
  rw [h₂] at htree₂ htable₂
  rw [show n / 512 / 512 / 512 * 512 + n / 512 / 512 % 512 = n / 512 / 512 by omega] at hnode₂
  rw [htable₂] at h₁
  obtain ⟨node₁, t₁, htree₁, hnode₁, htable₁, hkept₁⟩ :=
    nextTable_tree (i := n / 512 % 512) htree₂ (by norm_num) (by norm_num) hnode₂
      (by omega) (by rw [h₁]; exact hpages)
  rw [h₁] at htree₁ htable₁
  rw [show n / 512 / 512 * 512 + n / 512 % 512 = n / 512 by omega] at hnode₁
  have hleaf := backs_setEntry htree₁.backs (by norm_num) hnode₁
    (by omega : n % 512 < 512) (leadsTo_mapping (entry step₁.2.mem t₁.toNat (n % 512)) p)
    (by omega)
  rw [show n / 512 * 512 + n % 512 = n by omega] at hleaf
  refine ⟨node₁.insert 0 n p, ⟨?_, ?_⟩, ?_⟩
  · rw [htable₁]
    exact hleaf
  · intro k a t hk ht
    rw [TableTree.insert_other (Or.inl (by omega))] at ht
    exact htree₁.requested _ _ _ hk ht
  · intro n'
    by_cases hsame : n' = n
    · rw [if_pos hsame, hsame, TableTree.insert_same]
    · rw [if_neg hsame, TableTree.insert_other (Or.inr hsame), hkept₁ _ _ (Or.inl (by omega)),
        hkept₂ _ _ (Or.inl (by omega)), hkept₃ _ _ (Or.inl (by omega))]

theorem runTree_zeroed {m : ByteMemory} {requests : Nat} (haligned : pml4.toNat % 4096 = 0)
    (hzero : ∀ x, pml4.toNat ≤ x → x < pml4.toNat + 0x1000 → m x = 0) :
    RunTree pages pml4 ⟨m, requests⟩
      (fun k a => if k = 4 ∧ a = 0 then some pml4 else none) := by
  have hnode : ∀ k a t, (if k = 4 ∧ a = 0 then some pml4 else none) = some t →
      k = 4 ∧ a = 0 ∧ t = pml4 := by
    intro k a t ht
    by_cases hroot : k = 4 ∧ a = 0
    · rw [if_pos hroot] at ht
      exact ⟨hroot.1, hroot.2, (Option.some.inj ht).symm⟩
    · rw [if_neg hroot] at ht
      contradiction
  have hcleared : m = m.fill pml4.toNat 0x1000 0 := by
    funext x
    by_cases hin : pml4.toNat ≤ x ∧ x < pml4.toNat + 0x1000
    · rw [ByteMemory.fill, if_pos hin, hzero x hin.1 hin.2]
    · rw [ByteMemory.fill, if_neg hin]
  constructor
  · constructor
    · exact if_pos ⟨rfl, rfl⟩
    · intro k a t i hk ht hi
      obtain ⟨-, -, rfl⟩ := hnode _ _ _ ht
      rw [if_neg (by omega), Holds, hcleared]
      exact getFlag_entry_fill hi
    · intro k a t hk ht
      have := (hnode _ _ _ ht).1
      omega
    · intro k a t hk ht
      rw [(hnode _ _ _ ht).2.2]
      exact haligned
    · intro k a t hk hk' ht
      have := (hnode _ _ _ ht).1
      omega
    · intro k a k' a' t hk hk' ht ht'
      obtain ⟨rfl, rfl, -⟩ := hnode _ _ _ ht
      obtain ⟨rfl, rfl, -⟩ := hnode _ _ _ ht'
      exact ⟨rfl, rfl⟩
  · intro k a t hk ht
    exact Or.inl (hnode _ _ _ ht).2.2

end MapMemory

/-! ## Runs -/

def mapAll (pages : Nat → Nat) (pml4 : Nat) (s : PageTables)
    (calls : List (BitVec 64 × BitVec 64)) : PageTables :=
  calls.foldl (fun s call => mapMemory pages pml4 s call.1 call.2) s

/-- The physical address of the last call for the page of `v`. -/
def lastMapped (calls : List (BitVec 64 × BitVec 64)) (v : BitVec 64) : Option (BitVec 64) :=
  (calls.reverse.find? fun call => pageNumber call.1 = pageNumber v).map Prod.snd

section Runs

variable {pages : Nat → Nat} {pml4 : BitVec 64} {s : PageTables} {node : TableTree}
  {calls : List (BitVec 64 × BitVec 64)} {v p : BitVec 64}

theorem mapAll_append {pml4 : Nat} : mapAll pages pml4 s (calls ++ [(v, p)]) =
    mapMemory pages pml4 (mapAll pages pml4 s calls) v p := by
  rw [mapAll, List.foldl_append]
  rfl

theorem lastMapped_append (u : BitVec 64) : lastMapped (calls ++ [(v, p)]) u =
    if pageNumber u = pageNumber v then some p else lastMapped calls u := by
  rw [lastMapped, List.reverse_append, List.reverse_singleton, List.singleton_append,
    List.find?_cons]
  by_cases hsame : pageNumber u = pageNumber v
  · simp [hsame]
  · have hsame' : ¬ pageNumber v = pageNumber u := fun heq => hsame heq.symm
    simp [hsame, hsame', lastMapped]

theorem mapAll_tree (h : RunTree pages pml4 s node) (hempty : ∀ n, node 0 n = none)
    (hpages : FreshPages pages pml4 (mapAll pages pml4.toNat s calls).requests) :
    ∃ node', RunTree pages pml4 (mapAll pages pml4.toNat s calls) node' ∧
      ∀ v, node' 0 (pageNumber v) = lastMapped calls v := by
  induction calls using List.reverseRecOn with
  | nil =>
      refine ⟨node, h, fun v => ?_⟩
      rw [hempty]
      rfl
  | append_singleton calls call ih =>
      obtain ⟨v, p⟩ := call
      rw [mapAll_append] at hpages ⊢
      obtain ⟨node₁, htree₁, hleaf₁⟩ := ih (hpages.mono (mapMemory_requests_le v p))
      obtain ⟨node₂, htree₂, hleaf₂⟩ := mapMemory_tree htree₁ v p hpages
      refine ⟨node₂, htree₂, fun u => ?_⟩
      rw [hleaf₂, lastMapped_append, hleaf₁]

/-- The walk of `v` ends in a writable leaf for the page of `p`, or nowhere. -/
def Translates (m : ByteMemory) (pml4 : BitVec 64) (v : BitVec 64) : Option (BitVec 64) → Prop
  | some p => ∃ e, walk m pml4.toNat v = some e ∧ LeadsTo e p
  | none => walk m pml4.toNat v = none

def translation (m : ByteMemory) (pml4 : Nat) (v : BitVec 64) : Option (BitVec 64) :=
  (walk m pml4 v).map fun e => e.value &&& addressMask

theorem Translates.translation_eq {m : ByteMemory} {page : Option (BitVec 64)}
    (h : Translates m pml4 v page) :
    translation m pml4.toNat v = page.map fun p => p &&& addressMask := by
  cases page with
  | some p =>
      obtain ⟨e, hwalk, hleads⟩ := h
      rw [translation, hwalk, Option.map_some, Option.map_some, hleads.address]
  | none =>
      have hwalk : walk m pml4.toNat v = none := h
      rw [translation, hwalk, Option.map_none, Option.map_none]

theorem translates_mapAll {m : ByteMemory} (haligned : pml4.toNat % 4096 = 0)
    (hzero : ∀ x, pml4.toNat ≤ x → x < pml4.toNat + 0x1000 → m x = 0)
    (hpages : FreshPages pages pml4 (mapAll pages pml4.toNat ⟨m, 0⟩ calls).requests)
    (v : BitVec 64) :
    Translates (mapAll pages pml4.toNat ⟨m, 0⟩ calls).mem pml4 v (lastMapped calls v) := by
  obtain ⟨node, htree, hleaves⟩ := mapAll_tree (runTree_zeroed haligned hzero)
    (fun n => if_neg (by omega)) hpages
  have hleaf := hleaves v
  cases hlast : lastMapped calls v with
  | some p =>
      rw [hlast] at hleaf
      exact walk_mapped htree.backs hleaf
  | none =>
      rw [hlast] at hleaf
      exact walk_unmapped htree.backs hleaf

/--
Every virtual address translates to the page of the last call for it, by a
present and writable leaf, and to nothing when there was none; and the last
call changes the translation of no other page.
-/
theorem mapAll_correct {m : ByteMemory} (haligned : pml4.toNat % 4096 = 0)
    (hzero : ∀ x, pml4.toNat ≤ x → x < pml4.toNat + 0x1000 → m x = 0)
    (hpages : FreshPages pages pml4 (mapAll pages pml4.toNat ⟨m, 0⟩ calls).requests) :
    (∀ v, Translates (mapAll pages pml4.toNat ⟨m, 0⟩ calls).mem pml4 v (lastMapped calls v)) ∧
    ∀ earlier v p, calls = earlier ++ [(v, p)] → ∀ u, pageNumber u ≠ pageNumber v →
      translation (mapAll pages pml4.toNat ⟨m, 0⟩ calls).mem pml4.toNat u =
        translation (mapAll pages pml4.toNat ⟨m, 0⟩ earlier).mem pml4.toNat u := by
  refine ⟨translates_mapAll haligned hzero hpages, ?_⟩
  rintro earlier v p rfl u hother
  have hafter := translates_mapAll haligned hzero hpages u
  rw [mapAll_append] at hpages
  have hbefore := translates_mapAll haligned hzero (hpages.mono (mapMemory_requests_le v p)) u
  rw [hafter.translation_eq, hbefore.translation_eq, lastMapped_append, if_neg hother]

/-- Two calls for pages under one table, and one that remaps the first page. -/
def remapping : List (BitVec 64 × BitVec 64) :=
  [(0xdeadb000, 0x5123), (0xdeadc000, 0x6000), (0xdeadbfff, 0x7000)]

theorem mapAll_correct_remapping :
    let s := mapAll (fun k => 0x1000 * (k + 2)) 0x1000 ⟨fun _ => 0, 0⟩ remapping
    FreshPages (fun k => 0x1000 * (k + 2)) 0x1000 s.requests ∧
      (∀ v, Translates s.mem 0x1000 v (lastMapped remapping v)) ∧
      lastMapped remapping 0xdeadb000 = some 0x7000 := by
  have hrequests : (mapAll (fun k => 0x1000 * (k + 2)) 0x1000 ⟨fun _ => 0, 0⟩
      remapping).requests = 3 := by decide +kernel
  have hpages : FreshPages (fun k => 0x1000 * (k + 2)) 0x1000
      (mapAll (fun k => 0x1000 * (k + 2)) (0x1000 : BitVec 64).toNat ⟨fun _ => 0, 0⟩
        remapping).requests := by
    have h3 : FreshPages (fun k => 0x1000 * (k + 2)) 0x1000 3 := by
      have hroot : (0x1000 : BitVec 64).toNat = 0x1000 := by decide
      intro k hk
      dsimp only
      rw [hroot]
      exact ⟨by omega, by omega, by omega, fun j hj => by omega⟩
    exact hrequests ▸ h3
  exact ⟨hpages, (mapAll_correct (by decide) (fun _ _ _ => rfl) hpages).1, by decide⟩

end Runs

end UnifiedOS.Paging
