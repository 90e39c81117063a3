import UnifiedOS.Foundation.RadixGraph
import UnifiedOS.Paging.Translation
import Mathlib.Data.Fintype.Card

/-!
# Page tables as a graph of frames

The present entries of the tables in memory make every frame a node with 512
links.  The walk of the processor is `lookup` in this graph with four keys, and
`MapMemory` is `insertPath`, with `RequestPage` as the supply.  Nothing is assumed of
the tables here, nor of the pages beyond alignment and width.
-/

namespace UnifiedOS.Paging

open UnifiedOS.Foundation
open RadixGraph PageDirectoryEntry

/-- Entry `i` of the table in frame `n` leads to a frame if it is present. -/
def tableGraph (m : ByteMemory) : RadixGraph Nat (Fin 512) := fun n i =>
  if (entry m (4096 * n) i).getFlag PTFlag.Present then
    some (entry m (4096 * n) i).getAddress.toNat
  else none

def pageKeys (v : BitVec 64) : List (Fin 512) :=
  let indexer := PageMapIndexer.ofAddress v
  [Fin.ofNat 512 indexer.pdpI, Fin.ofNat 512 indexer.pdI, Fin.ofNat 512 indexer.ptI,
    Fin.ofNat 512 indexer.pI]

def framesOf (pages : Nat → Nat) : Nat → Nat := fun k => pages k / 4096

def frameOf (p : BitVec 64) : Nat := p.toNat / 4096 % 2 ^ 40

def IsPage (pages : Nat → Nat) (k : Nat) : Prop := pages k % 4096 = 0 ∧ pages k < 2 ^ 52

section Entries

variable {m : ByteMemory} {n q : Nat} {i : Fin 512} {e : PageDirectoryEntry} {p v : BitVec 64}

theorem toNat_getAddress_mapping (e : PageDirectoryEntry) (p : BitVec 64) :
    (e.mapping p).getAddress.toNat = frameOf p := by
  rw [mapping, getAddress_setFlag, getAddress_setFlag, toNat_getAddress_setAddress,
    BitVec.toNat_ushiftRight, Nat.shiftRight_eq_div_pow, frameOf]

theorem frameOf_page (haligned : q % 4096 = 0) (hlt : q < 2 ^ 52) :
    frameOf (BitVec.ofNat 64 q) = q / 4096 := by
  rw [frameOf, BitVec.toNat_ofNat, Nat.mod_eq_of_lt (by omega), Nat.mod_eq_of_lt (by omega)]

theorem toNat_getAddress_lt (e : PageDirectoryEntry) : e.getAddress.toNat < 2 ^ 40 := by
  apply Nat.lt_pow_two_of_testBit
  intro i hi
  rw [BitVec.testBit_toNat]
  by_cases hbit : i < 64
  · rw [getLsbD_getAddress hbit]
    simp [Nat.not_lt.mpr hi]
  · exact BitVec.getLsbD_of_ge _ _ (Nat.le_of_not_lt hbit)

theorem table_eq (e : PageDirectoryEntry) : e.table = 4096 * e.getAddress.toNat := by
  have hlt := toNat_getAddress_lt e
  rw [PageDirectoryEntry.table, ← getAddress_shift, BitVec.toNat_shiftLeft,
    Nat.shiftLeft_eq, Nat.mod_eq_of_lt (by omega), Nat.mul_comm]

theorem tableGraph_setEntry (hpresent : e.getFlag PTFlag.Present = true) :
    tableGraph (setEntry m (4096 * n) i e) =
      link (tableGraph m) n i e.getAddress.toNat := by
  funext x j
  have hj := j.isLt
  by_cases hsame : x = n ∧ j = i
  · obtain ⟨rfl, rfl⟩ := hsame
    rw [link, if_pos ⟨rfl, rfl⟩, tableGraph, entry_setEntry_same, if_pos hpresent]
  · have hapart : 4096 * n + 8 * i + 8 ≤ 4096 * x + 8 * j ∨
        4096 * x + 8 * j + 8 ≤ 4096 * n + 8 * i := by
      have hi := i.isLt
      have hne : x ≠ n ∨ j.val ≠ i.val := by
        by_contra hboth
        push Not at hboth
        exact hsame ⟨hboth.1, Fin.ext hboth.2⟩
      omega
    rw [link, if_neg hsame, tableGraph, entry_setEntry_other hapart]
    rfl

theorem tableGraph_fill : tableGraph (m.fill (4096 * q) 0x1000 0) = clear (tableGraph m) q := by
  funext x j
  rw [clear, tableGraph]
  by_cases hx : x = q
  · rw [if_pos hx, hx, if_neg (by rw [getFlag_entry_fill j.isLt]; decide)]
  · rw [if_neg hx, entry_fill_other j.isLt (by omega)]
    rfl

end Entries

/-! ## `MapMemory` is an insertion -/

section MapMemory

variable {pages : Nat → Nat} {s : PageTables} {n r i : Nat}

theorem nextTable_ensure (hi : i < 512) (hpage : IsPage pages s.requests) :
    ∃ child g used, ensure (framesOf pages) (tableGraph s.mem) s.requests n (Fin.ofNat 512 i) =
        (child, g, used) ∧
      (nextTable pages s (4096 * n) i).1 = 4096 * child ∧
      tableGraph (nextTable pages s (4096 * n) i).2.mem = g ∧
      (nextTable pages s (4096 * n) i).2.requests = used ∧
      s.requests ≤ used ∧ used ≤ s.requests + 1 := by
  have hkey : (Fin.ofNat 512 i).val = i := by
    rw [Fin.val_ofNat, Nat.mod_eq_of_lt hi]
  by_cases hpresent : (entry s.mem (4096 * n) i).getFlag PTFlag.Present = true
  · have hlink : tableGraph s.mem n (Fin.ofNat 512 i) =
        some (entry s.mem (4096 * n) i).getAddress.toNat := by
      rw [tableGraph, hkey, if_pos hpresent]
    have hnext : nextTable pages s (4096 * n) i =
        (((entry s.mem (4096 * n) i).getAddress <<< 12).toNat, s) := by
      unfold nextTable
      dsimp only
      rw [if_neg (by simp [hpresent])]
    refine ⟨_, _, _, by rw [ensure, hlink], ?_, by rw [hnext], by rw [hnext], Nat.le_refl _,
      Nat.le_succ _⟩
    rw [hnext, getAddress_shift]
    exact table_eq _
  · have hlink : tableGraph s.mem n (Fin.ofNat 512 i) = none := by
      rw [tableGraph, hkey, if_neg hpresent]
    have hnext : nextTable pages s (4096 * n) i = (pages s.requests,
        ⟨setEntry (s.mem.fill (pages s.requests) 0x1000 0) (4096 * n) i
          ((entry s.mem (4096 * n) i).mapping (BitVec.ofNat 64 (pages s.requests))),
          s.requests + 1⟩) := by
      unfold nextTable
      dsimp only
      rw [if_pos (by simpa using hpresent)]
      rfl
    have hframe : pages s.requests = 4096 * framesOf pages s.requests := by
      have haligned := hpage.1
      unfold framesOf
      omega
    refine ⟨_, _, _, by rw [ensure, hlink], by rw [hnext, ← hframe], ?_, by rw [hnext],
      Nat.le_succ _, Nat.le_refl _⟩
    rw [hnext]
    dsimp only
    have hset := tableGraph_setEntry (m := s.mem.fill (pages s.requests) 0x1000 0) (n := n)
      (i := Fin.ofNat 512 i)
      (leadsTo_mapping (entry s.mem (4096 * n) i) (BitVec.ofNat 64 (pages s.requests))).present
    rw [hkey, toNat_getAddress_mapping, frameOf_page hpage.1 hpage.2] at hset
    rw [hset, hframe, tableGraph_fill]
    rw [← hframe]
    rfl

theorem tableGraph_mapMemory (v p : BitVec 64)
    (hpages : ∀ k, s.requests ≤ k → k < s.requests + 3 → IsPage pages k) :
    tableGraph (mapMemory pages (4096 * r) s v p).mem =
      insertPath (framesOf pages) (frameOf p) (tableGraph s.mem) s.requests r (pageKeys v) := by
  have hpage : pageNumber v < 2 ^ 36 := Nat.mod_lt _ (by norm_num)
  unfold mapMemory pageKeys
  rw [indexer_eq]
  dsimp only
  generalize pageNumber v = n at *
  obtain ⟨t₃, g₃, u₃, hensure₃, htable₃, hgraph₃, hused₃, hlo₃, hhi₃⟩ :=
    nextTable_ensure (n := r) (i := n / 512 / 512 / 512) (by omega)
      (hpages s.requests (by omega) (by omega))
  generalize nextTable pages s (4096 * r) (n / 512 / 512 / 512) = step₃ at *
  obtain ⟨t₂, g₂, u₂, hensure₂, htable₂, hgraph₂, hused₂, hlo₂, hhi₂⟩ :=
    nextTable_ensure (s := step₃.2) (n := t₃) (i := n / 512 / 512 % 512) (by omega)
      (hpages _ (by omega) (by omega))
  rw [← htable₃] at htable₂ hgraph₂ hused₂
  generalize nextTable pages step₃.2 step₃.1 (n / 512 / 512 % 512) = step₂ at *
  obtain ⟨t₁, g₁, u₁, hensure₁, htable₁, hgraph₁, hused₁, hlo₁, hhi₁⟩ :=
    nextTable_ensure (s := step₂.2) (n := t₂) (i := n / 512 % 512) (by omega)
      (hpages _ (by omega) (by omega))
  rw [← htable₂] at htable₁ hgraph₁ hused₁
  generalize nextTable pages step₂.2 step₂.1 (n / 512 % 512) = step₁ at *
  rw [hgraph₃, hused₃] at hensure₂
  rw [hgraph₂, hused₂] at hensure₁
  rw [insertPath_ensure hensure₃, insertPath_ensure hensure₂, insertPath_ensure hensure₁,
    insertPath, ← hgraph₁, htable₁]
  have hleaf := tableGraph_setEntry (m := step₁.2.mem) (n := t₁) (i := Fin.ofNat 512 (n % 512))
    (leadsTo_mapping (entry step₁.2.mem (4096 * t₁) (n % 512)) p).present
  rw [toNat_getAddress_mapping, Fin.val_ofNat, Nat.mod_mod] at hleaf
  exact hleaf

end MapMemory

/-! ## The walk is a lookup -/

section Walk

variable {m : ByteMemory} {n r i : Nat} {u v : BitVec 64} {a b c d : Fin 512}

theorem bind_follow {α : Type} (hi : i < 512) (next : Nat → Option α) :
    ((follow m (4096 * n) i).bind fun e => next e.table) =
      (tableGraph m n (Fin.ofNat 512 i)).bind fun x => next (4096 * x) := by
  rw [follow, tableGraph, Fin.val_ofNat, Nat.mod_eq_of_lt hi]
  split
  · rw [Option.bind_some, Option.bind_some, table_eq]
  · rfl

theorem address_eq (e : PageDirectoryEntry) :
    e.value &&& addressMask = BitVec.ofNat 64 (4096 * e.getAddress.toNat) := by
  rw [← table_eq, PageDirectoryEntry.table, BitVec.ofNat_toNat, BitVec.setWidth_eq]

/-- The frame a page is mapped to is where its four indices lead. -/
theorem translation_eq (m : ByteMemory) (r : Nat) (v : BitVec 64) :
    translation m (4096 * r) v =
      (lookup (tableGraph m) r (pageKeys v)).map fun n => BitVec.ofNat 64 (4096 * n) := by
  have hpage : pageNumber v < 2 ^ 36 := Nat.mod_lt _ (by norm_num)
  have hleaf : ∀ n i, i < 512 → (follow m (4096 * n) i).map (fun e => e.value &&& addressMask) =
      (tableGraph m n (Fin.ofNat 512 i)).map fun n => BitVec.ofNat 64 (4096 * n) := by
    intro n i hi
    rw [follow, tableGraph, Fin.val_ofNat, Nat.mod_eq_of_lt hi]
    split
    · rw [Option.map_some, Option.map_some, address_eq]
    · rfl
  rw [translation, walk, pageKeys, indexer_eq]
  dsimp only
  generalize pageNumber v = n at *
  rw [bind_follow (by omega) fun t => (follow m t (n / 512 / 512 % 512)).bind fun e₂ =>
    (follow m e₂.table (n / 512 % 512)).bind fun e₁ => follow m e₁.table (n % 512)]
  cases h₃ : tableGraph m r (Fin.ofNat 512 (n / 512 / 512 / 512)) with
  | none => rw [lookup_cons_none h₃, Option.bind_none, Option.map_none, Option.map_none]
  | some t₃ =>
      rw [lookup_cons_some h₃, Option.bind_some, bind_follow (by omega) fun t =>
        (follow m t (n / 512 % 512)).bind fun e₁ => follow m e₁.table (n % 512)]
      cases h₂ : tableGraph m t₃ (Fin.ofNat 512 (n / 512 / 512 % 512)) with
      | none => rw [lookup_cons_none h₂, Option.bind_none, Option.map_none, Option.map_none]
      | some t₂ =>
          rw [lookup_cons_some h₂, Option.bind_some,
            bind_follow (by omega) fun t => follow m t (n % 512)]
          cases h₁ : tableGraph m t₂ (Fin.ofNat 512 (n / 512 % 512)) with
          | none => rw [lookup_cons_none h₁, Option.bind_none, Option.map_none, Option.map_none]
          | some t₁ =>
              rw [lookup_cons_some h₁, Option.bind_some, hleaf t₁ _ (by omega)]
              cases h₀ : tableGraph m t₁ (Fin.ofNat 512 (n % 512)) with
              | none => rw [lookup_cons_none h₀, Option.map_none]
              | some t₀ => rw [lookup_cons_some h₀, lookup_nil]

theorem length_pageKeys (v : BitVec 64) : (pageKeys v).length = 4 := rfl

theorem pageKeys_inj : pageKeys u = pageKeys v ↔ pageNumber u = pageNumber v := by
  have hu : pageNumber u < 2 ^ 36 := Nat.mod_lt _ (by norm_num)
  have hv : pageNumber v < 2 ^ 36 := Nat.mod_lt _ (by norm_num)
  rw [pageKeys, pageKeys, indexer_eq, indexer_eq]
  simp only [List.cons.injEq, Fin.ext_iff, Fin.val_ofNat, and_true]
  omega

theorem exists_pageKeys (a b c d : Fin 512) : ∃ u, pageKeys u = [a, b, c, d] := by
  refine ⟨BitVec.ofNat 64 (4096 * (((a.val * 512 + b) * 512 + c) * 512 + d)), ?_⟩
  have hpage : pageNumber (BitVec.ofNat 64 (4096 * (((a.val * 512 + b) * 512 + c) * 512 + d))) =
      ((a.val * 512 + b) * 512 + c) * 512 + d := by
    rw [pageNumber, BitVec.toNat_ofNat]
    omega
  rw [pageKeys, indexer_eq, hpage]
  simp only [List.cons.injEq, Fin.ext_iff, Fin.val_ofNat, and_true]
  omega

end Walk

end UnifiedOS.Paging
