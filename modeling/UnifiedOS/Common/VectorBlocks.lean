import UnifiedOS.Common.VectorRefinement
import UnifiedOS.Foundation.BlockLedger

/-!
# The blocks of a vector

A vector that grows obtains a new block and gives the old one back.  At any time
it holds one block at most, and the blocks of others stay as they are.
-/

namespace UnifiedOS.Common

open UnifiedOS.Foundation

/-- A vector in a ledger: the block behind `data`, and the sizes that decide when it grows. -/
structure VectorBlocks where
  data : Option Nat
  count : Nat
  capacity : Nat

namespace VectorBlocks

def empty : VectorBlocks := ⟨none, 0, 0⟩

def blocks (v : VectorBlocks) : List Nat := v.data.toList

def ensureCapacity (v : VectorBlocks) (size : Nat) (l : Ledger) : VectorBlocks × Ledger :=
  if v.capacity ≤ size then
    ({ v with data := some l.malloc.1, capacity := wrap64 (v.capacity + wrap32 (2 * size) + 1) },
      match v.data with
      | none => l.malloc.2
      | some oldData => l.malloc.2.free oldData)
  else (v, l)

def addBack (v : VectorBlocks) (l : Ledger) : VectorBlocks × Ledger :=
  let ensured := v.ensureCapacity (wrap32 (v.count + 1)) l
  ({ ensured.1 with count := wrap64 (ensured.1.count + 1) }, ensured.2)

/-! ## The sizes are those of the vector -/

section Sizes

variable {α : Type*} [Inhabited α] (T : ElementType)

theorem vector_ensureCapacity_sizes (v : Vector α) (size : Nat) :
    (v.ensureCapacity T size).count = v.count ∧
      (v.ensureCapacity T size).capacity =
        if v.capacity ≤ size then wrap64 (v.capacity + wrap32 (2 * size) + 1) else v.capacity := by
  by_cases hgrow : v.capacity ≤ size
  · simp only [Vector.ensureCapacity, if_pos hgrow]
    refine ⟨?_, trivial⟩
    split
    · rfl
    · split
      · exact ((Vector.copyFrom_frame _ _ _).trans (Vector.write_frame _ _ _ _)).count
      · exact ((Vector.copyFrom_frame _ _ _).trans (Vector.write_frame _ _ _ _)).count
  · simp only [Vector.ensureCapacity, if_neg hgrow, and_self]

theorem ensureCapacity_sizes (v : VectorBlocks) (size : Nat) (l : Ledger) :
    (v.ensureCapacity size l).1.count = v.count ∧
      (v.ensureCapacity size l).1.capacity =
        if v.capacity ≤ size then wrap64 (v.capacity + wrap32 (2 * size) + 1) else v.capacity := by
  by_cases hgrow : v.capacity ≤ size
  · simp only [ensureCapacity, if_pos hgrow, and_self]
  · simp only [ensureCapacity, if_neg hgrow, and_self]

theorem addBack_sizes {v : VectorBlocks} {vector : Vector α} (l : Ledger) (val : α)
    (hcount : v.count = vector.count) (hcapacity : v.capacity = vector.capacity) :
    (v.addBack l).1.count = (vector.addBack T val).1.count ∧
      (v.addBack l).1.capacity = (vector.addBack T val).1.capacity := by
  obtain ⟨hcount', hcapacity'⟩ :=
    vector_ensureCapacity_sizes T vector.acquireLock (wrap32 (vector.count + 1))
  obtain ⟨hcount'', hcapacity''⟩ := v.ensureCapacity_sizes (wrap32 (v.count + 1)) l
  have hframe := fun v : Vector α => Vector.put_frame v
    (vector.acquireLock.ensureCapacity T (wrap32 (vector.count + 1))).count (some val)
  constructor
  · refine Eq.trans ?_ (hframe _).count.symm
    change wrap64 ((v.ensureCapacity (wrap32 (v.count + 1)) l).1.count + 1) = wrap64 (_ + 1)
    rw [hcount', hcount'', hcount]
    rfl
  · refine Eq.trans ?_ (hframe _).capacity.symm
    change (v.ensureCapacity (wrap32 (v.count + 1)) l).1.capacity =
      (vector.acquireLock.ensureCapacity T (wrap32 (vector.count + 1))).capacity
    rw [hcapacity', hcapacity'', hcount, hcapacity]
    rfl

end Sizes

/-! ## Its own block and those of others -/

section Blocks

variable {v : VectorBlocks} {l l' : Ledger} {b : Nat}

theorem addBack_cases (v : VectorBlocks) (l : Ledger) :
    ((v.addBack l).2 = l ∧ (v.addBack l).1.data = v.data) ∨
      ((v.addBack l).1.data = some l.next ∧
        (v.addBack l).2.next = l.next + 1 ∧
          ∀ b, b ∈ (v.addBack l).2.live ↔ b = l.next ∧ v.data ≠ some b ∨
            b ∈ l.live ∧ v.data ≠ some b) := by
  unfold addBack ensureCapacity
  split
  · right
    cases hdata : v.data with
    | none => exact ⟨rfl, rfl, fun b => by simp⟩
    | some oldData =>
        refine ⟨rfl, rfl, fun b => ?_⟩
        simp only [Ledger.mem_live_free, Ledger.mem_live_malloc, ne_eq, Option.some.injEq]
        tauto
  · exact .inl ⟨rfl, rfl⟩

theorem addBack_apart (hlive : b ∈ l.live) (hother : b ∉ v.blocks) :
    b ∈ (v.addBack l).2.live ∧ b ∉ (v.addBack l).1.blocks := by
  rw [blocks, Option.mem_toList] at hother
  rcases v.addBack_cases l with ⟨hledger, hdata⟩ | ⟨hdata, -, hlive'⟩
  · rw [hledger, blocks, hdata, Option.mem_toList]
    exact ⟨hlive, hother⟩
  · rw [blocks, hdata, Option.mem_toList, hlive']
    exact ⟨.inr ⟨hlive, hother⟩, fun h => Ledger.live_ne_next hlive (Option.some.inj h).symm⟩

structure Holds (l : Ledger) (others : List Nat) (v : VectorBlocks) (l' : Ledger) : Prop where
  later : l.next ≤ l'.next
  kept : ∀ b ∈ l.kept l', b ∈ others ∨ b ∈ v.blocks
  others_live : ∀ b ∈ others, b ∈ l'.live ∧ b ∉ v.blocks

theorem Holds.addBack {others : List Nat} (h : Holds l others v l') :
    Holds l others (v.addBack l').1 (v.addBack l').2 := by
  rcases v.addBack_cases l' with ⟨hledger, hdata⟩ | ⟨hdata, hnext, hlive⟩
  · have hblocks : (v.addBack l').1.blocks = v.blocks := by rw [blocks, hdata, blocks]
    rw [hledger]
    exact ⟨h.later, hblocks ▸ h.kept, hblocks ▸ h.others_live⟩
  · refine ⟨hnext ▸ Nat.le_succ_of_le h.later, fun b hb => ?_,
      fun b hb => addBack_apart (h.others_live b hb).1 (h.others_live b hb).2⟩
    obtain ⟨hmem, hle⟩ := Ledger.mem_kept.mp hb
    rcases (hlive b).mp hmem with ⟨rfl, -⟩ | ⟨hold, hother⟩
    · exact .inr (by rw [blocks, hdata]; exact List.mem_singleton_self _)
    · refine .inl ((h.kept b (Ledger.mem_kept.mpr ⟨hold, hle⟩)).resolve_right fun hmem => ?_)
      rw [blocks, Option.mem_toList] at hmem
      exact hother hmem

theorem Holds.foldl_addBack {α : Type*} {others : List Nat} (items : List α)
    (h : Holds l others v l') :
    Holds l others (items.foldl (fun s _ => s.1.addBack s.2) (v, l')).1
      (items.foldl (fun s _ => s.1.addBack s.2) (v, l')).2 := by
  induction items generalizing v l' with
  | nil => exact h
  | cons item items ih => exact ih h.addBack

end Blocks

end VectorBlocks

end UnifiedOS.Common
