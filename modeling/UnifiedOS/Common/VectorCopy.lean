import UnifiedOS.Common.VectorRefinement

/-!
# Copies of a vector

The copy constructor obtains a block and assigns the elements, but the count
stays at its default.  Two vectors share a memory, where each has a block of its
own and every operation keeps to the block of its vector.
-/

namespace UnifiedOS.Common

open UnifiedOS.Foundation UnifiedOS.Common.Vector

variable {α : Type*}

/-- `Vector(const Vector& x)`; `none` if its loop never ends. -/
def Vector.copy [Inhabited α] (T : ElementType) (x : Vector α) : Option (Vector α) :=
  forUnsigned 0 x.count
    (fun i v =>
      let assigned := v.put i (x.cell i)
      { assigned with overrun := assigned.overrun || !decide (i < x.slots) })
    (Vector.empty.ensureCapacity T (wrap32 x.count))

structure BlockMemory (α : Type*) where
  block : Nat → Option (Block α)
  next : Nat
  /-- Some access went outside the block of its vector. -/
  overrun : Bool

/-- The members of a vector, with `data` an address. -/
structure VectorObject where
  data : Option Nat
  count : Nat
  capacity : Nat
  lock : BitVec 32

namespace VectorObject

def empty : VectorObject := ⟨none, 0, 0, 0⟩

end VectorObject

def Operation.moves (v : Vector α) : Operation α → Bool
  | .addBack _ => decide (v.capacity ≤ wrap32 (v.count + 1))
  | .resize newSize => decide (v.capacity ≤ wrap32 newSize.toNat)
  | .reserve allocatedSize => decide (v.capacity ≤ wrap32 allocatedSize.toNat)
  | _ => false

namespace BlockMemory

def load (m : BlockMemory α) (x : VectorObject) : Vector α :=
  ⟨x.data.bind m.block, x.count, x.capacity, x.lock, false⟩

def freed (m : BlockMemory α) (x : VectorObject) : Nat → Option (Block α) :=
  match x.data with
  | none => m.block
  | some old => Function.update m.block old none

def address (m : BlockMemory α) (x : VectorObject) (moved : Bool) : Nat :=
  if moved then m.next else x.data.getD m.next

def store (m : BlockMemory α) (x : VectorObject) (v : Vector α) (moved : Bool) :
    BlockMemory α × VectorObject :=
  match v.data with
  | none => (⟨m.freed x, m.next, m.overrun || v.overrun⟩, ⟨none, v.count, v.capacity, v.lock⟩)
  | some block =>
      (⟨Function.update (m.freed x) (m.address x moved) (some block), m.next + 1,
          m.overrun || v.overrun⟩,
        ⟨some (m.address x moved), v.count, v.capacity, v.lock⟩)

variable [Inhabited α]

def apply [BEq α] (T : ElementType) (m : BlockMemory α) (op : Operation α) (x : VectorObject) :
    Option (BlockMemory α × VectorObject) := do
  let v ← op.apply T (m.load x)
  return m.store x v (op.moves (m.load x))

def copy (T : ElementType) (m : BlockMemory α) (x : VectorObject) :
    Option (BlockMemory α × VectorObject) := do
  let v ← (m.load x).copy T
  return m.store VectorObject.empty v true

end BlockMemory

inductive Side where
  | original
  | copy
  deriving DecidableEq

structure VectorPair (α : Type*) where
  memory : BlockMemory α
  original : VectorObject
  copy : VectorObject

namespace VectorPair

section Runs

variable [Inhabited α] [BEq α]

def apply (T : ElementType) (s : VectorPair α) : Side × Operation α → Option (VectorPair α)
  | (.original, op) => do
      let (memory, x) ← s.memory.apply T op s.original
      return ⟨memory, x, s.copy⟩
  | (.copy, op) => do
      let (memory, x) ← s.memory.apply T op s.copy
      return ⟨memory, s.original, x⟩

def run (T : ElementType) (s : VectorPair α) (ops : List (Side × Operation α)) :
    Option (VectorPair α) :=
  ops.foldlM (apply T) s

end Runs

def operationsOn (side : Side) (ops : List (Side × Operation α)) : List (Operation α) :=
  ops.filterMap fun op => if op.1 = side then some op.2 else none

def resultOn [Inhabited α] [BEq α] (side : Side) (l : List α) (ops : List (Side × Operation α)) :
    List α :=
  (operationsOn side ops).foldl (fun l op => op.onList l) l

def originalContents (s : VectorPair α) : List (Option α) :=
  (s.memory.load s.original).contents

def copyContents (s : VectorPair α) : List (Option α) :=
  (s.memory.load s.copy).contents

/--
Whatever follows, each of the two vectors holds what its own operations make of
the list, and nothing outside their blocks is accessed.
-/
def Independent [Inhabited α] [BEq α] (T : ElementType) (s : VectorPair α) (l : List α) : Prop :=
  ∀ ops, Admissible l (operationsOn .original ops) → Admissible l (operationsOn .copy ops) →
    (∀ op ∈ ops, op.2.Sized) → ∃ s', s.run T ops = some s' ∧
      s'.originalContents = (resultOn .original l ops).map some ∧
      s'.copyContents = (resultOn .copy l ops).map some ∧
      s'.memory.overrun = s.memory.overrun

end VectorPair

/-- The copy has the size and the elements of the vector, and the two are independent. -/
def CopyPreserves [Inhabited α] [BEq α] (T : ElementType) (m : BlockMemory α)
    (x : VectorObject) (l : List α) : Prop :=
  ∃ m' y, m.copy T x = some (m', y) ∧ y.count = x.count ∧
    (m'.load y).contents = (m.load x).contents ∧ VectorPair.Independent T ⟨m', x, y⟩ l

/-! ## Blocks apart -/

variable {T : ElementType} {m m' : BlockMemory α} {x y : VectorObject} {v : Vector α}
  {l l' : List α}

theorem Vector.Represents.overrun (h : Represents v l) (overrun : Bool) :
    Represents { v with overrun := overrun } l :=
  ⟨h.count, h.cells, h.room, h.block, h.bound⟩

namespace BlockMemory

structure Apart (m : BlockMemory α) (x y : VectorObject) : Prop where
  left : ∀ b ∈ x.data, b < m.next
  right : ∀ b ∈ y.data, b < m.next
  distinct : ∀ b ∈ x.data, b ∉ y.data

theorem Apart.symm (h : Apart m x y) : Apart m y x :=
  ⟨h.right, h.left, fun b hy hx => h.distinct b hx hy⟩

theorem load_store (m : BlockMemory α) (x : VectorObject) (v : Vector α) (moved : Bool) :
    (m.store x v moved).1.load (m.store x v moved).2 = { v with overrun := false } := by
  cases hdata : v.data <;> simp [store, load, hdata]

theorem overrun_store (m : BlockMemory α) (x : VectorObject) (v : Vector α) (moved : Bool) :
    (m.store x v moved).1.overrun = (m.overrun || v.overrun) := by
  cases hdata : v.data <;> simp [store, hdata]

theorem count_store (m : BlockMemory α) (x : VectorObject) (v : Vector α) (moved : Bool) :
    (m.store x v moved).2.count = v.count := by
  cases hdata : v.data <;> simp [store, hdata]

theorem freed_of_not_mem {b : Nat} (h : b ∉ x.data) : m.freed x b = m.block b := by
  unfold freed
  cases hx : x.data with
  | none => rfl
  | some old =>
      refine Function.update_of_ne ?_ _ _
      rintro rfl
      exact h hx

theorem address_le (h : ∀ b ∈ x.data, b < m.next) (moved : Bool) :
    m.address x moved ≤ m.next := by
  unfold address
  cases moved with
  | true => exact Nat.le_refl m.next
  | false =>
      cases hx : x.data with
      | none => exact Nat.le_refl m.next
      | some old => exact Nat.le_of_lt (h old hx)

theorem Apart.address_not_mem (h : Apart m x y) (moved : Bool) :
    m.address x moved ∉ y.data := by
  have hnext : m.next ∉ y.data := fun hmem => Nat.lt_irrefl _ (h.right _ hmem)
  unfold address
  cases moved with
  | true => exact hnext
  | false =>
      cases hx : x.data with
      | none => exact hnext
      | some old => exact h.distinct old hx

theorem load_congr (h : ∀ b ∈ y.data, m'.block b = m.block b) : m'.load y = m.load y := by
  cases hy : y.data with
  | none => simp [load, hy]
  | some b => simpa [load, hy] using h b hy

theorem store_apart (h : Apart m x y) (v : Vector α) (moved : Bool) :
    Apart (m.store x v moved).1 (m.store x v moved).2 y ∧
      (m.store x v moved).1.load y = m.load y := by
  have hold : ∀ b ∈ y.data, m.freed x b = m.block b := fun b hb =>
    freed_of_not_mem fun hmem => h.distinct b hmem hb
  have haddress := h.address_not_mem moved
  cases hdata : v.data with
  | none =>
      simp only [store, hdata]
      exact ⟨⟨by simp, h.right, by simp⟩, load_congr hold⟩
  | some block =>
      simp only [store, hdata]
      refine ⟨⟨?_, fun b hb => Nat.lt_succ_of_lt (h.right b hb), ?_⟩, load_congr fun b hb => ?_⟩
      · intro b hb
        rw [← Option.mem_some_iff.mp hb]
        exact Nat.lt_succ_of_le (address_le h.left moved)
      · intro b hb
        rw [← Option.mem_some_iff.mp hb]
        exact haddress
      · have hne : b ≠ m.address x moved := by
          rintro rfl
          exact haddress hb
        rw [← hold b hb]
        exact Function.update_of_ne hne _ _

theorem apply_returns [Inhabited α] [BEq α] {op : Operation α} (h : Apart m x y)
    (hx : Represents (m.load x) l) (hlength : l.length < 2 ^ 31) (hallowed : op.Allowed l)
    (hresult : (op.onList l).length < 2 ^ 31) (hsized : op.Sized) :
    ∃ m' x', m.apply T op x = some (m', x') ∧ Apart m' x' y ∧ m'.load y = m.load y ∧
      Represents (m'.load x') (op.onList l) ∧ m'.overrun = m.overrun := by
  obtain ⟨v, happly, hv, hoverrun⟩ := op.apply_returns (T := T) hx hlength hallowed hresult
  obtain ⟨hapart, hother⟩ := store_apart h v (op.moves (m.load x))
  have hclean : v.overrun = false := hoverrun hsized
  refine ⟨_, _, ?_, hapart, hother, ?_, ?_⟩
  · rw [apply, happly]
    rfl
  · rw [load_store]
    exact hv.overrun false
  · rw [overrun_store, hclean, Bool.or_false]

end BlockMemory

/-! ## Two vectors -/

theorem VectorPair.run_returns [Inhabited α] [BEq α] {ops : List (Side × Operation α)}
    {s : VectorPair α} (h : s.memory.Apart s.original s.copy)
    (horiginal : Represents (s.memory.load s.original) l)
    (hcopy : Represents (s.memory.load s.copy) l') (hlength : l.length < 2 ^ 31)
    (hlength' : l'.length < 2 ^ 31) (hops : Admissible l (operationsOn .original ops))
    (hops' : Admissible l' (operationsOn .copy ops)) (hsized : ∀ op ∈ ops, op.2.Sized) :
    ∃ s', s.run T ops = some s' ∧
      s'.originalContents = (resultOn .original l ops).map some ∧
      s'.copyContents = (resultOn .copy l' ops).map some ∧
      s'.memory.overrun = s.memory.overrun := by
  induction ops generalizing s l l' with
  | nil => exact ⟨s, rfl, horiginal.contents, hcopy.contents, rfl⟩
  | cons op ops ih =>
      obtain ⟨side, op⟩ := op
      have hop : op.Sized := hsized _ List.mem_cons_self
      have hrest : ∀ op ∈ ops, op.2.Sized := fun op hop =>
        hsized op (List.mem_cons_of_mem _ hop)
      cases side with
      | original =>
          obtain ⟨hallowed, hresult, hlater⟩ := hops
          obtain ⟨memory, x, happly, hapart, hother, hx, hoverrun⟩ :=
            BlockMemory.apply_returns (T := T) h horiginal hlength hallowed hresult hop
          obtain ⟨s', hrun, hfirst, hsecond, hlast⟩ := ih (s := ⟨memory, x, s.copy⟩) hapart hx
            (hother ▸ hcopy) hresult hlength' hlater hops' hrest
          refine ⟨s', ?_, hfirst, hsecond, hlast.trans hoverrun⟩
          rw [run, List.foldlM_cons, VectorPair.apply, happly]
          exact hrun
      | copy =>
          obtain ⟨hallowed, hresult, hlater⟩ := hops'
          obtain ⟨memory, y, happly, hapart, hother, hy, hoverrun⟩ :=
            BlockMemory.apply_returns (T := T) h.symm hcopy hlength' hallowed hresult hop
          obtain ⟨s', hrun, hfirst, hsecond, hlast⟩ := ih (s := ⟨memory, s.original, y⟩)
            hapart.symm (hother ▸ horiginal) hy hlength hresult hops hlater hrest
          refine ⟨s', ?_, hfirst, hsecond, hlast.trans hoverrun⟩
          rw [run, List.foldlM_cons, VectorPair.apply, happly]
          exact hrun

/-! ## The copy constructor -/

section Copy

variable [Inhabited α]

theorem Vector.count_copy {x v : Vector α} (h : x.copy T = some v) : v.count = 0 := by
  refine forUnsigned_preserves (P := fun v : Vector α => v.count = 0) ?_ ?_ h
  · intro i v hv
    exact (v.put_frame i (x.cell i)).count.trans hv
  · exact (ensureCapacity_represents represents_empty (wrap32_lt x.count)).count

theorem BlockMemory.count_copy (h : m.copy T x = some (m', y)) : y.count = 0 := by
  obtain ⟨v, hcopy, hstore⟩ := Option.bind_eq_some_iff.mp h
  have hobject : (m.store VectorObject.empty v true).2 = y :=
    congrArg Prod.snd (Option.some.inj hstore)
  rw [← hobject, count_store]
  exact Vector.count_copy hcopy

theorem BlockMemory.copy_returns (hx : Represents (m.load x) [])
    (hplaced : ∀ b ∈ x.data, b < m.next) :
    ∃ m' y, m.copy T x = some (m', y) ∧ m'.Apart x y ∧ m'.load x = m.load x ∧
      Represents (m'.load y) [] ∧ m'.overrun = m.overrun := by
  have hcount : (m.load x).count = 0 := hx.count
  have hzero : wrap32 0 = 0 := rfl
  have hcopy : (m.load x).copy T = some (Vector.empty.ensureCapacity T 0) := by
    rw [Vector.copy, hcount, hzero, forUnsigned_eq_foldl (Nat.le_refl 0) (Nat.two_pow_pos 32)]
    rfl
  have hensured : Represents (Vector.empty.ensureCapacity T 0) ([] : List α) :=
    ensureCapacity_represents represents_empty (Nat.two_pow_pos 32)
  have hclean : (Vector.empty.ensureCapacity T 0 : Vector α).overrun = false :=
    (ensureCapacity_room represents_empty (Nat.two_pow_pos 31)).2
  have hapart : m.Apart VectorObject.empty x := ⟨by simp [VectorObject.empty], hplaced,
    by simp [VectorObject.empty]⟩
  obtain ⟨hnew, hsame⟩ := store_apart hapart (Vector.empty.ensureCapacity T 0) true
  refine ⟨_, _, ?_, hnew.symm, hsame, ?_, ?_⟩
  · rw [BlockMemory.copy, hcopy]
    rfl
  · rw [load_store]
    exact hensured.overrun false
  · rw [overrun_store, hclean, Bool.or_false]

variable [BEq α]

/-- Only a vector without elements is preserved by copying it. -/
theorem copyPreserves_iff (T : ElementType) (m : BlockMemory α) (x : VectorObject) (l : List α)
    (hx : Represents (m.load x) l) (hplaced : ∀ b ∈ x.data, b < m.next) :
    CopyPreserves T m x l ↔ l = [] := by
  constructor
  · rintro ⟨m', y, hcopy, hsize, -⟩
    have hlength : x.count = l.length := hx.count
    rw [BlockMemory.count_copy hcopy, hlength] at hsize
    exact List.length_eq_zero_iff.mp hsize.symm
  · rintro rfl
    obtain ⟨m', y, hcopy, hapart, hsame, hy, hoverrun⟩ :=
      BlockMemory.copy_returns (T := T) hx hplaced
    have hcount : y.count = x.count := hy.count.trans hx.count.symm
    refine ⟨m', y, hcopy, hcount, ?_, fun ops hops hops' hsized => ?_⟩
    · rw [hy.contents, hx.contents]
    · exact VectorPair.run_returns hapart (hsame ▸ hx) hy (Nat.two_pow_pos 31)
        (Nat.two_pow_pos 31) hops hops' hsized

end Copy

/-- A vector that was never filled. -/
theorem copyPreserves_iff_empty :
    CopyPreserves ⟨true, 8, by decide, by decide⟩ (⟨fun _ => none, 0, false⟩ : BlockMemory Nat)
      VectorObject.empty [] := by
  refine (copyPreserves_iff _ _ _ [] ?_ ?_).mpr rfl
  · exact represents_empty
  · simp [VectorObject.empty]

/-- After one `add_back` the copy still has no elements. -/
theorem copy_loses_elements :
    ∃ m x, (⟨fun _ => none, 0, false⟩ : BlockMemory Nat).apply ⟨true, 8, by decide, by decide⟩
        (.addBack 7) VectorObject.empty = some (m, x) ∧
      (m.load x).contents = [some 7] ∧
      ¬ CopyPreserves ⟨true, 8, by decide, by decide⟩ m x [7] := by
  refine ⟨_, _, rfl, by decide, ?_⟩
  rintro ⟨m', y, hcopy, hsize, -⟩
  rw [BlockMemory.count_copy hcopy] at hsize
  contradiction

end UnifiedOS.Common
