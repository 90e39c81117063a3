import UnifiedOS.Foundation.MachineInt

/-!
# `Vector<T>`

The dynamic array of the kernel.  Its storage is a heap block that is counted in
slots of `sizeof(T)` bytes; a slot holds an object or is raw memory.  `TTraits`
chooses between copying bytes and running constructors, and both branches are
here.  Objects are values: a copy or a move leaves an equal object at its target.
-/

namespace UnifiedOS.Common

open UnifiedOS.Foundation

/-- What the class template depends on of `T`, besides `T()` and `==`. -/
structure ElementType where
  /-- `TTraits<T>::is_trivial()` -/
  trivial : Bool
  sizeof : Nat
  sizeof_pos : 0 < sizeof
  /-- `2 ^ 33` objects, which is more than a vector asks for, fit in the address space. -/
  sizeof_le : sizeof ≤ 2 ^ 31

/-- Heap memory obtained for objects; `none` is a slot without one. -/
structure Block (α : Type*) where
  slots : Nat
  cells : Nat → Option α

structure Vector (α : Type*) where
  data : Option (Block α)
  count : Nat
  capacity : Nat
  lock : BitVec 32
  /-- Not a member: some access went outside the block. -/
  overrun : Bool

namespace Vector

variable {α : Type*}

def empty : Vector α := ⟨none, 0, 0, 0, false⟩

def acquireLock (v : Vector α) : Vector α := { v with lock := 1 }

def releaseLock (v : Vector α) : Vector α := { v with lock := 0 }

/-! ## The block -/

def slots (v : Vector α) : Nat :=
  match v.data with
  | none => 0
  | some block => block.slots

def cell (v : Vector α) (i : Nat) : Option α :=
  match v.data with
  | none => none
  | some block => if i < block.slots then block.cells i else none

def touch (v : Vector α) (i : Nat) : Vector α :=
  { v with overrun := v.overrun || !decide (i < v.slots) }

/-- `data[i]` becomes `x`; outside the block some other memory does. -/
def put (v : Vector α) (i : Nat) (x : Option α) : Vector α :=
  match v.data with
  | none => v.touch i
  | some block =>
      if i < block.slots then
        { v with data := some { block with cells := fun j => if j = i then x else block.cells j } }
      else v.touch i

def write (v : Vector α) (start n : Nat) (source : Nat → Option α) : Vector α :=
  (List.range n).foldl (fun v k => v.put (start + k) (source k)) v

def objects (T : ElementType) (bytes : Nat) : Nat := bytes / T.sizeof

/-- `malloc(n * sizeof(T))`: raw memory, and a null pointer for no bytes. -/
def malloc (T : ElementType) (n : Nat) : Option (Block α) :=
  if wrap64 (n * T.sizeof) = 0 then none
  else some ⟨objects T (wrap64 (n * T.sizeof)), fun _ => none⟩

def copyFrom (v : Vector α) (oldData : Block α) (n : Nat) : Vector α :=
  let copied := v.write 0 n fun k => if k < oldData.slots then oldData.cells k else none
  { copied with overrun := copied.overrun || decide (oldData.slots < n) }

/-- The copy of `n` objects within the block, first to last, as `memcpy` goes. -/
def shift (v : Vector α) (dest src n : Nat) : Vector α :=
  (List.range n).foldl (fun v k => (v.touch (src + k)).put (dest + k) (v.cell (src + k))) v

/-! ## The private members -/

section Members

variable [Inhabited α] (T : ElementType)

/--
`Vector::EnsureCapacity`.  The doubling is done in 32 bits.  Both counters are
below `size`, an `unsigned`, and do not wrap.
-/
def ensureCapacity (v : Vector α) (size : Nat) : Vector α :=
  if v.capacity ≤ size then
    let newCapacity := wrap64 (v.capacity + wrap32 (2 * size) + 1)
    let fresh : Vector α := { v with data := malloc T newCapacity }
    let grown :=
      match v.data with
      | none => fresh
      | some oldData =>
          if T.trivial then
            -- `memcpy` of the old capacity, then `memset` to zero
            (fresh.copyFrom oldData (objects T (wrap64 (v.capacity * T.sizeof)))).write v.capacity
              (objects T (wrap64 (T.sizeof * (size - v.capacity)))) fun _ => some default
          else
            (fresh.copyFrom oldData (min v.count v.capacity)).write v.capacity
              (size - v.capacity) fun _ => some default
    { grown with capacity := newCapacity }
  else v

def eraseUnlocked (v : Vector α) (pos : Nat) : Option (Vector α) := do
  let moved ←
    if T.trivial then
      some (v.shift pos (wrap32 (pos + 1))
        (objects T (wrap64 (sub64 (sub64 v.count pos) 1 * T.sizeof))))
    else
      forUnsigned pos (sub64 v.count 1)
        (fun i v => (v.touch (wrap32 (i + 1))).put i (v.cell (wrap32 (i + 1)))) v
  return { moved with count := sub64 moved.count 1 }

/-! ## The public members -/

def erase (v : Vector α) (pos : Nat) : Option (Vector α) := do
  let erased ← eraseUnlocked T v.acquireLock pos
  return erased.releaseLock

def reserve (v : Vector α) (allocatedSize : Nat) : Vector α :=
  (ensureCapacity T v.acquireLock (wrap32 allocatedSize)).releaseLock

def resize (v : Vector α) (newSize : Nat) : Option (Vector α) := do
  let ensured := ensureCapacity T v.acquireLock (wrap32 newSize)
  let oldCount := ensured.count
  let sized := { ensured with count := newSize }
  let filled ←
    if oldCount < newSize then
      forUnsigned (wrap32 oldCount) newSize (fun i v => v.put i (some default)) sized
    else if newSize < oldCount ∧ T.trivial = false then
      forUnsigned (wrap32 newSize) oldCount (fun i v => v.put i none) sized
    else some sized
  return filled.releaseLock

/-- `Vector::add_back`, with the index of the reference it returns. -/
def addBack (v : Vector α) (val : α) : Vector α × Nat :=
  let ensured := ensureCapacity T v.acquireLock (wrap32 (v.count + 1))
  let ref := ensured.count
  let counted := { ensured with count := wrap64 (ensured.count + 1) }
  ((counted.put ref (some val)).releaseLock, ref)

variable [BEq α]

def holds (v : Vector α) (i : Nat) (val : α) : Bool :=
  match v.cell i with
  | none => false
  | some x => x == val

def removeLoop (val : α) : Nat → BitVec 32 → Vector α → Option (Vector α)
  | 0, _, _ => none
  | fuel + 1, i, v =>
      if i.toNat < v.count then
        -- the value is found: erased, and returned from with the lock held
        if v.holds i.toNat val then eraseUnlocked T (v.touch i.toNat) i.toNat
        else removeLoop val fuel (i + 1) (v.touch i.toNat)
      else some v.releaseLock

def remove (v : Vector α) (val : α) : Option (Vector α) :=
  removeLoop T val (2 ^ 32 + 1) 0 v.acquireLock

end Members

def popBack (v : Vector α) : Vector α × Nat :=
  ({ v with count := sub64 v.count 1 }, sub64 v.count 1)

def clear (v : Vector α) : Vector α :=
  ({ v.acquireLock with count := 0, capacity := 0, data := none }).releaseLock

end Vector

/-! ## Sequences of operations -/

inductive Operation (α : Type*) where
  | addBack (val : α)
  | erase (pos : BitVec 32)
  | popBack
  | remove (val : α)
  | resize (newSize : BitVec 64)
  | reserve (allocatedSize : BitVec 64)
  | clear

variable {α : Type*} [Inhabited α] [BEq α]

def Operation.apply (T : ElementType) : Operation α → Vector α → Option (Vector α)
  | .addBack val, v => some (v.addBack T val).1
  | .erase pos, v => v.erase T pos.toNat
  | .popBack, v => some v.popBack.1
  | .remove val, v => v.remove T val
  | .resize newSize, v => v.resize T newSize.toNat
  | .reserve allocatedSize, v => some (v.reserve T allocatedSize.toNat)
  | .clear, v => some v.clear

def runOperations (T : ElementType) : List (Operation α) → Vector α → Option (Vector α)
  | [], v => some v
  | op :: ops, v => (op.apply T v).bind (runOperations T ops)

end UnifiedOS.Common
