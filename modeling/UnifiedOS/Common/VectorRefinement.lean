import UnifiedOS.Common.Vector
import UnifiedOS.Memory.MemoryCopy

/-!
# A vector stands for a list

Every operation is described by what it does to the cells of the block, from
which the block it leaves and the list it stands for follow.  The sequence
`data[0 .. count)` and the list then go through the same operations.
-/

namespace UnifiedOS.Common

open UnifiedOS.Foundation UnifiedOS.Memory

variable {α : Type*}

namespace Vector

/-! ## Accesses -/

structure SameFrame (v v' : Vector α) : Prop where
  slots : v'.slots = v.slots
  count : v'.count = v.count
  capacity : v'.capacity = v.capacity
  lock : v'.lock = v.lock

theorem SameFrame.refl (v : Vector α) : SameFrame v v := ⟨rfl, rfl, rfl, rfl⟩

theorem SameFrame.trans {v v' v'' : Vector α} (h : SameFrame v v')
    (h' : SameFrame v' v'') : SameFrame v v'' :=
  ⟨h'.slots.trans h.slots, h'.count.trans h.count, h'.capacity.trans h.capacity,
    h'.lock.trans h.lock⟩

theorem touch_frame (v : Vector α) (i : Nat) : SameFrame v (v.touch i) :=
  ⟨rfl, rfl, rfl, rfl⟩

@[simp] theorem cell_touch (v : Vector α) (i j : Nat) : (v.touch i).cell j = v.cell j := rfl

theorem overrun_touch {v : Vector α} {i : Nat} (h : i < v.slots) :
    (v.touch i).overrun = v.overrun := by
  simp [touch, h]

theorem put_frame (v : Vector α) (i : Nat) (x : Option α) : SameFrame v (v.put i x) := by
  cases hdata : v.data with
  | none =>
      simp only [put, hdata]
      exact v.touch_frame i
  | some block =>
      simp only [put, hdata]
      split
      · constructor <;> simp [slots, hdata]
      · exact v.touch_frame i

theorem cell_put (v : Vector α) (i j : Nat) (x : Option α) :
    (v.put i x).cell j = if j = i ∧ i < v.slots then x else v.cell j := by
  cases hdata : v.data with
  | none => simp [put, cell, slots, touch, hdata]
  | some block =>
      by_cases hi : i < block.slots
      · by_cases hj : j = i
        · simp [put, cell, slots, hdata, hi, hj]
        · simp [put, cell, slots, hdata, hi, hj]
      · simp [put, cell, slots, touch, hdata, hi]

theorem overrun_put {v : Vector α} {i : Nat} {x : Option α} (h : i < v.slots) :
    (v.put i x).overrun = v.overrun := by
  cases hdata : v.data with
  | none => simp [slots, hdata] at h
  | some block =>
      simp only [slots, hdata] at h
      simp [put, hdata, h]

/-! ## Runs of accesses -/

theorem write_succ (v : Vector α) (start n : Nat) (source : Nat → Option α) :
    v.write start (n + 1) source = (v.write start n source).put (start + n) (source n) := by
  rw [write, write, List.range_succ, List.foldl_append]
  rfl

theorem write_frame (v : Vector α) (start n : Nat) (source : Nat → Option α) :
    SameFrame v (v.write start n source) := by
  induction n with
  | zero => exact SameFrame.refl v
  | succ n ih =>
      rw [write_succ]
      exact ih.trans (put_frame _ _ _)

theorem cell_write (v : Vector α) (start n j : Nat) (source : Nat → Option α) :
    (v.write start n source).cell j =
      if start ≤ j ∧ j < start + n ∧ j < v.slots then source (j - start) else v.cell j := by
  induction n with
  | zero =>
      rw [if_neg (by omega)]
      rfl
  | succ n ih =>
      rw [write_succ, cell_put, ih, (v.write_frame start n source).slots]
      by_cases hlast : j = start + n
      · subst hlast
        by_cases hin : start + n < v.slots
        · rw [if_pos ⟨rfl, hin⟩, if_pos (by omega), Nat.add_sub_cancel_left]
        · rw [if_neg (by omega), if_neg (by omega), if_neg (by omega)]
      · rw [if_neg (by omega)]
        congr 1
        simp only [eq_iff_iff]
        omega

theorem overrun_write {v : Vector α} {start n : Nat} {source : Nat → Option α}
    (h : start + n ≤ v.slots) : (v.write start n source).overrun = v.overrun := by
  induction n with
  | zero => rfl
  | succ n ih =>
      have hin : start + n < (v.write start n source).slots := by
        rw [(v.write_frame start n source).slots]
        omega
      rw [write_succ, overrun_put hin, ih (by omega)]

theorem shift_succ (v : Vector α) (dest src n : Nat) :
    v.shift dest src (n + 1) =
      ((v.shift dest src n).touch (src + n)).put (dest + n)
        ((v.shift dest src n).cell (src + n)) := by
  rw [shift, shift, List.range_succ, List.foldl_append]
  rfl

theorem shift_frame (v : Vector α) (dest src n : Nat) :
    SameFrame v (v.shift dest src n) := by
  induction n with
  | zero => exact SameFrame.refl v
  | succ n ih =>
      rw [shift_succ]
      exact (ih.trans (touch_frame _ _)).trans (put_frame _ _ _)

theorem cell_shift {v : Vector α} {dest src n : Nat} (hdown : dest ≤ src)
    (hin : src + n ≤ v.slots) (j : Nat) :
    (v.shift dest src n).cell j =
      if dest ≤ j ∧ j < dest + n then v.cell (src + (j - dest)) else v.cell j := by
  induction n generalizing j with
  | zero =>
      rw [if_neg (by omega)]
      rfl
  | succ n ih =>
      have hslots : ((v.shift dest src n).touch (src + n)).slots = v.slots :=
        (v.shift_frame dest src n).slots
      have hsource : (v.shift dest src n).cell (src + n) = v.cell (src + n) := by
        rw [ih (by omega), if_neg (by omega)]
      rw [shift_succ, cell_put, hslots, hsource, cell_touch, ih (by omega)]
      by_cases hlast : j = dest + n
      · rw [if_pos (by omega), if_pos (by omega)]
        congr 1
        omega
      · rw [if_neg (by omega)]
        congr 1
        simp only [eq_iff_iff]
        omega

theorem overrun_shift {v : Vector α} {dest src n : Nat} (hdown : dest ≤ src)
    (hin : src + n ≤ v.slots) : (v.shift dest src n).overrun = v.overrun := by
  induction n with
  | zero => rfl
  | succ n ih =>
      have hslots := (v.shift_frame dest src n).slots
      have htouch : src + n < (v.shift dest src n).slots := by omega
      have hput : dest + n < ((v.shift dest src n).touch (src + n)).slots := by
        rw [(touch_frame _ _).slots]
        omega
      rw [shift_succ, overrun_put hput, overrun_touch htouch, ih (by omega)]

theorem forUnsigned_put {start bound : Nat} (hstart : start ≤ bound) (hbound : bound < 2 ^ 32)
    (x : Option α) (v : Vector α) :
    forUnsigned start bound (fun i v => v.put i x) v =
      some (v.write start (bound - start) fun _ => x) :=
  forUnsigned_eq_foldl hstart hbound _ v

/-! ## The list a vector stands for -/

def contents (v : Vector α) : List (Option α) := (List.range v.count).map v.cell

/-- The vector holds the list, in a block with at least `capacity` slots. -/
structure Represents (v : Vector α) (l : List α) : Prop where
  count : v.count = l.length
  cells : ∀ i < l.length, v.cell i = l[i]?
  room : v.count ≤ v.capacity
  block : v.capacity ≤ v.slots
  bound : v.capacity < 2 ^ 33

variable {v v' : Vector α} {l : List α}

theorem Represents.contents (h : Represents v l) : v.contents = l.map some := by
  apply List.ext_getElem
  · simp [Vector.contents, h.count]
  · intro i hi hi'
    have hlt : i < l.length := by simpa using hi'
    simp [Vector.contents, h.cells i hlt]

theorem represents_empty : Represents (empty : Vector α) [] := by
  constructor <;> simp [empty, slots]

theorem Represents.lock (h : Represents v l) (lock : BitVec 32) :
    Represents { v with lock := lock } l :=
  ⟨h.count, h.cells, h.room, h.block, h.bound⟩

theorem Represents.touch (h : Represents v l) (i : Nat) : Represents (v.touch i) l :=
  ⟨h.count, h.cells, h.room, h.block, h.bound⟩

theorem Represents.reframe {l' : List α} (h : Represents v l) (hslots : v'.slots = v.slots)
    (hcapacity : v'.capacity = v.capacity) (hcount : v'.count = l'.length)
    (hroom : l'.length ≤ v.capacity) (hcells : ∀ i < l'.length, v'.cell i = l'[i]?) :
    Represents v' l' := by
  have hblock := h.block
  have hbound := h.bound
  constructor
  · exact hcount
  · exact hcells
  · omega
  · omega
  · omega

/-! ## Growth -/

section Growth

variable {T : ElementType} {n : Nat}

theorem bytes_lt (hn : n < 2 ^ 33) : n * T.sizeof < 2 ^ 64 := by
  have hsize := T.sizeof_le
  calc n * T.sizeof ≤ n * 2 ^ 31 := Nat.mul_le_mul_left n hsize
    _ < 2 ^ 64 := by omega

theorem objects_bytes (hn : n < 2 ^ 33) : objects T (wrap64 (n * T.sizeof)) = n := by
  rw [wrap64_of_lt (bytes_lt hn), objects, Nat.mul_div_cancel n T.sizeof_pos]

theorem malloc_eq (hpos : 0 < n) (hn : n < 2 ^ 33) :
    malloc T n = some (⟨n, fun _ => none⟩ : Block α) := by
  have hbytes : wrap64 (n * T.sizeof) ≠ 0 := by
    rw [wrap64_of_lt (bytes_lt hn)]
    exact (Nat.mul_pos hpos T.sizeof_pos).ne'
  rw [malloc, if_neg hbytes, objects_bytes hn]

theorem copyFrom_frame (v : Vector α) (oldData : Block α) (n : Nat) :
    SameFrame v (v.copyFrom oldData n) :=
  (v.write_frame 0 n _).trans ⟨rfl, rfl, rfl, rfl⟩

/--
The old objects arrive in the new block, and what is constructed behind the old
capacity does not touch them.
-/
theorem moved_represents {oldData : Block α} {k extra : Nat} {source : Nat → Option α}
    (h : Represents v l) (hdata : v.data = some oldData) (hlow : v.count ≤ k)
    (hgrow : v.capacity ≤ n) (hn : n < 2 ^ 33) :
    Represents { (({ v with data := some ⟨n, fun _ => none⟩ } : Vector α).copyFrom oldData
      k).write v.capacity extra source with capacity := n } l := by
  have hslots : v.slots = oldData.slots := by simp [slots, hdata]
  have hcount := h.count
  have hroom := h.room
  have hblock := h.block
  set fresh : Vector α := { v with data := some ⟨n, fun _ => none⟩ }
  have hframe := (fresh.copyFrom_frame oldData k).trans (write_frame _ v.capacity extra source)
  constructor
  · exact hframe.count.trans hcount
  · intro i hi
    have hcell : v.cell i = l[i]? := h.cells i hi
    have hold : v.cell i = if i < oldData.slots then oldData.cells i else none := by
      simp [cell, hdata]
    have hcopied : (fresh.copyFrom oldData k).cell i = v.cell i := by
      have hwrite := fresh.cell_write 0 k i fun k =>
        if k < oldData.slots then oldData.cells k else none
      rw [if_pos ⟨Nat.zero_le i, by omega, show i < n by omega⟩] at hwrite
      exact hwrite.trans hold.symm
    change (Vector.write _ v.capacity extra source).cell i = l[i]?
    rw [cell_write, if_neg (by omega), hcopied, hcell]
  · exact hframe.count.trans_le (hroom.trans hgrow)
  · exact hframe.slots.ge
  · exact hn

theorem moved_overrun {oldData : Block α} {k extra : Nat} {source : Nat → Option α}
    (h : Represents v l) (hdata : v.data = some oldData) (hhigh : k ≤ v.capacity)
    (hgrow : v.capacity + extra ≤ n) :
    ((({ v with data := some ⟨n, fun _ => none⟩ } : Vector α).copyFrom oldData k).write
      v.capacity extra source).overrun = v.overrun := by
  have hslots : v.slots = oldData.slots := by simp [slots, hdata]
  have hblock := h.block
  set fresh : Vector α := { v with data := some ⟨n, fun _ => none⟩ }
  have hfresh : fresh.slots = n := rfl
  have hwrite : (fresh.write 0 k fun k =>
      if k < oldData.slots then oldData.cells k else none).overrun = v.overrun :=
    overrun_write (by omega)
  have hcopied : (fresh.copyFrom oldData k).overrun = v.overrun := by
    simp only [copyFrom, hwrite, Bool.or_eq_left_iff_imp, decide_eq_true_eq]
    omega
  rw [overrun_write, hcopied]
  rw [(fresh.copyFrom_frame oldData k).slots]
  omega

variable [Inhabited α]

theorem ensureCapacity_cases {size : Nat} (h : Represents v l) (hsize : size < 2 ^ 32) :
    (size < v.capacity ∧ ensureCapacity T v size = v) ∨
    ∃ n, n = v.capacity + wrap32 (2 * size) + 1 ∧ v.capacity ≤ size ∧ n < 2 ^ 33 ∧
      ((v.data = none ∧ ensureCapacity T v size =
          { v with data := some ⟨n, fun _ => none⟩, capacity := n }) ∨
        ∃ oldData k, v.data = some oldData ∧ v.count ≤ k ∧ k ≤ v.capacity ∧
          ensureCapacity T v size =
            { (({ v with data := some ⟨n, fun _ => none⟩ } : Vector α).copyFrom oldData k).write
              v.capacity (size - v.capacity) (fun _ => some default) with capacity := n }) := by
  by_cases hlt : size < v.capacity
  · exact .inl ⟨hlt, if_neg (by omega)⟩
  · right
    have hdouble := wrap32_lt (2 * size)
    have hroom := h.room
    refine ⟨v.capacity + wrap32 (2 * size) + 1, rfl, by omega, by omega, ?_⟩
    have hnew : wrap64 (v.capacity + wrap32 (2 * size) + 1) =
        v.capacity + wrap32 (2 * size) + 1 := wrap64_of_lt (by omega)
    have hmalloc : malloc T (v.capacity + wrap32 (2 * size) + 1) =
        some (⟨v.capacity + wrap32 (2 * size) + 1, fun _ => none⟩ : Block α) :=
      malloc_eq (by omega) (by omega)
    simp only [ensureCapacity, if_pos (show v.capacity ≤ size by omega), hnew, hmalloc]
    cases hdata : v.data with
    | none => exact .inl ⟨rfl, rfl⟩
    | some oldData =>
        right
        cases htrivial : T.trivial with
        | true =>
            refine ⟨oldData, v.capacity, rfl, hroom, Nat.le_refl _, ?_⟩
            rw [objects_bytes (by omega), Nat.mul_comm T.sizeof, objects_bytes (by omega)]
            rfl
        | false =>
            exact ⟨oldData, min v.count v.capacity, rfl, by omega, Nat.min_le_right _ _, rfl⟩

theorem ensureCapacity_represents {size : Nat} (h : Represents v l) (hsize : size < 2 ^ 32) :
    Represents (ensureCapacity T v size) l := by
  obtain ⟨-, heq⟩ | ⟨n, hn, hle, hbound, hgrown⟩ := ensureCapacity_cases (T := T) h hsize
  · rw [heq]
    exact h
  · obtain ⟨hdata, heq⟩ | ⟨oldData, k, hdata, hlow, hhigh, heq⟩ := hgrown
    · have hcapacity : v.capacity = 0 := by
        have hblock := h.block
        simpa [slots, hdata] using hblock
      have hcount := h.count
      have hroom := h.room
      rw [heq]
      refine ⟨hcount, fun i hi => ?_, ?_, Nat.le_refl _, hbound⟩
      · omega
      · change v.count ≤ n
        omega
    · rw [heq]
      exact moved_represents h hdata hlow (by omega) hbound

/-- Below `2 ^ 31` the doubling does not wrap: there is room, and nothing is overrun. -/
theorem ensureCapacity_room {size : Nat} (h : Represents v l) (hsize : size < 2 ^ 31) :
    size < (ensureCapacity T v size).capacity ∧
      (ensureCapacity T v size).overrun = v.overrun := by
  have hdouble : wrap32 (2 * size) = 2 * size := wrap32_of_lt (by omega)
  obtain ⟨hlt, heq⟩ | ⟨n, hn, hle, hbound, hgrown⟩ :=
    ensureCapacity_cases (T := T) h (show size < 2 ^ 32 by omega)
  · rw [heq]
    exact ⟨hlt, rfl⟩
  · obtain ⟨hdata, heq⟩ | ⟨oldData, k, hdata, hlow, hhigh, heq⟩ := hgrown
    · rw [heq]
      refine ⟨?_, rfl⟩
      change size < n
      omega
    · rw [heq]
      refine ⟨?_, moved_overrun h hdata hhigh (by omega)⟩
      change size < n
      omega

end Growth

/-! ## Erasing -/

section Erasing

variable {T : ElementType} {pos : Nat}

theorem eraseUnlocked_eq (h : Represents v l) (hlength : l.length < 2 ^ 31)
    (hpos : pos < l.length) :
    eraseUnlocked T v pos =
      some { v.shift pos (pos + 1) (l.length - 1 - pos) with count := l.length - 1 } := by
  have hcount := h.count
  have hnext : wrap32 (pos + 1) = pos + 1 := wrap32_of_lt (by omega)
  have hlast : sub64 v.count 1 = l.length - 1 := by
    rw [hcount, sub64_of_le (by omega) (by omega)]
  have hshift := (v.shift_frame pos (pos + 1) (l.length - 1 - pos)).count
  cases htrivial : T.trivial with
  | true =>
      have hbehind : sub64 v.count pos = l.length - pos := by
        rw [hcount, sub64_of_le (by omega) (by omega)]
      have hrest : sub64 (sub64 v.count pos) 1 = l.length - 1 - pos := by
        rw [hbehind, sub64_of_le (by omega) (by omega)]
        omega
      simp [eraseUnlocked, htrivial, hnext, hrest, objects_bytes (T := T)
        (show l.length - 1 - pos < 2 ^ 33 by omega), hshift, hlast]
  | false =>
      have hloop : forUnsigned pos (l.length - 1)
          (fun i v => (v.touch (wrap32 (i + 1))).put i (v.cell (wrap32 (i + 1)))) v =
          some (v.shift pos (pos + 1) (l.length - 1 - pos)) := by
        rw [forUnsigned_eq_foldl (by omega) (by omega), shift]
        refine congrArg some (List.foldl_ext _ _ _ ?_)
        intro v k hk
        have hk : k < l.length - 1 - pos := List.mem_range.mp hk
        rw [wrap32_of_lt (by omega), Nat.add_right_comm]
      simp [eraseUnlocked, htrivial, hloop, hshift, hlast]

theorem eraseUnlocked_represents (h : Represents v l) (hlength : l.length < 2 ^ 31)
    (hpos : pos < l.length) :
    ∃ v', eraseUnlocked T v pos = some v' ∧ Represents v' (l.eraseIdx pos) ∧
      v'.overrun = v.overrun := by
  have hcount := h.count
  have hroom := h.room
  have hblock := h.block
  have hin : pos + 1 + (l.length - 1 - pos) ≤ v.slots := by omega
  have hframe := v.shift_frame pos (pos + 1) (l.length - 1 - pos)
  have herased : (l.eraseIdx pos).length = l.length - 1 := List.length_eraseIdx_of_lt hpos
  refine ⟨_, eraseUnlocked_eq h hlength hpos, ?_, overrun_shift (Nat.le_succ pos) hin⟩
  apply h.reframe
  · exact hframe.slots
  · exact hframe.capacity
  · exact herased.symm
  · omega
  · intro i hi
    change (v.shift pos (pos + 1) (l.length - 1 - pos)).cell i = _
    rw [cell_shift (Nat.le_succ pos) hin, List.getElem?_eraseIdx]
    by_cases hbefore : i < pos
    · rw [if_neg (by omega), if_pos hbefore, h.cells i (by omega)]
    · rw [if_pos (by omega), if_neg hbefore, h.cells _ (by omega)]
      congr 1
      omega

end Erasing

/-! ## The operations -/

section Operations

variable {T : ElementType}

/--
The operation returns with a vector for `l'`; nothing outside the block was
touched, if the sizes are `Sized`.
-/
def Returns (v : Vector α) (result : Option (Vector α)) (l' : List α) (Sized : Prop) : Prop :=
  ∃ v', result = some v' ∧ Represents v' l' ∧ (Sized → v'.overrun = v.overrun)

theorem erase_returns {pos : Nat} (h : Represents v l) (hlength : l.length < 2 ^ 31)
    (hpos : pos < l.length) : Returns v (v.erase T pos) (l.eraseIdx pos) True := by
  obtain ⟨v', herase, hv', hoverrun⟩ :=
    eraseUnlocked_represents (T := T) (h.lock 1) hlength hpos
  refine ⟨v'.releaseLock, ?_, hv'.lock 0, fun _ => hoverrun⟩
  have herase' : eraseUnlocked T v.acquireLock pos = some v' := herase
  simp [erase, herase']

theorem popBack_returns (h : Represents v l) (hlength : l.length < 2 ^ 31) (hl : l ≠ []) :
    Returns v (some v.popBack.1) l.dropLast True := by
  have hpos : 0 < l.length := List.length_pos_of_ne_nil hl
  have hcount := h.count
  have hroom := h.room
  have hlast : sub64 v.count 1 = l.length - 1 := by
    rw [hcount, sub64_of_le (by omega) (by omega)]
  simp only [popBack, hlast]
  refine ⟨_, rfl, ?_, fun _ => rfl⟩
  apply h.reframe
  · rfl
  · rfl
  · exact List.length_dropLast.symm
  · rw [List.length_dropLast]
    omega
  · intro i hi
    rw [List.length_dropLast] at hi
    rw [List.getElem?_dropLast, if_pos hi]
    exact h.cells i (by omega)

theorem clear_returns : Returns v (some v.clear) ([] : List α) True := by
  refine ⟨_, rfl, ?_, fun _ => rfl⟩
  constructor <;> simp [clear, acquireLock, releaseLock, slots]

section Removal

variable [BEq α]

theorem holds_eq (h : Represents v l) {i : Nat} (hi : i < l.length) (val : α) :
    v.holds i val = (l[i] == val) := by
  rw [holds, h.cells i hi, List.getElem?_eq_getElem hi]

theorem removeLoop_represents (val : α) {fuel k : Nat} (h : Represents v l)
    (hlength : l.length < 2 ^ 31) (hk : k ≤ l.length) (hfuel : l.length - k < fuel) :
    ∃ v', removeLoop T val fuel (BitVec.ofNat 32 k) v = some v' ∧
      Represents v' (l.take k ++ (l.drop k).erase val) ∧ v'.overrun = v.overrun := by
  induction fuel generalizing k v with
  | zero => omega
  | succ fuel ih =>
      have hvalue : (BitVec.ofNat 32 k).toNat = k := by
        rw [BitVec.toNat_ofNat, Nat.mod_eq_of_lt (by omega)]
      have hnext : BitVec.ofNat 32 k + 1 = BitVec.ofNat 32 (k + 1) :=
        (BitVec.ofNat_add k 1).symm
      rw [removeLoop, hvalue, h.count, hnext]
      by_cases hlt : k < l.length
      · have hblock := h.block
        have hroom := h.room
        have hcount := h.count
        have htouch : (v.touch k).overrun = v.overrun := overrun_touch (by omega)
        rw [if_pos hlt, holds_eq h hlt, List.drop_eq_getElem_cons hlt, List.erase_cons]
        cases heq : l[k] == val with
        | true =>
            rw [if_pos rfl, if_pos rfl]
            obtain ⟨v', herase, hv', hoverrun⟩ :=
              eraseUnlocked_represents (T := T) (h.touch k) hlength hlt
            rw [List.eraseIdx_eq_take_drop_succ] at hv'
            exact ⟨v', herase, hv', hoverrun.trans htouch⟩
        | false =>
            rw [if_neg Bool.false_ne_true, if_neg Bool.false_ne_true]
            obtain ⟨v', hloop, hv', hoverrun⟩ := ih (k := k + 1) (h.touch k) (by omega) (by omega)
            rw [← List.take_append_getElem hlt, List.append_assoc] at hv'
            exact ⟨v', hloop, hv', hoverrun.trans htouch⟩
      · have hend : k = l.length := by omega
        rw [if_neg hlt, hend, List.take_length, List.drop_length, List.erase_nil,
          List.append_nil]
        exact ⟨_, rfl, h.lock 0, rfl⟩

theorem remove_returns (h : Represents v l) (hlength : l.length < 2 ^ 31) (val : α) :
    Returns v (v.remove T val) (l.erase val) True := by
  have htaken : Represents v.acquireLock l := h.lock 1
  have hzero : BitVec.ofNat 32 0 = 0 := rfl
  obtain ⟨v', hloop, hv', hoverrun⟩ :=
    removeLoop_represents (T := T) val htaken hlength (Nat.zero_le _)
      (show l.length - 0 < 2 ^ 32 + 1 by omega)
  rw [hzero] at hloop
  refine ⟨v', ?_, hv', fun _ => hoverrun⟩
  rw [remove, hloop]

end Removal

variable [Inhabited α]

theorem addBack_eq (h : Represents v l) (hlength : l.length + 1 < 2 ^ 31) (val : α) :
    v.addBack T val =
      ((({ ensureCapacity T v.acquireLock (l.length + 1) with count := l.length + 1 } :
        Vector α).put l.length (some val)).releaseLock, l.length) := by
  have hsize : wrap32 (v.count + 1) = l.length + 1 := by
    rw [h.count, wrap32_of_lt (by omega)]
  have hcount : (ensureCapacity T v.acquireLock (l.length + 1)).count = l.length :=
    (ensureCapacity_represents (h.lock 1) (by omega)).count
  have hnext : wrap64 (l.length + 1) = l.length + 1 := wrap64_of_lt (by omega)
  simp only [addBack, hsize, hcount, hnext]

theorem addBack_returns (h : Represents v l) (hlength : l.length + 1 < 2 ^ 31) (val : α) :
    Returns v (some (v.addBack T val).1) (l ++ [val]) True := by
  have hensured := ensureCapacity_represents (T := T) (h.lock 1)
    (show l.length + 1 < 2 ^ 32 by omega)
  obtain ⟨hroom, hoverrun⟩ := ensureCapacity_room (T := T) (h.lock 1) hlength
  have hblock := hensured.block
  set ensured := ensureCapacity T { v with lock := 1 } (l.length + 1)
  set counted : Vector α := { ensured with count := l.length + 1 }
  have hslots : counted.slots = ensured.slots := rfl
  have hframe := put_frame counted l.length (some val)
  rw [addBack_eq h hlength]
  have hin : l.length < counted.slots := by omega
  refine ⟨_, rfl, ?_, fun _ => (overrun_put hin).trans hoverrun⟩
  apply Represents.lock
  apply hensured.reframe
  · exact hframe.slots
  · exact hframe.capacity
  · rw [List.length_append, List.length_singleton]
    exact hframe.count
  · rw [List.length_append, List.length_singleton]
    exact hroom.le
  · intro i hi
    rw [List.length_append, List.length_singleton] at hi
    change (counted.put l.length (some val)).cell i = _
    rw [cell_put]
    by_cases hlast : i = l.length
    · rw [if_pos ⟨hlast, by omega⟩, hlast, List.getElem?_concat_length]
    · rw [if_neg (by omega), List.getElem?_append_left (by omega)]
      exact hensured.cells i (by omega)

theorem reserve_returns {allocatedSize : Nat} (h : Represents v l) :
    Returns v (some (v.reserve T allocatedSize)) l (wrap32 allocatedSize < 2 ^ 31) := by
  refine ⟨_, rfl, ?_, fun hsize => ?_⟩
  · exact (ensureCapacity_represents (h.lock 1) (wrap32_lt allocatedSize)).lock 0
  · exact (ensureCapacity_room (h.lock 1) hsize).2

theorem resize_eq {newSize : Nat} (h : Represents v l) (hlength : l.length < 2 ^ 31)
    (hsize : newSize < 2 ^ 31) :
    ∃ start n x, v.resize T newSize =
        some ((({ ensureCapacity T v.acquireLock newSize with count := newSize } :
          Vector α).write start n fun _ => x).releaseLock) ∧
      min l.length newSize ≤ start ∧ start + n ≤ max l.length newSize ∧
      (l.length < newSize → start = l.length ∧ n = newSize - l.length ∧ x = some default) := by
  have hcount : (ensureCapacity T v.acquireLock newSize).count = l.length :=
    (ensureCapacity_represents (h.lock 1) (by omega)).count
  have hnew : wrap32 newSize = newSize := wrap32_of_lt (by omega)
  have hold : wrap32 l.length = l.length := wrap32_of_lt (by omega)
  by_cases hgrow : l.length < newSize
  · refine ⟨l.length, newSize - l.length, some default, ?_, by omega, by omega,
      fun _ => ⟨rfl, rfl, rfl⟩⟩
    simp [resize, hnew, hold, hcount, hgrow, forUnsigned_put hgrow.le (show newSize < 2 ^ 32
      by omega)]
  · by_cases hshrink : newSize < l.length ∧ T.trivial = false
    · refine ⟨newSize, l.length - newSize, none, ?_, by omega, by omega, by omega⟩
      simp [resize, hnew, hcount, hgrow, hshrink, forUnsigned_put hshrink.1.le (show l.length <
        2 ^ 32 by omega)]
    · refine ⟨newSize, 0, none, ?_, by omega, by omega, by omega⟩
      simp only [resize, hnew, hcount, if_neg hgrow, if_neg hshrink]
      rfl

theorem resize_returns {newSize : Nat} (h : Represents v l) (hlength : l.length < 2 ^ 31)
    (hsize : newSize < 2 ^ 31) :
    Returns v (v.resize T newSize)
      (l.take newSize ++ List.replicate (newSize - l.length) default) True := by
  have hensured := ensureCapacity_represents (T := T) (h.lock 1)
    (show newSize < 2 ^ 32 by omega)
  obtain ⟨hroom, hoverrun⟩ := ensureCapacity_room (T := T) (h.lock 1) hsize
  obtain ⟨start, n, x, heq, hlow, hhigh, hfilled⟩ := resize_eq (T := T) h hlength hsize
  have hblock := hensured.block
  have hcapacity := hensured.room
  have hcount := hensured.count
  set ensured := ensureCapacity T { v with lock := 1 } newSize
  set sized : Vector α := { ensured with count := newSize }
  have hslots : sized.slots = ensured.slots := rfl
  have hin : start + n ≤ sized.slots := by omega
  have hframe := sized.write_frame start n fun _ => x
  have htarget : (l.take newSize ++ List.replicate (newSize - l.length) default).length =
      newSize := by
    rw [List.length_append, List.length_take, List.length_replicate]
    omega
  refine ⟨_, heq, ?_, fun _ => (overrun_write hin).trans hoverrun⟩
  apply Represents.lock
  apply hensured.reframe
  · exact hframe.slots
  · exact hframe.capacity
  · exact hframe.count.trans htarget.symm
  · rw [htarget]
    exact hroom.le
  · intro i hi
    rw [htarget] at hi
    change (sized.write start n fun _ => x).cell i = _
    rw [cell_write]
    by_cases hold : i < l.length
    · rw [if_neg (by omega), List.getElem?_append_left (by rw [List.length_take]; omega),
        List.getElem?_take_of_lt hi]
      exact hensured.cells i hold
    · obtain ⟨hstart, hn, hx⟩ := hfilled (by omega)
      rw [if_pos (by omega), hx, List.getElem?_append_right (by rw [List.length_take]; omega),
        List.length_take, List.getElem?_replicate, if_pos (by omega)]

end Operations

end Vector

/-! ## Sequences of operations -/

open UnifiedOS.Common.Vector

section Sequences

variable [Inhabited α] [BEq α]

def Operation.onList : Operation α → List α → List α
  | .addBack val, l => l ++ [val]
  | .erase pos, l => l.eraseIdx pos.toNat
  | .popBack, l => l.dropLast
  | .remove val, l => l.erase val
  | .resize newSize, l =>
      l.take newSize.toNat ++ List.replicate (newSize.toNat - l.length) default
  | .reserve _, l => l
  | .clear, _ => []

/-- What the callers of `erase` and `pop_back` see to. -/
def Operation.Allowed (l : List α) : Operation α → Prop
  | .erase pos => pos.toNat < l.length
  | .popBack => l ≠ []
  | _ => True

def Operation.Sized : Operation α → Prop
  | .reserve allocatedSize => wrap32 allocatedSize.toNat < 2 ^ 31
  | _ => True

/-- Every operation is allowed where it comes and leaves fewer than `2 ^ 31` elements. -/
def Admissible : List α → List (Operation α) → Prop
  | _, [] => True
  | l, op :: ops =>
      op.Allowed l ∧ (op.onList l).length < 2 ^ 31 ∧ Admissible (op.onList l) ops

variable {T : ElementType} {v : Vector α} {l : List α}

theorem Operation.apply_returns {op : Operation α} (h : Represents v l)
    (hlength : l.length < 2 ^ 31) (hallowed : op.Allowed l)
    (hresult : (op.onList l).length < 2 ^ 31) :
    Returns v (op.apply T v) (op.onList l) op.Sized := by
  cases op with
  | addBack val =>
      apply addBack_returns h
      simpa [Operation.onList] using hresult
  | erase pos => exact erase_returns h hlength hallowed
  | popBack => exact popBack_returns h hlength hallowed
  | remove val => exact remove_returns h hlength val
  | resize newSize =>
      have hsize : newSize.toNat < 2 ^ 31 := by
        simp only [Operation.onList, List.length_append, List.length_take,
          List.length_replicate] at hresult
        omega
      exact resize_returns h hlength hsize
  | reserve allocatedSize => exact reserve_returns h
  | clear => exact clear_returns

theorem runOperations_returns {ops : List (Operation α)} (h : Represents v l)
    (hlength : l.length < 2 ^ 31) (hadmissible : Admissible l ops) :
    Returns v (runOperations T ops v) (ops.foldl (fun l op => op.onList l) l)
      (∀ op ∈ ops, op.Sized) := by
  induction ops generalizing v l with
  | nil => exact ⟨v, rfl, h, fun _ => rfl⟩
  | cons op ops ih =>
      obtain ⟨hallowed, hresult, hrest⟩ := hadmissible
      obtain ⟨v', happly, hv', hoverrun⟩ := op.apply_returns (T := T) h hlength hallowed hresult
      obtain ⟨v'', hrun, hv'', hoverrun'⟩ := ih hv' hresult hrest
      refine ⟨v'', ?_, hv'', fun hsized => ?_⟩
      · rw [runOperations, happly]
        exact hrun
      · rw [hoverrun' fun op hop => hsized op (List.mem_cons_of_mem _ hop),
          hoverrun (hsized op List.mem_cons_self)]

/--
A default-constructed vector goes with the list through every sequence of
operations.  Its block always has room for what it claims, and as long as the
sizes reserved stay below `2 ^ 31` nothing outside the block is touched.
-/
theorem vector_refines_list (T : ElementType) (ops : List (Operation α))
    (hadmissible : Admissible [] ops) :
    ∃ v, runOperations T ops Vector.empty = some v ∧
      v.contents = (ops.foldl (fun l op => op.onList l) []).map some ∧
      v.count ≤ v.capacity ∧ v.capacity ≤ v.slots ∧
      ((∀ op ∈ ops, op.Sized) → v.overrun = false) := by
  obtain ⟨v, hrun, hv, hoverrun⟩ :=
    runOperations_returns (T := T) represents_empty (Nat.two_pow_pos 31) hadmissible
  exact ⟨v, hrun, hv.contents, hv.room, hv.block, hoverrun⟩

end Sequences

/-- A sequence that grows, shifts, clears and starts again. -/
theorem vector_refines_list_run :
    let T : ElementType := ⟨true, 8, by decide, by decide⟩
    let ops : List (Operation Nat) := [.addBack 5, .addBack 7, .erase 0, .resize 4, .remove 0,
      .reserve 9, .popBack, .clear, .addBack 3]
    ∃ v, runOperations T ops Vector.empty = some v ∧
      v.contents = (ops.foldl (fun l op => op.onList l) []).map some ∧
      v.count ≤ v.capacity ∧ v.capacity ≤ v.slots ∧
      ((∀ op ∈ ops, op.Sized) → v.overrun = false) := by
  apply vector_refines_list
  simp [Admissible, Operation.Allowed, Operation.onList]

/-! ## The trivial branch on bytes -/

section Bytes

variable {T : ElementType} {encode : α → Nat → Byte} {m : ByteMemory} {base pos n : Nat}
  {v : Vector α}

def StoredAt (T : ElementType) (encode : α → Nat → Byte) (m : ByteMemory) (base : Nat)
    (v : Vector α) : Prop :=
  ∀ i < v.slots, ∀ x, v.cell i = some x →
    ∀ k < T.sizeof, m (base + i * T.sizeof + k) = encode x k

/-- The overlapping `memcpy` of `EraseUnlocked` is the shift of the objects. -/
theorem StoredAt.shift (h : StoredAt T encode m base v) (hin : pos + 1 + n ≤ v.slots)
    (hspace : base + v.slots * T.sizeof ≤ 2 ^ 64) :
    StoredAt T encode
      (memcpy m (base + pos * T.sizeof) (base + (pos + 1) * T.sizeof) (n * T.sizeof)) base
      (v.shift pos (pos + 1) n) := by
  have hbytes : (pos + 1 + n) * T.sizeof ≤ v.slots * T.sizeof := Nat.mul_le_mul_right _ hin
  have hdown : (pos + 1) * T.sizeof = pos * T.sizeof + T.sizeof := Nat.succ_mul _ _
  rw [Nat.add_mul] at hbytes
  intro i hi x hx k hk
  rw [(v.shift_frame pos (pos + 1) n).slots] at hi
  rw [cell_shift (Nat.le_succ pos) hin] at hx
  rw [memcpy_eq_blit (by omega) (by omega) (.inl (by omega))]
  by_cases hmoved : pos ≤ i ∧ i < pos + n
  · obtain ⟨j, rfl⟩ := Nat.exists_eq_add_of_le hmoved.1
    have hj : (j + 1) * T.sizeof ≤ n * T.sizeof := Nat.mul_le_mul_right _ (by omega)
    have hnext : (j + 1) * T.sizeof = j * T.sizeof + T.sizeof := Nat.succ_mul _ _
    have hcell : v.cell (pos + 1 + j) = some x := by
      rwa [if_pos hmoved, Nat.add_sub_cancel_left] at hx
    have haddr : base + (pos + j) * T.sizeof + k =
        base + pos * T.sizeof + (j * T.sizeof + k) := by
      rw [Nat.add_mul]
      omega
    rw [haddr, ByteMemory.blit_inside _ (by omega), ← h (pos + 1 + j) (by omega) x hcell k hk]
    congr 1
    rw [Nat.add_mul (pos + 1)]
    omega
  · rw [if_neg hmoved] at hx
    rw [ByteMemory.blit_outside, h i hi x hx k hk]
    by_cases hbefore : i < pos
    · have hle : (i + 1) * T.sizeof ≤ pos * T.sizeof := Nat.mul_le_mul_right _ hbefore
      have hnext : (i + 1) * T.sizeof = i * T.sizeof + T.sizeof := Nat.succ_mul _ _
      omega
    · have hle : (pos + n) * T.sizeof ≤ i * T.sizeof :=
        Nat.mul_le_mul_right _ (by omega)
      rw [Nat.add_mul] at hle
      omega

end Bytes

end UnifiedOS.Common
