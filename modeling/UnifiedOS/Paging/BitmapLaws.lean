import UnifiedOS.Paging.Bitmap
import Mathlib.Data.Nat.Count

/-!
# Accesses and set bits of the page bitmap

`Get` and `Set` turn an index away if it is greater than `Size * 8`, computed in
64 bits, and access one byte of the buffer otherwise.  The index `Size * 8`
itself comes through, and with it the byte behind the buffer is read or written.
-/

namespace UnifiedOS.Paging

open UnifiedOS.Foundation

/-! ## Counting bits -/

section Count

variable {p q : Nat → Prop} [DecidablePred p] [DecidablePred q] {i n : Nat}

theorem count_congr (h : ∀ j < n, q j ↔ p j) : Nat.count q n = Nat.count p n :=
  Nat.le_antisymm (Nat.count_mono_left fun j hj => (h j hj).mp)
    (Nat.count_mono_left fun j hj => (h j hj).mpr)

theorem count_insert (hi : i < n) (hp : ¬ p i) (hq : q i) (hother : ∀ j, j ≠ i → (q j ↔ p j)) :
    Nat.count q n = Nat.count p n + 1 := by
  induction n with
  | zero => omega
  | succ n ih =>
      rw [Nat.count_succ, Nat.count_succ]
      by_cases hlast : n = i
      · subst hlast
        rw [if_pos hq, if_neg hp, count_congr fun j hj => hother j (by omega)]
      · rw [ih (by omega)]
        simp only [hother n hlast]
        omega

end Count

namespace Bitmap

/-- `Bitmap::Get`, with the bytes of `Buffer` that it reads. -/
def getAccessing (b : Bitmap) (m : ByteMemory) (index : Nat) : Bool × List Nat :=
  if index > wrap64 (b.size * 8) then (false, [])
  else
    let byteIndex := index / 8
    ((m (b.buffer + byteIndex) &&& bitIndexer index) != 0#8, [byteIndex])

def setAccessing (b : Bitmap) (m : ByteMemory) (index : Nat) (value : Bool) :
    Bool × ByteMemory × List Nat :=
  if index > wrap64 (b.size * 8) then (false, m, [])
  else
    let byteIndex := index / 8
    let byte := b.buffer + byteIndex
    let m := m.poke byte (m byte &&& ~~~ bitIndexer index)
    if value then (true, m.poke byte (m byte ||| bitIndexer index), [byteIndex, byteIndex])
    else (true, m, [byteIndex])

/-- The accesses lie in the buffer, and exactly the indices of a bit are accepted. -/
structure Inside (b : Bitmap) (m : ByteMemory) (index : Nat) (value : Bool) : Prop where
  read : ∀ byteIndex ∈ (b.getAccessing m index).2, byteIndex < b.size
  written : ∀ byteIndex ∈ (b.setAccessing m index value).2.2, byteIndex < b.size
  accepted : (b.setAccessing m index value).1 = true ↔ index < b.size * 8
  refused : (b.setAccessing m index value).1 = false → (b.setAccessing m index value).2.1 = m

def setBits (b : Bitmap) (m : ByteMemory) : Nat :=
  Nat.count (fun index => b.bit m index = true) (b.size * 8)

def bitChange (old value : Bool) : Int :=
  match old, value with
  | false, true => 1
  | true, false => -1
  | _, _ => 0

section Accesses

variable {b : Bitmap} {m : ByteMemory} {index i j : Nat} {value : Bool}

theorem getAccessing_fst : (b.getAccessing m index).1 = b.get m index := by
  unfold getAccessing get
  split
  · rfl
  · rfl

theorem setAccessing_eq (b : Bitmap) (m : ByteMemory) (index : Nat) (value : Bool) :
    ((b.setAccessing m index value).1, (b.setAccessing m index value).2.1) =
      b.set m index value := by
  unfold setAccessing set
  split
  · rfl
  · cases value with
    | true => rfl
    | false => rfl

theorem mem_getAccessing {byteIndex : Nat} :
    byteIndex ∈ (b.getAccessing m index).2 ↔
      index ≤ wrap64 (b.size * 8) ∧ byteIndex = index / 8 := by
  unfold getAccessing
  split
  · simp only [List.not_mem_nil, false_iff]
    omega
  · simp only [List.mem_singleton, iff_and_self]
    omega

theorem mem_setAccessing {byteIndex : Nat} :
    byteIndex ∈ (b.setAccessing m index value).2.2 ↔
      index ≤ wrap64 (b.size * 8) ∧ byteIndex = index / 8 := by
  unfold setAccessing
  split
  · simp only [List.not_mem_nil, false_iff]
    omega
  · cases value with
    | true =>
        simp only [if_true, List.mem_cons, List.not_mem_nil, or_false, or_self, iff_and_self]
        omega
    | false =>
        simp only [Bool.false_eq_true, if_false, List.mem_singleton, iff_and_self]
        omega

theorem set_fst : (b.set m index value).1 = decide (index ≤ wrap64 (b.size * 8)) := by
  by_cases h : index ≤ wrap64 (b.size * 8)
  · simp [set_fst_of_le h, h]
  · simp [set_of_gt (Nat.lt_of_not_le h), h]

theorem inside_iff_guard :
    b.Inside m index value ↔
      (index ≤ wrap64 (b.size * 8) → index / 8 < b.size) ∧
        (index ≤ wrap64 (b.size * 8) ↔ index < b.size * 8) := by
  have hset := setAccessing_eq b m index value
  have hfst : (b.setAccessing m index value).1 = decide (index ≤ wrap64 (b.size * 8)) :=
    (congrArg Prod.fst hset).trans set_fst
  constructor
  · intro h
    refine ⟨fun hle => h.read _ (mem_getAccessing.mpr ⟨hle, rfl⟩), ?_⟩
    have haccepted := h.accepted
    rwa [hfst, decide_eq_true_iff] at haccepted
  · rintro ⟨hbyte, haccepted⟩
    refine ⟨?_, ?_, ?_, ?_⟩
    · intro byteIndex hmem
      obtain ⟨hle, rfl⟩ := mem_getAccessing.mp hmem
      exact hbyte hle
    · intro byteIndex hmem
      obtain ⟨hle, rfl⟩ := mem_setAccessing.mp hmem
      exact hbyte hle
    · rwa [hfst, decide_eq_true_iff]
    · intro hrefused
      rw [hfst, decide_eq_false_iff_not] at hrefused
      have hmem : (b.setAccessing m index value).2.1 = (b.set m index value).2 :=
        congrArg Prod.snd hset
      rw [hmem, set_of_gt (Nat.lt_of_not_le hrefused)]

/--
The one index that goes wrong is `Size * 8`, as long as this is a 64-bit number.
Of a larger bitmap only the indices up to the wrapped product are served.
-/
theorem inside_iff (b : Bitmap) (m : ByteMemory) (value : Bool) (hindex : index < 2 ^ 64) :
    b.Inside m index value ↔
      if b.size * 8 < 2 ^ 64 then index ≠ b.size * 8 else index ≤ b.size * 8 % 2 ^ 64 := by
  rw [inside_iff_guard]
  split
  · rename_i hsize
    rw [wrap64_of_lt hsize]
    omega
  · unfold wrap64
    omega

theorem inside_iff_lastBit : Inside ⟨1, 0⟩ (fun _ => 0) 7 true :=
  (inside_iff ⟨1, 0⟩ (fun _ => 0) true (by decide)).mpr (by decide)

/-- Of a bitmap of one byte, `Set` takes the index 8. -/
theorem not_inside_behind : ¬ Inside ⟨1, 0⟩ (fun _ => 0) 8 true := by
  intro h
  have hmem : 1 ∈ (setAccessing ⟨1, 0⟩ (fun _ => 0) 8 true).2.2 :=
    mem_setAccessing.mpr ⟨by decide, rfl⟩
  exact absurd (h.written 1 hmem) (by decide)

theorem setBits_set (hi : i < b.size * 8) (hle : i ≤ wrap64 (b.size * 8)) :
    (b.setBits (b.set m i value).2 : Int) = b.setBits m + bitChange (b.bit m i) value := by
  have hwritten : b.bit (b.set m i value).2 i = value := by rw [bit_set hle, if_pos rfl]
  have hother : ∀ j, j ≠ i → (b.bit (b.set m i value).2 j = true ↔ b.bit m j = true) := by
    intro j hj
    rw [bit_set hle, if_neg hj]
  by_cases hsame : b.bit m i = value
  · have hbits : ∀ j, b.bit (b.set m i value).2 j = b.bit m j := by
      intro j
      by_cases hj : j = i
      · rw [hj, hwritten, hsame]
      · rw [bit_set hle, if_neg hj]
    have hchange : bitChange (b.bit m i) value = 0 := by
      rw [hsame]
      cases value with
      | true => rfl
      | false => rfl
    simp only [setBits, hbits, hchange, Int.add_zero]
  · unfold setBits
    cases value with
    | true =>
        rw [count_insert hi hsame hwritten hother]
        simp [bitChange, hsame]
    | false =>
        have hold : b.bit m i = true := by simpa using hsame
        rw [count_insert hi (by simp [hwritten]) hold fun j hj => (hother j hj).symm]
        simp [bitChange, hold]

/-- What a `Set` that was accepted does to `Get`, and to the number of set bits. -/
theorem set_law (b : Bitmap) (m : ByteMemory) (j : Nat) (value : Bool) (hi : i < b.size * 8)
    (hset : (b.set m i value).1 = true) :
    (b.get (b.set m i value).2 j = if i = j then value else b.get m j) ∧
      (b.setBits (b.set m i value).2 : Int) = b.setBits m + bitChange (b.get m i) value := by
  rw [set_fst, decide_eq_true_iff] at hset
  constructor
  · simp [get_set, hset, eq_comm]
  · rw [get_of_le hset]
    exact setBits_set hi hset

theorem set_law_lastBit :
    get ⟨1, 0⟩ (set ⟨1, 0⟩ (fun _ => 0) 7 true).2 6 = false ∧
      (setBits ⟨1, 0⟩ (set ⟨1, 0⟩ (fun _ => 0) 7 true).2 : Int) =
        setBits ⟨1, 0⟩ (fun _ => 0) + 1 :=
  set_law ⟨1, 0⟩ (fun _ => 0) 6 true (i := 7) (by decide) (by decide)

end Accesses

end Bitmap

end UnifiedOS.Paging
