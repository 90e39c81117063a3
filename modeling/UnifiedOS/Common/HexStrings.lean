import UnifiedOS.Common.DecimalStrings

/-!
# Hexadecimal strings

`to_hstring` has a loop with two digits to a round that runs as many rounds as
there are digits, but one.  The digits of the value all come to their places.
The rounds that are too many read what lies behind the value on the stack, and
write what they make of it in front of the buffer.
-/

namespace UnifiedOS.Common

open UnifiedOS.Foundation UnifiedOS.Foundation.Numeral

/-- A conversion under way: the buffer, the bytes read from `valPtr` on and the indices written. -/
structure HexRun where
  output : CharArray
  reads : List Nat
  writes : List Int

/-- The bytes from the address of `value` on: its own, and those behind. -/
def bytesFrom {w : Nat} (value : BitVec w) (behind : Nat → Byte) (i : Nat) : Byte :=
  if i < w / 8 then value.extractLsb' (8 * i) 8 else behind i

namespace HexRun

def read (r : HexRun) (i : Nat) : HexRun := { r with reads := i :: r.reads }

def write (r : HexRun) (index : Int) (c : Byte) : HexRun :=
  { r with output := Function.update r.output index c, writes := index :: r.writes }

def hexChar (tmp : Byte) : Byte := tmp + if tmp > 9 then 55 else zeroChar

def convertByte (memory : Nat → Byte) (size : Nat) (r : HexRun) (i : Nat) : HexRun :=
  let byte := memory i
  let tmp := (byte &&& 0xF0) >>> 4
  let r := (r.read i).write (size - (i * 2 + 1)) (hexChar tmp)
  let tmp := byte &&& 0x0F
  (r.read i).write (size - (i * 2 + 0)) (hexChar tmp)

def convertBytes (memory : Nat → Byte) (size rounds : Nat) (r : HexRun) : HexRun :=
  (List.range rounds).foldl (convertByte memory size) r

/-- `to_hstring` of a value of `bytes` bytes. -/
def toHstring {w : Nat} (bytes : Nat) (value : BitVec w) (behind : Nat → Byte)
    (output : CharArray) : HexRun :=
  let size := bytes * 2 - 1
  (convertBytes (bytesFrom value behind) size size ⟨output, [], []⟩).write (size + 1) 0

end HexRun

def toHstring64 (value : BitVec 64) (behind : Nat → Byte) (output : CharArray) : HexRun :=
  HexRun.toHstring 8 value behind output

def toHstring32 (value : BitVec 32) (behind : Nat → Byte) (output : CharArray) : HexRun :=
  HexRun.toHstring 4 value behind output

def toHstring16 (value : BitVec 16) (behind : Nat → Byte) (output : CharArray) : HexRun :=
  HexRun.toHstring 2 value behind output

def toHstring8 (value : BitVec 8) (behind : Nat → Byte) (output : CharArray) : HexRun :=
  HexRun.toHstring 1 value behind output

structure HexFaithful {w : Nat} (value : BitVec w) (r : HexRun) : Prop where
  text : (hexadecimalString (w / 4) value.toNat).HeldBy r.output
  reads : ∀ i ∈ r.reads, i < w / 8
  writes : ∀ index ∈ r.writes, 0 ≤ index ∧ index ≤ w / 4

namespace HexRun

/-! ## The loop -/

def nibble (memory : Nat → Byte) (p : Nat) : Byte := memory (p / 2) >>> (4 * (p % 2)) &&& 0x0F

section Loop

variable {w bytes size rounds i p : Nat} {memory behind : Nat → Byte} {r : HexRun} {x : Int}
  {value : BitVec w} {output : CharArray}

theorem convertBytes_succ : convertBytes memory size (rounds + 1) r =
    convertByte memory size (convertBytes memory size rounds r) rounds := by
  rw [convertBytes, List.range_succ, List.foldl_append]
  rfl

theorem high_nibble (byte : Byte) : (byte &&& 0xF0) >>> 4 = byte >>> 4 &&& 0x0F := by
  revert byte
  decide

theorem convertByte_output : (convertByte memory size r i).output x =
    if x = size - (i * 2 : Nat) ∨ x = size - (i * 2 + 1 : Nat) then
      hexChar (nibble memory (size - x).toNat) else r.output x := by
  have heven : nibble memory (i * 2) = memory i &&& 0x0F := by simp [nibble]
  have hodd : nibble memory (i * 2 + 1) = memory i >>> 4 &&& 0x0F := by
    have hbyte : (i * 2 + 1) / 2 = i := by omega
    have hhalf : 4 * ((i * 2 + 1) % 2) = 4 := by omega
    rw [nibble, hbyte, hhalf]
  simp only [convertByte, write, read, Function.update_apply, high_nibble]
  by_cases hlow : x = size - (i * 2 : Nat)
  · have hp : (size - x : Int).toNat = i * 2 := by omega
    rw [if_pos (by omega), if_pos (.inl hlow), hp, heven]
  · rw [if_neg (by omega)]
    by_cases hhigh : x = size - (i * 2 + 1 : Nat)
    · have hp : (size - x : Int).toNat = i * 2 + 1 := by omega
      rw [if_pos (by omega), if_pos (.inr hhigh), hp, hodd]
    · rw [if_neg (by omega), if_neg (by omega)]

theorem convertBytes_output : (convertBytes memory size rounds r).output x =
    if size - (rounds * 2 : Nat) < x ∧ x ≤ size then
      hexChar (nibble memory (size - x).toNat) else r.output x := by
  induction rounds with
  | zero =>
      rw [if_neg (by omega)]
      rfl
  | succ rounds ih =>
      rw [convertBytes_succ, convertByte_output, ih]
      by_cases hnow : x = size - (rounds * 2 : Nat) ∨ x = size - (rounds * 2 + 1 : Nat)
      · rw [if_pos hnow, if_pos (by omega)]
      · rw [if_neg hnow]
        congr 1
        simp only [eq_iff_iff]
        omega

theorem mem_reads_convertBytes :
    i ∈ (convertBytes memory size rounds r).reads ↔ i < rounds ∨ i ∈ r.reads := by
  induction rounds with
  | zero => simp [convertBytes]
  | succ rounds ih =>
      rw [convertBytes_succ]
      simp only [convertByte, write, read, List.mem_cons, ih]
      by_cases hbefore : i ∈ r.reads
      · simp [hbefore]
      · simp only [hbefore, or_false]
        omega

theorem mem_writes_convertBytes :
    x ∈ (convertBytes memory size rounds r).writes ↔
      (size - (rounds * 2 : Nat) < x ∧ x ≤ size) ∨ x ∈ r.writes := by
  induction rounds with
  | zero =>
      simp only [convertBytes, List.range_zero, List.foldl_nil, iff_or_self]
      omega
  | succ rounds ih =>
      rw [convertBytes_succ]
      simp only [convertByte, write, read, List.mem_cons, ih]
      by_cases hbefore : x ∈ r.writes
      · simp [hbefore]
      · simp only [hbefore, or_false]
        omega

/-! ## The digits -/

theorem toNat_nibble (value : BitVec w) (behind : Nat → Byte) (hw : w = 8 * bytes)
    (hp : p < 2 * bytes) :
    (nibble (bytesFrom value behind) p).toNat = value.toNat / 16 ^ p % 16 := by
  have hbyte : p / 2 < w / 8 := by omega
  have hmask : (0x0F : Byte).toNat = 2 ^ 4 - 1 := rfl
  rw [nibble, bytesFrom, if_pos hbyte, BitVec.toNat_and, hmask, Nat.and_two_pow_sub_one_eq_mod,
    BitVec.toNat_ushiftRight, BitVec.extractLsb'_toNat, Nat.shiftRight_eq_div_pow,
    Nat.shiftRight_eq_div_pow]
  have hpow : 16 ^ p = 2 ^ (8 * (p / 2)) * 2 ^ (4 * (p % 2)) := by
    have hexp : 4 * p = 8 * (p / 2) + 4 * (p % 2) := by omega
    rw [← pow_add, ← hexp, pow_mul]
    norm_num
  rw [hpow, ← Nat.div_div_eq_div_mul]
  rcases Nat.mod_two_eq_zero_or_one p with heven | hodd
  · rw [heven]
    omega
  · rw [hodd]
    omega

theorem hexChar_of_lt {tmp : Byte} (h : tmp.toNat < 16) :
    hexChar tmp = upperHexDigits.getD tmp.toNat 0 := by
  have hall : ∀ tmp : Byte, tmp.toNat < 16 → hexChar tmp = upperHexDigits.getD tmp.toNat 0 := by
    decide
  exact hall tmp h

theorem toHstring_text (hw : w = 8 * bytes) (hpos : 0 < bytes) (value : BitVec w)
    (behind : Nat → Byte) (output : CharArray) :
    (hexadecimalString (w / 4) value.toNat).HeldBy
      (toHstring bytes value behind output).output := by
  have hchars : (hexadecimalString (w / 4) value.toNat).chars.length = w / 4 :=
    length_hexadecimal _ _
  apply CString.heldBy_of_getElem
  · intro i hi
    rw [hchars] at hi
    have hplace : (((bytes * 2 - 1 : Nat) : Int) - i).toNat = w / 4 - 1 - i := by omega
    have hvalue := toNat_nibble value behind hw (show w / 4 - 1 - i < 2 * bytes by omega)
    simp only [toHstring, write]
    rw [Function.update_of_ne (by omega), convertBytes_output, if_pos (by omega), hplace,
      hexChar_of_lt (by rw [hvalue]; omega), hvalue]
    simp [hexadecimalString, hexadecimal]
  · have hend : ((w / 4 : Nat) : Int) = (bytes * 2 - 1 : Nat) + 1 := by omega
    simp only [toHstring, write, hchars, hend, Function.update_self]

/-- Only a single byte is converted without another access. -/
theorem toHstring_faithful_iff (hw : w = 8 * bytes) (hpos : 0 < bytes) (value : BitVec w)
    (behind : Nat → Byte) (output : CharArray) :
    HexFaithful value (toHstring bytes value behind output) ↔ bytes = 1 := by
  have hreads : ∀ i, i ∈ (toHstring bytes value behind output).reads ↔ i < bytes * 2 - 1 := by
    intro i
    simp only [toHstring, write, mem_reads_convertBytes, List.not_mem_nil, or_false]
  constructor
  · intro h
    have hlast := h.reads (bytes * 2 - 2) ((hreads _).mpr (by omega))
    omega
  · rintro rfl
    refine ⟨toHstring_text hw hpos value behind output, ?_, ?_⟩
    · intro i hi
      rw [hreads] at hi
      omega
    · intro x hx
      simp only [toHstring, write, List.mem_cons, mem_writes_convertBytes, List.not_mem_nil,
        or_false] at hx
      omega

theorem toHstring_writes_before (hbytes : 2 ≤ bytes) :
    -1 ∈ (toHstring bytes value behind output).writes := by
  simp only [toHstring, write, List.mem_cons, mem_writes_convertBytes, List.not_mem_nil,
    or_false]
  omega

end Loop

end HexRun

theorem toHstring8_faithful (value : BitVec 8) (behind : Nat → Byte) (output : CharArray) :
    HexFaithful value (toHstring8 value behind output) :=
  (HexRun.toHstring_faithful_iff rfl (by decide) value behind output).mpr rfl

/-- No value of more than one byte is converted in bounds, though all strings are right. -/
theorem toHstring_never_faithful (behind : Nat → Byte) (output : CharArray) :
    (∀ value : BitVec 64, ¬ HexFaithful value (toHstring64 value behind output)) ∧
      (∀ value : BitVec 32, ¬ HexFaithful value (toHstring32 value behind output)) ∧
      ∀ value : BitVec 16, ¬ HexFaithful value (toHstring16 value behind output) := by
  refine ⟨?_, ?_, ?_⟩
  · intro value h
    have hbytes := (HexRun.toHstring_faithful_iff (show 64 = 8 * 8 from rfl) (by decide) value
      behind output).mp h
    contradiction
  · intro value h
    have hbytes := (HexRun.toHstring_faithful_iff (show 32 = 8 * 4 from rfl) (by decide) value
      behind output).mp h
    contradiction
  · intro value h
    have hbytes := (HexRun.toHstring_faithful_iff (show 16 = 8 * 2 from rfl) (by decide) value
      behind output).mp h
    contradiction

/-- Converting a 16-bit zero reads the byte behind it. -/
theorem toHstring16_reads_behind :
    ¬ HexFaithful (0 : BitVec 16) (toHstring16 0 (fun _ => 0) fun _ => 0) := by
  intro h
  exact absurd (h.reads 2 (by decide)) (by decide)

end UnifiedOS.Common
