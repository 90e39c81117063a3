import UnifiedOS.Foundation.ByteMemory
import Mathlib.Data.List.GetD
import Mathlib.Data.Nat.Digits.Lemmas

/-!
# Numerals as text

A C string is a list of characters other than NUL, and a memory holds it from
index 0 on if the characters are there with a NUL behind them.  The numeral of a
number has its digits highest first, at least one, and no zero in front of
others; an integer below zero has a sign before them.
-/

namespace UnifiedOS.Foundation

/-! ## C strings -/

structure CString where
  chars : List Byte
  noNul : ∀ c ∈ chars, c ≠ 0

namespace CString

/-- What a pointer to the string finds at `p[i]`, the final NUL included. -/
def charAt (s : CString) (i : Nat) : Byte := s.chars.getD i 0

def HeldBy (s : CString) (m : Int → Byte) : Prop :=
  ∀ i ≤ s.chars.length, m i = s.charAt i

/-- Whoever reads a string from index 0 finds the same in both memories. -/
def SameIn (m m' : Int → Byte) : Prop := ∀ s : CString, s.HeldBy m ↔ s.HeldBy m'

variable {s : CString} {m m' : Int → Byte} {i : Nat}

theorem charAt_of_lt (h : i < s.chars.length) : s.charAt i = s.chars[i] :=
  List.getD_eq_getElem s.chars 0 h

theorem charAt_length (s : CString) : s.charAt s.chars.length = 0 :=
  List.getD_eq_default s.chars 0 (Nat.le_refl _)

theorem HeldBy.getElem (h : s.HeldBy m) (hi : i < s.chars.length) : m i = s.chars[i] :=
  (h i (Nat.le_of_lt hi)).trans (charAt_of_lt hi)

theorem HeldBy.terminated (h : s.HeldBy m) : m s.chars.length = 0 :=
  (h _ (Nat.le_refl _)).trans (charAt_length s)

theorem heldBy_of_getElem (hchars : ∀ i (hi : i < s.chars.length), m i = s.chars[i])
    (hend : m s.chars.length = 0) : s.HeldBy m := by
  intro i hi
  rcases Nat.lt_or_eq_of_le hi with hlt | rfl
  · rw [hchars i hlt, charAt_of_lt hlt]
  · rw [hend, charAt_length]

theorem HeldBy.not_sameIn (h : s.HeldBy m) (hend : m' s.chars.length ≠ 0) : ¬ SameIn m m' :=
  fun hsame => hend ((hsame s).mp h).terminated

end CString

namespace Numeral

/-! ## Digits, the highest first -/

def digits (base n : Nat) : List Nat := if n = 0 then [0] else (Nat.digits base n).reverse

def value (base : Nat) (l : List Nat) : Nat := Nat.ofDigits base l.reverse

section Digits

variable {base n i : Nat} {l : List Nat}

theorem length_digits (hbase : 1 < base) (n : Nat) :
    (digits base n).length = Nat.log base n + 1 := by
  unfold digits
  split
  · rename_i hzero
    simp [hzero]
  · rename_i hn
    rw [List.length_reverse, Nat.length_digits base n hbase hn]

theorem value_digits (base n : Nat) : value base (digits base n) = n := by
  unfold digits value
  split
  · rename_i hzero
    simp [hzero]
  · rw [List.reverse_reverse, Nat.ofDigits_digits]

theorem digits_lt (hbase : 1 < base) : ∀ d ∈ digits base n, d < base := by
  unfold digits
  split
  · simp only [List.mem_singleton, forall_eq]
    omega
  · intro d hd
    exact Nat.digits_lt_base hbase (List.mem_reverse.mp hd)

theorem getElem_digits (hbase : 1 < base) (hi : i < (digits base n).length) :
    (digits base n)[i] = n / base ^ (Nat.log base n - i) % base := by
  have hlength := length_digits hbase n
  unfold digits at hi hlength ⊢
  split
  · rename_i hzero
    simp [hzero]
  · rename_i hn
    rw [if_neg hn, List.length_reverse] at hlength
    have hplace : Nat.log base n - i < (Nat.digits base n).length := by omega
    rw [List.getElem_reverse, ← Nat.getD_digits n _ hbase, List.getD_eq_getElem _ _ hplace]
    congr 1
    omega

theorem head_digits (hn : n ≠ 0) : (digits base n).head? ≠ some 0 := by
  intro hhead
  have hne : Nat.digits base n ≠ [] := Nat.digits_ne_nil_iff_ne_zero.mpr hn
  rw [digits, if_neg hn, List.head?_reverse, List.getLast?_eq_some_getLast hne,
    Option.some.injEq] at hhead
  exact Nat.getLast_digit_ne_zero base hn hhead

theorem value_lt (hbase : 1 < base) (h : ∀ d ∈ l, d < base) :
    value base l < base ^ l.length := by
  have hlt := Nat.ofDigits_lt_base_pow_length hbase fun d hd => h d (List.mem_reverse.mp hd)
  rwa [List.length_reverse] at hlt

end Digits

/-! ## Decimal text -/

def zeroChar : Byte := 0x30#8

def minusChar : Byte := 0x2D#8

def digitChar (d : Nat) : Byte := BitVec.ofNat 8 d + zeroChar

def isDigit (c : Byte) : Bool := zeroChar ≤ c && c.toNat ≤ 0x39

def digitValue (c : Byte) : Nat := c.toNat - zeroChar.toNat

/-- What an unsigned numeral says: one digit or more, and nothing else. -/
def parseNat (text : List Byte) : Option Nat :=
  if text ≠ [] ∧ text.all isDigit = true then some (value 10 (text.map digitValue)) else none

def parseInt : List Byte → Option Int
  | [] => none
  | c :: text =>
      if c = minusChar then (parseNat text).map fun n : Nat => -(n : Int)
      else (parseNat (c :: text)).map fun n : Nat => (n : Int)

def magnitude : List Byte → List Byte
  | [] => []
  | c :: text => if c = minusChar then text else c :: text

/-- The numeral of `v` as it is written: it can be read, and nothing in it could be left out. -/
structure IsNumeralOf (text : List Byte) (v : Int) : Prop where
  parses : parseInt text = some v
  noLeadingZero : (magnitude text).head? = some zeroChar → magnitude text = [zeroChar]
  noMinusZero : text.head? = some minusChar → v ≠ 0

def decimal (n : Nat) : List Byte := (digits 10 n).map digitChar

def signedDecimal (v : Int) : List Byte :=
  if v < 0 then minusChar :: decimal v.natAbs else decimal v.natAbs

section Text

variable {n d i : Nat} {v : Int} {text : List Byte}

theorem toNat_digitChar (h : d < 10) : (digitChar d).toNat = 48 + d := by
  rw [digitChar, BitVec.toNat_add, BitVec.toNat_ofNat]
  change (d % 256 + 48) % 256 = 48 + d
  omega

theorem isDigit_digitChar (h : d < 10) : isDigit (digitChar d) = true := by
  have hvalue := toNat_digitChar h
  simp only [isDigit, zeroChar, BitVec.le_def, BitVec.toNat_ofNat, hvalue, Bool.and_eq_true,
    decide_eq_true_eq]
  omega

theorem digitValue_digitChar (h : d < 10) : digitValue (digitChar d) = d := by
  rw [digitValue, toNat_digitChar h]
  exact Nat.add_sub_cancel_left ..

theorem isDigit_iff {c : Byte} : isDigit c = true ↔ 48 ≤ c.toNat ∧ c.toNat ≤ 57 := by
  simp [isDigit, zeroChar, BitVec.le_def]

theorem digitChar_ne_zero (h : d < 10) : digitChar d ≠ 0 := by
  intro hzero
  have hvalue := toNat_digitChar h
  rw [hzero] at hvalue
  change 0 = 48 + d at hvalue
  omega

theorem digitChar_eq_zero_iff (h : d < 10) : digitChar d = zeroChar ↔ d = 0 := by
  constructor
  · intro hzero
    have hvalue := toNat_digitChar h
    rw [hzero] at hvalue
    change 48 = 48 + d at hvalue
    omega
  · rintro rfl
    rfl

theorem length_decimal (n : Nat) : (decimal n).length = Nat.log 10 n + 1 := by
  rw [decimal, List.length_map, length_digits (by decide)]

theorem getElem_decimal (hi : i < (decimal n).length) :
    (decimal n)[i] = digitChar (n / 10 ^ (Nat.log 10 n - i) % 10) := by
  simp only [decimal, List.getElem_map, getElem_digits (show 1 < 10 by decide)]

theorem decimal_isDigit : ∀ c ∈ decimal n, isDigit c = true := by
  intro c hc
  obtain ⟨d, hd, rfl⟩ := List.mem_map.mp hc
  exact isDigit_digitChar (digits_lt (by decide) d hd)

theorem decimal_ne_nil (n : Nat) : decimal n ≠ [] := by
  intro hnil
  have hlength := length_decimal n
  rw [hnil] at hlength
  simp at hlength

theorem parseNat_decimal (n : Nat) : parseNat (decimal n) = some n := by
  have hvalues : (decimal n).map digitValue = digits 10 n := by
    rw [decimal, List.map_map]
    refine (List.map_congr_left fun d hd => ?_).trans (List.map_id _)
    exact digitValue_digitChar (digits_lt (by decide) d hd)
  rw [parseNat, if_pos ⟨decimal_ne_nil n, List.all_eq_true.mpr decimal_isDigit⟩, hvalues,
    value_digits]

theorem head_decimal (h : (decimal n).head? = some zeroChar) : decimal n = [zeroChar] := by
  rcases Nat.eq_zero_or_pos n with rfl | hpos
  · rfl
  · have hlt : ∀ d ∈ digits 10 n, d < 10 := digits_lt (by decide)
    have hhead : (digits 10 n).head? ≠ some 0 := head_digits (Nat.ne_of_gt hpos)
    rw [decimal] at h
    cases hdigits : digits 10 n with
    | nil => simp [hdigits] at h
    | cons d rest =>
        rw [hdigits] at h hlt hhead
        have hd := (digitChar_eq_zero_iff (hlt d List.mem_cons_self)).mp (by simpa using h)
        simp [hd] at hhead

theorem decimal_cons (n : Nat) : ∃ c text, decimal n = c :: text ∧ c ≠ minusChar := by
  cases hdecimal : decimal n with
  | nil => exact absurd hdecimal (decimal_ne_nil n)
  | cons c text =>
      refine ⟨c, text, rfl, ?_⟩
      rintro rfl
      have hdigit := decimal_isDigit (n := n) minusChar (by simp [hdecimal])
      exact absurd hdigit (by decide)

theorem isNumeralOf_signedDecimal (v : Int) : IsNumeralOf (signedDecimal v) v := by
  unfold signedDecimal
  split
  · rename_i hneg
    refine ⟨?_, ?_, fun _ => by omega⟩
    · rw [parseInt, if_pos rfl, parseNat_decimal, Option.map_some, Option.some.injEq]
      omega
    · rw [magnitude, if_pos rfl]
      exact head_decimal
  · rename_i hnonneg
    obtain ⟨c, text, hdecimal, hc⟩ := decimal_cons v.natAbs
    have hparses := parseNat_decimal v.natAbs
    have hhead := head_decimal (n := v.natAbs)
    rw [hdecimal] at hparses hhead ⊢
    refine ⟨?_, ?_, ?_⟩
    · rw [parseInt, if_neg hc, hparses, Option.map_some, Option.some.injEq]
      omega
    · rwa [magnitude, if_neg hc]
    · intro hminus
      exact absurd (by simpa using hminus) hc

theorem length_signedDecimal (v : Int) : (signedDecimal v).length =
    (if v < 0 then 1 else 0) + Nat.log 10 v.natAbs + 1 := by
  have hlength := length_decimal v.natAbs
  unfold signedDecimal
  split
  · rw [List.length_cons, hlength]
    omega
  · rw [hlength, Nat.zero_add]

theorem signedDecimal_noNul (v : Int) : ∀ c ∈ signedDecimal v, c ≠ 0 := by
  have hdigits : ∀ c ∈ decimal v.natAbs, c ≠ 0 := by
    rintro c hc rfl
    exact absurd (decimal_isDigit 0 hc) (by decide)
  unfold signedDecimal
  split
  · exact List.forall_mem_cons.mpr ⟨by decide, hdigits⟩
  · exact hdigits

def signedDecimalString (v : Int) : CString := ⟨signedDecimal v, signedDecimal_noNul v⟩

theorem IsNumeralOf.digits_of_neg (h : IsNumeralOf text v) (hneg : v < 0) :
    ∃ rest, text = minusChar :: rest ∧ (∀ c ∈ rest, isDigit c = true) ∧
      v.natAbs < 10 ^ rest.length := by
  have hparses := h.parses
  cases text with
  | nil => simp [parseInt] at hparses
  | cons c rest =>
      rw [parseInt] at hparses
      by_cases hc : c = minusChar
      · rw [if_pos hc, Option.map_eq_some_iff] at hparses
        obtain ⟨n, hn, rfl⟩ := hparses
        rw [parseNat] at hn
        split at hn
        · rename_i hdigits
          have hall := List.all_eq_true.mp hdigits.2
          have hvalues : ∀ d ∈ rest.map digitValue, d < 10 := by
            intro d hd
            obtain ⟨c, hc, rfl⟩ := List.mem_map.mp hd
            have hbounds := isDigit_iff.mp (hall c hc)
            change c.toNat - 48 < 10
            omega
          have hlt := value_lt (by decide) hvalues
          rw [Option.some.inj hn, List.length_map] at hlt
          exact ⟨rest, by rw [hc], hall, by omega⟩
        · contradiction
      · rw [if_neg hc, Option.map_eq_some_iff] at hparses
        obtain ⟨n, -, rfl⟩ := hparses
        omega

end Text

/-! ## Hexadecimal text -/

def upperHexDigits : List Byte :=
  [0x30#8, 0x31#8, 0x32#8, 0x33#8, 0x34#8, 0x35#8, 0x36#8, 0x37#8, 0x38#8, 0x39#8,
    0x41#8, 0x42#8, 0x43#8, 0x44#8, 0x45#8, 0x46#8]

def hexadecimal (count n : Nat) : List Byte :=
  (List.range count).map fun i => upperHexDigits.getD (n / 16 ^ (count - 1 - i) % 16) 0

theorem length_hexadecimal (count n : Nat) : (hexadecimal count n).length = count := by
  simp [hexadecimal]

theorem hexadecimal_noNul (count n : Nat) : ∀ c ∈ hexadecimal count n, c ≠ 0 := by
  intro c hc
  obtain ⟨i, -, rfl⟩ := List.mem_map.mp hc
  have hdigits : ∀ d < 16, upperHexDigits.getD d 0 ≠ 0 := by decide
  exact hdigits _ (Nat.mod_lt _ (by decide))

def hexadecimalString (count n : Nat) : CString := ⟨hexadecimal count n, hexadecimal_noNul count n⟩

end Numeral

end UnifiedOS.Foundation
