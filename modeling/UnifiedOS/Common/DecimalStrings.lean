import UnifiedOS.Foundation.Numeral
import Mathlib.Logic.Function.Basic
import Mathlib.Tactic.IntervalCases

/-!
# Decimal strings

`to_string` counts the digits of a value in a `uint8_t` that it has not set, and
writes them backwards from where the count points to.  The counter has to start
at 0 for the string to begin at the start of the buffer.
-/

namespace UnifiedOS.Common

open UnifiedOS.Foundation UnifiedOS.Foundation.Numeral

/-- A global array of characters with what lies around it, by the index. -/
abbrev CharArray := Int → Byte

/-- `while(sizeTest / 10 > 0)`, which counts all digits but one. -/
def countDigits (sizeTest : Nat) (size : BitVec 8) : BitVec 8 :=
  if sizeTest / 10 > 0 then countDigits (sizeTest / 10) (size + 1) else size
termination_by sizeTest
decreasing_by omega

theorem toNat_tdiv_lt {value : Int} (h : value.tdiv 10 > 0) :
    (value.tdiv 10).toNat < value.toNat := by
  rcases Int.lt_or_le value 0 with hneg | hnonneg
  · have hquotient : value.tdiv 10 ≤ 0 := by
      rw [← Int.neg_neg value, Int.neg_tdiv, Int.tdiv_eq_ediv_of_nonneg (by omega)]
      omega
    omega
  · rw [Int.tdiv_eq_ediv_of_nonneg hnonneg] at h ⊢
    omega

/--
`while(value / 10 > 0)` and the digit behind the loop.  Both write `value % 10`
`index` places before `last`.
-/
def writeDigits (last value : Int) (index : BitVec 8) (output : CharArray) : CharArray :=
  let remainder := BitVec.ofInt 8 (value.tmod 10)
  let written := Function.update output (last - index.toNat) (remainder + zeroChar)
  if value.tdiv 10 > 0 then writeDigits last (value.tdiv 10) (index + 1) written else written
termination_by value.toNat
decreasing_by exact toNat_tdiv_lt (by assumption)

def writeNumber (last value : Int) (output : CharArray) : CharArray :=
  Function.update (writeDigits last value 0 output) (last + 1) 0

/-- `to_string(uint64_t)`, with what `size` holds before it is counted up. -/
def toStringUInt64 (value : BitVec 64) (size : BitVec 8) (output : CharArray) : CharArray :=
  let size := countDigits value.toNat size
  writeNumber size.toNat value.toNat output

/-- `to_string(int64_t)`; the negation wraps. -/
def toStringInt64 (value : BitVec 64) (size : BitVec 8) (output : CharArray) : CharArray :=
  let isNegative : BitVec 8 := if value.toInt < 0 then 1 else 0
  let output := if value.toInt < 0 then Function.update output 0 minusChar else output
  let value := if value.toInt < 0 then -value else value
  let size := countDigits value.toNat size
  writeNumber (isNegative.toNat + size.toNat) value.toInt output

def HoldsNumeral (output : CharArray) (v : Int) : Prop :=
  ∃ s : CString, s.HeldBy output ∧ IsNumeralOf s.chars v

def IndependentOfSize (convert : BitVec 8 → CharArray) : Prop :=
  ∀ size size' : BitVec 8, CString.SameIn (convert size) (convert size')

/-! ## The two loops -/

section Loops

variable {n : Nat} {last x : Int} {index size : BitVec 8} {output : CharArray}

theorem countDigits_eq (n : Nat) (size : BitVec 8) :
    countDigits n size = size + BitVec.ofNat 8 (Nat.log 10 n) := by
  induction n using Nat.strong_induction_on generalizing size with
  | h n ih =>
      rw [countDigits]
      by_cases hmore : 10 ≤ n
      · rw [if_pos (by omega), ih (n / 10) (by omega),
          Nat.log_of_one_lt_of_le (by decide) hmore, BitVec.ofNat_add]
        ac_rfl
      · rw [if_neg (by omega), Nat.log_of_lt (by omega)]
        simp

theorem toNat_countDigits (h : size.toNat + Nat.log 10 n < 2 ^ 8) :
    (countDigits n size).toNat = size.toNat + Nat.log 10 n := by
  rw [countDigits_eq, BitVec.toNat_add, BitVec.toNat_ofNat]
  omega

theorem log_lt_twenty (h : n < 2 ^ 64) : Nat.log 10 n < 20 :=
  Nat.log_lt_of_lt_pow' (by decide) (Nat.lt_trans h (by norm_num))

theorem writeDigits_at (hindex : index.toNat + Nat.log 10 n < 2 ^ 8) :
    writeDigits last n index output x =
      if last - index.toNat - Nat.log 10 n ≤ x ∧ x ≤ last - index.toNat then
        digitChar (n / 10 ^ (last - index.toNat - x).toNat % 10) else output x := by
  induction n using Nat.strong_induction_on generalizing index output with
  | h n ih =>
      have hdigit : BitVec.ofInt 8 ((n : Int).tmod 10) + zeroChar = digitChar (n % 10) := rfl
      have hquotient : (n : Int).tdiv 10 = (n / 10 : Nat) := rfl
      rw [writeDigits, hdigit, hquotient]
      by_cases hmore : 10 ≤ n
      · have hlog := Nat.log_of_one_lt_of_le (b := 10) (by decide) hmore
        have hnext : (index + 1).toNat = index.toNat + 1 := by
          rw [BitVec.toNat_add]
          exact Nat.mod_eq_of_lt (by change index.toNat + 1 < 2 ^ 8; omega)
        rw [if_pos (by omega), ih (n / 10) (by omega) (by omega), hnext, hlog]
        by_cases hlowest : x = last - index.toNat
        · rw [if_neg (by omega), if_pos (by omega), hlowest, Function.update_self, Int.sub_self]
          simp
        · rw [Function.update_of_ne hlowest]
          by_cases hplace : last - index.toNat - (Nat.log 10 (n / 10) + 1 : Nat) ≤ x ∧
              x ≤ last - index.toNat
          · have hexp : (last - index.toNat - x).toNat =
                (last - (index.toNat + 1 : Nat) - x).toNat + 1 := by omega
            rw [if_pos hplace, if_pos (by omega), hexp, pow_succ', Nat.div_div_eq_div_mul]
          · rw [if_neg hplace, if_neg (by omega)]
      · have hlog : Nat.log 10 n = 0 := Nat.log_of_lt (by omega)
        rw [if_neg (by omega), hlog]
        by_cases hlowest : x = last - index.toNat
        · rw [if_pos (by omega), hlowest, Function.update_self, Int.sub_self]
          simp
        · rw [Function.update_of_ne hlowest, if_neg (by omega)]

theorem writeNumber_at (hn : n < 2 ^ 64) :
    writeNumber last n output x =
      if x = last + 1 then 0
      else if last - Nat.log 10 n ≤ x ∧ x ≤ last then
        digitChar (n / 10 ^ (last - x).toNat % 10) else output x := by
  have hlog := log_lt_twenty hn
  rw [writeNumber, Function.update_apply, writeDigits_at (by simp; omega)]
  simp

theorem writeNumber_last (hn : n < 2 ^ 64) : writeNumber last n output last ≠ 0 := by
  rw [writeNumber_at hn, if_neg (by omega), if_pos (by omega)]
  exact digitChar_ne_zero (Nat.mod_lt _ (by decide))

end Loops

/-! ## What the buffer holds -/

section Strings

variable {n i : Nat} {v : Int} {value : BitVec 64} {size : BitVec 8} {output : CharArray}

theorem writeNumber_decimal (start : Int) (output : CharArray) (hn : n < 2 ^ 64)
    (hi : i < (decimal n).length) :
    writeNumber (start + Nat.log 10 n) n output (start + i) = (decimal n)[i] := by
  have hlength := length_decimal n
  have hplace : (start + Nat.log 10 n - (start + i)).toNat = Nat.log 10 n - i := by omega
  rw [writeNumber_at hn, if_neg (by omega), if_pos (by omega), hplace, getElem_decimal]

theorem writeNumber_end (start : Int) (output : CharArray) (hn : n < 2 ^ 64) :
    writeNumber (start + Nat.log 10 n) n output (start + (decimal n).length) = 0 := by
  have hlength := length_decimal n
  rw [writeNumber_at hn, if_pos (by omega)]

theorem heldBy_signedDecimal (output : CharArray) (hv : v.natAbs < 2 ^ 64)
    (hsign : v < 0 → output 0 = minusChar) :
    (signedDecimalString v).HeldBy
      (writeNumber ((if v < 0 then 1 else 0) + Nat.log 10 v.natAbs) v.natAbs output) := by
  by_cases hneg : v < 0
  · have hchars : (signedDecimalString v).chars = minusChar :: decimal v.natAbs := if_pos hneg
    rw [if_pos hneg]
    apply CString.heldBy_of_getElem
    · simp only [hchars]
      intro i hi
      cases i with
      | zero =>
          change writeNumber (1 + _) _ output 0 = minusChar
          rw [writeNumber_at hv, if_neg (by omega), if_neg (by omega)]
          exact hsign hneg
      | succ i =>
          have hindex : ((i + 1 : Nat) : Int) = 1 + i := by omega
          rw [hindex, List.getElem_cons_succ]
          exact writeNumber_decimal 1 output hv (by simpa using hi)
    · have hindex : ((minusChar :: decimal v.natAbs).length : Int) =
          1 + (decimal v.natAbs).length := by
        rw [List.length_cons]
        omega
      rw [hchars, hindex]
      exact writeNumber_end 1 output hv
  · have hchars : (signedDecimalString v).chars = decimal v.natAbs := if_neg hneg
    rw [if_neg hneg]
    apply CString.heldBy_of_getElem
    · simp only [hchars]
      intro i hi
      have hdigit := writeNumber_decimal 0 output hv hi
      rwa [Int.zero_add (i : Int)] at hdigit
    · rw [hchars]
      have hend := writeNumber_end 0 output hv
      rwa [Int.zero_add ((decimal v.natAbs).length : Int)] at hend

theorem natAbs_toInt_lt (value : BitVec 64) : value.toInt.natAbs < 2 ^ 64 := by
  have hlo := value.le_toInt
  have hhi := value.toInt_lt
  omega

theorem toStringUInt64_eq (h : size.toNat + Nat.log 10 value.toNat < 2 ^ 8) :
    toStringUInt64 value size output =
      writeNumber (size.toNat + Nat.log 10 value.toNat : Nat) value.toNat output := by
  rw [toStringUInt64, toNat_countDigits h]

theorem toStringInt64_eq (hvalue : value ≠ BitVec.intMin 64)
    (h : size.toNat + Nat.log 10 value.toInt.natAbs < 2 ^ 8) :
    toStringInt64 value size output =
      writeNumber ((if value.toInt < 0 then 1 else 0) +
          (size.toNat + Nat.log 10 value.toInt.natAbs : Nat)) value.toInt.natAbs
        (if value.toInt < 0 then Function.update output 0 minusChar else output) := by
  unfold toStringInt64
  by_cases hneg : value.toInt < 0
  · have htoInt : (-value).toInt = value.toInt.natAbs := by
      rw [BitVec.toInt_neg_of_ne_intMin hvalue]
      omega
    have htoNat : (-value).toNat = value.toInt.natAbs := by
      have hsign := BitVec.toInt_eq_toNat_cond (-value)
      have hlt := (-value).isLt
      split at hsign <;> omega
    simp only [if_pos hneg, htoInt, htoNat, toNat_countDigits h]
    rfl
  · have htoInt : value.toInt = value.toInt.natAbs := by omega
    have htoNat : value.toNat = value.toInt.natAbs := by
      have hsign := BitVec.toInt_eq_toNat_cond value
      have hlt := value.isLt
      split at hsign <;> omega
    have hcount : (countDigits value.toNat size).toNat =
        size.toNat + Nat.log 10 value.toInt.natAbs := by
      rw [htoNat]
      exact toNat_countDigits h
    simp only [if_neg hneg, hcount, ← htoInt]
    rfl

/-- The one value that its negation leaves negative: one character is written, which is no
digit. -/
theorem toStringInt64_intMin (size : BitVec 8) (output : CharArray) :
    toStringInt64 (BitVec.intMin 64) size output =
      let last : Int := 1 + (size + 18).toNat
      Function.update (Function.update (Function.update output 0 minusChar) last 0x28#8)
        (last + 1) 0 := by
  have hneg : (BitVec.intMin 64).toInt < 0 := by decide
  have hsame : -BitVec.intMin 64 = BitVec.intMin 64 := by decide
  have hlog : Nat.log 10 (BitVec.intMin 64).toNat = 18 :=
    Nat.log_eq_of_pow_le_of_lt_pow (by decide) (by decide)
  have hcount : countDigits (BitVec.intMin 64).toNat size = size + 18 := by
    rw [countDigits_eq, hlog]
    rfl
  simp only [toStringInt64, if_pos hneg, hsame, hcount, writeNumber]
  rw [writeDigits, if_neg (by decide)]
  simp
  rfl

/-! ## The numerals -/

theorem toStringUInt64_heldBy (value : BitVec 64) (output : CharArray) :
    (signedDecimalString value.toNat).HeldBy (toStringUInt64 value 0 output) := by
  have hlog := log_lt_twenty value.isLt
  have hnonneg : ¬ (value.toNat : Int) < 0 := by omega
  have hheld := heldBy_signedDecimal (v := value.toNat) output (by simpa using value.isLt)
    (fun hneg => absurd hneg hnonneg)
  rw [if_neg hnonneg] at hheld
  rw [toStringUInt64_eq (by simp; omega)]
  simpa using hheld

theorem toStringInt64_heldBy (hvalue : value ≠ BitVec.intMin 64) (output : CharArray) :
    (signedDecimalString value.toInt).HeldBy (toStringInt64 value 0 output) := by
  have hlt := natAbs_toInt_lt value
  have hlog := log_lt_twenty hlt
  have hheld := heldBy_signedDecimal
    (if value.toInt < 0 then Function.update output 0 minusChar else output) hlt
    (fun hneg => by rw [if_pos hneg, Function.update_self])
  rw [toStringInt64_eq hvalue (by simp; omega)]
  simpa using hheld

theorem intMin_not_holdsNumeral (output : CharArray) :
    ¬ HoldsNumeral (toStringInt64 (BitVec.intMin 64) 0 output)
      (BitVec.intMin 64).toInt := by
  rintro ⟨s, hheld, hnumeral⟩
  obtain ⟨rest, hchars, hdigits, hvalue⟩ := hnumeral.digits_of_neg (by decide)
  have hlength : 19 ≤ rest.length := by
    by_contra hshort
    have hpow : 10 ^ rest.length ≤ 10 ^ 18 := Nat.pow_le_pow_right (by decide) (by omega)
    have habs : (BitVec.intMin 64).toInt.natAbs = 2 ^ 63 := by decide
    omega
  have hi : 19 < s.chars.length := by
    rw [hchars, List.length_cons]
    omega
  have hchar := hheld.getElem hi
  have hparenthesis : toStringInt64 (BitVec.intMin 64) 0 output (19 : Nat) = 0x28#8 := by
    rw [toStringInt64_intMin]
    rfl
  have hdigit : isDigit s.chars[19] = true := by
    simp only [hchars, List.getElem_cons_succ]
    exact hdigits _ (List.getElem_mem _)
  rw [← hchar, hparenthesis] at hdigit
  exact absurd hdigit (by decide)

/-- Where `size` starts at 0, the only wrong string is that of the most negative value. -/
theorem toString_holdsNumeral_iff (value : BitVec 64) (output : CharArray) :
    HoldsNumeral (toStringUInt64 value 0 output) value.toNat ∧
    (HoldsNumeral (toStringInt64 value 0 output) value.toInt ↔ value ≠ BitVec.intMin 64) := by
  constructor
  · exact ⟨_, toStringUInt64_heldBy value output, isNumeralOf_signedDecimal value.toNat⟩
  · constructor
    · rintro hheld rfl
      exact intMin_not_holdsNumeral output hheld
    · intro hvalue
      exact ⟨_, toStringInt64_heldBy hvalue output, isNumeralOf_signedDecimal value.toInt⟩

theorem toString_intMin_no_numeral :
    ¬ HoldsNumeral (toStringInt64 (BitVec.intMin 64) 0 fun _ => 0) (BitVec.intMin 64).toInt :=
  intMin_not_holdsNumeral _

/-! ## The counter that has not been set -/

theorem toStringUInt64_dependsOnSize (value : BitVec 64) (output : CharArray) :
    ¬ IndependentOfSize fun size => toStringUInt64 value size output := by
  intro hindependent
  have hlog := log_lt_twenty value.isLt
  have hlength : ((signedDecimalString value.toNat).chars.length : Int) =
      ((1 : BitVec 8).toNat + Nat.log 10 value.toNat : Nat) := by
    have hnumeral := length_signedDecimal (value.toNat : Int)
    rw [if_neg (by omega), Int.natAbs_natCast] at hnumeral
    change ((signedDecimal value.toNat).length : Int) = (1 + Nat.log 10 value.toNat : Nat)
    omega
  refine (toStringUInt64_heldBy value output).not_sameIn ?_ (hindependent 0 1)
  rw [hlength]
  dsimp only
  rw [toStringUInt64_eq (by change 1 + _ < _; omega)]
  exact writeNumber_last value.isLt

theorem intMin_dependsOnSize (output : CharArray) :
    ¬ IndependentOfSize fun size => toStringInt64 (BitVec.intMin 64) size output := by
  intro hindependent
  have hheld : (⟨[minusChar, 0x28#8], by decide⟩ : CString).HeldBy
      (toStringInt64 (BitVec.intMin 64) 238 output) := by
    rw [toStringInt64_intMin]
    intro i hi
    change i ≤ 2 at hi
    interval_cases i <;> rfl
  refine hheld.not_sameIn ?_ (hindependent 238 239)
  dsimp only
  rw [toStringInt64_intMin]
  change (0x28#8 : Byte) ≠ 0
  decide

theorem toStringInt64_dependsOnSize (value : BitVec 64) (output : CharArray) :
    ¬ IndependentOfSize fun size => toStringInt64 value size output := by
  by_cases hvalue : value = BitVec.intMin 64
  · rw [hvalue]
    exact intMin_dependsOnSize output
  · intro hindependent
    have hlt := natAbs_toInt_lt value
    have hlog := log_lt_twenty hlt
    have hlength : ((signedDecimalString value.toInt).chars.length : Int) =
        (if value.toInt < 0 then 1 else 0) +
          ((1 : BitVec 8).toNat + Nat.log 10 value.toInt.natAbs : Nat) := by
      have hnumeral := length_signedDecimal value.toInt
      change ((signedDecimal value.toInt).length : Int) =
        _ + (1 + Nat.log 10 value.toInt.natAbs : Nat)
      rw [hnumeral]
      split <;> omega
    refine (toStringInt64_heldBy hvalue output).not_sameIn ?_ (hindependent 0 1)
    rw [hlength]
    dsimp only
    rw [toStringInt64_eq hvalue (by change 1 + _ < _; omega)]
    exact writeNumber_last hlt

/-- There is no value whose string does not depend on what was in `size`. -/
theorem toString_dependsOnSize (value : BitVec 64) (output : CharArray) :
    (¬ IndependentOfSize fun size => toStringUInt64 value size output) ∧
    ¬ IndependentOfSize fun size => toStringInt64 value size output :=
  ⟨toStringUInt64_dependsOnSize value output, toStringInt64_dependsOnSize value output⟩

theorem toString_zero_dependsOnSize :
    ¬ CString.SameIn (toStringUInt64 0 0 fun _ => 0) (toStringUInt64 0 1 fun _ => 0) := by
  refine (toStringUInt64_heldBy 0 fun _ => 0).not_sameIn ?_
  rw [toStringUInt64_eq (by decide)]
  exact writeNumber_last (by decide)

end Strings

end UnifiedOS.Common
