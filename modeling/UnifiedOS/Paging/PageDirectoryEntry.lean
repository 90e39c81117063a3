import Mathlib.Data.Nat.Bitwise
import Mathlib.Tactic.Linarith

/-!
# Page directory entries

The accessors of `PageDirectoryEntry`, each with the one lemma that says which
bits it touches.  `GetFlag` evaluates `Value & (bitSelector > 0)`, as C++
precedence has it, and so returns bit 0 whatever the flag.
-/

namespace UnifiedOS.Paging

inductive PTFlag where
  | Present
  | ReadWrite
  | UserSuper
  | WriteThrough
  | CacheDisabled
  | Accessed
  | LargerPages
  | Custom0
  | Custom1
  | Custom2
  | NX
  deriving DecidableEq, Repr

/-- The enumerator's value, the position of the flag's bit. -/
def PTFlag.position : PTFlag → Nat
  | Present => 0
  | ReadWrite => 1
  | UserSuper => 2
  | WriteThrough => 3
  | CacheDisabled => 4
  | Accessed => 5
  | LargerPages => 7
  | Custom0 => 9
  | Custom1 => 10
  | Custom2 => 11
  | NX => 63

structure PageDirectoryEntry where
  value : BitVec 64
  deriving DecidableEq, Repr

namespace PageDirectoryEntry

def bitSelector (flag : PTFlag) : BitVec 64 := 1#64 <<< flag.position

def addressMask : BitVec 64 := 0x000ffffffffff000#64

def setFlag (e : PageDirectoryEntry) (flag : PTFlag) (enabled : Bool) :
    PageDirectoryEntry :=
  let value := e.value &&& ~~~ bitSelector flag
  ⟨if enabled then value ||| bitSelector flag else value⟩

def getFlag (e : PageDirectoryEntry) (flag : PTFlag) : Bool :=
  (e.value &&& (if bitSelector flag > 0#64 then 1#64 else 0#64)) != 0#64

def getAddress (e : PageDirectoryEntry) : BitVec 64 := (e.value &&& addressMask) >>> 12

def setAddress (e : PageDirectoryEntry) (address : BitVec 64) : PageDirectoryEntry :=
  let address := address &&& 0x000000ffffffffff#64
  let value := e.value &&& 0xfff0000000000fff#64
  ⟨value ||| (address <<< 12)⟩

/-! ## The bits each accessor touches -/

variable {e : PageDirectoryEntry} {flag : PTFlag} {enabled : Bool} {a : BitVec 64}
  {i : Nat}

theorem getLsbD_bitSelector (flag : PTFlag) (i : Nat) :
    (bitSelector flag).getLsbD i = decide (flag.position = i) := by
  have hposition : flag.position < 64 := by cases flag <;> decide
  change (BitVec.twoPow 64 flag.position).getLsbD i = _
  rw [BitVec.getLsbD_twoPow]
  simp [hposition]

theorem getLsbD_addressMask (hi : i < 64) :
    addressMask.getLsbD i = decide (12 ≤ i ∧ i < 52) := by
  revert i
  decide

private theorem getLsbD_lowMask (hi : i < 64) :
    (0x000000ffffffffff#64).getLsbD i = decide (i < 40) := by
  revert i
  decide

private theorem getLsbD_keepMask (hi : i < 64) :
    (0xfff0000000000fff#64).getLsbD i = !decide (12 ≤ i ∧ i < 52) := by
  revert i
  decide

theorem getLsbD_setFlag (hi : i < 64) :
    (e.setFlag flag enabled).value.getLsbD i =
      if flag.position = i then enabled else e.value.getLsbD i := by
  cases enabled with
  | true =>
      simp only [setFlag, if_true, BitVec.getLsbD_or, BitVec.getLsbD_and,
        BitVec.getLsbD_not, getLsbD_bitSelector]
      by_cases hflag : flag.position = i <;> simp [hflag, hi]
  | false =>
      simp only [setFlag, Bool.false_eq_true, if_false, BitVec.getLsbD_and,
        BitVec.getLsbD_not, getLsbD_bitSelector]
      by_cases hflag : flag.position = i <;> simp [hflag, hi]

theorem getLsbD_setAddress (hi : i < 64) :
    (e.setAddress a).value.getLsbD i =
      if 12 ≤ i ∧ i < 52 then a.getLsbD (i - 12) else e.value.getLsbD i := by
  simp only [setAddress, BitVec.getLsbD_or, BitVec.getLsbD_and,
    BitVec.getLsbD_shiftLeft, getLsbD_keepMask hi,
    getLsbD_lowMask (show i - 12 < 64 by omega)]
  by_cases hfield : 12 ≤ i ∧ i < 52
  · have hlow : ¬ i < 12 := by omega
    have hwithin : i - 12 < 40 := by omega
    simp [hfield, hi, hlow, hwithin]
  · rw [if_neg hfield]
    by_cases hlow : i < 12
    · simp [hlow, hi]
    · have hbeyond : ¬ i - 12 < 40 := by omega
      simp [hlow, hi, hfield, hbeyond]

theorem getLsbD_getAddress (hi : i < 64) :
    e.getAddress.getLsbD i = (decide (i < 40) && e.value.getLsbD (i + 12)) := by
  rw [getAddress, BitVec.getLsbD_ushiftRight, BitVec.getLsbD_and, Nat.add_comm 12 i]
  by_cases hfield : i + 12 < 64
  · rw [getLsbD_addressMask hfield, Bool.and_comm]
    congr 1
    simp only [decide_eq_decide]
    omega
  · rw [BitVec.getLsbD_of_ge _ _ (by omega)]
    simp

theorem getFlag_eq (flag : PTFlag) : e.getFlag flag = e.value.getLsbD 0 := by
  have hselector : bitSelector flag > 0#64 := by cases flag <;> decide
  have hbit : ∀ i, (e.value &&& 1#64).getLsbD i = (e.value.getLsbD i && decide (i = 0)) := by
    intro i
    rw [BitVec.getLsbD_and, BitVec.getLsbD_one]
    simp
  rw [getFlag, if_pos hselector]
  cases hset : e.value.getLsbD 0 with
  | true =>
      rw [bne_iff_ne]
      intro hzero
      have hpicked := hbit 0
      rw [hzero, hset] at hpicked
      simp at hpicked
  | false =>
      rw [bne_eq_false_iff_eq]
      apply BitVec.eq_of_getLsbD_eq
      intro i hi
      rw [hbit, BitVec.getLsbD_zero]
      by_cases hfirst : i = 0
      · rw [hfirst, hset]
        rfl
      · simp [hfirst]

/-! ## The laws of the accessors -/

/-- What the accessors promise for one entry and one use of each. -/
structure AccessorLaws (e : PageDirectoryEntry) (f g : PTFlag) (b : Bool) (a : BitVec 64) :
    Prop where
  getFlag_setFlag : (e.setFlag g b).getFlag f = if f = g then b else e.getFlag f
  getFlag_bit : e.getFlag f = e.value.getLsbD f.position
  getAddress_setAddress : (e.setAddress a).getAddress.toNat = a.toNat % 2 ^ 40
  getFlag_setAddress : (e.setAddress a).getFlag f = e.getFlag f
  bit_setAddress : (e.setAddress a).value.getLsbD f.position = e.value.getLsbD f.position
  getAddress_setFlag : (e.setFlag g b).getAddress = e.getAddress

theorem position_cases (flag : PTFlag) : flag.position < 12 ∨ flag.position = 63 := by
  cases flag <;> decide

theorem position_eq_zero : flag.position = 0 ↔ flag = PTFlag.Present := by
  cases flag <;> decide

theorem toNat_getAddress_setAddress (e : PageDirectoryEntry) (a : BitVec 64) :
    (e.setAddress a).getAddress.toNat = a.toNat % 2 ^ 40 := by
  apply Nat.eq_of_testBit_eq
  intro i
  rw [Nat.testBit_mod_two_pow]
  by_cases hi : i < 64
  · rw [BitVec.testBit_toNat, BitVec.testBit_toNat, getLsbD_getAddress hi]
    by_cases hfield : i < 40
    · rw [getLsbD_setAddress (by omega), if_pos (by omega), Nat.add_sub_cancel]
    · simp [hfield]
  · have hbeyond : ¬ i < 40 := by omega
    rw [BitVec.testBit_toNat, BitVec.getLsbD_of_ge _ _ (by omega)]
    simp [hbeyond]

theorem bit_setAddress (e : PageDirectoryEntry) (a : BitVec 64) (flag : PTFlag) :
    (e.setAddress a).value.getLsbD flag.position = e.value.getLsbD flag.position := by
  have hposition := position_cases flag
  rw [getLsbD_setAddress (by omega), if_neg (by omega)]

theorem getAddress_setFlag (e : PageDirectoryEntry) (flag : PTFlag) (enabled : Bool) :
    (e.setFlag flag enabled).getAddress = e.getAddress := by
  have hposition := position_cases flag
  apply BitVec.eq_of_getLsbD_eq
  intro i hi
  rw [getLsbD_getAddress hi, getLsbD_getAddress hi]
  by_cases hfield : i < 40
  · rw [getLsbD_setFlag (by omega), if_neg (by omega)]
  · simp [hfield]

theorem getFlag_setFlag (e : PageDirectoryEntry) (f g : PTFlag) (b : Bool) :
    (e.setFlag g b).getFlag f = if g = PTFlag.Present then b else e.value.getLsbD 0 := by
  rw [getFlag_eq, getLsbD_setFlag (by norm_num)]
  simp only [position_eq_zero]

/-- The bit of `f` is that of `Present`, and so is what `SetFlag` makes of it. -/
def AgreesWithPresent (e : PageDirectoryEntry) (f g : PTFlag) (b : Bool) : Prop :=
  e.value.getLsbD f.position = e.value.getLsbD 0 ∧
    ((f = g ↔ g = PTFlag.Present) ∨ b = e.value.getLsbD 0)

/-- The laws hold exactly where the flag can be read off the `Present` bit. -/
theorem accessorLaws_iff (e : PageDirectoryEntry) (f g : PTFlag) (b : Bool) (a : BitVec 64) :
    AccessorLaws e f g b a ↔ AgreesWithPresent e f g b := by
  constructor
  · intro h
    have hbit := h.getFlag_bit
    have hset := h.getFlag_setFlag
    rw [getFlag_eq] at hbit
    rw [getFlag_setFlag, getFlag_eq] at hset
    refine ⟨hbit.symm, ?_⟩
    by_cases hpresent : g = PTFlag.Present
    · by_cases hsame : f = g
      · exact Or.inl (iff_of_true hsame hpresent)
      · rw [if_pos hpresent, if_neg hsame] at hset
        exact Or.inr hset
    · by_cases hsame : f = g
      · rw [if_neg hpresent, if_pos hsame] at hset
        exact Or.inr hset.symm
      · exact Or.inl (iff_of_false hsame hpresent)
  · rintro ⟨hbit, hset⟩
    constructor
    · rw [getFlag_setFlag, getFlag_eq]
      rcases hset with hflags | hvalue
      · simp only [hflags]
      · simp only [hvalue, ite_self]
    · rw [getFlag_eq, hbit]
    · exact toNat_getAddress_setAddress e a
    · rw [getFlag_eq, getFlag_eq]
      exact bit_setAddress e a PTFlag.Present
    · exact bit_setAddress e a f
    · exact getAddress_setFlag e g b

/-- A flag that was just set reads as clear. -/
theorem readWrite_reads_clear :
    ¬ AccessorLaws ⟨0⟩ PTFlag.ReadWrite PTFlag.ReadWrite true 0 := by
  intro h
  exact absurd h.getFlag_setFlag (by decide)

/-! ## An entry that maps an address -/

def mapping (e : PageDirectoryEntry) (address : BitVec 64) : PageDirectoryEntry :=
  let e := e.setAddress (address >>> 12)
  let e := e.setFlag PTFlag.Present true
  e.setFlag PTFlag.ReadWrite true

structure LeadsTo (e : PageDirectoryEntry) (address : BitVec 64) : Prop where
  present : e.getFlag PTFlag.Present = true
  writable : e.value.getLsbD PTFlag.ReadWrite.position = true
  address : e.value &&& addressMask = address &&& addressMask

theorem leadsTo_mapping (e : PageDirectoryEntry) (a : BitVec 64) :
    LeadsTo (e.mapping a) a := by
  constructor
  · rw [getFlag_eq, mapping, getLsbD_setFlag (by decide), if_neg (by decide),
      getLsbD_setFlag (by decide), if_pos (by decide)]
  · rw [mapping, getLsbD_setFlag (by decide), if_pos rfl]
  · apply BitVec.eq_of_getLsbD_eq
    intro i hi
    rw [BitVec.getLsbD_and, BitVec.getLsbD_and, getLsbD_addressMask hi]
    by_cases hfield : 12 ≤ i ∧ i < 52
    · have hflags : ¬ 1 = i ∧ ¬ 0 = i := by omega
      rw [mapping, getLsbD_setFlag hi, getLsbD_setFlag hi, getLsbD_setAddress hi,
        if_pos hfield, BitVec.getLsbD_ushiftRight]
      simp only [PTFlag.position, hflags.1, hflags.2, if_false]
      rw [show 12 + (i - 12) = i by omega]
    · simp [hfield]

theorem getAddress_shift (e : PageDirectoryEntry) :
    e.getAddress <<< 12 = e.value &&& addressMask := by
  apply BitVec.eq_of_getLsbD_eq
  intro i hi
  rw [BitVec.getLsbD_shiftLeft, BitVec.getLsbD_and, getLsbD_addressMask hi]
  by_cases hlow : i < 12
  · simp [hlow]
  · rw [getLsbD_getAddress (by omega), show i - 12 + 12 = i by omega]
    by_cases hfield : i < 52
    · have hwithin : i - 12 < 40 := by omega
      have hle : 12 ≤ i := by omega
      simp [hi, hlow, hwithin, hfield, hle]
    · have hbeyond : ¬ i - 12 < 40 := by omega
      simp [hbeyond, hfield]

theorem and_addressMask {p : Nat} (haligned : p % 4096 = 0) (hlt : p < 2 ^ 52) :
    BitVec.ofNat 64 p &&& addressMask = BitVec.ofNat 64 p := by
  apply BitVec.eq_of_getLsbD_eq
  intro i hi
  rw [BitVec.getLsbD_and, getLsbD_addressMask hi, BitVec.getLsbD_ofNat]
  by_cases hfield : 12 ≤ i ∧ i < 52
  · simp [hfield]
  · have hclear : p.testBit i = false := by
      by_cases hlow : i < 12
      · obtain ⟨q, rfl⟩ := Nat.dvd_of_mod_eq_zero haligned
        rw [show (4096 : Nat) = 2 ^ 12 by norm_num, Nat.testBit_two_pow_mul]
        simp
        omega
      · apply Nat.testBit_lt_two_pow
        exact Nat.lt_of_lt_of_le hlt (Nat.pow_le_pow_right (by norm_num) (by omega))
    simp [hclear]

end PageDirectoryEntry

end UnifiedOS.Paging
