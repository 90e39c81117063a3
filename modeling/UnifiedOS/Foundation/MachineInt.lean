import Mathlib.Data.List.Range
import Mathlib.Tactic.Linarith

/-!
# Fixed-width arithmetic and loops counted by a 32-bit `int`

Unsigned 64-bit values are natural numbers below `2 ^ 64`, and every operation
that can leave that range is reduced explicitly.  A C loop
`for (int t = 0; t < count; t++)` against an unsigned 64-bit `count` compares
the sign-extended counter, so it is not the loop over `0 .. count - 1` once
`count` passes `2 ^ 31`.  `forInt` runs the loop as the machine does, with the
counter wrapping, and `forInt_eq_foldl` says which counters it visits.
-/

namespace UnifiedOS.Foundation

variable {State : Type*}

def wrap64 (n : Nat) : Nat := n % 2 ^ 64

def wrap32 (n : Nat) : Nat := n % 2 ^ 32

def sub64 (a b : Nat) : Nat := (a + 2 ^ 64 - b) % 2 ^ 64

def toInt64 (n : Nat) : Int := if n < 2 ^ 63 then n else (n : Int) - 2 ^ 64

theorem wrap64_of_lt {n : Nat} (h : n < 2 ^ 64) : wrap64 n = n :=
  Nat.mod_eq_of_lt h

theorem wrap32_of_lt {n : Nat} (h : n < 2 ^ 32) : wrap32 n = n :=
  Nat.mod_eq_of_lt h

theorem wrap32_lt (n : Nat) : wrap32 n < 2 ^ 32 :=
  Nat.mod_lt n (Nat.two_pow_pos 32)

theorem sub64_of_le {a b : Nat} (hle : b ≤ a) (ha : a < 2 ^ 64) :
    sub64 a b = a - b := by
  simp only [sub64]
  omega

theorem wrap64_lt (n : Nat) : wrap64 n < 2 ^ 64 :=
  Nat.mod_lt n (Nat.two_pow_pos 64)

theorem sub64_lt (a b : Nat) : sub64 a b < 2 ^ 64 :=
  Nat.mod_lt _ (Nat.two_pow_pos 64)

theorem toInt64_lt_sixteen {n : Nat} (hn : n < 2 ^ 64) :
    toInt64 n < 0x10 ↔ 2 ^ 63 ≤ n ∨ n < 0x10 := by
  unfold toInt64
  by_cases hpos : n < 2 ^ 63
  · rw [if_pos hpos]
    omega
  · rw [if_neg hpos]
    omega

def intToU64 (t : BitVec 32) : Nat := (t.signExtend 64).toNat

theorem intToU64_ofNat {t : Nat} (h : t < 2 ^ 32) :
    intToU64 (BitVec.ofNat 32 t) =
      if t < 2 ^ 31 then t else t + (2 ^ 64 - 2 ^ 32) := by
  have hmsb : (BitVec.ofNat 32 t).msb = decide (2 ^ 31 ≤ t) := by
    rw [BitVec.msb_eq_decide, BitVec.toNat_ofNat, Nat.mod_eq_of_lt h]
  rw [intToU64, BitVec.toNat_signExtend, BitVec.toNat_setWidth,
    BitVec.toNat_ofNat, Nat.mod_eq_of_lt h, Nat.mod_eq_of_lt (by omega), hmsb]
  by_cases hneg : 2 ^ 31 ≤ t
  · rw [if_pos (by simpa using hneg), if_neg (by omega)]
  · rw [if_neg (by simpa using hneg), if_pos (by omega), Nat.add_zero]

/-- At most `fuel` further iterations of `for (; t < count; t++) body`. -/
def intLoop (count : Nat) (body : BitVec 32 → State → State) :
    Nat → BitVec 32 → State → State
  | 0, _, s => s
  | fuel + 1, t, s =>
      if intToU64 t < count then intLoop count body fuel (t + 1) (body t s)
      else s

/--
`for (int t = 0; t < count; t++) body`.  The counter takes at most `2 ^ 32`
values and the loop is over by the time it comes to `-1`.
-/
def forInt (count : Nat) (body : BitVec 32 → State → State) (s : State) :
    State :=
  intLoop count body (2 ^ 32) 0 s

def intIterations (count : Nat) : Nat :=
  if count ≤ 2 ^ 31 then count
  else if count ≤ 2 ^ 64 - 2 ^ 31 then 2 ^ 31
  else count - (2 ^ 64 - 2 ^ 32)

theorem intIterations_of_le {count : Nat} (h : count ≤ 2 ^ 31) :
    intIterations count = count := if_pos h

theorem intIterations_pos {count : Nat} (h : 0 < count) : 0 < intIterations count := by
  simp only [intIterations]
  split
  · exact h
  · split <;> omega

theorem intIterations_lt {count : Nat} (h : count < 2 ^ 64) :
    intIterations count < 2 ^ 32 := by
  simp only [intIterations]
  split
  · omega
  · split <;> omega

private theorem intLoop_continues {count t : Nat} (hcount : count < 2 ^ 64)
    (ht : t < 2 ^ 32) :
    intToU64 (BitVec.ofNat 32 t) < count ↔ t < intIterations count := by
  rw [intToU64_ofNat ht, intIterations]
  split <;> split <;> try split
  all_goals omega

private theorem intLoop_eq_foldl {count : Nat} (hcount : count < 2 ^ 64)
    (body : BitVec 32 → State → State) (remaining fuel t : Nat) (s : State)
    (hremaining : t + remaining = intIterations count)
    (hfuel : remaining < fuel) :
    intLoop count body fuel (BitVec.ofNat 32 t) s =
      (List.range' t remaining).foldl
        (fun s k => body (BitVec.ofNat 32 k) s) s := by
  have hbound := intIterations_lt hcount
  induction remaining generalizing t fuel s with
  | zero =>
      obtain ⟨fuel, rfl⟩ := Nat.exists_eq_add_of_lt hfuel
      rw [Nat.zero_add, intLoop, if_neg]
      · rfl
      · rw [intLoop_continues hcount (by omega)]
        omega
  | succ remaining ih =>
      obtain ⟨fuel, rfl⟩ := Nat.exists_eq_add_of_lt hfuel
      have hcontinue : intToU64 (BitVec.ofNat 32 t) < count := by
        rw [intLoop_continues hcount (by omega)]
        omega
      have hnext : BitVec.ofNat 32 t + 1 = BitVec.ofNat 32 (t + 1) :=
        (BitVec.ofNat_add t 1).symm
      rw [intLoop, if_pos hcontinue, hnext,
        ih (remaining + 1 + fuel) (t + 1) _ (by omega) (by omega)]
      rfl

/-- The counters an `int` loop visits, whatever its bound. -/
theorem forInt_eq_foldl {count : Nat} (hcount : count < 2 ^ 64)
    (body : BitVec 32 → State → State) (s : State) :
    forInt count body s =
      (List.range (intIterations count)).foldl
        (fun s k => body (BitVec.ofNat 32 k) s) s := by
  rw [List.range_eq_range']
  exact intLoop_eq_foldl hcount body _ _ 0 s (Nat.zero_add _)
    (intIterations_lt hcount)

/-! ## Loops whose body moves the counter -/

/-- At most `fuel` further iterations of `for (; i < count; i++) body`. -/
def intLoopBy (count : Nat) (body : BitVec 32 → State → BitVec 32 × State) :
    Nat → BitVec 32 → State → State
  | 0, _, s => s
  | fuel + 1, i, s =>
      if intToU64 i < count then
        let (i, s) := body i s
        intLoopBy count body fuel (i + 1) s
      else s

/-- `for (int i = 0; i < count; i++) body`, where the body may move `i` further on. -/
def forIntBy (count : Nat) (body : BitVec 32 → State → BitVec 32 × State)
    (s : State) : State :=
  intLoopBy count body (2 ^ 32) 0 s

private theorem intLoopBy_preserves {P : State → Prop} {count : Nat}
    {body : BitVec 32 → State → BitVec 32 × State}
    (hbody : ∀ i s, P s → P (body i s).2) (fuel : Nat) (i : BitVec 32) (s : State)
    (h : P s) : P (intLoopBy count body fuel i s) := by
  induction fuel generalizing i s with
  | zero => exact h
  | succ fuel ih =>
      rw [intLoopBy]
      split
      · exact ih _ _ (hbody i s h)
      · exact h

theorem forIntBy_preserves {P : State → Prop} {count : Nat}
    {body : BitVec 32 → State → BitVec 32 × State} {s : State}
    (hbody : ∀ i s, P s → P (body i s).2) (h : P s) : P (forIntBy count body s) :=
  intLoopBy_preserves hbody _ _ _ h

private theorem intLoopBy_exits {Inv : Nat → State → Prop} {count : Nat}
    {body : BitVec 32 → State → BitVec 32 × State} (hcount : count ≤ 2 ^ 63)
    (hbody : ∀ i s, i < count → i < 2 ^ 31 → Inv i s → ∃ i', i < i' ∧ i' < 2 ^ 32 ∧
      (body (BitVec.ofNat 32 i) s).1 + 1 = BitVec.ofNat 32 i' ∧
      Inv i' (body (BitVec.ofNat 32 i) s).2)
    (fuel i : Nat) (s : State) (hi : i < 2 ^ 32) (hfuel : min count (2 ^ 31) < i + fuel)
    (h : Inv i s) :
    ∃ i', (count ≤ i' ∨ 2 ^ 31 ≤ i') ∧ i' < 2 ^ 32 ∧
      Inv i' (intLoopBy count body fuel (BitVec.ofNat 32 i) s) := by
  induction fuel generalizing i s with
  | zero => exact ⟨i, by omega, hi, h⟩
  | succ fuel ih =>
      have hvalue : intToU64 (BitVec.ofNat 32 i) = if i < 2 ^ 31 then i
          else i + (2 ^ 64 - 2 ^ 32) := intToU64_ofNat hi
      rw [intLoopBy]
      by_cases hlt : i < count ∧ i < 2 ^ 31
      · have hcontinue : intToU64 (BitVec.ofNat 32 i) < count := by
          rw [hvalue, if_pos hlt.2]
          exact hlt.1
        obtain ⟨i', hlater, hle, hcounter, hinv⟩ := hbody i s hlt.1 hlt.2 h
        rw [if_pos hcontinue]
        dsimp only
        rw [hcounter]
        exact ih i' _ hle (by omega) hinv
      · have hstop : ¬ intToU64 (BitVec.ofNat 32 i) < count := by
          rw [hvalue]
          split <;> omega
        rw [if_neg hstop]
        exact ⟨i, by omega, hi, h⟩

/--
The invariant rule: each iteration takes the counter to some later `i'`, and the
invariant with it.  The loop is over when the counter reaches the bound, or the
end of the positive `int`s.
-/
theorem forIntBy_exits {Inv : Nat → State → Prop} {count : Nat}
    {body : BitVec 32 → State → BitVec 32 × State} {s : State} (hcount : count ≤ 2 ^ 63)
    (hbody : ∀ i s, i < count → i < 2 ^ 31 → Inv i s → ∃ i', i < i' ∧ i' < 2 ^ 32 ∧
      (body (BitVec.ofNat 32 i) s).1 + 1 = BitVec.ofNat 32 i' ∧
      Inv i' (body (BitVec.ofNat 32 i) s).2)
    (h : Inv 0 s) :
    ∃ i, (count ≤ i ∨ 2 ^ 31 ≤ i) ∧ i < 2 ^ 32 ∧ Inv i (forIntBy count body s) :=
  intLoopBy_exits hcount hbody _ 0 s (by norm_num) (by omega) h

theorem forIntBy_rule {Inv : Nat → State → Prop} {count : Nat}
    {body : BitVec 32 → State → BitVec 32 × State} {s : State} (hcount : count ≤ 2 ^ 31)
    (hbody : ∀ i s, i < count → Inv i s → ∃ i', i < i' ∧ i' ≤ count ∧
      (body (BitVec.ofNat 32 i) s).1 + 1 = BitVec.ofNat 32 i' ∧
      Inv i' (body (BitVec.ofNat 32 i) s).2)
    (h : Inv 0 s) : Inv count (forIntBy count body s) := by
  have hstep : ∀ i s, i < count → i < 2 ^ 31 → (i ≤ count ∧ Inv i s) → ∃ i', i < i' ∧
      i' < 2 ^ 32 ∧ (body (BitVec.ofNat 32 i) s).1 + 1 = BitVec.ofNat 32 i' ∧
      (i' ≤ count ∧ Inv i' (body (BitVec.ofNat 32 i) s).2) := by
    intro i s hi _ hinv
    obtain ⟨i', hlater, hle, hcounter, hnext⟩ := hbody i s hi hinv.2
    exact ⟨i', hlater, by omega, hcounter, hle, hnext⟩
  obtain ⟨i, hend, -, hle, hinv⟩ := @forIntBy_exits State (fun i s => i ≤ count ∧ Inv i s)
    count body s (by omega) hstep ⟨Nat.zero_le _, h⟩
  have hlast : i = count := by omega
  exact hlast ▸ hinv

private theorem intLoopBy_simulates {State' : Type*} {R : State → State' → Prop} {count : Nat}
    {body : BitVec 32 → State → BitVec 32 × State}
    {body' : BitVec 32 → State' → BitVec 32 × State'}
    (hbody : ∀ i s s', R s s' → (body i s).1 = (body' i s').1 ∧ R (body i s).2 (body' i s').2)
    (fuel : Nat) (i : BitVec 32) {s : State} {s' : State'} (h : R s s') :
    R (intLoopBy count body fuel i s) (intLoopBy count body' fuel i s') := by
  induction fuel generalizing i s s' with
  | zero => exact h
  | succ fuel ih =>
      obtain ⟨hcounter, hnext⟩ := hbody i s s' h
      simp only [intLoopBy]
      split
      · rw [hcounter]
        exact ih _ hnext
      · exact h

/-- Two loops whose bodies move the counter alike go through related states. -/
theorem forIntBy_simulates {State' : Type*} {R : State → State' → Prop} {count : Nat}
    {body : BitVec 32 → State → BitVec 32 × State}
    {body' : BitVec 32 → State' → BitVec 32 × State'} {s : State} {s' : State'}
    (hbody : ∀ i s s', R s s' → (body i s).1 = (body' i s').1 ∧ R (body i s).2 (body' i s').2)
    (h : R s s') : R (forIntBy count body s) (forIntBy count body' s') :=
  intLoopBy_simulates hbody _ _ h

/-! ## Loops counted by an `unsigned` -/

def unsignedLoop (bound : Nat) (body : Nat → State → State) :
    Nat → BitVec 32 → State → Option State
  | 0, _, _ => none
  | fuel + 1, i, s =>
      if i.toNat < bound then unsignedLoop bound body fuel (i + 1) (body i.toNat s)
      else some s

/--
`for (unsigned i = start; i < bound; i++) body`.  A counter that went through
all `2 ^ 32` values below the bound goes on forever, and the result is `none`.
-/
def forUnsigned (start bound : Nat) (body : Nat → State → State) (s : State) :
    Option State :=
  unsignedLoop bound body (2 ^ 32 + 1) (BitVec.ofNat 32 start) s

private theorem unsignedLoop_eq_foldl {bound : Nat} (hbound : bound < 2 ^ 32)
    (body : Nat → State → State) (remaining fuel i : Nat) (s : State)
    (hremaining : i + remaining = bound) (hfuel : remaining < fuel) :
    unsignedLoop bound body fuel (BitVec.ofNat 32 i) s =
      some ((List.range' i remaining).foldl (fun s k => body k s) s) := by
  induction remaining generalizing i fuel s with
  | zero =>
      obtain ⟨fuel, rfl⟩ := Nat.exists_eq_add_of_lt hfuel
      rw [Nat.zero_add, unsignedLoop, if_neg]
      · rfl
      · rw [BitVec.toNat_ofNat, Nat.mod_eq_of_lt (by omega)]
        omega
  | succ remaining ih =>
      obtain ⟨fuel, rfl⟩ := Nat.exists_eq_add_of_lt hfuel
      have hvalue : (BitVec.ofNat 32 i).toNat = i := by
        rw [BitVec.toNat_ofNat, Nat.mod_eq_of_lt (by omega)]
      have hnext : BitVec.ofNat 32 i + 1 = BitVec.ofNat 32 (i + 1) :=
        (BitVec.ofNat_add i 1).symm
      rw [unsignedLoop, hvalue, if_pos (by omega), hnext,
        ih (remaining + 1 + fuel) (i + 1) _ (by omega) (by omega)]
      rfl

theorem forUnsigned_eq_foldl {start bound : Nat} (hstart : start ≤ bound)
    (hbound : bound < 2 ^ 32) (body : Nat → State → State) (s : State) :
    forUnsigned start bound body s =
      some ((List.range (bound - start)).foldl (fun s k => body (start + k) s) s) := by
  have hloop := unsignedLoop_eq_foldl hbound body (bound - start) (2 ^ 32 + 1) start s
    (by omega) (by omega)
  rw [forUnsigned, hloop, List.range'_eq_map_range, List.foldl_map]

private theorem unsignedLoop_preserves {P : State → Prop} {bound : Nat}
    {body : Nat → State → State} (hbody : ∀ i s, P s → P (body i s)) (fuel : Nat)
    (i : BitVec 32) {s s' : State} (h : P s)
    (hloop : unsignedLoop bound body fuel i s = some s') : P s' := by
  induction fuel generalizing i s with
  | zero => contradiction
  | succ fuel ih =>
      rw [unsignedLoop] at hloop
      split at hloop
      · exact ih _ (hbody _ s h) hloop
      · exact Option.some.inj hloop ▸ h

theorem forUnsigned_preserves {P : State → Prop} {start bound : Nat}
    {body : Nat → State → State} {s s' : State} (hbody : ∀ i s, P s → P (body i s))
    (h : P s) (hloop : forUnsigned start bound body s = some s') : P s' :=
  unsignedLoop_preserves hbody _ _ h hloop

end UnifiedOS.Foundation
