import UnifiedOS.Foundation.ByteMemory

/-!
# Words on a stack

A stack of 64-bit words grows downwards in byte memory.  What is pushed lies there
in the opposite order, so that it is read back from the new stack pointer on as the
reverse of what was pushed.
-/

namespace UnifiedOS.Foundation

namespace ByteMemory

abbrev Word := BitVec 64

def word (m : ByteMemory) (addr : Nat) : Word := BitVec.ofNat 64 (m.load addr 8)

def storeWord (m : ByteMemory) (addr : Nat) (value : Word) : ByteMemory :=
  m.store addr 8 value.toNat

def words (m : ByteMemory) (addr : Nat) : Nat → List Word
  | 0 => []
  | n + 1 => m.word addr :: words m (addr + 8) n

def pushWords (m : ByteMemory) (sp : Nat) : List Word → ByteMemory
  | [] => m
  | value :: values => pushWords (m.storeWord (sp - 8) value) (sp - 8) values

variable {m m' : ByteMemory} {addr sp n k : Nat} {value : Word} {values : List Word}

theorem word_storeWord_same : (m.storeWord addr value).word addr = value := by
  have hlt := value.isLt
  have hsize : 256 ^ 8 = 2 ^ 64 := by norm_num
  rw [word, storeWord, load_store_same, hsize, Nat.mod_eq_of_lt hlt, BitVec.ofNat_toNat,
    BitVec.setWidth_eq]

theorem word_storeWord_disjoint {other : Nat} (h : addr + 8 ≤ other ∨ other + 8 ≤ addr) :
    (m.storeWord addr value).word other = m.word other := by
  rw [word, storeWord, load_store_disjoint m h, word]

theorem word_congr (h : ∀ x, addr ≤ x → x < addr + 8 → m x = m' x) :
    m.word addr = m'.word addr := by
  rw [word, word, load_congr h]

theorem length_words : (m.words addr n).length = n := by
  induction n generalizing addr with
  | zero => rfl
  | succ n ih => rw [words, List.length_cons, ih]

theorem words_congr (h : ∀ x, addr ≤ x → x < addr + 8 * n → m x = m' x) :
    m.words addr n = m'.words addr n := by
  induction n generalizing addr with
  | zero => rfl
  | succ n ih =>
      have hrest : m.words (addr + 8) n = m'.words (addr + 8) n :=
        ih fun x hlow hhigh => h x (by omega) (by omega)
      rw [words, words, hrest, word_congr fun x hlow hhigh => h x hlow (by omega)]

theorem words_append : m.words addr (n + k) = m.words addr n ++ m.words (addr + 8 * n) k := by
  induction n generalizing addr with
  | zero => rw [Nat.zero_add, words, List.nil_append, Nat.mul_zero, Nat.add_zero]
  | succ n ih =>
      have haddr : addr + 8 + 8 * n = addr + 8 * (n + 1) := by omega
      rw [Nat.succ_add, words, words, ih, List.cons_append, haddr]

theorem pushWords_outside {x : Nat} (hroom : 8 * values.length ≤ sp)
    (h : x < sp - 8 * values.length ∨ sp ≤ x) : m.pushWords sp values x = m x := by
  induction values generalizing m sp with
  | nil => rfl
  | cons value values ih =>
      rw [List.length_cons] at hroom h
      rw [pushWords, ih (by omega) (by omega), storeWord, store_outside]
      omega

theorem words_pushWords (hroom : 8 * values.length ≤ sp) :
    (m.pushWords sp values).words (sp - 8 * values.length) values.length = values.reverse := by
  induction values generalizing m sp with
  | nil => rfl
  | cons value values ih =>
      rw [List.length_cons] at hroom
      have hstart : sp - 8 * (values.length + 1) = sp - 8 - 8 * values.length := by omega
      have htop : sp - 8 - 8 * values.length + 8 * values.length = sp - 8 := by omega
      have hvalue : ((m.storeWord (sp - 8) value).pushWords (sp - 8) values).words (sp - 8) 1 =
          [value] := by
        rw [words, words, word_congr fun x hlow _ => pushWords_outside (by omega) (.inr hlow),
          word_storeWord_same]
      rw [pushWords, List.length_cons, hstart, words_append, ih (by omega), htop, hvalue,
        List.reverse_cons]

end ByteMemory

end UnifiedOS.Foundation
