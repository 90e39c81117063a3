import UnifiedOS.Foundation.ByteMemory
import UnifiedOS.Foundation.MachineInt

/-!
# Finding an ACPI table

The root table holds pointers of 64 bits behind its header.  `FindTable` reads
them as such, but counts them as if they had 32 bits, unless the revision is 2.
A search that does not end at a table of the signature goes on behind the root
table.
-/

namespace UnifiedOS.Devices

open UnifiedOS.Foundation

structure SDTHeader where
  signature : Nat → Byte
  length : BitVec 32
  revision : Byte

def SDTHeader.ofMemory (m : ByteMemory) (sdtHeader : Nat) : SDTHeader where
  signature i := m (wrap64 (sdtHeader + i))
  length := BitVec.ofNat 32 (m.load (sdtHeader + 4) 4)
  revision := m (sdtHeader + 8)

def sizeofSDTHeader : Nat := 36

namespace ACPI

def entryCount (sdtHeader : SDTHeader) : Int :=
  let behindHeader := sub64 sdtHeader.length.toNat sizeofSDTHeader
  if sdtHeader.revision = 2 then (BitVec.ofNat 32 (behindHeader / 8)).toInt
  else (BitVec.ofNat 32 (behindHeader / 4)).toInt

def entryOffset (t : Nat) : Nat := wrap64 (sizeofSDTHeader + intToU64 (BitVec.ofNat 32 (t * 8)))

section Search

variable (m : ByteMemory) (sdtHeader : Nat) (signature : Nat → Byte)

def newSDTHeader (t : Nat) : Nat := m.load (wrap64 (sdtHeader + entryOffset t)) 8

/-- The loop over the four characters compares an `unsigned char` with a `char`. -/
def found (header : Nat) : Bool :=
  (List.range 4).all fun i =>
    (((SDTHeader.ofMemory m header).signature i).toNat : Int) == (signature i).toInt

def findLoop : Nat → Nat → Option Nat × List Nat
  | 0, _ => (none, [])
  | remaining + 1, t =>
      if found m signature (newSDTHeader m sdtHeader t) then
        (some (newSDTHeader m sdtHeader t), [entryOffset t])
      else
        let rest := findLoop remaining (t + 1)
        (rest.1, entryOffset t :: rest.2)

/-- The table returned, where NULL is `none`, and the offsets of the pointers read. -/
def findTable : Option Nat × List Nat :=
  findLoop m sdtHeader signature (entryCount (SDTHeader.ofMemory m sdtHeader)).toNat 0

/-! ## What is looked for -/

def entriesWithin (length : Nat) : Nat := (length - sizeofSDTHeader) / 8

def entry (t : Nat) : Nat := m.load (wrap64 (sdtHeader + (sizeofSDTHeader + 8 * t))) 8

def HasSignature (header : Nat) : Prop :=
  ∀ i < 4, (SDTHeader.ofMemory m header).signature i = signature i

instance : DecidablePred (HasSignature m signature) := fun header =>
  inferInstanceAs (Decidable (∀ i < 4, (SDTHeader.ofMemory m header).signature i = signature i))

/-- The first table of the signature is found, and no pointer is read that is not in the table. -/
structure FindsFirst : Prop where
  inside : ∀ offset ∈ (findTable m sdtHeader signature).2,
    offset + 8 ≤ (SDTHeader.ofMemory m sdtHeader).length.toNat
  result : (findTable m sdtHeader signature).1 =
    ((List.range (entriesWithin (SDTHeader.ofMemory m sdtHeader).length.toNat)).map
      (entry m sdtHeader)).find? fun header => HasSignature m signature header

/-- Some table has the signature, and the search comes to it before `t * 8` leaves the `int`s. -/
def Present : Prop :=
  (∀ i < 4, signature i < 0x80) ∧
    ∃ t < entriesWithin (SDTHeader.ofMemory m sdtHeader).length.toNat, t < 2 ^ 28 ∧
      HasSignature m signature (entry m sdtHeader t)

def Absent : Prop :=
  (∀ t < entriesWithin (SDTHeader.ofMemory m sdtHeader).length.toNat,
    ¬ HasSignature m signature (entry m sdtHeader t)) ∧
    entriesWithin (SDTHeader.ofMemory m sdtHeader).length.toNat ≤ 2 ^ 28 ∧
    ((SDTHeader.ofMemory m sdtHeader).revision = 2 ∨
      (SDTHeader.ofMemory m sdtHeader).length.toNat < sizeofSDTHeader + 4)

end Search

section Lemmas

variable {m : ByteMemory} {sdtHeader header t : Nat} {signature : Nat → Byte}

/-! ## Counting and comparing -/

theorem signed_eq_iff (a c : Byte) : (a.toNat : Int) = c.toInt ↔ a = c ∧ c < 0x80 := by
  have ha := a.isLt
  have hc := c.isLt
  have hsign := BitVec.toInt_eq_toNat_cond c
  rw [BitVec.lt_def, ← BitVec.toNat_inj]
  change _ ↔ _ ∧ c.toNat < 128
  split at hsign <;> omega

/-- A character from `0x80` on is negative and no byte of a table is. -/
theorem found_iff : found m signature header = true ↔
    HasSignature m signature header ∧ ∀ i < 4, signature i < 0x80 := by
  simp only [found, List.all_eq_true, List.mem_range, beq_iff_eq, signed_eq_iff, HasSignature]
  exact forall₂_and

theorem toNat_toInt_ofNat {k : Nat} (h : k < 2 ^ 31) : (BitVec.ofNat 32 k).toInt.toNat = k := by
  have hsign := BitVec.toInt_eq_toNat_cond (BitVec.ofNat 32 k)
  rw [BitVec.toNat_ofNat, Nat.mod_eq_of_lt (by omega), if_pos (by omega)] at hsign
  rw [hsign, Int.toNat_natCast]

theorem entryCount_eq {h : SDTHeader} (hlength : sizeofSDTHeader ≤ h.length.toNat) :
    (entryCount h).toNat =
      if h.revision = 2 then entriesWithin h.length.toNat
      else (h.length.toNat - sizeofSDTHeader) / 4 := by
  have hlt := h.length.isLt
  unfold entryCount entriesWithin
  rw [sub64_of_le hlength (by omega)]
  split
  · exact toNat_toInt_ofNat (by omega)
  · exact toNat_toInt_ofNat (by omega)

theorem entryOffset_of_lt (ht : t < 2 ^ 28) : entryOffset t = sizeofSDTHeader + 8 * t := by
  unfold entryOffset sizeofSDTHeader
  rw [intToU64_ofNat (by omega), if_pos (by omega), wrap64_of_lt (by omega)]
  omega

/-- The first product that is too great for an `int` leads in front of the table. -/
theorem entryOffset_overflow : entryOffset (2 ^ 28) = 2 ^ 64 - 2 ^ 31 + 36 := by
  unfold entryOffset sizeofSDTHeader
  rw [intToU64_ofNat (by norm_num), if_neg (by norm_num), wrap64_of_lt (by norm_num)]
  norm_num

theorem newSDTHeader_eq (ht : t < 2 ^ 28) : newSDTHeader m sdtHeader t = entry m sdtHeader t := by
  rw [newSDTHeader, entry, entryOffset_of_lt ht]

/-! ## The loop -/

theorem findLoop_fst (remaining t : Nat) : (findLoop m sdtHeader signature remaining t).1 =
    ((List.range' t remaining).find? fun t =>
      found m signature (newSDTHeader m sdtHeader t)).map (newSDTHeader m sdtHeader) := by
  induction remaining generalizing t with
  | zero => rfl
  | succ remaining ih =>
      rw [findLoop, List.range'_succ, List.find?_cons]
      cases hfound : found m signature (newSDTHeader m sdtHeader t) with
      | true => rfl
      | false =>
          simp only [Bool.false_eq_true, if_false]
          exact ih (t + 1)

theorem mem_findLoop {offset : Nat} (remaining t : Nat) :
    offset ∈ (findLoop m sdtHeader signature remaining t).2 ↔
      ∃ k, t ≤ k ∧ k < t + remaining ∧ offset = entryOffset k ∧
        ∀ j, t ≤ j → j < k → found m signature (newSDTHeader m sdtHeader j) = false := by
  induction remaining generalizing t with
  | zero =>
      simp only [findLoop, List.not_mem_nil, false_iff, not_exists]
      omega
  | succ remaining ih =>
      rw [findLoop]
      cases hfound : found m signature (newSDTHeader m sdtHeader t) with
      | true =>
          simp only [if_true, List.mem_singleton]
          constructor
          · rintro rfl
            exact ⟨t, Nat.le_refl t, by omega, rfl, fun j hj hlt => by omega⟩
          · rintro ⟨k, hle, -, rfl, hbefore⟩
            rcases Nat.lt_or_eq_of_le hle with hlt | rfl
            · rw [hbefore t (Nat.le_refl t) hlt] at hfound
              contradiction
            · rfl
      | false =>
          simp only [Bool.false_eq_true, if_false, List.mem_cons, ih]
          constructor
          · rintro (rfl | ⟨k, hle, hlt, rfl, hbefore⟩)
            · exact ⟨t, Nat.le_refl t, by omega, rfl, fun j hj hlt => by omega⟩
            · refine ⟨k, by omega, by omega, rfl, fun j hj hjk => ?_⟩
              rcases Nat.lt_or_eq_of_le hj with hlater | rfl
              · exact hbefore j hlater hjk
              · exact hfound
          · rintro ⟨k, hle, hlt, rfl, hbefore⟩
            rcases Nat.lt_or_eq_of_le hle with hlater | rfl
            · exact .inr ⟨k, hlater, by omega, rfl, fun j hj => hbefore j (by omega)⟩
            · exact .inl rfl

theorem findLoop_inside_iff {length count : Nat} (hlength : sizeofSDTHeader ≤ length)
    (hlt : length < 2 ^ 32) :
    (∀ offset ∈ (findLoop m sdtHeader signature count 0).2, offset + 8 ≤ length) ↔
      count ≤ min (entriesWithin length) (2 ^ 28) ∨
        ∃ t < min (entriesWithin length) (2 ^ 28),
          found m signature (newSDTHeader m sdtHeader t) = true := by
  unfold entriesWithin
  unfold sizeofSDTHeader at hlength ⊢
  constructor
  · intro h
    by_contra hpast
    simp only [not_or, not_exists, not_and, Bool.not_eq_true] at hpast
    obtain ⟨hcount, hnone⟩ := hpast
    have hread := h _ ((mem_findLoop count 0).mpr ⟨min ((length - 36) / 8) (2 ^ 28),
      Nat.zero_le _, by omega, rfl, fun j _ hj => hnone j hj⟩)
    rcases Nat.lt_or_ge ((length - 36) / 8) (2 ^ 28) with hfew | hmany
    · rw [Nat.min_eq_left (Nat.le_of_lt hfew), entryOffset_of_lt hfew, sizeofSDTHeader] at hread
      omega
    · rw [Nat.min_eq_right hmany, entryOffset_overflow] at hread
      omega
  · intro h offset hoffset
    obtain ⟨k, -, hk, rfl, hbefore⟩ := (mem_findLoop count 0).mp hoffset
    have hwithin : k < min ((length - 36) / 8) (2 ^ 28) := by
      rcases h with hcount | ⟨t, ht, hfound⟩
      · omega
      · by_contra hlate
        rw [hbefore t (Nat.zero_le t) (by omega)] at hfound
        contradiction
    rw [entryOffset_of_lt (by omega), sizeofSDTHeader]
    omega

/-! ## The search -/

/-- The pointers counted and those in the table are the same for revision 2 or an empty table. -/
theorem entryCount_eq_within_iff {h : SDTHeader} (hlength : sizeofSDTHeader ≤ h.length.toNat) :
    (entryCount h).toNat = entriesWithin h.length.toNat ↔
      h.revision = 2 ∨ h.length.toNat < sizeofSDTHeader + 4 := by
  rw [entryCount_eq hlength]
  unfold entriesWithin
  split
  · rename_i hrevision
    simp [hrevision]
  · rename_i hrevision
    simp only [hrevision, false_or]
    omega

theorem entriesWithin_le_entryCount {h : SDTHeader}
    (hlength : sizeofSDTHeader ≤ h.length.toNat) :
    entriesWithin h.length.toNat ≤ (entryCount h).toNat := by
  rw [entryCount_eq hlength]
  unfold entriesWithin
  split <;> omega

theorem found_newSDTHeader_iff (ht : t < 2 ^ 28) :
    found m signature (newSDTHeader m sdtHeader t) = true ↔
      HasSignature m signature (entry m sdtHeader t) ∧ ∀ i < 4, signature i < 0x80 := by
  rw [newSDTHeader_eq ht, found_iff]

section Table

variable (hlength : sizeofSDTHeader ≤ (SDTHeader.ofMemory m sdtHeader).length.toNat)
include hlength

theorem present_or_absent_of_findsFirst (h : FindsFirst m sdtHeader signature) :
    Present m sdtHeader signature ∨ Absent m sdtHeader signature := by
  have hwithin := entriesWithin_le_entryCount hlength
  have hinside := (findLoop_inside_iff hlength (BitVec.isLt _)).mp h.inside
  by_cases hpresent : ∃ t < min (entriesWithin (SDTHeader.ofMemory m sdtHeader).length.toNat)
      (2 ^ 28), found m signature (newSDTHeader m sdtHeader t) = true
  · obtain ⟨t, ht, hfound⟩ := hpresent
    obtain ⟨hsignature, hchars⟩ := (found_newSDTHeader_iff (by omega)).mp hfound
    exact .inl ⟨hchars, t, by omega, by omega, hsignature⟩
  · have hcount := hinside.resolve_right hpresent
    have hall : (entryCount (SDTHeader.ofMemory m sdtHeader)).toNat =
        entriesWithin (SDTHeader.ofMemory m sdtHeader).length.toNat := by omega
    refine .inr ⟨?_, by omega, (entryCount_eq_within_iff hlength).mp hall⟩
    have hnothing : (findTable m sdtHeader signature).1 = none := by
      rw [findTable, findLoop_fst, Option.map_eq_none_iff, List.find?_eq_none]
      intro t ht hfound
      rw [List.mem_range'_1] at ht
      exact hpresent ⟨t, by omega, hfound⟩
    have hresult := h.result
    rw [hnothing, eq_comm, List.find?_eq_none] at hresult
    intro t ht hsignature
    exact hresult _ (List.mem_map.mpr ⟨t, List.mem_range.mpr ht, rfl⟩) (by simpa using hsignature)

theorem findsFirst_of_present (h : Present m sdtHeader signature) :
    FindsFirst m sdtHeader signature := by
  obtain ⟨hchars, hpresent⟩ := h
  have hwithin := entriesWithin_le_entryCount hlength
  obtain ⟨t, ⟨ht, hsmall, hsignature⟩, hleast⟩ := Nat.findX hpresent
  have hfound : found m signature (newSDTHeader m sdtHeader t) = true :=
    (found_newSDTHeader_iff hsmall).mpr ⟨hsignature, hchars⟩
  have hbefore : ∀ j < t, ¬ HasSignature m signature (entry m sdtHeader j) := by
    intro j hj hearlier
    exact hleast j hj ⟨by omega, by omega, hearlier⟩
  refine ⟨(findLoop_inside_iff hlength (BitVec.isLt _)).mpr (.inr ⟨t, by omega, hfound⟩), ?_⟩
  have hcode : (List.range' 0 (entryCount (SDTHeader.ofMemory m sdtHeader)).toNat).find?
      (fun t => found m signature (newSDTHeader m sdtHeader t)) = some t := by
    rw [List.find?_range'_eq_some]
    refine ⟨hfound, List.mem_range'_1.mpr (by omega), fun j _ hj => ?_⟩
    rw [Bool.not_eq_true', ← Bool.not_eq_true, found_newSDTHeader_iff (by omega)]
    exact fun hearlier => hbefore j hj hearlier.1
  have hspec : (List.range (entriesWithin (SDTHeader.ofMemory m sdtHeader).length.toNat)).find?
      ((fun header => decide (HasSignature m signature header)) ∘ entry m sdtHeader) =
        some t := by
    rw [List.find?_range_eq_some]
    exact ⟨by simpa using hsignature, List.mem_range.mpr ht, fun j hj => by
      simpa using hbefore j hj⟩
  rw [findTable, findLoop_fst, hcode, List.find?_map, hspec, Option.map_some, Option.map_some,
    newSDTHeader_eq hsmall]

theorem findsFirst_of_absent (h : Absent m sdtHeader signature) :
    FindsFirst m sdtHeader signature := by
  obtain ⟨hnone, hfew, hcounted⟩ := h
  have hall := (entryCount_eq_within_iff hlength).mpr hcounted
  refine ⟨(findLoop_inside_iff hlength (BitVec.isLt _)).mpr (.inl (by omega)), ?_⟩
  have hcode : (List.range' 0 (entryCount (SDTHeader.ofMemory m sdtHeader)).toNat).find?
      (fun t => found m signature (newSDTHeader m sdtHeader t)) = none := by
    rw [List.find?_eq_none]
    intro t ht hfound
    rw [List.mem_range'_1] at ht
    exact hnone t (by omega) ((found_newSDTHeader_iff (by omega)).mp hfound).1
  have hspec : (List.range (entriesWithin (SDTHeader.ofMemory m sdtHeader).length.toNat)).find?
      ((fun header => decide (HasSignature m signature header)) ∘ entry m sdtHeader) = none := by
    rw [List.find?_eq_none]
    intro t ht
    simpa using hnone t (List.mem_range.mp ht)
  rw [findTable, findLoop_fst, hcode, List.find?_map, hspec, Option.map_none, Option.map_none]

/--
The search is right if it comes to a table of the signature in time, or if there is
none and the pointers are counted with their width.
-/
theorem findTable_findsFirst_iff :
    FindsFirst m sdtHeader signature ↔
      Present m sdtHeader signature ∨ Absent m sdtHeader signature := by
  constructor
  · exact present_or_absent_of_findsFirst hlength
  · rintro (hpresent | habsent)
    · exact findsFirst_of_present hlength hpresent
    · exact findsFirst_of_absent hlength habsent

end Table

end Lemmas

/-- A root table of `length` bytes with one pointer, to itself; the rest is zero. -/
def oneEntry (length revision : Byte) : ByteMemory := fun p =>
  if p = 4 then length else if p = 8 then revision else 0

theorem findTable_findsFirst_revision2 : FindsFirst (oneEntry 44 2) 0 fun _ => 0x41 :=
  (findTable_findsFirst_iff (by decide)).mpr
    (.inr ⟨by decide, by decide, .inl rfl⟩)

/-- With revision 1, which an XSDT has, two pointers are read where there is one. -/
theorem findTable_reads_behind : ¬ FindsFirst (oneEntry 44 1) 0 fun _ => 0x41 := by
  intro h
  exact absurd (h.inside 44 (by decide)) (by decide)

end ACPI

end UnifiedOS.Devices
