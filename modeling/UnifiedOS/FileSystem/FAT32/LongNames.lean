import UnifiedOS.FileSystem.FAT32.ShortNames

/-!
# Long names

A long name is stored with two bytes for a character, in pieces of 13
characters, the last piece first.  The driver goes through the pieces from the
last to the first and through the three fields of each, taking every other byte
and leaving out 0x00 and 0xFF, which brings back the name.
-/

namespace UnifiedOS.FileSystem.FAT32

open UnifiedOS.Foundation

/-! ## Storing a name -/

/-- The name as it fills its pieces: behind a name that leaves room 0x0000 and then 0xFFFF. -/
def paddedName (name : List Byte) : List Byte :=
  name.flatMap (fun b => [b, 0x00#8]) ++
    if name.length % 13 = 0 then []
    else 0x00#8 :: 0x00#8 :: List.replicate (2 * (12 - name.length % 13)) 0xFF#8

structure StoredName (lfne : List LongFileNameEntry) (name : List Byte) : Prop where
  pieces : lfne.length = (name.length + 12) / 13
  bytes : lfne.reverse.flatMap LongFileNameEntry.nameBytes = paddedName name

def LongFileNameEntry.ofNameBytes (sequenceNumber : Byte) (bytes : List Byte) :
    LongFileNameEntry := fun k =>
  if k.val = 0 then sequenceNumber
  else if k.val < 11 then bytes.getD (k.val - 1) 0#8
  else if k.val = 11 then longFileNameM
  else if 14 ≤ k.val ∧ k.val < 26 then bytes.getD (k.val - 14 + 10) 0#8
  else if 28 ≤ k.val then bytes.getD (k.val - 28 + 22) 0#8
  else 0#8

def pieceOf (bytes : List Byte) (n i : Nat) : LongFileNameEntry :=
  LongFileNameEntry.ofNameBytes
    (BitVec.ofNat 8 (i + 1) ||| if i + 1 = n then 0x40#8 else 0#8)
    ((bytes.drop (26 * i)).take 26)

def encodeName (name : List Byte) : List LongFileNameEntry :=
  let n := (name.length + 12) / 13
  ((List.range n).map (pieceOf (paddedName name) n)).reverse

section Encoding

variable {bytes name : List Byte}

theorem length_paddedName (name : List Byte) :
    (paddedName name).length = 26 * ((name.length + 12) / 13) := by
  have hpairs : ∀ name : List Byte,
      (name.flatMap fun b => [b, 0x00#8]).length = 2 * name.length := by
    intro name
    induction name with
    | nil => rfl
    | cons b name ih => simp [ih]; omega
  rw [paddedName, List.length_append, hpairs]
  split
  · simp
    omega
  · simp
    omega

theorem ofFn_getD (start n : Nat) (hfits : start + n ≤ bytes.length) :
    List.ofFn (fun x : Fin n => bytes.getD (start + x) 0#8) = (bytes.drop start).take n := by
  apply List.ext_getElem
  · simp
    omega
  · intro i hi hi'
    rw [List.length_ofFn] at hi
    rw [List.getElem_ofFn, List.getD_eq_getElem _ _ (by simp; omega), List.getElem_take,
      List.getElem_drop]

theorem nameBytes_ofNameBytes (sequenceNumber : Byte) (hlength : bytes.length = 26) :
    (LongFileNameEntry.ofNameBytes sequenceNumber bytes).nameBytes = bytes := by
  have hname1 : LongFileNameEntry.fileName1 (LongFileNameEntry.ofNameBytes sequenceNumber bytes) =
      fun x : Fin 10 => bytes.getD (0 + x) 0#8 := by
    funext x
    have hx := x.isLt
    simp only [LongFileNameEntry.fileName1, LongFileNameEntry.ofNameBytes]
    rw [if_neg (by omega), if_pos (by omega)]
    exact congrArg (bytes.getD · 0#8) (by omega)
  have hname2 : LongFileNameEntry.fileName2 (LongFileNameEntry.ofNameBytes sequenceNumber bytes) =
      fun x : Fin 12 => bytes.getD (10 + x) 0#8 := by
    funext x
    have hx := x.isLt
    simp only [LongFileNameEntry.fileName2, LongFileNameEntry.ofNameBytes]
    rw [if_neg (by omega), if_neg (by omega), if_neg (by omega), if_pos (by omega)]
    exact congrArg (bytes.getD · 0#8) (by omega)
  have hname3 : LongFileNameEntry.fileName3 (LongFileNameEntry.ofNameBytes sequenceNumber bytes) =
      fun x : Fin 4 => bytes.getD (22 + x) 0#8 := by
    funext x
    have hx := x.isLt
    simp only [LongFileNameEntry.fileName3, LongFileNameEntry.ofNameBytes]
    rw [if_neg (by omega), if_neg (by omega), if_neg (by omega), if_neg (by omega),
      if_pos (by omega)]
    exact congrArg (bytes.getD · 0#8) (by omega)
  rw [LongFileNameEntry.nameBytes, hname1, hname2, hname3, ofFn_getD 0 10 (by omega),
    ofFn_getD 10 12 (by omega), ofFn_getD 22 4 (by omega), List.drop_zero, ← List.take_add,
    ← List.take_add]
  exact List.take_of_length_le (by omega)

theorem flatMap_range_take (bytes : List Byte) (n : Nat) :
    (List.range n).flatMap (fun i => (bytes.drop (26 * i)).take 26) = bytes.take (26 * n) := by
  induction n with
  | zero => rfl
  | succ n ih =>
      rw [List.range_succ, List.flatMap_append, ih, List.flatMap_singleton, Nat.mul_succ,
        List.take_add]

theorem storedName_encodeName (name : List Byte) : StoredName (encodeName name) name := by
  have hlength := length_paddedName name
  refine ⟨by simp [encodeName], ?_⟩
  have hpiece : ∀ i ∈ List.range ((name.length + 12) / 13),
      (pieceOf (paddedName name) ((name.length + 12) / 13) i).nameBytes =
        ((paddedName name).drop (26 * i)).take 26 := by
    intro i hi
    rw [List.mem_range] at hi
    exact nameBytes_ofNameBytes _ (by rw [List.length_take, List.length_drop]; omega)
  rw [encodeName, List.reverse_reverse, List.flatMap_map, List.flatMap_congr hpiece,
    flatMap_range_take, ← hlength, List.take_length]

end Encoding

/-! ## Reading it back -/

section Decoding

variable {entry : DirectoryEntry} {bytes rest name : List Byte} {skip : Bool}

theorem characters_pairs (hname : ∀ b ∈ name, b ≠ 0x00#8 ∧ b ≠ 0xFF#8) :
    characters false (name.flatMap (fun b => [b, 0x00#8]) ++ rest) =
      name ++ characters false rest := by
  induction name with
  | nil => rfl
  | cons b name ih =>
      obtain ⟨hzero, hfiller⟩ := hname b List.mem_cons_self
      have hrest := ih fun b' hmem => hname b' (List.mem_cons_of_mem _ hmem)
      simp [characters, hzero, hfiller, hrest]

theorem characters_filler (hfiller : ∀ b ∈ bytes, b = 0x00#8 ∨ b = 0xFF#8) :
    characters skip bytes = [] := by
  induction bytes generalizing skip with
  | nil => rfl
  | cons b bytes ih =>
      have hrest := fun skip => @ih skip fun b' hmem => hfiller b' (List.mem_cons_of_mem _ hmem)
      rcases hfiller b List.mem_cons_self with rfl | rfl <;> simp [characters, hrest]

theorem characters_paddedName (hname : ∀ b ∈ name, b ≠ 0x00#8 ∧ b ≠ 0xFF#8) :
    characters false (paddedName name) = name := by
  have hfiller : characters false (if name.length % 13 = 0 then []
      else 0x00#8 :: 0x00#8 :: List.replicate (2 * (12 - name.length % 13)) 0xFF#8) = [] := by
    apply characters_filler
    intro b hmem
    split at hmem
    · contradiction
    · simp only [List.mem_cons, List.mem_replicate] at hmem
      tauto
  rw [paddedName, characters_pairs hname, hfiller, List.append_nil]

theorem StoredName.longName_eq (h : StoredName entry.lfne name)
    (hname : ∀ b ∈ name, b ≠ 0x00#8 ∧ b ≠ 0xFF#8) : longName entry.lfne = name := by
  rw [longName, h.bytes, characters_paddedName hname]

theorem Whole.bytesAt_entryName (h : Whole entry) (heap : ByteMemory) :
    bytesAt (entry.entryName heap) 0 entry.nameSize = entry.characters := by
  rw [← h.length_characters]
  apply List.ext_getElem
  · simp [bytesAt]
  · intro i hi hi'
    simp only [bytesAt, List.getElem_map, List.getElem_range, Nat.zero_add]
    exact h.entryName_at hi'

/--
The driver counts the characters of a stored name and reads them back, and at
every level it takes the entry's name for that one and no other.
-/
theorem storedName_decoded (h : StoredName entry.lfne name) (hnonempty : 1 ≤ name.length)
    (hlength : name.length ≤ 255) (hascii : ∀ b ∈ name, 0x01#8 ≤ b ∧ b ≤ 0x7F#8) :
    entry.nameSize = name.length ∧
      (∀ heap, bytesAt (entry.entryName heap) 0 entry.nameSize = name) ∧
      ∀ (s : Search) (heap : ByteMemory) (component : List Byte), SearchesFor s component →
        (s.sameName heap entry = true ↔ component = name) := by
  have hpieces := h.pieces
  have hlong : entry.lfne.length > 0 := by omega
  have hname : ∀ b ∈ name, b ≠ 0x00#8 ∧ b ≠ 0xFF#8 := by
    intro b hmem
    obtain ⟨hlo, hhi⟩ := hascii b hmem
    constructor <;> rintro rfl <;> contradiction
  have hread := h.longName_eq hname
  have hwhole : Whole entry := by
    unfold Whole
    rw [if_pos hlong, hread]
    omega
  have hcharacters : entry.characters = name := by
    rw [DirectoryEntry.characters, if_pos hlong, hread]
  refine ⟨?_, fun heap => ?_, fun s heap component hs => ?_⟩
  · rw [← hwhole.length_characters, hcharacters]
  · rw [hwhole.bytesAt_entryName, hcharacters]
  · rw [hwhole.sameName_iff hs, hcharacters, eq_comm]

end Decoding

/-- A name that fills a piece and takes four characters of another: `a longer name.txt` -/
def longerName : List Byte :=
  [0x61, 0x20, 0x6C, 0x6F, 0x6E, 0x67, 0x65, 0x72, 0x20, 0x6E, 0x61, 0x6D, 0x65, 0x2E, 0x74, 0x78,
    0x74]

def longEntry : DirectoryEntry := ⟨fun _ => 0x20#8, encodeName longerName⟩

theorem storedName_decoded_longerName :
    longEntry.nameSize = longerName.length ∧
      (∀ heap, bytesAt (longEntry.entryName heap) 0 longEntry.nameSize = longerName) ∧
      ∀ (s : Search) (heap : ByteMemory) (component : List Byte), SearchesFor s component →
        (s.sameName heap longEntry = true ↔ component = longerName) :=
  storedName_decoded (storedName_encodeName longerName) (by decide) (by decide)
    (by decide +kernel)

end UnifiedOS.FileSystem.FAT32
