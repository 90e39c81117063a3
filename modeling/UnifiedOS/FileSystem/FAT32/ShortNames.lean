import UnifiedOS.FileSystem.FAT32.PathResolution

/-!
# Short names

The size that the driver counts for a file has room for a dot.  The loop that
fills the name writes it at the first space of the eleven bytes, wherever that
is: behind the extension where the base takes all of its eight bytes, and
nowhere at all where the extension takes all of its three as well.
-/

namespace UnifiedOS.FileSystem.FAT32

open UnifiedOS.Foundation

/-- A file without a long name, whose base and extension are padded with spaces. -/
structure ShortEntry (entry : DirectoryEntry) (base extention : List Byte) : Prop where
  file : entry.rde.isDirectory = false
  short : entry.lfne = []
  base_length : base.length ≤ 8
  extention_length : extention.length ≤ 3
  noSpace : ∀ b ∈ base ++ extention, b ≠ 0x20#8
  fileName : List.ofFn entry.rde.fileName =
    base ++ (List.replicate (8 - base.length) 0x20#8 ++
      (extention ++ List.replicate (3 - extention.length) 0x20#8))

def fileNameOf (base extention : List Byte) : List Byte :=
  (if extention = [] then base else base ++ 0x2E#8 :: extention).map lowerCase

def Search.sameName (s : Search) (heap : ByteMemory) (entry : DirectoryEntry) : Bool :=
  decide (entry.nameSize = s.sectionSpacing) &&
    memcmp (entry.entryName heap) s.path entry.nameSize

/--
The entry is compared equal with its own name alone, and what the heap left in
`EntryName` makes no difference to the bytes that are compared.
-/
structure MatchesShortName (entry : DirectoryEntry) (base extention : List Byte) : Prop where
  same : ∀ (s : Search) (heap : ByteMemory) (name : List Byte), SearchesFor s name →
    (s.sameName heap entry = true ↔ name = fileNameOf base extention)
  written : ∀ (heap heap' : ByteMemory), ∀ i < entry.nameSize,
    entry.entryName heap i = entry.entryName heap' i

section Characters

variable {bytes rest : List Byte} {size pos : Nat} {isDirectory counted : Bool}

theorem shortCharacters_full (h : size ≤ pos) :
    shortCharacters isDirectory size pos counted bytes = [] := by
  cases bytes with
  | nil => rfl
  | cons b bytes => rw [shortCharacters, if_neg (Nat.not_lt.mpr h)]

theorem shortCharacters_append (hspace : ∀ b ∈ bytes, b ≠ 0x20#8)
    (hfits : pos + bytes.length ≤ size) :
    shortCharacters isDirectory size pos counted (bytes ++ rest) =
      bytes.map lowerCase ++
        shortCharacters isDirectory size (pos + bytes.length) counted rest := by
  induction bytes generalizing pos with
  | nil => rfl
  | cons b bytes ih =>
      have hb : (b != 0x20#8) = true := by simpa using hspace b List.mem_cons_self
      rw [List.length_cons] at hfits
      rw [List.cons_append, shortCharacters, if_pos (by omega), if_pos hb,
        ih (fun b' hmem => hspace b' (List.mem_cons_of_mem _ hmem)) (by omega),
        List.length_cons, Nat.add_assoc, Nat.add_comm 1, List.map_cons, List.cons_append]

theorem shortCharacters_spaces (n : Nat) :
    shortCharacters isDirectory size pos true (List.replicate n 0x20#8 ++ rest) =
      shortCharacters isDirectory size pos true rest := by
  rcases Nat.lt_or_ge pos size with hlt | hge
  · induction n with
    | zero => rfl
    | succ n ih =>
        rw [List.replicate_succ, List.cons_append, shortCharacters, if_pos hlt]
        simpa using ih
  · rw [shortCharacters_full hge, shortCharacters_full hge]

theorem shortCharacters_dot (hroom : pos < size) :
    shortCharacters false size pos false (0x20#8 :: rest) =
      0x2E#8 :: shortCharacters false size (pos + 1) true rest := by
  rw [shortCharacters, if_pos hroom]
  simp

end Characters

namespace ShortEntry

variable {entry : DirectoryEntry} {base extention name : List Byte} {heap : ByteMemory}

theorem noSpace_base (h : ShortEntry entry base extention) : ∀ b ∈ base, b ≠ 0x20#8 :=
  fun b hmem => h.noSpace b (List.mem_append_left _ hmem)

theorem noSpace_extention (h : ShortEntry entry base extention) :
    ∀ b ∈ extention, b ≠ 0x20#8 :=
  fun b hmem => h.noSpace b (List.mem_append_right _ hmem)

theorem noLong (h : ShortEntry entry base extention) : ¬ entry.lfne.length > 0 := by
  rw [h.short]
  exact Nat.lt_irrefl 0

theorem entrySize_eq (h : ShortEntry entry base extention) :
    entry.rde.entrySize = 1 + base.length + extention.length := by
  have hcount : ∀ {bytes : List Byte}, (∀ b ∈ bytes, b ≠ 0x20#8) →
      bytes.countP (· != 0x20#8) = bytes.length := fun hspace =>
    List.countP_eq_length.mpr fun b hmem => by simpa using hspace b hmem
  have hspaces : ∀ n, (List.replicate n 0x20#8).countP (· != 0x20#8) = 0 := fun n =>
    List.countP_eq_zero.mpr fun b hmem => by simp [List.eq_of_mem_replicate hmem]
  rw [RootDirectoryEntry.entrySize, h.fileName, h.file, List.countP_append, List.countP_append,
    List.countP_append, hcount h.noSpace_base, hcount h.noSpace_extention, hspaces, hspaces]
  simp
  omega

theorem nameSize_eq (h : ShortEntry entry base extention) :
    entry.nameSize = 1 + base.length + extention.length := by
  rw [DirectoryEntry.nameSize, if_neg h.noLong, h.entrySize_eq]

theorem characters_eq (h : ShortEntry entry base extention) :
    entry.characters = base.map lowerCase ++
      shortCharacters false (1 + base.length + extention.length) base.length false
        (List.replicate (8 - base.length) 0x20#8 ++
          (extention ++ List.replicate (3 - extention.length) 0x20#8)) := by
  rw [DirectoryEntry.characters, if_neg h.noLong, shortName, h.file,
    h.entrySize_eq, h.fileName, shortCharacters_append h.noSpace_base (by omega), Nat.zero_add]

theorem characters_of_base (h : ShortEntry entry base extention) (hbase : base.length < 8) :
    entry.characters = base.map lowerCase ++ 0x2E#8 :: extention.map lowerCase := by
  obtain ⟨n, hn⟩ : ∃ n, 8 - base.length = n + 1 := ⟨7 - base.length, by omega⟩
  rw [h.characters_eq, hn, List.replicate_succ, List.cons_append, shortCharacters_dot (by omega),
    shortCharacters_spaces, shortCharacters_append h.noSpace_extention (by omega),
    shortCharacters_full (by omega), List.append_nil]

theorem characters_of_extention (h : ShortEntry entry base extention) (hbase : base.length = 8)
    (hextention : extention.length < 3) :
    entry.characters = base.map lowerCase ++ (extention.map lowerCase ++ [0x2E#8]) := by
  obtain ⟨n, hn⟩ : ∃ n, 3 - extention.length = n + 1 := ⟨2 - extention.length, by omega⟩
  rw [h.characters_eq, hbase, Nat.sub_self, List.replicate_zero, List.nil_append,
    shortCharacters_append h.noSpace_extention (by omega), hn, List.replicate_succ,
    shortCharacters_dot (by omega), shortCharacters_full (by omega)]

/-- Where both take all their bytes the dot is left out. -/
theorem characters_of_full (h : ShortEntry entry base extention) (hbase : base.length = 8)
    (hextention : extention.length = 3) :
    entry.characters = base.map lowerCase ++ extention.map lowerCase := by
  rw [h.characters_eq, hbase, hextention, Nat.sub_self, List.replicate_zero,
    List.nil_append, shortCharacters_append h.noSpace_extention (by omega)]
  simp [shortCharacters]

theorem whole (h : ShortEntry entry base extention)
    (hroom : base.length < 8 ∨ extention.length < 3) : Whole entry := by
  unfold Whole
  rw [if_neg h.noLong, h.fileName]
  intro _
  rcases hroom with hbase | hextention
  · exact List.mem_append_right _ (List.mem_append_left _
      (List.mem_replicate.mpr ⟨by omega, rfl⟩))
  · exact List.mem_append_right _ (List.mem_append_right _ (List.mem_append_right _
      (List.mem_replicate.mpr ⟨by omega, rfl⟩)))

end ShortEntry

section Matching

variable {entry : DirectoryEntry} {base extention name : List Byte}

theorem correctEntry_eq (s : Search) (heap : ByteMemory) (entry : DirectoryEntry) :
    s.correctEntry heap entry = (s.isKind entry.rde && s.sameName heap entry) := by
  rw [Search.correctEntry, Search.sameName, Bool.and_assoc]

theorem Whole.sameName_iff {s : Search} {heap : ByteMemory} (h : Whole entry)
    (hs : SearchesFor s name) : s.sameName heap entry = true ↔ entry.characters = name := by
  rw [← @Whole.compares_iff name entry heap h, Search.sameName, Bool.and_eq_true,
    decide_eq_true_iff, memcmp_iff, hs.spacing]
  refine and_congr_right fun hsize => forall₂_congr fun i hi => ?_
  rw [hs.path i (by omega)]

theorem Whole.matchesShortName_iff (h : Whole entry) :
    MatchesShortName entry base extention ↔ entry.characters = fileNameOf base extention := by
  constructor
  · intro hmatches
    have hs : SearchesFor ⟨0, 0, entry.characters.length, fun i => entry.characters.getD i 0#8⟩
        entry.characters := ⟨Nat.le_refl 0, rfl, fun i _ => rfl⟩
    exact (hmatches.same _ (fun _ => 0) _ hs).mp ((h.sameName_iff hs).mpr rfl)
  · intro hname
    refine ⟨fun s heap name hs => ?_, fun heap heap' i hi => ?_⟩
    · rw [h.sameName_iff hs, hname, eq_comm]
    · rw [← h.length_characters] at hi
      rw [h.entryName_at hi, h.entryName_at hi]

/-- With no room for the dot, the last byte that is compared is the heap's. -/
theorem ShortEntry.not_matches_full (h : ShortEntry entry base extention)
    (hbase : base.length = 8) (hextention : extention.length = 3) :
    ¬ MatchesShortName entry base extention := by
  intro hmatches
  have hunwritten : ∀ heap : ByteMemory, entry.entryName heap 11 = heap 11 := by
    intro heap
    rw [DirectoryEntry.entryName, h.characters_of_full hbase hextention]
    exact writeName_after (by simp; omega) (by simp; omega)
  have hsame := hmatches.written (fun _ => 0) (fun _ => 1) 11 (by rw [h.nameSize_eq]; omega)
  rw [hunwritten, hunwritten] at hsame
  contradiction

theorem lowerCase_eq_dot {b : Byte} : lowerCase b = 0x2E#8 ↔ b = 0x2E#8 := by
  unfold lowerCase
  split
  · constructor <;> intro h <;> bv_omega
  · rfl

theorem cons_eq_append_singleton {α : Type*} {a : α} {l : List α} :
    a :: l = l ++ [a] ↔ ∀ x ∈ l, x = a := by
  induction l with
  | nil => simp
  | cons x l ih =>
      rw [List.cons_append, List.cons.injEq, List.forall_mem_cons, ← ih]
      constructor
      · rintro ⟨rfl, h⟩
        exact ⟨rfl, h⟩
      · rintro ⟨rfl, h⟩
        exact ⟨rfl, h⟩

/--
A short name is matched as it should be where there is an extension and the base
leaves room before it; behind a full base only for an extension of one or two dots.
-/
theorem shortName_matches_iff (h : ShortEntry entry base extention) :
    (∀ (s : Search) (heap : ByteMemory),
        s.correctEntry heap entry = (s.isKind entry.rde && s.sameName heap entry)) ∧
      (MatchesShortName entry base extention ↔ extention ≠ [] ∧ (base.length < 8 ∨
        extention.length < 3 ∧ ∀ b ∈ extention, b = 0x2E#8)) := by
  refine ⟨fun s heap => correctEntry_eq s heap entry, ?_⟩
  have hdot : lowerCase 0x2E#8 = 0x2E#8 := rfl
  rcases Nat.lt_or_eq_of_le h.base_length with hbase | hbase
  · rw [(h.whole (.inl hbase)).matchesShortName_iff, h.characters_of_base hbase, fileNameOf]
    cases hempty : extention with
    | nil => simp
    | cons b extention => simp [hbase, hdot]
  rcases Nat.lt_or_eq_of_le h.extention_length with hextention | hextention
  · rw [(h.whole (.inr hextention)).matchesShortName_iff,
      h.characters_of_extention hbase hextention, fileNameOf]
    by_cases hempty : extention = []
    · subst hempty
      simp
    · have hdots : (∀ b ∈ extention.map lowerCase, b = 0x2E#8) ↔
          ∀ b ∈ extention, b = 0x2E#8 := by
        simp [lowerCase_eq_dot]
      rw [if_neg hempty, List.map_append, List.append_cancel_left_eq, List.map_cons, hdot,
        eq_comm, cons_eq_append_singleton, hdots]
      simp [hempty, hbase, hextention]
  · exact iff_of_false (h.not_matches_full hbase hextention) (by omega)

end Matching

def fileEntry (fileName : List Byte) : DirectoryEntry :=
  ⟨fun k => if k.val < 11 then fileName.getD k 0x20#8 else 0#8, []⟩

def fileFT : DirectoryEntry :=
  fileEntry [0x46, 0x20, 0x20, 0x20, 0x20, 0x20, 0x20, 0x20, 0x54]

theorem shortName_matches_iff_fileFT :
    (∀ (s : Search) (heap : ByteMemory),
        s.correctEntry heap fileFT = (s.isKind fileFT.rde && s.sameName heap fileFT)) ∧
      (MatchesShortName fileFT [0x46] [0x54] ↔ ([0x54] : List Byte) ≠ [] ∧
        (([0x46] : List Byte).length < 8 ∨ ([0x54] : List Byte).length < 3 ∧
          ∀ b ∈ ([0x54] : List Byte), b = 0x2E#8)) :=
  shortName_matches_iff ⟨by decide, rfl, by decide, by decide, by decide, by decide⟩

def upperReadme : List Byte := [0x52, 0x45, 0x41, 0x44, 0x4D, 0x45]

def lowerReadme : List Byte := [0x72, 0x65, 0x61, 0x64, 0x6D, 0x65]

/-- Without an extension it is compared as `readme.`. -/
theorem shortName_without_extention :
    ShortEntry (fileEntry upperReadme) upperReadme [] ∧
      ¬ MatchesShortName (fileEntry upperReadme) upperReadme [] := by
  refine ⟨⟨by decide, rfl, by decide, by decide, by decide, by decide⟩, fun hmatches => ?_⟩
  have hsame := (hmatches.same ⟨0, 0, 6, fun i => lowerReadme.getD i 0#8⟩ (fun _ => 0)
    lowerReadme ⟨Nat.le_refl 0, rfl, fun i _ => rfl⟩).mpr (by decide)
  revert hsame
  decide

end UnifiedOS.FileSystem.FAT32
