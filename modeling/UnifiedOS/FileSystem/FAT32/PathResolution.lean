import UnifiedOS.FileSystem.FAT32.FATPartition
import UnifiedOS.FileSystem.FAT32.ScanRun
import Mathlib.Data.Fintype.Basic
import Mathlib.Data.List.GetD
import Mathlib.Data.List.DropRight

/-!
# What a resolved path names

A path names a file when its components lead to it, each through a directory of
that name inside the one before.  `ResolveFile` goes on with the directory it is
in where a component is missing, so what it finds need not be what the path
names.  `Leads` is about the names and first clusters that are on the disk;
`matching` is what the driver takes for a component.
-/

namespace UnifiedOS.FileSystem.FAT32

open UnifiedOS.Foundation

/-! ## Names on the disk -/

def units : List Byte → List (BitVec 16)
  | low :: high :: bytes => (high ++ low) :: units bytes
  | _ => []

def spelledName (lfne : List LongFileNameEntry) : List (BitVec 16) :=
  (units (lfne.reverse.flatMap LongFileNameEntry.nameBytes)).takeWhile (· != 0)

/-- The base and, behind a dot, the extension, both without their padding. -/
def dottedName (r : RootDirectoryEntry) : List Byte :=
  let base := ((List.ofFn r.fileName).take 8).rdropWhile (· == 0x20#8)
  let extention := ((List.ofFn r.fileName).drop 8).rdropWhile (· == 0x20#8)
  (if extention = [] then base else base ++ 0x2E#8 :: extention).map lowerCase

def Names (name : List Byte) (entry : DirectoryEntry) : Prop :=
  if entry.lfne.length > 0 then name.map (BitVec.setWidth 16) = spelledName entry.lfne
  else name = dottedName entry.rde

instance (name : List Byte) (entry : DirectoryEntry) : Decidable (Names name entry) :=
  inferInstanceAs (Decidable (if entry.lfne.length > 0 then
    name.map (BitVec.setWidth 16) = spelledName entry.lfne else name = dottedName entry.rde))

theorem Names.unique {name name' : List Byte} {entry : DirectoryEntry} (h : Names name entry)
    (h' : Names name' entry) : name = name' := by
  unfold Names at h h'
  split at h
  · rename_i hlong
    rw [if_pos hlong, ← h] at h'
    refine List.map_injective_iff.mpr (fun a b hab => ?_) h'.symm
    have hwidth := congrArg BitVec.toNat hab
    simp only [BitVec.toNat_setWidth] at hwidth
    apply BitVec.eq_of_toNat_eq
    omega
  · rename_i hshort
    rw [if_neg hshort] at h'
    exact h.trans h'.symm

/-! ## Names in the driver -/

section Names

variable {buffer heap : ByteMemory} {bytes : List Byte} {pos i n : Nat}
  {isDirectory counted : Bool} {entry : DirectoryEntry} {r : RootDirectoryEntry}

theorem writeName_before (h : i < pos) (hfits : pos + bytes.length ≤ 256) :
    writeName buffer pos bytes i = buffer i := by
  induction bytes generalizing buffer pos with
  | nil => rfl
  | cons b bytes ih =>
      rw [List.length_cons] at hfits
      cases bytes with
      | nil => exact ByteMemory.poke_other _ _ (by omega)
      | cons b' bytes =>
          rw [List.length_cons] at hfits
          rw [writeName, Nat.mod_eq_of_lt (by omega), ih (by omega) (by simp; omega)]
          exact ByteMemory.poke_other _ _ (by omega)

theorem writeName_after (h : pos + bytes.length ≤ i) (hfits : pos + bytes.length ≤ 256) :
    writeName buffer pos bytes i = buffer i := by
  induction bytes generalizing buffer pos with
  | nil => rfl
  | cons b bytes ih =>
      rw [List.length_cons] at h hfits
      have hother : buffer.poke pos b i = buffer i := ByteMemory.poke_other _ _ (by omega)
      cases bytes with
      | nil => exact hother
      | cons b' bytes =>
          rw [List.length_cons] at h hfits
          rw [writeName, Nat.mod_eq_of_lt (by omega), ih (by simp; omega) (by simp; omega), hother]

/-- Up to 256 characters the position does not wrap. -/
theorem writeName_at (hfits : pos + bytes.length ≤ 256) (hi : i < bytes.length) :
    writeName buffer pos bytes (pos + i) = bytes[i] := by
  induction bytes generalizing buffer pos i with
  | nil => contradiction
  | cons b bytes ih =>
      rw [List.length_cons] at hfits hi
      cases i with
      | zero =>
          cases bytes with
          | nil => simp [writeName]
          | cons b' bytes =>
              rw [List.length_cons] at hfits
              rw [writeName, Nat.mod_eq_of_lt (by omega),
                writeName_before (by omega) (by simp; omega)]
              simp
      | succ i =>
          rw [writeName, Nat.mod_eq_of_lt (by omega), ← Nat.add_assoc, Nat.add_right_comm,
            ih (by omega) (by omega)]
          rfl

theorem length_shortCharacters
    (hsize : pos + bytes.countP (· != 0x20#8) +
      (if !counted && !isDirectory then 1 else 0) = n)
    (hspace : (!counted && !isDirectory) = true → 0x20#8 ∈ bytes) :
    (shortCharacters isDirectory n pos counted bytes).length = n - pos := by
  induction bytes generalizing pos counted with
  | nil =>
      cases hdot : !counted && !isDirectory with
      | true => exact absurd (hspace hdot) List.not_mem_nil
      | false =>
          rw [hdot] at hsize
          simp [shortCharacters] at hsize ⊢
          omega
  | cons b bytes ih =>
      rw [shortCharacters]
      rw [List.countP_cons] at hsize
      split
      · cases hb : b != 0x20#8 with
        | true =>
            rw [if_pos rfl, List.length_cons, ih]
            · omega
            · simp [hb] at hsize ⊢; omega
            · intro hdot
              have := hspace hdot
              simp at this hb
              tauto
        | false =>
            cases hdot : !counted && !isDirectory with
            | true =>
                rw [if_neg (by simp), if_pos rfl, List.length_cons, ih]
                · omega
                · simp [hb, hdot] at hsize ⊢; omega
                · intro hfalse; simp at hfalse
            | false =>
                rw [if_neg (by simp), if_neg (by simp), ih]
                · simpa [hb] using hsize
                · intro h; rw [hdot] at h; contradiction
      · cases hdot : !counted && !isDirectory with
        | true => simp [hdot] at hsize; omega
        | false => simp; omega

/-- Every byte of the name buffer is written, and none twice. -/
def Whole (entry : DirectoryEntry) : Prop :=
  if entry.lfne.length > 0 then (longName entry.lfne).length ≤ 256
  else entry.rde.isDirectory = false → 0x20#8 ∈ List.ofFn entry.rde.fileName

structure Readable (entry : DirectoryEntry) : Prop where
  whole : Whole entry
  names : Names entry.characters entry

instance (entry : DirectoryEntry) : Decidable (Whole entry) :=
  inferInstanceAs (Decidable (if entry.lfne.length > 0 then (longName entry.lfne).length ≤ 256
    else entry.rde.isDirectory = false → 0x20#8 ∈ List.ofFn entry.rde.fileName))

instance (entry : DirectoryEntry) : Decidable (Readable entry) :=
  decidable_of_iff (Whole entry ∧ Names entry.characters entry)
    ⟨fun h => ⟨h.1, h.2⟩, fun h => ⟨h.whole, h.names⟩⟩

theorem length_shortName (h : r.isDirectory = false → 0x20#8 ∈ List.ofFn r.fileName) :
    (shortName r).length = r.entrySize := by
  rw [shortName, length_shortCharacters _ (by simpa using h), Nat.sub_zero]
  cases hdir : r.isDirectory <;> simp [RootDirectoryEntry.entrySize, hdir, Nat.add_comm]

theorem Whole.length_characters (h : Whole entry) :
    entry.characters.length = entry.nameSize := by
  unfold Whole at h
  unfold DirectoryEntry.characters DirectoryEntry.nameSize
  split
  · rfl
  · rename_i hshort
    rw [if_neg hshort] at h
    exact length_shortName h

theorem RootDirectoryEntry.entrySize_le : r.entrySize ≤ 12 := by
  have hcount := List.countP_le_length (p := (· != 0x20#8)) (l := List.ofFn r.fileName)
  rw [List.length_ofFn] at hcount
  rw [RootDirectoryEntry.entrySize]
  split <;> omega

theorem Whole.nameSize_le (h : Whole entry) : entry.nameSize ≤ 256 := by
  unfold Whole at h
  unfold DirectoryEntry.nameSize
  split
  · rename_i hlong
    rwa [if_pos hlong] at h
  · exact Nat.le_trans RootDirectoryEntry.entrySize_le (by decide)

theorem Whole.entryName_at (h : Whole entry) (hi : i < entry.characters.length) :
    entry.entryName heap i = entry.characters[i] := by
  have hfits : 0 + entry.characters.length ≤ 256 := by
    have hle := h.nameSize_le
    rw [h.length_characters]
    omega
  have hat := @writeName_at heap entry.characters 0 i hfits hi
  rwa [Nat.zero_add] at hat

end Names

/-! ## Matching entries -/

def takes (last : Bool) (name : List Byte) (heap : ByteMemory) (entry : DirectoryEntry) : Bool :=
  entry.rde.isDirectory != last && !entry.rde.isSystemFile &&
    decide (entry.nameSize = name.length) &&
      memcmp (entry.entryName heap) (fun i => name.getD i 0#8) entry.nameSize

def matching (last : Bool) (name : List Byte) (heap : Nat → ByteMemory) :
    Nat → List DirectoryEntry → List DirectoryEntry
  | _, [] => []
  | i, entry :: entries =>
      if takes last name (heap (i + 2)) entry then
        entry :: matching last name heap (i + 1) entries
      else matching last name heap (i + 1) entries

section Matching

variable {last : Bool} {name : List Byte} {entry : DirectoryEntry}
  {entries : List DirectoryEntry} {s : Search} {i : Nat} {cluster : BitVec 32}

theorem memcmp_iff {a b : ByteMemory} {size : Nat} :
    memcmp a b size = true ↔ ∀ i < size, a i = b i := by
  simp [memcmp]

theorem Whole.compares_iff {heap : ByteMemory} (h : Whole entry) :
    (entry.nameSize = name.length ∧
      ∀ i < entry.nameSize, entry.entryName heap i = name.getD i 0#8) ↔
        entry.characters = name := by
  rw [← h.length_characters]
  constructor
  · rintro ⟨hlength, hbytes⟩
    refine List.ext_getElem hlength fun i hi hi' => ?_
    rw [← @Whole.entryName_at heap i entry h hi, hbytes i hi, List.getD_eq_getElem _ _ hi']
  · rintro rfl
    refine ⟨rfl, fun i hi => ?_⟩
    rw [h.entryName_at hi, List.getD_eq_getElem _ _ hi]

theorem Whole.takes_iff {heap : ByteMemory} (h : Whole entry) :
    takes last name heap entry = true ↔ entry.rde.isDirectory = !last ∧
      entry.rde.isSystemFile = false ∧ entry.characters = name := by
  rw [← @Whole.compares_iff name entry heap h]
  cases last <;> simp [takes, memcmp_iff, and_assoc]

theorem Readable.takes_iff {heap : ByteMemory} (h : Readable entry) :
    takes last name heap entry = true ↔ entry.rde.isDirectory = !last ∧
      entry.rde.isSystemFile = false ∧ Names name entry := by
  rw [h.whole.takes_iff]
  refine and_congr_right fun _ => and_congr_right fun _ => ?_
  constructor
  · rintro rfl
    exact h.names
  · exact h.names.unique

theorem mem_matching {heap : Nat → ByteMemory}
    (h : entry ∈ matching last name heap i entries) :
    entry ∈ entries ∧ ∃ k, takes last name (heap k) entry = true := by
  induction entries generalizing i with
  | nil => contradiction
  | cons entry' entries ih =>
      rw [matching] at h
      split at h
      · rename_i htakes
        rcases List.mem_cons.mp h with rfl | hmem
        · exact ⟨List.mem_cons_self, _, htakes⟩
        · exact ⟨List.mem_cons_of_mem _ (ih hmem).1, (ih hmem).2⟩
      · exact ⟨List.mem_cons_of_mem _ (ih h).1, (ih h).2⟩

theorem mem_matching_of_takes {heap : Nat → ByteMemory} (hmem : entry ∈ entries)
    (htakes : ∀ k, takes last name (heap k) entry = true) :
    entry ∈ matching last name heap i entries := by
  induction entries generalizing i with
  | nil => contradiction
  | cons entry' entries ih =>
      rw [matching]
      rcases List.mem_cons.mp hmem with rfl | hrest
      · rw [if_pos (htakes _)]
        exact List.mem_cons_self
      · split
        · exact List.mem_cons_of_mem _ (ih hrest)
        · exact ih hrest

structure SearchesFor (s : Search) (name : List Byte) : Prop where
  level : s.level ≤ s.subdirectories
  spacing : s.sectionSpacing = name.length
  path : ∀ i < name.length, s.path i = name.getD i 0#8

theorem SearchesFor.correctEntry {heap : ByteMemory} (h : SearchesFor s name) :
    s.correctEntry heap entry = takes (decide (s.subdirectories = s.level)) name heap entry := by
  have hlevel := h.level
  have hkind : s.isKind entry.rde =
      (entry.rde.isDirectory != decide (s.subdirectories = s.level) &&
        !entry.rde.isSystemFile) := by
    rcases Nat.lt_or_eq_of_le hlevel with hlt | heq
    · simp [Search.isKind, hlt, hlt.ne']
    · simp [Search.isKind, heq]
  rw [Search.correctEntry, takes, hkind, h.spacing]
  by_cases hsize : entry.nameSize = name.length
  · have hsame : memcmp (entry.entryName heap) s.path entry.nameSize =
        memcmp (entry.entryName heap) (fun i => name.getD i 0#8) entry.nameSize := by
      rw [Bool.eq_iff_iff, memcmp_iff, memcmp_iff, hsize]
      exact forall₂_congr fun i hi => by rw [h.path i hi]
    rw [hsame]
  · simp [hsize]

/-- Before the last section the last match is the next directory. -/
theorem SearchesFor.lookUp_directory {heap : Nat → ByteMemory} (h : SearchesFor s name)
    (hmore : s.level < s.subdirectories) :
    s.lookUp heap i cluster entries = .next (((matching false name heap i entries).getLast?.map
      fun entry => newClusterPosition entry.rde).getD cluster) := by
  have hne : s.subdirectories ≠ s.level := by omega
  induction entries generalizing i cluster with
  | nil => rfl
  | cons entry entries ih =>
      rw [Search.lookUp, matching, h.correctEntry, decide_eq_false hne]
      split
      · rw [ih, List.getLast?_cons]
        cases (matching false name heap (i + 1) entries).getLast? <;> rfl
      · exact ih

/-- At the last section the first match is the file. -/
theorem SearchesFor.lookUp_file {heap : Nat → ByteMemory} (cluster : BitVec 32)
    (h : SearchesFor s name)
    (hlast : s.subdirectories = s.level)
    (hhead : (matching true name heap i entries).head? = some entry) :
    ∃ entryName, s.lookUp heap i cluster entries = .file entryName entry := by
  induction entries generalizing i with
  | nil => contradiction
  | cons entry' entries ih =>
      rw [matching] at hhead
      rw [Search.lookUp, h.correctEntry, decide_eq_true hlast]
      split at hhead
      · rename_i htakes
        rw [if_pos htakes, if_pos hlast]
        cases Option.some.inj hhead
        exact ⟨_, rfl⟩
      · rename_i htakes
        rw [if_neg htakes]
        exact ih hhead

theorem SearchesFor.lookUp_none {heap : Nat → ByteMemory} (h : SearchesFor s name)
    (hlast : s.subdirectories = s.level)
    (hhead : (matching true name heap i entries).head? = none) :
    s.lookUp heap i cluster entries = .next cluster := by
  induction entries generalizing i with
  | nil => rfl
  | cons entry' entries ih =>
      rw [matching] at hhead
      rw [Search.lookUp, h.correctEntry, decide_eq_true hlast]
      split at hhead
      · contradiction
      · rename_i htakes
        rw [if_neg htakes]
        exact ih hhead

end Matching

/-! ## Paths -/

/-- A name in a path has no separator, and the path no zero before its end. -/
def PathComponent (name : List Byte) : Prop :=
  ∀ b ∈ name, b ≠ 0#8 ∧ isSeparator b = false

instance (name : List Byte) : Decidable (PathComponent name) :=
  inferInstanceAs (Decidable (∀ b ∈ name, b ≠ 0#8 ∧ isSeparator b = false))

def components : List (List Byte) → List Byte → List Byte
  | [], f => f
  | d :: dirs, f => d ++ 0x2F#8 :: components dirs f

def pathTo (letter : Byte) (dirs : List (List Byte)) (f : List Byte) : List Byte :=
  letter :: 0x3A#8 :: 0x2F#8 :: components dirs f

section Paths

variable {name f rest path : List Byte} {dirs : List (List Byte)} {n offset : Nat} {letter : Byte}

theorem sectionSpacing_component (h : PathComponent name) :
    sectionSpacing n (name ++ rest) = sectionSpacing (n + name.length) rest := by
  induction name generalizing n with
  | nil => rfl
  | cons b name ih =>
      have hb : isSeparator b = false := (h b List.mem_cons_self).2
      rw [List.cons_append, sectionSpacing, hb, List.length_cons]
      refine (ih fun b hmem => h b (List.mem_cons_of_mem _ hmem)).trans ?_
      rw [Nat.add_assoc, Nat.add_comm 1]

theorem countP_component (h : PathComponent name) : name.countP isSeparator = 0 :=
  List.countP_eq_zero.mpr fun b hmem => by simp [(h b hmem).2]

theorem sectionSpacing_components (hf : PathComponent f) (hdirs : ∀ d ∈ dirs, PathComponent d) :
    sectionSpacing 0 (components dirs f) = dirs.map List.length ++ [f.length] := by
  induction dirs with
  | nil =>
      have hlast := @sectionSpacing_component f [] 0 hf
      simpa [components, sectionSpacing] using hlast
  | cons d dirs ih =>
      rw [components, sectionSpacing_component (hdirs d List.mem_cons_self), Nat.zero_add]
      change d.length :: sectionSpacing 0 (components dirs f) = _
      rw [ih fun d hmem => hdirs d (List.mem_cons_of_mem _ hmem)]
      rfl

theorem countP_components (hf : PathComponent f) (hdirs : ∀ d ∈ dirs, PathComponent d) :
    (components dirs f).countP isSeparator = dirs.length := by
  induction dirs with
  | nil => exact countP_component hf
  | cons d dirs ih =>
      rw [components, List.countP_append, countP_component (hdirs d List.mem_cons_self),
        List.countP_cons, ih fun d hmem => hdirs d (List.mem_cons_of_mem _ hmem),
        List.length_cons]
      simp [isSeparator]

theorem drop_components (h : path.drop offset = components (name :: dirs) f) :
    path.drop (offset + name.length + 1) = components dirs f := by
  rw [Nat.add_assoc, ← List.drop_drop, h, components, List.drop_append]
  simp

theorem searchesFor_section {subdirectories level : Nat} (hlevel : level ≤ subdirectories)
    (h : path.drop offset = name ++ rest) :
    SearchesFor ⟨subdirectories, level, name.length, fun i => path.getD (offset + i) 0#8⟩ name := by
  refine ⟨hlevel, rfl, fun i hi => ?_⟩
  have hat : path[offset + i]? = name[i]? := by
    rw [← List.getElem?_drop, h, List.getElem?_append_left hi]
  simp only [List.getD_eq_getElem?_getD, hat]

end Paths

/-! ## What a path names -/

section Levels

variable (disk : Fat32Partition) (heap : Nat → Nat → ByteMemory) (fuel : Nat)

def Lists (level : Nat) (cluster : BitVec 32) (entries : List DirectoryEntry) : Prop :=
  readDirectory disk (heap level) fuel cluster = some (some entries)

def RootDirectoryEntry.firstCluster (r : RootDirectoryEntry) : BitVec 32 :=
  r.high2BytesOfAddressOfFirstCluster ++ r.low2BytesOfAddressOfFirstCluster

/--
From the directory at `cluster` on, every component names a directory inside the
one before it, and `f` names `entry`, which is no directory, in the last.
-/
def Leads : Nat → BitVec 32 → List (List Byte) → List Byte → DirectoryEntry → Prop
  | level, cluster, [], f, entry => ∃ entries, Lists disk heap fuel level cluster entries ∧
      entry ∈ entries ∧ entry.rde.isDirectory = false ∧ Names f entry
  | level, cluster, d :: dirs, f, entry =>
      ∃ entries, Lists disk heap fuel level cluster entries ∧
        ∃ dir ∈ entries, dir.rde.isDirectory = true ∧ Names d dir ∧
          Leads (level + 1) dir.rde.firstCluster dirs f entry

/-- The clusters of a file; one that has no first cluster has none. -/
def fileClusters (level : Nat) (entry : DirectoryEntry) : Option (List (BitVec 32)) :=
  if entry.rde.firstCluster = 0 then some []
  else (scanForEntries disk (heap level 0) fuel entry.rde.firstCluster.toNat).join

structure Describes (level : Nat) (file : GeneralFile) (entry : DirectoryEntry) : Prop where
  size : file.fileSize = entry.rde.fileSize.setWidth 64
  clusters : ∃ clusters, fileClusters disk heap fuel level entry = some clusters ∧
    file.sectors = some (sectorsOf disk.mbr clusters)

/-- A file is found only where the path names one. -/
structure Sound (dirs : List (List Byte)) (f : List Byte) (file : GeneralFile) : Prop where
  resolves : file.found = true → ∃ entry, Leads disk heap fuel 0 0 dirs f entry ∧
    Describes disk heap fuel (dirs.length + 1) file entry
  missing : (∀ entry, ¬ Leads disk heap fuel 0 0 dirs f entry) → file.found = false

/-! ## When the driver is sound -/

def nextCluster (cluster : BitVec 32) (dirs : List DirectoryEntry) : BitVec 32 :=
  (dirs.getLast?.map fun dir => newClusterPosition dir.rde).getD cluster

/--
Every component is there, and what it is matched with has a readable name and a
first cluster below `2 ^ 16`; that of the file is not zero.
-/
def Straight : Nat → BitVec 32 → List (List Byte) → List Byte → Prop
  | level, cluster, [], f => ∀ entries, Lists disk heap fuel level cluster entries →
      ∀ entry ∈ (matching true f (heap level) 0 entries).head?,
        Readable entry ∧ entry.rde.high2BytesOfAddressOfFirstCluster = 0 ∧
          entry.rde.firstCluster ≠ 0
  | level, cluster, d :: dirs, f => ∀ entries, Lists disk heap fuel level cluster entries →
      ∃ dir ∈ (matching false d (heap level) 0 entries).getLast?,
        Readable dir ∧ dir.rde.high2BytesOfAddressOfFirstCluster = 0 ∧
          Straight (level + 1) dir.rde.firstCluster dirs f

/--
Nothing matches `f` in the directory where the missing components, each of them
passed over, leave the driver.
-/
def NoFile : Nat → BitVec 32 → List (List Byte) → List Byte → Prop
  | level, cluster, [], f => ∀ entries, Lists disk heap fuel level cluster entries →
      matching true f (heap level) 0 entries = []
  | level, cluster, d :: dirs, f => ∀ entries, Lists disk heap fuel level cluster entries →
      NoFile (level + 1) (nextCluster cluster (matching false d (heap level) 0 entries)) dirs f

/--
What a plain volume leaves open is that a component is missing, and that the
file has no clusters.
-/
structure PlainListing (entries : List DirectoryEntry) : Prop where
  readable : ∀ entry ∈ entries, Readable entry
  high : ∀ entry ∈ entries, entry.rde.high2BytesOfAddressOfFirstCluster = 0
  noSystem : ∀ entry ∈ entries, entry.rde.isDirectory = true → entry.rde.isSystemFile = false
  distinct : ∀ entry ∈ entries, ∀ entry' ∈ entries, ∀ name, Names name entry →
    Names name entry' → entry.rde.isDirectory = entry'.rde.isDirectory → entry = entry'

def Plain : Nat → BitVec 32 → List (List Byte) → Prop
  | level, cluster, [] => ∀ entries, Lists disk heap fuel level cluster entries →
      PlainListing entries
  | level, cluster, d :: dirs => ∀ entries, Lists disk heap fuel level cluster entries →
      PlainListing entries ∧ ∀ dir ∈ entries, dir.rde.isDirectory = true →
        Names d dir → Plain (level + 1) dir.rde.firstCluster dirs

end Levels

section Runs

variable {disk : Fat32Partition} {heap : Nat → Nat → ByteMemory} {fuel : Nat}
  {path f d rest : List Byte} {dirs : List (List Byte)} {sizes : List Nat}
  {subdirectories level offset : Nat} {cluster : BitVec 32} {file : GeneralFile}
  {entries entries' : List DirectoryEntry} {entry : DirectoryEntry}

theorem Lists.unique (h : Lists disk heap fuel level cluster entries)
    (h' : Lists disk heap fuel level cluster entries') : entries' = entries := by
  rw [Lists, h] at h'
  exact (Option.some.inj (Option.some.inj h')).symm

theorem resolveLevels_cases {size : Nat}
    (hrun : resolveLevels disk heap fuel path subdirectories (size :: sizes) level offset
      cluster = some file) :
    (file = .empty ∧ ∀ entries, ¬ Lists disk heap fuel level cluster entries) ∨
      ∃ entries, Lists disk heap fuel level cluster entries ∧
        (match Search.lookUp ⟨subdirectories, level, size, fun i => path.getD (offset + i) 0#8⟩
            (heap level) 0 cluster entries with
        | .file entryName entry =>
            match scanForEntries disk (heap (level + 1) 0) fuel
              (newClusterPosition entry.rde).toNat with
            | some (some clusters) =>
                some (createFile disk path size entryName entry clusters)
            | _ => none
        | .next cluster =>
            resolveLevels disk heap fuel path subdirectories sizes (level + 1)
              (offset + size + 1) cluster) = some file := by
  rw [resolveLevels] at hrun
  cases hread : readDirectory disk (heap level) fuel cluster with
  | none =>
      rw [hread] at hrun
      contradiction
  | some listing =>
      rw [hread] at hrun
      cases listing with
      | none =>
          refine .inl ⟨(Option.some.inj hrun).symm, fun entries hlists => ?_⟩
          rw [Lists, hread] at hlists
          simp at hlists
      | some entries => exact .inr ⟨entries, hread, hrun⟩

theorem resolveLevels_directory (hmore : level < subdirectories)
    (hpath : path.drop offset = d ++ rest)
    (hrun : resolveLevels disk heap fuel path subdirectories (d.length :: sizes) level offset
      cluster = some file) :
    (file = .empty ∧ ∀ entries, ¬ Lists disk heap fuel level cluster entries) ∨
      ∃ entries, Lists disk heap fuel level cluster entries ∧
        resolveLevels disk heap fuel path subdirectories sizes (level + 1)
          (offset + d.length + 1)
          (nextCluster cluster (matching false d (heap level) 0 entries)) = some file := by
  have hsearch := searchesFor_section hmore.le hpath
  rcases resolveLevels_cases hrun with hempty | ⟨entries, hlists, hnext⟩
  · exact .inl hempty
  · rw [hsearch.lookUp_directory hmore] at hnext
    exact .inr ⟨entries, hlists, hnext⟩

theorem resolveLevels_file (hpath : path.drop offset = f)
    (hrun : resolveLevels disk heap fuel path subdirectories [f.length] subdirectories offset
      cluster = some file) :
    (file = .empty ∧ ∀ entries, Lists disk heap fuel subdirectories cluster entries →
        matching true f (heap subdirectories) 0 entries = []) ∨
      ∃ entries entry entryName clusters, Lists disk heap fuel subdirectories cluster entries ∧
        (matching true f (heap subdirectories) 0 entries).head? = some entry ∧
        scanForEntries disk (heap (subdirectories + 1) 0) fuel
          (newClusterPosition entry.rde).toNat = some (some clusters) ∧
        file = createFile disk path f.length entryName entry clusters := by
  have hsearch := searchesFor_section (Nat.le_refl subdirectories)
    (hpath.trans (List.append_nil f).symm)
  rcases resolveLevels_cases hrun with ⟨hempty, hnone⟩ | ⟨entries, hlists, hnext⟩
  · exact .inl ⟨hempty, fun entries hlists => absurd hlists (hnone entries)⟩
  · cases hhead : (matching true f (heap subdirectories) 0 entries).head? with
    | none =>
        rw [hsearch.lookUp_none rfl hhead] at hnext
        refine .inl ⟨(Option.some.inj hnext).symm, fun entries' hlists' => ?_⟩
        rw [hlists.unique hlists']
        exact List.head?_eq_none_iff.mp hhead
    | some entry =>
        obtain ⟨entryName, hfile⟩ := hsearch.lookUp_file cluster rfl hhead
        simp only [hfile] at hnext
        split at hnext
        · rename_i clusters hscan
          exact .inr ⟨entries, entry, entryName, clusters, hlists, hhead, hscan,
            (Option.some.inj hnext).symm⟩
        · contradiction

theorem noFile_iff (hlevel : level + dirs.length = subdirectories)
    (hpath : path.drop offset = components dirs f)
    (hrun : resolveLevels disk heap fuel path subdirectories
      (dirs.map List.length ++ [f.length]) level offset cluster = some file) :
    NoFile disk heap fuel level cluster dirs f ↔ file.found = false := by
  induction dirs generalizing level offset cluster with
  | nil =>
      obtain rfl : level = subdirectories := hlevel
      rcases resolveLevels_file (f := f) hpath hrun with
        ⟨rfl, hnone⟩ | ⟨entries, entry, entryName, clusters, hlists, hhead, hscan, rfl⟩
      · exact ⟨fun _ => rfl, fun _ => hnone⟩
      · constructor
        · intro hno
          rw [hno entries hlists] at hhead
          contradiction
        · intro hfound
          contradiction
  | cons d dirs ih =>
      rw [List.length_cons] at hlevel
      rcases resolveLevels_directory (by omega) hpath hrun with
        ⟨rfl, hnone⟩ | ⟨entries, hlists, hnext⟩
      · exact ⟨fun _ => rfl, fun _ entries hlists => absurd hlists (hnone entries)⟩
      · rw [← ih (by omega) (drop_components hpath) hnext]
        constructor
        · intro hno
          exact hno entries hlists
        · intro hno entries' hlists'
          rw [hlists.unique hlists']
          exact hno

/-- The mask leaves nothing of the upper half. -/
theorem toNat_newClusterPosition (r : RootDirectoryEntry) :
    (newClusterPosition r).toNat = r.low2BytesOfAddressOfFirstCluster.toNat := by
  have hmask : r.high2BytesOfAddressOfFirstCluster.setWidth 32 <<< 16 &&& 0xFF00#32 = 0#32 := by
    apply BitVec.eq_of_getLsbD_eq
    intro i hi
    rcases Nat.lt_or_ge i 16 with hlow | hhigh
    · simp [BitVec.getLsbD_shiftLeft, hlow]
    · have hbit : (0xFF00).testBit i = false :=
        Nat.testBit_lt_two_pow
          (Nat.lt_of_lt_of_le (by decide) (Nat.pow_le_pow_right (by decide) hhigh))
      simp [BitVec.getLsbD_and, BitVec.getLsbD_ofNat, hbit]
  have hlow := r.low2BytesOfAddressOfFirstCluster.isLt
  rw [newClusterPosition, hmask, BitVec.zero_or, BitVec.toNat_setWidth,
    Nat.mod_eq_of_lt (by omega)]

theorem newClusterPosition_eq {r : RootDirectoryEntry}
    (h : r.high2BytesOfAddressOfFirstCluster = 0) : newClusterPosition r = r.firstCluster := by
  have happend := BitVec.toNat_append 0#16 r.low2BytesOfAddressOfFirstCluster
  apply BitVec.eq_of_toNat_eq
  rw [toNat_newClusterPosition, RootDirectoryEntry.firstCluster, h]
  refine Eq.trans ?_ happend.symm
  simp

theorem mem_of_head_matching {last : Bool} {heap : Nat → ByteMemory}
    (h : (matching last f heap 0 entries).head? = some entry) :
    entry ∈ entries ∧ ∃ k, takes last f (heap k) entry = true :=
  mem_matching (List.mem_of_mem_head? h)

theorem describes_of_straight (hlevel : level + dirs.length = subdirectories)
    (hpath : path.drop offset = components dirs f)
    (hrun : resolveLevels disk heap fuel path subdirectories
      (dirs.map List.length ++ [f.length]) level offset cluster = some file)
    (hstraight : Straight disk heap fuel level cluster dirs f) (hfound : file.found = true) :
    ∃ entry, Leads disk heap fuel level cluster dirs f entry ∧
      Describes disk heap fuel (subdirectories + 1) file entry := by
  induction dirs generalizing level offset cluster with
  | nil =>
      obtain rfl : level = subdirectories := hlevel
      rcases resolveLevels_file (f := f) hpath hrun with
        ⟨rfl, hnone⟩ | ⟨entries, entry, entryName, clusters, hlists, hhead, hscan, rfl⟩
      · contradiction
      · obtain ⟨hreadable, hhigh, hcluster⟩ := hstraight entries hlists entry hhead
        obtain ⟨hmem, k, htakes⟩ := mem_of_head_matching hhead
        obtain ⟨hkind, -, hname⟩ := hreadable.takes_iff.mp htakes
        refine ⟨entry, ⟨entries, hlists, hmem, hkind, hname⟩, rfl, clusters, ?_, rfl⟩
        rw [fileClusters, if_neg hcluster, ← newClusterPosition_eq hhigh, hscan]
        rfl
  | cons d dirs ih =>
      rw [List.length_cons] at hlevel
      rcases resolveLevels_directory (by omega) hpath hrun with
        ⟨rfl, hnone⟩ | ⟨entries, hlists, hnext⟩
      · contradiction
      · obtain ⟨dir, hlast, hreadable, hhigh, hrest⟩ := hstraight entries hlists
        have hcluster : nextCluster cluster (matching false d (heap level) 0 entries) =
            dir.rde.firstCluster := by
          rw [nextCluster, hlast, ← newClusterPosition_eq hhigh]
          rfl
        rw [hcluster] at hnext
        obtain ⟨entry, hleads, hdescribes⟩ :=
          ih (by omega) (drop_components hpath) hnext hrest
        obtain ⟨hmem, k, htakes⟩ := mem_matching (List.mem_of_getLast? hlast)
        obtain ⟨hkind, -, hname⟩ := hreadable.takes_iff.mp htakes
        exact ⟨entry, ⟨entries, hlists, dir, hmem, hkind, hname, hleads⟩, hdescribes⟩

theorem scanForEntries_ne_nil {heap : ByteMemory} {start : Nat} {clusters : List (BitVec 32)}
    (h : scanForEntries disk heap fuel start = some (some clusters)) : clusters ≠ [] := by
  obtain ⟨rest, rfl⟩ := scanForEntries_head h
  exact List.cons_ne_nil _ _

theorem sectorsOf_eq_nil {mbr : FAT32MBR} {clusters : List (BitVec 32)}
    (hcluster : mbr.sectorsPerCluster ≠ 0) (h : sectorsOf mbr clusters = []) : clusters = [] := by
  cases clusters with
  | nil => rfl
  | cons cluster clusters =>
      have hlength := congrArg List.length h
      simp [sectorsOf] at hlength
      exact absurd (BitVec.eq_of_toNat_eq hlength.1) hcluster

/-- On a plain volume a component that is there is matched, and by one entry only. -/
theorem PlainListing.getLast_matching (heap : Nat → ByteMemory) (hplain : PlainListing entries)
    (hmem : entry ∈ entries) (hdirectory : entry.rde.isDirectory = true) (hname : Names d entry) :
    (matching false d heap 0 entries).getLast? = some entry := by
  have htaken : entry ∈ matching false d heap 0 entries :=
    mem_matching_of_takes hmem fun k => (hplain.readable entry hmem).takes_iff.mpr
      ⟨hdirectory, hplain.noSystem entry hmem hdirectory, hname⟩
  cases hlast : (matching false d heap 0 entries).getLast? with
  | none =>
      rw [List.getLast?_eq_none_iff.mp hlast] at htaken
      contradiction
  | some last =>
      obtain ⟨hmem', k, htakes⟩ := mem_matching (List.mem_of_getLast? hlast)
      obtain ⟨hkind, -, hname'⟩ := (hplain.readable last hmem').takes_iff.mp htakes
      rw [hplain.distinct last hmem' entry hmem d hname' hname (hkind.trans hdirectory.symm)]

theorem straight_of_describes (hsectors : disk.mbr.sectorsPerCluster ≠ 0)
    (hlevel : level + dirs.length = subdirectories)
    (hpath : path.drop offset = components dirs f)
    (hrun : resolveLevels disk heap fuel path subdirectories
      (dirs.map List.length ++ [f.length]) level offset cluster = some file)
    (hplain : Plain disk heap fuel level cluster dirs)
    (hleads : Leads disk heap fuel level cluster dirs f entry)
    (hdescribes : Describes disk heap fuel (subdirectories + 1) file entry) :
    Straight disk heap fuel level cluster dirs f := by
  induction dirs generalizing level offset cluster with
  | nil =>
      obtain rfl : level = subdirectories := hlevel
      obtain ⟨entries, hlists, hmem, hfile, hname⟩ := hleads
      have hplain := hplain entries hlists
      intro entries' hlists' entry' hhead'
      rw [hlists.unique hlists'] at hhead'
      obtain ⟨hmem', k, htakes⟩ := mem_of_head_matching hhead'
      obtain ⟨hkind, -, hname'⟩ := (hplain.readable entry' hmem').takes_iff.mp htakes
      obtain rfl : entry' = entry :=
        hplain.distinct entry' hmem' entry hmem f hname' hname (hkind.trans hfile.symm)
      refine ⟨hplain.readable entry' hmem', hplain.high entry' hmem', fun hzero => ?_⟩
      rcases resolveLevels_file (f := f) hpath hrun with
        ⟨rfl, hnone⟩ | ⟨entries₁, entry₁, entryName, clusters, hlists₁, hhead₁, hscan, rfl⟩
      · rw [hnone entries hlists] at hhead'
        contradiction
      · -- the scan returns clusters where the file has none
        obtain ⟨none, hnone, hsame⟩ := hdescribes.clusters
        rw [fileClusters, if_pos hzero] at hnone
        cases Option.some.inj hnone
        exact scanForEntries_ne_nil hscan (sectorsOf_eq_nil hsectors (Option.some.inj hsame))
  | cons d dirs ih =>
      rw [List.length_cons] at hlevel
      obtain ⟨entries, hlists, dir, hmem, hdirectory, hname, hrest⟩ := hleads
      obtain ⟨hlisting, hplain⟩ := hplain entries hlists
      have hhigh := hlisting.high dir hmem
      have hlast := hlisting.getLast_matching (heap level) hmem hdirectory hname
      intro entries' hlists'
      rw [hlists.unique hlists']
      refine ⟨dir, hlast, hlisting.readable dir hmem, hhigh, ?_⟩
      rcases resolveLevels_directory (by omega) hpath hrun with
        ⟨rfl, hnone⟩ | ⟨entries₁, hlists₁, hnext⟩
      · exact absurd hlists (hnone entries)
      · rw [hlists.unique hlists₁, nextCluster, hlast, Option.map_some, Option.getD_some,
          newClusterPosition_eq hhigh] at hnext
        exact ih (by omega) (drop_components hpath) hnext (hplain dir hmem hdirectory hname) hrest

end Runs

/-! ## `ResolveFile` -/

section Resolve

variable {disk : Fat32Partition} {mount : BitVec 8} {heap : Nat → Nat → ByteMemory} {fuel : Nat}
  {letter : Byte} {dirs : List (List Byte)} {f : List Byte} {file : GeneralFile}

theorem resolveFile_pathTo (hletter : letter.toInt = mount.toNat + 0x41)
    (hname : isSeparator letter = false) (hpath : ∀ name ∈ f :: dirs, PathComponent name) :
    resolveFile disk mount heap fuel (pathTo letter dirs f) =
      resolveLevels disk heap fuel (pathTo letter dirs f) dirs.length
        (dirs.map List.length ++ [f.length]) 0 3 0 := by
  have hf : PathComponent f := hpath f List.mem_cons_self
  have hdirs : ∀ d ∈ dirs, PathComponent d := fun d hmem => hpath d (List.mem_cons_of_mem _ hmem)
  have hcolon : isSeparator 0x3A#8 = false := rfl
  have hslash : isSeparator 0x2F#8 = true := rfl
  have hcount : (pathTo letter dirs f).countP isSeparator = dirs.length + 1 := by
    simp [pathTo, countP_components hf hdirs, hname, hcolon, hslash]
  have hspacing : (sectionSpacing 0 (pathTo letter dirs f)).tail =
      dirs.map List.length ++ [f.length] := by
    rw [← sectionSpacing_components hf hdirs]
    simp [pathTo, sectionSpacing, hname, hcolon, hslash]
  have hfirst : (pathTo letter dirs f).getD 0 0#8 = letter := rfl
  rw [resolveFile, hfirst, if_pos hletter, hcount]
  simp only [hspacing]

end Resolve

def onlyFile : Fat32Partition where
  mbr := ⟨512, 1, 1, 1, 1⟩
  volume := fun i =>
    if 520 ≤ i ∧ i < 528 then 0xFF
    else if i = 1024 then 0x46
    else if 1025 ≤ i ∧ i < 1032 then 0x20
    else if i = 1032 ∨ i = 1034 then 0x54
    else if i = 1033 then 0x58
    else if i = 1035 then 0x20
    else if i = 1050 then 3
    else if i = 1052 then 5
    else 0
  succeeds := fun _ _ => true

def fTxt : List Byte := [0x66, 0x2E, 0x74, 0x78, 0x74]

theorem root_onlyFile {entries : List DirectoryEntry}
    (h : Lists onlyFile (fun _ _ _ => 0) 1 0 0 entries) : ∀ entry ∈ entries,
      entry.rde.isDirectory = false := by
  have hroot : (readDirectory onlyFile (fun _ _ => 0) 1 0).map (·.map (·.map fun entry =>
      entry.rde.isDirectory)) = some (some [false]) := by
    decide +kernel
  rw [h] at hroot
  have hentries : entries.map (fun entry => entry.rde.isDirectory) = [false] :=
    Option.some.inj (Option.some.inj hroot)
  intro entry hmem
  have hlisted := List.mem_map_of_mem (f := fun entry : DirectoryEntry =>
    entry.rde.isDirectory) hmem
  rw [hentries] at hlisted
  exact List.mem_singleton.mp hlisted

/-- A root directory with the directory `x` in cluster 3, and in that the file `f.txt`. -/
def fileInDirectory : Fat32Partition where
  mbr := ⟨512, 1, 1, 1, 1⟩
  volume := fun i =>
    if 520 ≤ i ∧ i < 532 then 0xFF
    else if i = 1024 then 0x58
    else if 1025 ≤ i ∧ i < 1035 then 0x20
    else if i = 1035 then 0x10
    else if i = 1050 then 3
    else if i = 1536 then 0x46
    else if 1537 ≤ i ∧ i < 1544 then 0x20
    else if i = 1544 ∨ i = 1546 then 0x54
    else if i = 1545 then 0x58
    else if i = 1547 then 0x20
    else if i = 1562 then 4
    else if i = 1564 then 5
    else 0
  succeeds := fun _ _ => true

theorem straight_fileInDirectory :
    Straight fileInDirectory (fun _ _ _ => 0) 1 0 0 [[0x78]] fTxt := by
  have hroot : (readDirectory fileInDirectory (fun _ _ => 0) 1 0).map (·.map fun entries =>
      (matching false [0x78] (fun _ => 0) 0 entries).getLast?.map fun dir =>
        decide (Readable dir ∧ dir.rde.high2BytesOfAddressOfFirstCluster = 0 ∧
          dir.rde.firstCluster = 3)) = some (some (some true)) := by
    decide +kernel
  have hinner : (readDirectory fileInDirectory (fun _ _ => 0) 1 3).map (·.map fun entries =>
      (matching true fTxt (fun _ => 0) 0 entries).head?.map fun entry =>
        decide (Readable entry ∧ entry.rde.high2BytesOfAddressOfFirstCluster = 0 ∧
          entry.rde.firstCluster ≠ 0)) = some (some (some true)) := by
    decide +kernel
  intro entries hlists
  rw [hlists] at hroot
  obtain ⟨dir, hlast, hdir⟩ :=
    Option.map_eq_some_iff.mp (Option.some.inj (Option.some.inj hroot))
  obtain ⟨hreadable, hhigh, hcluster⟩ := of_decide_eq_true hdir
  refine ⟨dir, hlast, hreadable, hhigh, ?_⟩
  rw [hcluster]
  intro entries hlists entry hhead
  rw [hlists] at hinner
  obtain ⟨entry', hhead', hentry⟩ :=
    Option.map_eq_some_iff.mp (Option.some.inj (Option.some.inj hinner))
  obtain rfl : entry' = entry := Option.some.inj (hhead'.symm.trans hhead)
  exact of_decide_eq_true hentry

end UnifiedOS.FileSystem.FAT32
