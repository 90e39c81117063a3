import UnifiedOS.FileSystem.FAT32.PathResolution

/-!
# What resolving a path reads

`ResolveFile` keeps the lengths of the sections of its path in `SectionSpacing`
and compares names with the path from a fixed offset on.  Here its loops are
followed with every element and every byte of the path that they read.  A path
without a separator leaves no section, and `Subdirectories -= 1` wraps.  Paths
have fewer than `2 ^ 31` characters, as `strlen` counts them in an `int`.
-/

namespace UnifiedOS.FileSystem.FAT32

open UnifiedOS.Foundation

inductive Access where
  /-- `SectionSpacing.get_at(pos)` -/
  | spacing (pos : Nat)
  /-- `Path[pos]` -/
  | path (pos : Nat)
  /-- One more round of the loop over the subdirectories. -/
  | descend
  deriving DecidableEq, Repr

def pathInMemory (path : List Byte) (behind : ByteMemory) : ByteMemory := fun i =>
  if i < path.length then path.getD i 0#8 else if i = path.length then 0#8 else behind i

/-- `SectionSpacing`, with what its block holds behind the elements. -/
structure Sections where
  elements : List Nat
  stale : Nat → Nat

def Sections.getAt (v : Sections) (pos : Nat) : Nat := v.elements.getD pos (v.stale pos)

def bytesCompared (a b : ByteMemory) : Nat → Nat → Nat
  | _, 0 => 0
  | i, size + 1 => if a i = b i then bytesCompared a b (i + 1) size + 1 else 1

def readPath (start n : Nat) : List Access := (List.range n).map fun i => .path (start + i)

/-- `SectionSpacing` for the two parts of the name, `strlen(Path)` twice, and the copy. -/
def createFileAccesses (level length : Nat) : List Access :=
  List.replicate 3 (.spacing level) ++ readPath 0 (length + 1) ++ readPath 0 (length + 1) ++
    readPath 0 length

def Search.accesses (s : Search) (offsetIntoPath length : Nat) (heap : Nat → ByteMemory) :
    Nat → List DirectoryEntry → List Access
  | _, [] => []
  | i, entry :: entries =>
      if s.isKind entry.rde then
        .spacing s.level ::
          if entry.nameSize = s.sectionSpacing then
            readPath offsetIntoPath
                (bytesCompared (entry.entryName (heap (i + 2))) s.path 0 entry.nameSize) ++
              if s.correctEntry (heap (i + 2)) entry ∧ s.subdirectories = s.level then
                createFileAccesses s.level length
              else s.accesses offsetIntoPath length heap (i + 1) entries
          else s.accesses offsetIntoPath length heap (i + 1) entries
      else s.accesses offsetIntoPath length heap (i + 1) entries

/-! ## The levels -/

structure Resolution where
  disk : Fat32Partition
  heap : Nat → Nat → ByteMemory
  fuel : Nat
  path : List Byte
  behind : ByteMemory
  sections : Sections
  subdirectories : Nat

/-- A level does not come to an end, returns, or leaves a cluster for the next one. -/
inductive LevelEnd where
  | stuck
  | returns (file : GeneralFile)
  | next (newClusterPosition : BitVec 32)

def LevelEnd.goOn (accesses : List Access) (next : BitVec 32 → List Access × Option GeneralFile) :
    LevelEnd → List Access × Option GeneralFile
  | stuck => (accesses, none)
  | returns file => (accesses, some file)
  | .next cluster => (accesses ++ (next cluster).1, (next cluster).2)

namespace Resolution

def search (r : Resolution) (level offsetIntoPath : Nat) : Search where
  subdirectories := r.subdirectories
  level := level
  sectionSpacing := r.sections.getAt level
  path := fun i => pathInMemory r.path r.behind (offsetIntoPath + i)

def levelAccesses (r : Resolution) (level offsetIntoPath : Nat) (cluster : BitVec 32) :
    List Access :=
  match readDirectory r.disk (r.heap level) r.fuel cluster with
  | some (some entries) =>
      (r.search level offsetIntoPath).accesses offsetIntoPath r.path.length (r.heap level) 0 entries
  | _ => []

def levelEnd (r : Resolution) (level offsetIntoPath : Nat) (cluster : BitVec 32) : LevelEnd :=
  match readDirectory r.disk (r.heap level) r.fuel cluster with
  | none => .stuck
  | some none => .returns .empty
  | some (some entries) =>
      match (r.search level offsetIntoPath).lookUp (r.heap level) 0 cluster entries with
      | .file entryName entry =>
          match scanForEntries r.disk (r.heap (level + 1) 0) r.fuel
            (newClusterPosition entry.rde).toNat with
          | some (some clusters) =>
              .returns (createFile r.disk r.path (r.sections.getAt level) entryName entry clusters)
          | _ => .stuck
      | .next cluster => .next cluster

/-- The loop over the subdirectories from `d` on, an `int` that it compares with a `uint64_t`. -/
def descend (r : Resolution) : Nat → Nat → Nat → BitVec 32 → List Access × Option GeneralFile
  | 0, _, _, _ => ([], some .empty)
  | remaining + 1, d, offsetIntoPath, cluster =>
      let pos := intToU64 (BitVec.ofNat 32 d)
      let level := intToU64 (BitVec.ofNat 32 (d + 1))
      let offsetIntoPath := wrap64 (offsetIntoPath + r.sections.getAt pos + 1)
      let rest := (r.levelEnd level offsetIntoPath cluster).goOn
        (r.levelAccesses level offsetIntoPath cluster)
        (r.descend remaining (d + 1) offsetIntoPath)
      (.spacing pos :: .descend :: rest.1, rest.2)

def resolve (r : Resolution) : List Access × Option GeneralFile :=
  (r.levelEnd 0 3 0).goOn (r.levelAccesses 0 3 0)
    (r.descend (intIterations r.subdirectories) 0 3)

end Resolution

def splitPath (disk : Fat32Partition) (heap : Nat → Nat → ByteMemory) (fuel : Nat)
    (path : List Byte) (behind : ByteMemory) (stale : Nat → Nat) : Resolution where
  disk := disk
  heap := heap
  fuel := fuel
  path := path
  behind := behind
  sections := ⟨(sectionSpacing 0 path).tail, stale⟩
  subdirectories := sub64 (path.countP isSeparator) 1

def resolveFileAccesses (disk : Fat32Partition) (mount : BitVec 8) (heap : Nat → Nat → ByteMemory)
    (fuel : Nat) (path : List Byte) (behind : ByteMemory) (stale : Nat → Nat) :
    List Access × Option GeneralFile :=
  if (path.getD 0 0#8).toInt = mount.toNat + 0x41 then
    let rest := (splitPath disk heap fuel path behind stale).resolve
    -- the comparison with the mount letter, `strlen`, and the loop over the characters
    (.path 0 :: readPath 0 (path.length + 1) ++ readPath 0 path.length ++ rest.1, rest.2)
  else ([.path 0], some .empty)

/-- Only elements of `SectionSpacing` and the path are read, and no level is entered too many. -/
structure Tolerates (path : List Byte) (accesses : List Access) : Prop where
  elements : ∀ pos, .spacing pos ∈ accesses → pos < (sectionSpacing 0 path).tail.length
  characters : ∀ pos, .path pos ∈ accesses → pos ≤ path.length
  levels : accesses.count .descend ≤ path.countP isSeparator

/-! ## The sections of a path -/

section Sections

variable {path : List Byte} {current level : Nat} {elements : List Nat}

theorem length_sectionSpacing (current : Nat) (path : List Byte) :
    (sectionSpacing current path).length = path.countP isSeparator + 1 := by
  induction path generalizing current with
  | nil => rfl
  | cons b path ih =>
      cases hb : isSeparator b <;> simp [sectionSpacing, hb, ih]

theorem sum_sectionSpacing (current : Nat) (path : List Byte) :
    ((sectionSpacing current path).map (· + 1)).sum = current + path.length + 1 := by
  induction path generalizing current with
  | nil => rfl
  | cons b path ih =>
      cases hb : isSeparator b <;> simp [sectionSpacing, hb, ih] <;> omega

theorem head_sectionSpacing (current : Nat) (path : List Byte) :
    ∃ first ≥ current, ∃ rest, sectionSpacing current path = first :: rest := by
  induction path generalizing current with
  | nil => exact ⟨current, Nat.le_refl _, [], rfl⟩
  | cons b path ih =>
      rw [sectionSpacing]
      split
      · exact ⟨current, Nat.le_refl _, _, rfl⟩
      · obtain ⟨first, hle, rest, heq⟩ := ih (current + 1)
        exact ⟨first, by omega, rest, heq⟩

def offsetAt (elements : List Nat) (level : Nat) : Nat :=
  3 + ((elements.take level).map (· + 1)).sum

theorem offsetAt_succ (h : level < elements.length) :
    offsetAt elements (level + 1) = offsetAt elements level + elements[level] + 1 := by
  rw [offsetAt, offsetAt, List.take_add_one, List.getElem?_eq_getElem h, List.map_append,
    List.sum_append]
  simp only [Option.toList_some, List.map_cons, List.map_nil, List.sum_cons, List.sum_nil]
  omega

theorem offsetAt_le (elements : List Nat) (level : Nat) :
    offsetAt elements level ≤ 3 + (elements.map (· + 1)).sum := by
  have hsplit := congrArg (fun l => (l.map (· + 1)).sum) (List.take_append_drop level elements)
  simp only [List.map_append, List.sum_append] at hsplit
  rw [offsetAt]
  omega

theorem section_ends (hname : isSeparator (path.getD 0 0#8) = false)
    (hlevel : level < (sectionSpacing 0 path).tail.length) :
    offsetAt (sectionSpacing 0 path).tail level + (sectionSpacing 0 path).tail[level] ≤
      path.length + 1 := by
  have hsum := sum_sectionSpacing 0 path
  have hle := offsetAt_le (sectionSpacing 0 path).tail (level + 1)
  rw [offsetAt_succ hlevel] at hle
  obtain ⟨first, hfirst, rest, heq⟩ : ∃ first ≥ 1, ∃ rest,
      sectionSpacing 0 path = first :: rest := by
    cases path with
    | nil => simp [sectionSpacing] at hlevel
    | cons b path =>
        obtain ⟨first, hfirst, rest, heq⟩ := head_sectionSpacing 1 path
        rw [List.getD_cons_zero] at hname
        exact ⟨first, hfirst, rest, by rw [sectionSpacing, hname, ← heq]; rfl⟩
  simp only [heq, List.tail_cons, List.map_cons, List.sum_cons] at hsum hle ⊢
  omega

end Sections

/-! ## What a level reads -/

def Access.Inside (r : Resolution) : Access → Prop
  | .spacing pos => pos < r.sections.elements.length
  | .path pos => pos ≤ r.path.length
  | .descend => True

section Levels

variable {s s' : Search} {r : Resolution} {heap : Nat → ByteMemory} {a : Access}
  {entries : List DirectoryEntry} {i level offset length : Nat} {cluster : BitVec 32}

theorem bytesCompared_le (a b : ByteMemory) (i size : Nat) : bytesCompared a b i size ≤ size := by
  induction size generalizing i with
  | zero => exact Nat.le_refl _
  | succ size ih =>
      rw [bytesCompared]
      split
      · exact Nat.succ_le_succ (ih _)
      · omega

theorem mem_readPath {start n : Nat} (h : a ∈ readPath start n) :
    ∃ pos < start + n, a = .path pos := by
  obtain ⟨i, hi, rfl⟩ := List.mem_map.mp h
  rw [List.mem_range] at hi
  exact ⟨start + i, by omega, rfl⟩

theorem mem_createFileAccesses (h : a ∈ createFileAccesses level length) :
    a = .spacing level ∨ ∃ pos ≤ length, a = .path pos := by
  simp only [createFileAccesses, List.mem_append] at h
  rcases h with ((hspacing | hpath) | hpath) | hpath
  · exact .inl (List.eq_of_mem_replicate hspacing)
  all_goals
    obtain ⟨pos, hpos, rfl⟩ := mem_readPath hpath
    exact .inr ⟨pos, by omega, rfl⟩

/-- The loop reads its own element, and the path no further than the section it looks for. -/
theorem Search.mem_accesses (h : a ∈ s.accesses offset length heap i entries) :
    a = .spacing s.level ∨
      ∃ pos, a = .path pos ∧ (pos ≤ length ∨ pos < offset + s.sectionSpacing) := by
  induction entries generalizing i with
  | nil => contradiction
  | cons entry entries ih =>
      rw [Search.accesses] at h
      split at h
      · rcases List.mem_cons.mp h with rfl | h
        · exact .inl rfl
        split at h
        · rename_i hsize
          rcases List.mem_append.mp h with hcompared | h
          · obtain ⟨pos, hpos, rfl⟩ := mem_readPath hcompared
            have hle := bytesCompared_le (entry.entryName (heap (i + 2))) s.path 0 entry.nameSize
            exact .inr ⟨pos, rfl, .inr (by omega)⟩
          split at h
          · rcases mem_createFileAccesses h with rfl | ⟨pos, hpos, rfl⟩
            · exact .inl rfl
            · exact .inr ⟨pos, rfl, .inl hpos⟩
          · exact ih h
        · exact ih h
      · exact ih h

/-- A level whose section ends with the path at the latest. -/
structure Resolution.Fits (r : Resolution) (level offset : Nat) : Prop where
  element : level < r.sections.elements.length
  ends : offset + r.sections.getAt level ≤ r.path.length + 1

theorem Resolution.mem_levelAccesses (hfits : r.Fits level offset)
    (h : a ∈ r.levelAccesses level offset cluster) : a ≠ .descend ∧ a.Inside r := by
  have hends := hfits.ends
  unfold levelAccesses at h
  split at h
  · rcases Search.mem_accesses h with rfl | ⟨pos, rfl, hpos⟩
    · exact ⟨nofun, hfits.element⟩
    · refine ⟨nofun, ?_⟩
      rcases hpos with hpos | hpos
      · exact hpos
      · change pos < offset + r.sections.getAt level at hpos
        change pos ≤ r.path.length
        omega
  · contradiction

theorem LevelEnd.mem_goOn {e : LevelEnd} {accesses : List Access}
    {next : BitVec 32 → List Access × Option GeneralFile} (h : a ∈ (e.goOn accesses next).1) :
    a ∈ accesses ∨ ∃ cluster, e = .next cluster ∧ a ∈ (next cluster).1 := by
  cases e with
  | stuck => exact .inl h
  | returns file => exact .inl h
  | next cluster =>
      rcases List.mem_append.mp h with h | h
      · exact .inl h
      · exact .inr ⟨cluster, rfl, h⟩

theorem LevelEnd.count_goOn {e : LevelEnd} {accesses : List Access} {n : Nat}
    {next : BitVec 32 → List Access × Option GeneralFile} (haccesses : .descend ∉ accesses)
    (hnext : ∀ cluster, (next cluster).1.count .descend ≤ n) :
    (e.goOn accesses next).1.count .descend ≤ n := by
  have hnone : accesses.count .descend = 0 := List.count_eq_zero.mpr haccesses
  cases e with
  | stuck => exact hnone.trans_le (Nat.zero_le n)
  | returns file => exact hnone.trans_le (Nat.zero_le n)
  | next cluster =>
      rw [LevelEnd.goOn, List.count_append, hnone, Nat.zero_add]
      exact hnext cluster

def Resolution.AllFit (r : Resolution) : Prop :=
  ∀ level < r.sections.elements.length,
    r.Fits level (offsetAt r.sections.elements level) ∧
      offsetAt r.sections.elements (level + 1) =
        offsetAt r.sections.elements level + r.sections.getAt level + 1

end Levels

/-! ## The descent -/

section Descent

variable {r : Resolution} {d remaining : Nat} {cluster : BitVec 32}

theorem intToU64_small {d : Nat} (h : d < 2 ^ 31) : intToU64 (BitVec.ofNat 32 d) = d := by
  rw [intToU64_ofNat (by omega), if_pos h]

theorem Resolution.descend_succ (hfit : r.AllFit) (hlength : r.path.length < 2 ^ 31)
    (hd : d < r.sections.elements.length) (hcount : r.sections.elements.length < 2 ^ 31) :
    r.descend (remaining + 1) d (offsetAt r.sections.elements d) cluster =
      let rest := (r.levelEnd (d + 1) (offsetAt r.sections.elements (d + 1)) cluster).goOn
        (r.levelAccesses (d + 1) (offsetAt r.sections.elements (d + 1)) cluster)
        (r.descend remaining (d + 1) (offsetAt r.sections.elements (d + 1)))
      (.spacing d :: .descend :: rest.1, rest.2) := by
  obtain ⟨hfits, hnext⟩ := hfit d hd
  have hends := hfits.ends
  have hoffset : wrap64 (offsetAt r.sections.elements d + r.sections.getAt d + 1) =
      offsetAt r.sections.elements (d + 1) := by
    rw [wrap64_of_lt (by omega), hnext]
  simp only [descend, intToU64_small (show d < 2 ^ 31 by omega),
    intToU64_small (show d + 1 < 2 ^ 31 by omega), hoffset]

theorem Resolution.descend_inside (hfit : r.AllFit) (hlength : r.path.length < 2 ^ 31)
    (hcount : r.sections.elements.length < 2 ^ 31) (remaining d : Nat) (cluster : BitVec 32)
    (hd : d + remaining < r.sections.elements.length) :
    (∀ a ∈ (r.descend remaining d (offsetAt r.sections.elements d) cluster).1, a.Inside r) ∧
      (r.descend remaining d (offsetAt r.sections.elements d) cluster).1.count .descend ≤
        remaining := by
  induction remaining generalizing d cluster with
  | zero => exact ⟨nofun, Nat.le_refl _⟩
  | succ remaining ih =>
      have hlevel : ∀ a ∈ r.levelAccesses (d + 1) (offsetAt r.sections.elements (d + 1)) cluster,
          a ≠ .descend ∧ a.Inside r :=
        fun a => r.mem_levelAccesses (hfit (d + 1) (by omega)).1
      rw [descend_succ hfit hlength (by omega) hcount]
      constructor
      · intro a ha
        rcases List.mem_cons.mp ha with rfl | ha
        · show d < r.sections.elements.length
          omega
        rcases List.mem_cons.mp ha with rfl | ha
        · trivial
        rcases LevelEnd.mem_goOn ha with ha | ⟨next, -, ha⟩
        · exact (hlevel a ha).2
        · exact (ih (d + 1) next (by omega)).1 a ha
      · have hrest := LevelEnd.count_goOn
          (e := r.levelEnd (d + 1) (offsetAt r.sections.elements (d + 1)) cluster)
          (fun hmem => (hlevel _ hmem).1 rfl) fun next => (ih (d + 1) next (by omega)).2
        simp only [List.count_cons]
        simpa using hrest

theorem Resolution.resolve_inside (hfit : r.AllFit) (hlength : r.path.length < 2 ^ 31)
    (hcount : r.sections.elements.length < 2 ^ 31)
    (hsections : r.sections.elements.length = r.subdirectories + 1) :
    (∀ a ∈ r.resolve.1, a.Inside r) ∧ r.resolve.1.count .descend ≤ r.subdirectories := by
  have hrounds : intIterations r.subdirectories = r.subdirectories :=
    intIterations_of_le (by omega)
  have hzero : offsetAt r.sections.elements 0 = 3 := rfl
  have hlevel : ∀ a ∈ r.levelAccesses 0 3 0, a ≠ .descend ∧ a.Inside r :=
    fun a => r.mem_levelAccesses (hzero ▸ (hfit 0 (by omega)).1)
  have hdescend := fun cluster => r.descend_inside hfit hlength hcount r.subdirectories 0 cluster
    (by omega)
  rw [hzero] at hdescend
  rw [resolve, hrounds]
  constructor
  · intro a ha
    rcases LevelEnd.mem_goOn ha with ha | ⟨cluster, -, ha⟩
    · exact (hlevel a ha).2
    · exact (hdescend cluster).1 a ha
  · exact LevelEnd.count_goOn (fun hmem => (hlevel _ hmem).1 rfl) fun cluster =>
      (hdescend cluster).2

end Descent

/-! ## The same file -/

section SameFile

variable {s s' : Search} {r : Resolution} {heap : Nat → ByteMemory} {cluster : BitVec 32}
  {entries : List DirectoryEntry} {i : Nat}

theorem Search.lookUp_congr (hsubdirectories : s.subdirectories = s'.subdirectories)
    (hlevel : s.level = s'.level) (hspacing : s.sectionSpacing = s'.sectionSpacing)
    (hpath : ∀ j < s.sectionSpacing, s.path j = s'.path j) :
    s.lookUp heap i cluster entries = s'.lookUp heap i cluster entries := by
  have hcorrect : ∀ heap entry, s.correctEntry heap entry = s'.correctEntry heap entry := by
    intro heap entry
    rw [correctEntry, correctEntry, isKind, isKind, hsubdirectories, hlevel, ← hspacing]
    by_cases hsize : entry.nameSize = s.sectionSpacing
    · have hsame : memcmp (entry.entryName heap) s.path entry.nameSize =
          memcmp (entry.entryName heap) s'.path entry.nameSize := by
        rw [Bool.eq_iff_iff, memcmp_iff, memcmp_iff, hsize]
        exact forall₂_congr fun j hj => by rw [hpath j hj]
      rw [hsame]
    · simp [hsize]
  induction entries generalizing i cluster with
  | nil => rfl
  | cons entry entries ih => simp only [lookUp, hcorrect, hsubdirectories, hlevel, ih]

theorem LevelEnd.goOn_snd (e : LevelEnd) (accesses : List Access)
    (next : BitVec 32 → List Access × Option GeneralFile) :
    (e.goOn accesses next).2 = match e with
      | stuck => none
      | returns file => some file
      | .next cluster => (next cluster).2 := by
  cases e <;> rfl

theorem pathInMemory_of_le {path : List Byte} {behind : ByteMemory} {i : Nat}
    (h : i ≤ path.length) : pathInMemory path behind i = path.getD i 0#8 := by
  rw [pathInMemory]
  split
  · rfl
  · rw [if_pos (by omega), List.getD_eq_default _ _ (by omega)]

theorem Resolution.resolveLevels_eq {level : Nat} (hfit : r.AllFit)
    (hlevel : level < r.sections.elements.length) :
    resolveLevels r.disk r.heap r.fuel r.path r.subdirectories (r.sections.elements.drop level)
        level (offsetAt r.sections.elements level) cluster =
      match r.levelEnd level (offsetAt r.sections.elements level) cluster with
      | .stuck => none
      | .returns file => some file
      | .next cluster =>
          resolveLevels r.disk r.heap r.fuel r.path r.subdirectories
            (r.sections.elements.drop (level + 1)) (level + 1)
            (offsetAt r.sections.elements (level + 1)) cluster := by
  obtain ⟨hfits, hnext⟩ := hfit level hlevel
  have hends := hfits.ends
  have hgetAt : r.sections.elements[level] = r.sections.getAt level :=
    (List.getD_eq_getElem _ _ hlevel).symm
  rw [List.drop_eq_getElem_cons hlevel, resolveLevels, levelEnd, hgetAt, hnext]
  cases readDirectory r.disk (r.heap level) r.fuel cluster with
  | none => rfl
  | some listing =>
      cases listing with
      | none => rfl
      | some entries =>
          have hsame : (r.search level (offsetAt r.sections.elements level)).lookUp (r.heap level)
                0 cluster entries =
              Search.lookUp ⟨r.subdirectories, level, r.sections.getAt level,
                fun i => r.path.getD (offsetAt r.sections.elements level + i) 0#8⟩
                (r.heap level) 0 cluster entries :=
            Search.lookUp_congr rfl rfl rfl fun j hj => pathInMemory_of_le (by
              change j < r.sections.getAt level at hj
              omega)
          simp only [hsame]
          generalize Search.lookUp _ (r.heap level) 0 cluster entries = found
          cases found with
          | next cluster => rfl
          | file entryName entry =>
              dsimp only
              cases scanForEntries r.disk (r.heap (level + 1) 0) r.fuel
                (newClusterPosition entry.rde).toNat with
              | none => rfl
              | some result => cases result <;> rfl

theorem Resolution.levels_snd (hfit : r.AllFit) (hlength : r.path.length < 2 ^ 31)
    (hcount : r.sections.elements.length < 2 ^ 31) (remaining level : Nat) (cluster : BitVec 32)
    (hsections : r.sections.elements.length = level + remaining + 1) :
    ((r.levelEnd level (offsetAt r.sections.elements level) cluster).goOn
        (r.levelAccesses level (offsetAt r.sections.elements level) cluster)
        (r.descend remaining level (offsetAt r.sections.elements level))).2 =
      resolveLevels r.disk r.heap r.fuel r.path r.subdirectories (r.sections.elements.drop level)
        level (offsetAt r.sections.elements level) cluster := by
  induction remaining generalizing level cluster with
  | zero =>
      rw [r.resolveLevels_eq hfit (by omega), LevelEnd.goOn_snd,
        List.drop_of_length_le (show r.sections.elements.length ≤ level + 1 by omega)]
      rfl
  | succ remaining ih =>
      rw [r.resolveLevels_eq hfit (by omega), LevelEnd.goOn_snd]
      cases r.levelEnd level (offsetAt r.sections.elements level) cluster with
      | stuck => rfl
      | returns file => rfl
      | next cluster =>
          have hrest := ih (level + 1) cluster (by omega)
          dsimp only
          rw [← hrest]
          rw [@descend_succ r level remaining cluster hfit hlength (by omega) hcount]

end SameFile

/-! ## `ResolveFile` -/

section Resolve

variable {disk : Fat32Partition} {mount : BitVec 8} {heap : Nat → Nat → ByteMemory} {fuel : Nat}
  {path : List Byte} {behind : ByteMemory} {stale : Nat → Nat}

theorem countP_isSeparator (path : List Byte) :
    (sectionSpacing 0 path).tail.length = path.countP isSeparator := by
  rw [List.length_tail, length_sectionSpacing, Nat.add_sub_cancel]

theorem splitPath_subdirectories (hlength : path.length < 2 ^ 31)
    (hsome : 0 < path.countP isSeparator) :
    (splitPath disk heap fuel path behind stale).subdirectories =
      path.countP isSeparator - 1 := by
  have hle := List.countP_le_length (p := isSeparator) (l := path)
  exact sub64_of_le hsome (by omega)

theorem splitPath_allFit (hname : isSeparator (path.getD 0 0#8) = false) :
    (splitPath disk heap fuel path behind stale).AllFit := by
  intro level hlevel
  have hgetAt : (splitPath disk heap fuel path behind stale).sections.getAt level =
      (sectionSpacing 0 path).tail[level] := List.getD_eq_getElem _ _ hlevel
  refine ⟨⟨hlevel, ?_⟩, ?_⟩
  · rw [hgetAt]
    exact section_ends hname hlevel
  · rw [hgetAt]
    exact offsetAt_succ hlevel

theorem mem_resolveFileAccesses {a : Access}
    (h : a ∈ (resolveFileAccesses disk mount heap fuel path behind stale).1) :
    (∃ pos ≤ path.length, a = .path pos) ∨
      a ∈ (splitPath disk heap fuel path behind stale).resolve.1 := by
  unfold resolveFileAccesses at h
  split at h
  · simp only [List.cons_append, List.mem_cons, List.mem_append] at h
    rcases h with rfl | (hpath | hpath) | hrest
    · exact .inl ⟨0, Nat.zero_le _, rfl⟩
    · obtain ⟨pos, hpos, rfl⟩ := mem_readPath hpath
      exact .inl ⟨pos, by omega, rfl⟩
    · obtain ⟨pos, hpos, rfl⟩ := mem_readPath hpath
      exact .inl ⟨pos, by omega, rfl⟩
    · exact .inr hrest
  · exact .inl ⟨0, Nat.zero_le _, List.mem_singleton.mp h⟩

theorem count_readPath (start n : Nat) : (readPath start n).count .descend = 0 :=
  List.count_eq_zero.mpr fun hmem => by
    obtain ⟨pos, -, h⟩ := mem_readPath hmem
    contradiction

theorem count_resolveFileAccesses :
    (resolveFileAccesses disk mount heap fuel path behind stale).1.count .descend ≤
      (splitPath disk heap fuel path behind stale).resolve.1.count .descend := by
  unfold resolveFileAccesses
  split
  · simp [List.count_append, count_readPath]
  · simp

/-- The accesses belong to the run that `resolveFile` gives the file of. -/
theorem resolveFileAccesses_file (hname : isSeparator (path.getD 0 0#8) = false)
    (hlength : path.length < 2 ^ 31) (hsome : 0 < path.countP isSeparator) :
    (resolveFileAccesses disk mount heap fuel path behind stale).2 =
      resolveFile disk mount heap fuel path := by
  have hle := List.countP_le_length (p := isSeparator) (l := path)
  have hsections := countP_isSeparator path
  obtain ⟨subdirectories, hsubdirectories⟩ := Nat.exists_eq_add_of_le' hsome
  have hsub : (splitPath disk heap fuel path behind stale).subdirectories = subdirectories := by
    rw [splitPath_subdirectories hlength hsome, hsubdirectories, Nat.add_sub_cancel]
  rw [resolveFile, hsubdirectories, resolveFileAccesses]
  split
  · dsimp only
    rw [Resolution.resolve, hsub, intIterations_of_le (by omega)]
    have hlevels := (splitPath disk heap fuel path behind stale).levels_snd
      (splitPath_allFit hname) hlength (by change (sectionSpacing 0 path).tail.length < _; omega)
      subdirectories 0 0 (by change (sectionSpacing 0 path).tail.length = _; omega)
    rw [hsub] at hlevels
    exact hlevels
  · rfl

theorem Search.lookUp_next {s : Search} {heap : Nat → ByteMemory} {i : Nat} {cluster : BitVec 32}
    {entries : List DirectoryEntry} (h : s.subdirectories ≠ s.level) :
    ∃ next, s.lookUp heap i cluster entries = .next next := by
  induction entries generalizing i cluster with
  | nil => exact ⟨cluster, rfl⟩
  | cons entry entries ih =>
      rw [Search.lookUp, if_neg h]
      split
      · exact ih
      · exact ih

theorem spacing_mem_accesses {entries : List DirectoryEntry}
    (hletter : (path.getD 0 0#8).toInt = mount.toNat + 0x41)
    (hnone : path.countP isSeparator = 0)
    (hroot : readDirectory disk (heap 0) fuel 0 = some (some entries)) :
    .spacing 0 ∈ (resolveFileAccesses disk mount heap fuel path behind stale).1 := by
  have hsub : (splitPath disk heap fuel path behind stale).subdirectories = 2 ^ 64 - 1 := by
    rw [splitPath, hnone]
    norm_num [sub64]
  obtain ⟨next, hnext⟩ : ∃ next,
      (splitPath disk heap fuel path behind stale).levelEnd 0 3 0 = .next next := by
    have hkind : ((splitPath disk heap fuel path behind stale).search 0 3).subdirectories ≠
        ((splitPath disk heap fuel path behind stale).search 0 3).level := by
      change (splitPath disk heap fuel path behind stale).subdirectories ≠ 0
      rw [hsub]
      norm_num
    obtain ⟨next, hnext⟩ := @Search.lookUp_next _ (heap 0) 0 0 entries hkind
    have hlisted : readDirectory (splitPath disk heap fuel path behind stale).disk
        ((splitPath disk heap fuel path behind stale).heap 0)
        (splitPath disk heap fuel path behind stale).fuel 0 = some (some entries) := hroot
    refine ⟨next, ?_⟩
    rw [Resolution.levelEnd, hlisted]
    dsimp only
    rw [show (splitPath disk heap fuel path behind stale).heap 0 = heap 0 from rfl, hnext]
  obtain ⟨rounds, hrounds⟩ := Nat.exists_eq_add_of_le' (intIterations_pos
    (show 0 < (splitPath disk heap fuel path behind stale).subdirectories by rw [hsub]; norm_num))
  rw [resolveFileAccesses, if_pos hletter]
  refine List.mem_append_right _ ?_
  rw [Resolution.resolve, hnext, hrounds]
  exact List.mem_append_right _ List.mem_cons_self

theorem resolve_unlisted {r : Resolution}
    (hroot : ∀ entries, readDirectory r.disk (r.heap 0) r.fuel 0 ≠ some (some entries)) :
    r.resolve.1 = [] := by
  rw [Resolution.resolve, Resolution.levelEnd, Resolution.levelAccesses]
  cases hlisting : readDirectory r.disk (r.heap 0) r.fuel 0 with
  | none => rfl
  | some listing =>
      cases listing with
      | none => rfl
      | some entries => exact absurd hlisting (hroot entries)

/--
A path is tolerated when it has a separator, or when the root directory cannot be
listed; any other path makes the driver read behind `SectionSpacing`.
-/
theorem tolerates_iff (hletter : (path.getD 0 0#8).toInt = mount.toNat + 0x41)
    (hname : isSeparator (path.getD 0 0#8) = false) (hlength : path.length < 2 ^ 31) :
    (∀ fuel, Tolerates path (resolveFileAccesses disk mount heap fuel path behind stale).1) ↔
      0 < path.countP isSeparator ∨
        ∀ fuel entries, readDirectory disk (heap 0) fuel 0 ≠ some (some entries) := by
  have hle := List.countP_le_length (p := isSeparator) (l := path)
  have hsections := countP_isSeparator path
  constructor
  · intro htolerates
    by_cases hsome : 0 < path.countP isSeparator
    · exact .inl hsome
    · refine .inr fun fuel entries hroot => ?_
      have hread := (htolerates fuel).elements 0
        (spacing_mem_accesses hletter (by omega) hroot)
      omega
  · rintro (hsome | hroot) fuel
    · obtain ⟨hinside, hcount⟩ :=
        (splitPath disk heap fuel path behind stale).resolve_inside (splitPath_allFit hname) hlength
          (by change (sectionSpacing 0 path).tail.length < _; omega)
          (by rw [splitPath_subdirectories hlength hsome]
              change (sectionSpacing 0 path).tail.length = _
              omega)
      rw [splitPath_subdirectories hlength hsome] at hcount
      constructor
      · intro pos hmem
        rcases mem_resolveFileAccesses hmem with ⟨pos', -, h⟩ | hmem
        · contradiction
        · exact hinside _ hmem
      · intro pos hmem
        rcases mem_resolveFileAccesses hmem with ⟨pos', hpos, h⟩ | hmem
        · cases h
          exact hpos
        · exact hinside _ hmem
      · exact count_resolveFileAccesses.trans (by omega)
    · have hnothing := @resolve_unlisted (splitPath disk heap fuel path behind stale) (hroot fuel)
      constructor
      · intro pos hmem
        rcases mem_resolveFileAccesses hmem with ⟨pos', -, h⟩ | hmem
        · contradiction
        · rw [hnothing] at hmem
          contradiction
      · intro pos hmem
        rcases mem_resolveFileAccesses hmem with ⟨pos', hpos, h⟩ | hmem
        · cases h
          exact hpos
        · rw [hnothing] at hmem
          contradiction
      · exact count_resolveFileAccesses.trans (by rw [hnothing]; exact Nat.zero_le _)

end Resolve

def doubledSeparator : List Byte :=
  [0x41, 0x3A, 0x5C, 0x78, 0x2F, 0x2F, 0x66, 0x2E, 0x74, 0x78, 0x74, 0x2F]

theorem tolerates_iff_doubledSeparator :
    (∀ fuel, Tolerates doubledSeparator (resolveFileAccesses onlyFile 0 (fun _ _ _ => 0) fuel
      doubledSeparator (fun _ => 0x2F) (fun _ => 0)).1) ↔
        0 < doubledSeparator.countP isSeparator ∨ ∀ fuel entries,
          readDirectory onlyFile (fun _ _ => 0) fuel 0 ≠ some (some entries) :=
  tolerates_iff rfl rfl (by decide)

/-- `A`, on the volume with the file `f.txt`. -/
theorem resolveFile_without_separator :
    ¬ ∀ (disk : Fat32Partition) (mount : BitVec 8) (heap : Nat → Nat → ByteMemory)
      (path : List Byte) (behind : ByteMemory) (stale : Nat → Nat),
      (path.getD 0 0#8).toInt = mount.toNat + 0x41 →
        isSeparator (path.getD 0 0#8) = false → path.length < 2 ^ 31 →
          ∀ fuel, Tolerates path
            (resolveFileAccesses disk mount heap fuel path behind stale).1 := by
  intro hall
  have htolerates := hall onlyFile 0 (fun _ _ _ => 0) [0x41] (fun _ => 0) (fun _ => 0) rfl rfl
    (by decide) 1
  obtain ⟨entries, hroot⟩ : ∃ entries,
      readDirectory onlyFile (fun _ _ => 0) 1 0 = some (some entries) := by
    have hlisted : (readDirectory onlyFile (fun _ _ => 0) 1 0).map Option.isSome = some true := by
      decide +kernel
    obtain ⟨listing, hlisting, hsome⟩ := Option.map_eq_some_iff.mp hlisted
    obtain ⟨entries, rfl⟩ := Option.isSome_iff_exists.mp hsome
    exact ⟨entries, hlisting⟩
  have hread := htolerates.elements 0 (spacing_mem_accesses rfl rfl hroot)
  exact absurd hread (by decide)

end UnifiedOS.FileSystem.FAT32
