import UnifiedOS.FileSystem.FAT32.Directory
import Mathlib.Data.Fintype.Basic

/-!
# Long names across cluster boundaries

`ReadDirectoryEntries` starts a new entry in each cluster, and with it drops the
pieces of a long name that it has collected.  A listing is therefore that of the
record stream, except that a short entry keeps only those pieces of its name
that are in its own cluster.
-/

namespace UnifiedOS.FileSystem.FAT32

open UnifiedOS.Foundation

/-! ## The listing of a record stream -/

/--
The entries of a stream whose next record has index `i`.  The pieces since the
last short entry are `run`; the short entry at index `q` gets the piece at index
`l` if `keep l q`.
-/
def attach (keep : Nat → Nat → Bool) :
    Nat → List (Nat × Record) → List Record → List DirectoryEntry
  | _, _, [] => []
  | i, run, r :: records =>
      if inUse r then
        if isLongFileName r then attach keep (i + 1) (run ++ [(i, r)]) records
        else
          ⟨r, (run.filter fun l => keep l.1 i).map Prod.snd⟩ ::
            attach keep (i + 1) [] records
      else attach keep (i + 1) run records

def sameCluster (n l q : Nat) : Bool := l / n == q / n

section Stream

variable {disk : Fat32Partition} {heap : ByteMemory} {clusters : List (BitVec 32)}
  {directories : List DirectoryEntry} {records rest padding : List Record} {s : Collected}
  {keep : Nat → Nat → Bool} {i n m cluster : Nat} {run : List (Nat × Record)}

theorem attach_unused (hunused : ∀ r ∈ padding, inUse r = false) :
    attach keep i run padding = [] := by
  induction padding generalizing i run with
  | nil => rfl
  | cons r padding ih =>
      have hr : inUse r = false := hunused r List.mem_cons_self
      rw [attach, hr]
      exact ih fun r hmem => hunused r (List.mem_cons_of_mem _ hmem)

theorem attach_padding (hunused : ∀ r ∈ padding, inUse r = false) :
    attach keep i run (records ++ padding) = attach keep i run records := by
  induction records generalizing i run with
  | nil => exact attach_unused hunused
  | cons r records ih => rw [List.cons_append, attach, attach, ih, ih, ih]

theorem attach_cluster (hcluster : ∀ j < records.length, (i + j) / n = cluster)
    (hlfne : s.lfne = (run.filter fun l => l.1 / n == cluster).map Prod.snd)
    (hrun : ∀ l ∈ run, l.1 < i) :
    ∃ added run', (records.foldl collect s).directories = s.directories ++ added ∧
      attach (sameCluster n) i run (records ++ rest) =
        added ++ attach (sameCluster n) (i + records.length) run' rest ∧
      ∀ l ∈ run', l.1 < i + records.length := by
  induction records generalizing i run s with
  | nil => exact ⟨[], run, by simp, by simp, by simpa using hrun⟩
  | cons r records ih =>
      have hhere : i / n = cluster := hcluster 0 (by simp)
      have hnext : ∀ j < records.length, (i + 1 + j) / n = cluster := by
        intro j hj
        rw [Nat.add_assoc, Nat.add_comm 1 j]
        exact hcluster (j + 1) (by simpa using hj)
      have hlength : i + (r :: records).length = i + 1 + records.length := by
        rw [List.length_cons]
        omega
      have hlater : ∀ l ∈ run, l.1 < i + 1 := fun l hl => Nat.lt_succ_of_lt (hrun l hl)
      rw [List.cons_append, attach, List.foldl_cons, hlength]
      cases hused : inUse r with
      | false =>
          have hstep : collect s r = s := by simp [collect, hused]
          rw [hstep]
          exact ih hnext hlfne hlater
      | true =>
          cases hlong : isLongFileName r with
          | true =>
              have hstep : collect s r = { s with lfne := s.lfne ++ [r] } := by
                simp [collect, hused, hlong]
              rw [hstep]
              refine ih hnext ?_ ?_
              · simp [hlfne, hhere]
              · intro l hl
                rcases List.mem_append.mp hl with hl | hl
                · exact hlater l hl
                · rw [List.mem_singleton.mp hl]
                  exact Nat.lt_succ_self i
          | false =>
              have hstep : collect s r = ⟨[], s.directories ++ [⟨r, s.lfne⟩]⟩ := by
                simp [collect, hused, hlong]
              obtain ⟨added, run', hadded, hattach, hrun'⟩ :=
                @ih ⟨[], s.directories ++ [⟨r, s.lfne⟩]⟩ (i + 1) [] hnext (by simp) (by simp)
              refine ⟨⟨r, s.lfne⟩ :: added, run', ?_, ?_, hrun'⟩
              · rw [hstep, hadded, List.append_assoc, List.singleton_append]
              · simp only [if_true, hattach, List.cons_append, sameCluster, hhere, hlfne,
                  Bool.false_eq_true, if_false]

theorem div_ne_of_dvd {l : Nat} (hdvd : n ∣ i) (hl : l < i) : l / n ≠ i / n := by
  obtain ⟨k, rfl⟩ := hdvd
  cases n with
  | zero => simp at hl
  | succ n =>
      rw [Nat.mul_div_cancel_left k (Nat.succ_pos n)]
      exact Nat.ne_of_lt (Nat.div_lt_of_lt_mul hl)

/-- A readable directory is the stream of its records, cut at the clusters. -/
theorem readDirectories_attach (hreads : ∀ off size, disk.succeeds off size = true)
    (hdvd : recordsPerCluster disk.mbr ∣ i) (hrun : ∀ l ∈ run, l.1 < i) :
    readDirectories disk heap clusters directories =
      some (directories ++ attach (sameCluster (recordsPerCluster disk.mbr)) i run
        (clusters.flatMap (clusterRecords disk))) := by
  induction clusters generalizing i run directories with
  | nil => simp [readDirectories, attach]
  | cons c clusters ih =>
      have hcluster : ∀ j < (clusterRecords disk c).length,
          (i + j) / recordsPerCluster disk.mbr = i / recordsPerCluster disk.mbr := by
        intro j hj
        rw [length_clusterRecords] at hj
        obtain ⟨k, rfl⟩ := hdvd
        rw [Nat.mul_add_div (by omega), Nat.div_eq_of_lt hj, Nat.add_zero,
          Nat.mul_div_cancel_left k (by omega)]
      have hempty : ([] : List LongFileNameEntry) = (run.filter fun l =>
          l.1 / recordsPerCluster disk.mbr == i / recordsPerCluster disk.mbr).map Prod.snd := by
        rw [List.filter_eq_nil_iff.mpr, List.map_nil]
        intro l hl
        simpa using div_ne_of_dvd hdvd (hrun l hl)
      obtain ⟨added, run', hadded, hattach, hrun'⟩ :=
        @attach_cluster (clusterRecords disk c) (clusters.flatMap (clusterRecords disk))
          ⟨[], directories⟩ i (recordsPerCluster disk.mbr) _ run hcluster hempty hrun
      rw [readDirectories_cons hreads, hadded, List.flatMap_cons, hattach,
        ih (by simpa using hdvd) hrun', List.append_assoc]

end Stream

/-! ## Two ways of cutting the stream -/

def ShortAt (records : List Record) (q : Nat) : Prop :=
  ∃ r, records[q]? = some r ∧ inUse r = true ∧ isLongFileName r = false

def LongAt (records : List Record) (l : Nat) : Prop :=
  ∃ r, records[l]? = some r ∧ inUse r = true ∧ isLongFileName r = true

/-- The piece at `l` precedes index `q` with no short entry between. -/
def InRun (records : List Record) (l q : Nat) : Prop :=
  l < q ∧ LongAt records l ∧ ∀ k, l < k → k < q → ¬ ShortAt records k

/-- Each piece is cut off from its short entry by both ways or by neither. -/
def SameCuts (records : List Record) (n m : Nat) : Prop :=
  ∀ q, ShortAt records q → ∀ l, InRun records l q → (l / n = q / n ↔ l / m = q / m)

section Cuts

variable {records : List Record} {i l n m : Nat} {run : List (Nat × Record)} {r : Record}

theorem div_eq_iff_le (hl : l ≤ i) : l / n = i / n ↔ n * (i / n) ≤ l := by
  cases n with
  | zero => simp
  | succ n =>
      have hmono : l / (n + 1) ≤ i / (n + 1) := Nat.div_le_div_right hl
      have hle := @Nat.le_div_iff_mul_le (n + 1) (i / (n + 1)) l (Nat.succ_pos n)
      rw [Nat.mul_comm, ← hle]
      omega

theorem filter_run_eq (hrun : ∀ l ∈ run, l.1 < i) (hle : n * (i / n) ≤ m * (i / m))
    (hlength : (run.filter fun l => sameCluster n l.1 i).length =
      (run.filter fun l => sameCluster m l.1 i).length) :
    ∀ l ∈ run, (l.1 / n = i / n ↔ l.1 / m = i / m) := by
  have himp : ∀ l ∈ run, l.1 / m = i / m → l.1 / n = i / n := by
    intro l hl hsame
    have hlo := Nat.le_of_lt (hrun l hl)
    rw [div_eq_iff_le hlo] at hsame ⊢
    exact Nat.le_trans hle hsame
  have hfilter : (run.filter fun l => sameCluster m l.1 i) =
      (run.filter fun l => sameCluster n l.1 i).filter fun l => sameCluster m l.1 i := by
    rw [List.filter_filter]
    refine List.filter_congr fun l hl => ?_
    cases hm : sameCluster m l.1 i with
    | false => rfl
    | true =>
        have hn := himp l hl (by simpa [sameCluster] using hm)
        simpa [sameCluster] using hn
  have hsub : (run.filter fun l => sameCluster m l.1 i).Sublist
      (run.filter fun l => sameCluster n l.1 i) := by
    rw [hfilter]
    exact List.filter_sublist
  have heq := hsub.eq_of_length hlength.symm
  intro l hl
  constructor
  · intro hsame
    have hmem : l ∈ run.filter fun l => sameCluster m l.1 i := by
      rw [heq]
      exact List.mem_filter.mpr ⟨hl, by simpa [sameCluster] using hsame⟩
    simpa [sameCluster] using (List.mem_filter.mp hmem).2
  · exact himp l hl

theorem filter_run_inj (hrun : ∀ l ∈ run, l.1 < i)
    (h : ((run.filter fun l => sameCluster n l.1 i).map Prod.snd) =
      (run.filter fun l => sameCluster m l.1 i).map Prod.snd) :
    ∀ l ∈ run, (l.1 / n = i / n ↔ l.1 / m = i / m) := by
  have hlength : (run.filter fun l => sameCluster n l.1 i).length =
      (run.filter fun l => sameCluster m l.1 i).length := by
    simpa using congrArg List.length h
  rcases Nat.le_total (n * (i / n)) (m * (i / m)) with hle | hle
  · exact filter_run_eq hrun hle hlength
  · intro l hl
    exact (filter_run_eq hrun hle hlength.symm l hl).symm

theorem shortAt_iff (hr : records[i]? = some r) :
    ShortAt records i ↔ (inUse r = true ∧ isLongFileName r = false) := by
  simp [ShortAt, hr]

theorem longAt_iff (hr : records[i]? = some r) :
    LongAt records i ↔ (inUse r = true ∧ isLongFileName r = true) := by
  simp [LongAt, hr]

theorem inRun_succ (hr : records[i]? = some r) : InRun records l (i + 1) ↔
    (InRun records l i ∧ ¬ (inUse r = true ∧ isLongFileName r = false)) ∨
      (l = i ∧ inUse r = true ∧ isLongFileName r = true) := by
  rw [← shortAt_iff hr, ← longAt_iff hr]
  constructor
  · rintro ⟨hlt, hl, hbetween⟩
    by_cases hli : l = i
    · subst hli
      exact .inr ⟨rfl, hl⟩
    · exact .inl ⟨⟨by omega, hl, fun k hk hki => hbetween k hk (by omega)⟩,
        hbetween i (by omega) (by omega)⟩
  · rintro (⟨⟨hlt, hl, hbetween⟩, hnot⟩ | ⟨rfl, h⟩)
    · refine ⟨by omega, hl, ?_⟩
      intro k hk hki
      by_cases hkeq : k = i
      · rw [hkeq]
        exact hnot
      · exact hbetween k hk (by omega)
    · exact ⟨Nat.lt_succ_self l, h, fun k hk hki => by omega⟩

theorem run_unused (hr : records[i]? = some r) (hused : inUse r = false)
    (hrun : ∀ l, (∃ r, (l, r) ∈ run) ↔ InRun records l i) :
    ∀ l, (∃ r, (l, r) ∈ run) ↔ InRun records l (i + 1) := by
  intro l
  rw [inRun_succ hr, hrun]
  simp [hused]

theorem run_long (hr : records[i]? = some r) (hused : inUse r = true)
    (hlong : isLongFileName r = true) (hrun : ∀ l, (∃ r, (l, r) ∈ run) ↔ InRun records l i) :
    ∀ l, (∃ r', (l, r') ∈ run ++ [(i, r)]) ↔ InRun records l (i + 1) := by
  intro l
  rw [inRun_succ hr, ← hrun]
  simp only [List.mem_append, List.mem_singleton, Prod.mk.injEq, exists_or, exists_and_left,
    exists_eq, and_true, hused, hlong]
  simp

theorem run_short (hr : records[i]? = some r) (hused : inUse r = true)
    (hlong : isLongFileName r = false) :
    ∀ l, (∃ r', (l, r') ∈ ([] : List (Nat × Record))) ↔ InRun records l (i + 1) := by
  intro l
  rw [inRun_succ hr]
  simp [hused, hlong]

theorem pieces_eq_iff (hrun : ∀ l, (∃ r, (l, r) ∈ run) ↔ InRun records l i) :
    (run.filter fun l => sameCluster n l.1 i).map Prod.snd =
        (run.filter fun l => sameCluster m l.1 i).map Prod.snd ↔
      ∀ l, InRun records l i → (l / n = i / n ↔ l / m = i / m) := by
  constructor
  · intro h l hl
    have hbelow : ∀ l ∈ run, l.1 < i := by
      rintro ⟨l, r'⟩ hl
      exact ((hrun l).mp ⟨r', hl⟩).1
    obtain ⟨r', hmem⟩ := (hrun l).mpr hl
    exact filter_run_inj hbelow h (l, r') hmem
  · intro h
    congr 1
    refine List.filter_congr fun l hl => ?_
    have hiff := h l.1 ((hrun l.1).mp ⟨l.2, hl⟩)
    rw [sameCluster, sameCluster, Bool.eq_iff_iff]
    simpa using hiff

theorem forall_from_iff (P : Nat → Prop) :
    (∀ q, i ≤ q → P q) ↔ (P i ∧ ∀ q, i + 1 ≤ q → P q) := by
  constructor
  · exact fun h => ⟨h i (Nat.le_refl i), fun q hq => h q (by omega)⟩
  · rintro ⟨hi, h⟩ q hq
    rcases Nat.eq_or_lt_of_le hq with rfl | hlt
    · exact hi
    · exact h q hlt

theorem attach_eq_iff {tail : List Record} (htail : records.drop i = tail)
    (hrun : ∀ l, (∃ r, (l, r) ∈ run) ↔ InRun records l i) :
    attach (sameCluster n) i run tail = attach (sameCluster m) i run tail ↔
      ∀ q, i ≤ q → ShortAt records q → ∀ l, InRun records l q →
        (l / n = q / n ↔ l / m = q / m) := by
  induction tail generalizing i run with
  | nil =>
      have hlast : records.length ≤ i := List.drop_eq_nil_iff.mp htail
      constructor
      · rintro - q hq ⟨r, hr, -⟩
        obtain ⟨hlt, -⟩ := List.getElem?_eq_some_iff.mp hr
        omega
      · exact fun _ => rfl
  | cons r tail ih =>
      have hr : records[i]? = some r := by
        have hhead := congrArg List.head? htail
        simpa using hhead
      have htail' : records.drop (i + 1) = tail := by
        rw [← List.tail_drop, htail, List.tail_cons]
      rw [forall_from_iff, shortAt_iff hr]
      cases hused : inUse r with
      | false =>
          rw [attach, attach, hused, ← ih htail' (run_unused hr hused hrun)]
          simp
      | true =>
          cases hlong : isLongFileName r with
          | true =>
              rw [attach, attach, hused, hlong, ← ih htail' (run_long hr hused hlong hrun)]
              simp
          | false =>
              rw [attach, attach, hused, hlong, ← ih htail' (run_short hr hused hlong)]
              simp only [if_true, Bool.false_eq_true, if_false, List.cons.injEq,
                DirectoryEntry.mk.injEq, true_and, and_self, forall_const]
              exact and_congr_left fun _ => pieces_eq_iff hrun

end Cuts

/-! ## Two layouts of one directory -/

/-- The clusters hold the records in order, and behind them only unused ones. -/
def LaidOut (disk : Fat32Partition) (clusters : List (BitVec 32)) (records : List Record) :
    Prop :=
  ∃ padding, (∀ r ∈ padding, inUse r = false) ∧
    clusters.flatMap (clusterRecords disk) = records ++ padding

section Layouts

variable {disk disk' : Fat32Partition} {heap heap' : ByteMemory}
  {clusters clusters' : List (BitVec 32)} {records : List Record}

theorem readDirectoryEntries_attach (hreads : ∀ off size, disk.succeeds off size = true)
    (hlaid : LaidOut disk clusters records) :
    readDirectoryEntries disk heap clusters =
      some (attach (sameCluster (recordsPerCluster disk.mbr)) 0 [] records) := by
  obtain ⟨padding, hunused, hlaid⟩ := hlaid
  have hempty : ∀ l ∈ ([] : List (Nat × Record)), l.1 < 0 := by simp
  rw [readDirectoryEntries, readDirectories_attach hreads (Nat.dvd_zero _) hempty, hlaid,
    attach_padding hunused, List.nil_append]

theorem attach_eq_iff_sameCuts {n m : Nat} :
    attach (sameCluster n) 0 [] records = attach (sameCluster m) 0 [] records ↔
      SameCuts records n m := by
  rw [@attach_eq_iff records 0 n m [] records rfl (by simp [InRun])]
  exact ⟨fun h q => h q (Nat.zero_le q), fun h q _ => h q⟩

theorem sameListing_iff (hreads : ∀ off size, disk.succeeds off size = true)
    (hreads' : ∀ off size, disk'.succeeds off size = true)
    (hlaid : LaidOut disk clusters records) (hlaid' : LaidOut disk' clusters' records) :
    readDirectoryEntries disk heap clusters = readDirectoryEntries disk' heap' clusters' ↔
      SameCuts records (recordsPerCluster disk.mbr) (recordsPerCluster disk'.mbr) := by
  rw [readDirectoryEntries_attach hreads hlaid, readDirectoryEntries_attach hreads' hlaid',
    Option.some.injEq, attach_eq_iff_sameCuts]

end Layouts

def directoryVolume (sectorsPerCluster : BitVec 8) (record : Nat → Record) : Fat32Partition where
  mbr := ⟨512, sectorsPerCluster, 32, 2, 1⟩
  volume := fun i =>
    if i < 1024 then 0 else record ((i - 1024) / 32) ⟨i % 32, Nat.mod_lt i (by decide)⟩
  succeeds := fun _ _ => true

/-- A piece of a long name in record 15 and its short entry in record 16. -/
def straddlingName (j : Nat) : Record := fun k =>
  if j = 15 then if k.val = 0 then 0x41 else if k.val = 11 then 0x0F else 0
  else if j = 16 then if k.val = 0 then 0x41 else if k.val = 11 then 0x20 else 0
  else 0

theorem laidOut_directoryVolume {sectorsPerCluster : BitVec 8}
    {clusters : List (BitVec 32)} {record : Nat → Record}
    (h : clusters.flatMap (clusterRecords (directoryVolume sectorsPerCluster record)) =
      (List.range 32).map record) :
    LaidOut (directoryVolume sectorsPerCluster record) clusters ((List.range 32).map record) :=
  ⟨[], by simp, by rw [h, List.append_nil]⟩

theorem laidOut_oneSector : LaidOut (directoryVolume 1 straddlingName) [2, 3]
    ((List.range 32).map straddlingName) :=
  laidOut_directoryVolume (by decide +kernel)

theorem laidOut_twoSectors : LaidOut (directoryVolume 2 straddlingName) [1]
    ((List.range 32).map straddlingName) :=
  laidOut_directoryVolume (by decide +kernel)

theorem sameListing_iff_straddling :
    readDirectoryEntries (directoryVolume 1 straddlingName) (fun _ => 0) [2, 3] =
      readDirectoryEntries (directoryVolume 2 straddlingName) (fun _ => 0) [1] ↔
    SameCuts ((List.range 32).map straddlingName) 16 32 :=
  sameListing_iff (fun _ _ => rfl) (fun _ _ => rfl) laidOut_oneSector laidOut_twoSectors

theorem listing_depends_on_clusters :
    ¬ ∀ (disk disk' : Fat32Partition) (heap heap' : ByteMemory)
      (clusters clusters' : List (BitVec 32)) (records : List Record),
      (∀ off size, disk.succeeds off size = true) →
      (∀ off size, disk'.succeeds off size = true) →
      LaidOut disk clusters records → LaidOut disk' clusters' records →
      readDirectoryEntries disk heap clusters = readDirectoryEntries disk' heap' clusters' := by
  intro hall
  have hsame := hall _ _ (fun _ => 0) (fun _ => 0) _ _ _ (fun _ _ => rfl) (fun _ _ => rfl)
    laidOut_oneSector laidOut_twoSectors
  rw [readDirectoryEntries_attach (fun _ _ => rfl) laidOut_oneSector,
    readDirectoryEntries_attach (fun _ _ => rfl) laidOut_twoSectors, Option.some.injEq,
    attach_eq_iff_sameCuts] at hsame
  have hshort : ShortAt ((List.range 32).map straddlingName) 16 :=
    ⟨straddlingName 16, by simp, by decide, by decide⟩
  have hlong : LongAt ((List.range 32).map straddlingName) 15 :=
    ⟨straddlingName 15, by simp, by decide, by decide⟩
  exact absurd (hsame 16 hshort 15 ⟨by decide, hlong, fun k hk hki => by omega⟩) (by decide)

end UnifiedOS.FileSystem.FAT32
