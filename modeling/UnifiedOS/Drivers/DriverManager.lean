import UnifiedOS.Foundation.Numeral
import Mathlib.Logic.Function.Basic

/-!
# Finding a driver by its name

`FindDriver` compares what the two name pointers point at, which is one
character.  It finds the driver of the name if no other driver whose name begins
with the same character has been added before.
-/

namespace UnifiedOS.Drivers

open UnifiedOS.Foundation

structure Driver where
  driverName : CString
  mainObject : Nat

/-- The drivers by their addresses, of which 0 is none. -/
abbrev DriverHeap := Nat → Driver

structure DriverManager where
  drivers : Nat → Nat
  numDrivers : Nat

namespace DriverManager

def maxDrivers : Nat := 255

def initial (drivers : Nat → Nat) : DriverManager := ⟨drivers, 0⟩

/-- Nothing keeps a driver from being written behind the array; that has no result here. -/
def addDriver (manager : DriverManager) (driver : Nat) : Option DriverManager :=
  if manager.numDrivers < maxDrivers then
    some ⟨Function.update manager.drivers manager.numDrivers driver, manager.numDrivers + 1⟩
  else none

section Find

variable (heap : DriverHeap) (name : CString)

/-- `*(drivers[i]->DriverName) == *Name`, of a pointer that is not null. -/
def begins (driver : Nat) : Bool :=
  driver ≠ 0 && (heap driver).driverName.charAt 0 == name.charAt 0

def named (driver : Nat) : Bool := driver ≠ 0 && (heap driver).driverName.chars == name.chars

def findLoop (manager : DriverManager) : Nat → Nat → Nat
  | 0, _ => 0
  | remaining + 1, i =>
      if begins heap name (manager.drivers i) then manager.drivers i
      else findLoop manager remaining (i + 1)

def findDriver (manager : DriverManager) : Nat := findLoop heap name manager manager.numDrivers 0

def firstNamed (added : List Nat) : Nat := (added.find? (named heap name)).getD 0

/--
All drivers can be added, and `FindDriver` then finds the first of the name, so
that its `MainObject` is what the caller takes it for.
-/
def FindsNamed (drivers : Nat → Nat) (added : List Nat) : Prop :=
  ∃ manager, added.foldlM addDriver (initial drivers) = some manager ∧
    manager.findDriver heap name = firstNamed heap name added ∧
    (manager.findDriver heap name ≠ 0 → named heap name (manager.findDriver heap name) = true)

/-- Whoever begins like the name and has another comes behind one that has it. -/
def NamedFirst (added : List Nat) : Prop :=
  ∀ (i driver : Nat), added[i]? = some driver → begins heap name driver = true →
    named heap name driver = false →
      ∃ j < i, ∃ earlier, added[j]? = some earlier ∧ named heap name earlier = true

end Find

variable {heap : DriverHeap} {name : CString} {manager : DriverManager} {drivers : Nat → Nat}
  {added before behind : List Nat} {driver first : Nat}

/-! ## Adding -/

structure Holds (manager : DriverManager) (added : List Nat) : Prop where
  count : manager.numDrivers = added.length
  slots : ∀ i driver, added[i]? = some driver → manager.drivers i = driver

theorem Holds.addDriver (h : Holds manager added) (driver : Nat)
    (hroom : added.length < maxDrivers) :
    ∃ manager', manager.addDriver driver = some manager' ∧ Holds manager' (added ++ [driver]) := by
  refine ⟨⟨Function.update manager.drivers manager.numDrivers driver, manager.numDrivers + 1⟩,
    if_pos (by rw [h.count]; exact hroom), ?_, ?_⟩
  · simp [h.count]
  · intro i other hother
    dsimp only
    rcases Nat.lt_trichotomy i added.length with hbefore | hlast | hbehind
    · rw [List.getElem?_append_left hbefore] at hother
      rw [Function.update_of_ne (by rw [h.count]; omega)]
      exact h.slots i other hother
    · rw [hlast, List.getElem?_concat_length, Option.some.injEq] at hother
      rw [hlast, ← h.count, Function.update_self, hother]
    · rw [List.getElem?_eq_none (by simp; omega)] at hother
      contradiction

theorem holds_addAll (drivers : Nat → Nat) (added : List Nat) (hroom : added.length ≤ maxDrivers) :
    ∃ manager, added.foldlM addDriver (initial drivers) = some manager ∧
      Holds manager added := by
  induction added using List.reverseRecOn with
  | nil => exact ⟨initial drivers, rfl, rfl, by simp⟩
  | append_singleton added driver ih =>
      rw [List.length_append, List.length_singleton] at hroom
      obtain ⟨manager, hadded, hholds⟩ := ih (by omega)
      obtain ⟨manager', hlast, hholds'⟩ := hholds.addDriver driver (by omega)
      refine ⟨manager', ?_, hholds'⟩
      rw [List.foldlM_append, hadded]
      simp [hlast]

/-! ## Finding -/

theorem findLoop_eq {i : Nat}
    (h : ∀ k driver, added[k]? = some driver → manager.drivers (i + k) = driver) :
    manager.findLoop heap name added.length i = (added.find? (begins heap name)).getD 0 := by
  induction added generalizing i with
  | nil => rfl
  | cons first rest ih =>
      have hfirst : manager.drivers i = first := h 0 first rfl
      have hrest : ∀ k driver, rest[k]? = some driver → manager.drivers (i + 1 + k) = driver := by
        intro k driver hdriver
        rw [Nat.add_assoc, Nat.add_comm 1 k]
        exact h (k + 1) driver hdriver
      rw [List.length_cons, findLoop, hfirst, List.find?_cons]
      cases hbegins : begins heap name first with
      | true => rfl
      | false =>
          simp only [Bool.false_eq_true, if_false]
          exact ih hrest

theorem Holds.findDriver_eq (h : Holds manager added) :
    manager.findDriver heap name = (added.find? (begins heap name)).getD 0 := by
  rw [findDriver, h.count]
  apply findLoop_eq
  intro k driver hdriver
  rw [Nat.zero_add]
  exact h.slots k driver hdriver

theorem begins_of_named (h : named heap name driver = true) : begins heap name driver = true := by
  simp only [named, Bool.and_eq_true, beq_iff_eq] at h
  simp only [begins, CString.charAt, h.1, h.2, beq_self_eq_true, Bool.and_self]

theorem ne_zero_of_begins (h : begins heap name driver = true) : driver ≠ 0 := by
  simp only [begins, Bool.and_eq_true, decide_eq_true_eq] at h
  exact h.1

theorem named_firstNamed (h : firstNamed heap name added ≠ 0) :
    named heap name (firstNamed heap name added) = true := by
  unfold firstNamed at h ⊢
  cases hfind : added.find? (named heap name) with
  | none => simp [hfind] at h
  | some driver => exact List.find?_some hfind

theorem find_named_eq_none (h : ∀ driver ∈ added, begins heap name driver = false) :
    added.find? (named heap name) = none := by
  rw [List.find?_eq_none]
  intro driver hmem hnamed
  have hbegins := begins_of_named hnamed
  rw [h driver hmem] at hbegins
  contradiction

theorem firstNamed_append (hbefore : ∀ driver ∈ before, begins heap name driver = false) :
    firstNamed heap name (before ++ behind) = firstNamed heap name behind := by
  rw [firstNamed, List.find?_append, find_named_eq_none hbefore, Option.none_or, firstNamed]

theorem namedFirst_append_iff (hbefore : ∀ driver ∈ before, begins heap name driver = false)
    (hbegins : begins heap name first = true) :
    NamedFirst heap name (before ++ first :: behind) ↔ named heap name first = true := by
  constructor
  · intro h
    by_contra hnamed
    rw [Bool.not_eq_true] at hnamed
    obtain ⟨j, hj, earlier, hearlier, hearlierNamed⟩ :=
      h before.length first (by simp) hbegins hnamed
    rw [List.getElem?_append_left hj] at hearlier
    have hbegin := begins_of_named hearlierNamed
    rw [hbefore earlier (List.mem_of_getElem? hearlier)] at hbegin
    contradiction
  · intro hnamed i driver hdriver hother hnot
    refine ⟨before.length, ?_, first, by simp, hnamed⟩
    rcases Nat.lt_trichotomy i before.length with hlt | heq | hgt
    · rw [List.getElem?_append_left hlt] at hdriver
      rw [hbefore driver (List.mem_of_getElem? hdriver)] at hother
      contradiction
    · rw [heq] at hdriver
      have hsame : first = driver := by simpa using hdriver
      rw [← hsame, hnamed] at hnot
      contradiction
    · exact hgt

theorem find_begins_eq_iff :
    (added.find? (begins heap name)).getD 0 = firstNamed heap name added ↔
      NamedFirst heap name added := by
  cases hfind : added.find? (begins heap name) with
  | none =>
      have hnone : ∀ driver ∈ added, begins heap name driver = false := by
        simpa using hfind
      rw [firstNamed, find_named_eq_none hnone]
      refine iff_of_true rfl fun i driver hdriver hbegins _ => ?_
      rw [hnone driver (List.mem_of_getElem? hdriver)] at hbegins
      contradiction
  | some first =>
      obtain ⟨hbegins, before, behind, rfl, hbefore⟩ := List.find?_eq_some_iff_append.mp hfind
      have hnone : ∀ driver ∈ before, begins heap name driver = false := by
        simpa using hbefore
      rw [Option.getD_some, namedFirst_append_iff hnone hbegins]
      constructor
      · intro heq
        rw [heq]
        exact named_firstNamed (heq ▸ ne_zero_of_begins hbegins)
      · intro hnamed
        rw [firstNamed_append hnone, firstNamed, List.find?_cons_of_pos hnamed, Option.getD_some]

/--
`FindDriver` returns the first driver of the name exactly if every driver that
only begins like it has been added later than one that has it.
-/
theorem findDriver_named_iff (heap : DriverHeap) (name : CString) (drivers : Nat → Nat)
    (added : List Nat) (hcount : added.length ≤ maxDrivers) :
    FindsNamed heap name drivers added ↔ NamedFirst heap name added := by
  obtain ⟨manager, hadded, hholds⟩ := holds_addAll drivers added hcount
  rw [← find_begins_eq_iff, ← hholds.findDriver_eq]
  constructor
  · rintro ⟨manager', hadded', hfinds, -⟩
    rw [hadded, Option.some.injEq] at hadded'
    rwa [hadded']
  · intro hfinds
    refine ⟨manager, hadded, hfinds, ?_⟩
    rw [hfinds]
    exact named_firstNamed

/-! ## The driver that the volumes are mounted by -/

def ahciName : CString :=
  ⟨[0x41, 0x43, 0x50, 0x49, 0x20, 0x31, 0x2E, 0x30, 0x20, 0x44, 0x72, 0x69, 0x76, 0x65, 0x72],
    by decide⟩

def audioName : CString := ⟨[0x41, 0x75, 0x64, 0x69, 0x6F], by decide⟩

def twoDrivers : DriverHeap := fun driver => if driver = 1 then ⟨audioName, 0⟩ else ⟨ahciName, 0⟩

theorem findDriver_named_two : FindsNamed twoDrivers ahciName (fun _ => 0) [2, 1] :=
  (findDriver_named_iff twoDrivers ahciName (fun _ => 0) [2, 1] (by decide)).mpr
    (find_begins_eq_iff.mp (by decide))

/-- The audio driver is taken for the disk controller. -/
theorem findDriver_wrong_kind : ¬ FindsNamed twoDrivers ahciName (fun _ => 0) [1, 2] := by
  rintro ⟨manager, hadded, hfinds, -⟩
  obtain ⟨manager', hadded', hholds⟩ := holds_addAll (fun _ => 0) [1, 2] (by decide)
  rw [hadded', Option.some.injEq] at hadded
  rw [← hadded, hholds.findDriver_eq] at hfinds
  exact absurd hfinds (by decide)

end DriverManager

end UnifiedOS.Drivers
