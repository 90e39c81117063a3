import UnifiedOS.Common.VectorRefinement

/-!
# The lock of a vector

Every operation takes the lock first and gives it back last, but `remove`
returns from inside its loop once the value is found.
-/

namespace UnifiedOS.Common

open UnifiedOS.Foundation UnifiedOS.Common.Vector

variable {α : Type*} {T : ElementType} {v v' : Vector α}

namespace Vector

@[simp] theorem lock_acquireLock (v : Vector α) : v.acquireLock.lock = 1 := rfl

@[simp] theorem lock_releaseLock (v : Vector α) : v.releaseLock.lock = 0 := rfl

theorem lock_recount (v : Vector α) (n : Nat) :
    ({ v with count := n } : Vector α).lock = v.lock := rfl

theorem eraseUnlocked_lock {pos : Nat} (h : eraseUnlocked T v pos = some v') :
    v'.lock = v.lock := by
  cases htrivial : T.trivial with
  | true =>
      simp only [eraseUnlocked, htrivial, if_true, Option.bind_eq_bind, Option.bind_some,
        Option.pure_def, Option.some.injEq] at h
      rw [← h, lock_recount]
      exact (shift_frame _ _ _ _).lock
  | false =>
      simp only [eraseUnlocked, htrivial, Bool.false_eq_true, if_false, Option.bind_eq_bind,
        Option.pure_def, Option.bind_eq_some_iff, Option.some.injEq] at h
      obtain ⟨moved, hloop, h⟩ := h
      have hlock : moved.lock = v.lock := by
        refine forUnsigned_preserves (P := fun w => w.lock = v.lock) ?_ rfl hloop
        intro i w hw
        exact (put_frame _ _ _).lock.trans hw
      rw [← h, lock_recount]
      exact hlock

theorem resize_releases [Inhabited α] {newSize : Nat} (h : v.resize T newSize = some v') :
    ∃ filled : Vector α, v' = filled.releaseLock := by
  simp only [resize, Option.bind_eq_bind, Option.pure_def] at h
  split at h
  · obtain ⟨filled, -, h⟩ := Option.bind_eq_some_iff.mp h
    exact ⟨filled, (Option.some.inj h).symm⟩
  · split at h
    · obtain ⟨filled, -, h⟩ := Option.bind_eq_some_iff.mp h
      exact ⟨filled, (Option.some.inj h).symm⟩
    · obtain ⟨filled, -, h⟩ := Option.bind_eq_some_iff.mp h
      exact ⟨filled, (Option.some.inj h).symm⟩

variable [BEq α]

theorem removeLoop_lock {val : α} {fuel : Nat} {i : BitVec 32}
    (h : removeLoop T val fuel i v = some v') :
    (v'.lock = 0 ∧ ∀ j, i.toNat ≤ j → j < v.count → v.holds j val = false) ∨
      (v'.lock = v.lock ∧ ∃ j < v.count, v.holds j val = true) := by
  induction fuel generalizing i v with
  | zero => contradiction
  | succ fuel ih =>
      rw [removeLoop] at h
      by_cases hlt : i.toNat < v.count
      · rw [if_pos hlt] at h
        cases hholds : v.holds i.toNat val with
        | true =>
            rw [hholds, if_pos rfl] at h
            exact .inr ⟨(eraseUnlocked_lock h).trans (touch_frame v _).lock, i.toNat, hlt, hholds⟩
        | false =>
            rw [hholds, if_neg Bool.false_ne_true] at h
            -- a counter that wraps only repeats what it has seen
            have hnext : (i + 1).toNat ≤ i.toNat + 1 := by
              rw [BitVec.toNat_add]
              exact Nat.mod_le _ _
            cases ih h with
            | inl hmissed =>
                refine .inl ⟨hmissed.1, fun j hj hcount => ?_⟩
                by_cases hfirst : j = i.toNat
                · rw [hfirst, hholds]
                · exact hmissed.2 j (by omega) hcount
            | inr hfound => exact .inr hfound
      · rw [if_neg hlt, Option.some.injEq] at h
        rw [← h]
        exact .inl ⟨v.lock_releaseLock, fun j hj hcount => by omega⟩

theorem remove_lock {val : α} (h : v.remove T val = some v') :
    v'.lock = 0 ↔ ∀ i < v.count, v.holds i val = false := by
  cases removeLoop_lock h with
  | inl hmissed => exact ⟨fun _ i hi => hmissed.2 i (Nat.zero_le i) hi, fun _ => hmissed.1⟩
  | inr hfound =>
      obtain ⟨hlock, i, hi, hholds⟩ := hfound
      constructor
      · intro hzero
        rw [lock_acquireLock, hzero] at hlock
        contradiction
      · intro hmissed
        have hfalse : v.holds i val = false := hmissed i hi
        have htrue : v.holds i val = true := hholds
        rw [hfalse] at htrue
        contradiction

end Vector

variable [Inhabited α] [BEq α]

/-- The lock is free again exactly if the operation is not the removal of a value that occurs. -/
theorem operation_releases_lock (T : ElementType) (v v' : Vector α) (op : Operation α)
    (hlock : v.lock = 0) (hreturns : op.apply T v = some v') :
    v'.lock = 0 ↔ ∀ val, op = .remove val → ∀ i < v.count, v.holds i val = false := by
  cases op with
  | addBack val =>
      simp only [Operation.apply, Option.some.injEq] at hreturns
      simp [← hreturns, addBack]
  | erase pos =>
      simp only [Operation.apply, erase, Option.bind_eq_bind, Option.pure_def,
        Option.bind_eq_some_iff, Option.some.injEq] at hreturns
      obtain ⟨erased, -, hreturns⟩ := hreturns
      simp [← hreturns]
  | popBack =>
      simp only [Operation.apply, Option.some.injEq] at hreturns
      rw [← hreturns, popBack, lock_recount]
      simp [hlock]
  | resize newSize =>
      obtain ⟨filled, hfilled⟩ := resize_releases hreturns
      simp [hfilled]
  | reserve size =>
      simp only [Operation.apply, Option.some.injEq] at hreturns
      simp [← hreturns, reserve]
  | clear =>
      simp only [Operation.apply, Option.some.injEq] at hreturns
      simp [← hreturns, clear]
  | remove val =>
      rw [remove_lock hreturns]
      constructor
      · intro hmissed val' hop
        cases hop
        exact hmissed
      · intro hmissed
        exact hmissed val rfl

def uint64Element : ElementType := ⟨true, 8, by decide, by decide⟩

/-- A value that does not occur is searched for, and the lock is released. -/
theorem remove_absent_releases_lock :
    ∃ v v', runOperations uint64Element [.addBack 5, .addBack 7] Vector.empty = some v ∧
      (Operation.remove 6).apply uint64Element v = some v' ∧ v'.lock = 0 := by
  have hrun : (runOperations uint64Element [.addBack 5, .addBack 7] Vector.empty).bind
      (fun v => ((Operation.remove 6).apply uint64Element v).map fun _ =>
        (v.lock, decide (∀ i < v.count, v.holds i 6 = false))) = some (0, true) := by
    decide +kernel
  obtain ⟨v, hv, hmap⟩ := Option.bind_eq_some_iff.mp hrun
  obtain ⟨v', happly, hpair⟩ := Option.map_eq_some_iff.mp hmap
  obtain ⟨hfree, habsent⟩ := Prod.mk.inj hpair
  refine ⟨v, v', hv, happly,
    (operation_releases_lock uint64Element v v' (.remove 6) hfree happly).mpr ?_⟩
  rintro _ ⟨⟩
  exact of_decide_eq_true habsent

/-- The value is found, and `remove` returns with the lock taken. -/
theorem remove_keeps_lock :
    ¬ ∀ (v : Vector Nat) (op : Operation Nat), v.lock = 0 →
      ∀ v', op.apply uint64Element v = some v' → v'.lock = 0 := by
  intro hreleases
  have hlocked : (runOperations uint64Element [.addBack 5, .addBack 7] Vector.empty).bind
      (fun v => ((Operation.remove 5).apply uint64Element v).map fun v' =>
        (v.lock, v'.lock)) = some (0, 1) := by
    decide +kernel
  obtain ⟨v, -, hmap⟩ := Option.bind_eq_some_iff.mp hlocked
  obtain ⟨v', happly, hlocks⟩ := Option.map_eq_some_iff.mp hmap
  obtain ⟨hfree, htaken⟩ := Prod.mk.inj hlocks
  have hzero : v'.lock = 0 := hreleases v (.remove 5) hfree v' happly
  rw [hzero] at htaken
  contradiction

end UnifiedOS.Common
