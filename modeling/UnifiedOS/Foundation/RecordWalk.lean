import Mathlib.Data.List.Basic

/-!
# Walking over records

A loop whose position advances by a length that is read at the position.  It ends
exactly if every position it comes to advances, and it is then a fold over the
positions.
-/

namespace UnifiedOS.Foundation.RecordWalk

section Walk

variable {State : Type*} (advance : Nat → Nat) (stop : Nat) (body : Nat → State → State)

/-- `for (p = start; p < stop; p += advance(p)) body(p);`, for at most `fuel` tests. -/
def walk : Nat → Nat → State → Option State
  | 0, _, _ => none
  | fuel + 1, p, s => if p < stop then walk fuel (p + advance p) (body p s) else some s

/-- The positions visited from `p` on, all of which advance. -/
inductive Visits : Nat → List Nat → Prop
  | done {p : Nat} (hend : stop ≤ p) : Visits p []
  | visit {p : Nat} {l : List Nat} (hlt : p < stop) (hpos : 0 < advance p)
      (hrest : Visits (p + advance p) l) : Visits p (p :: l)

def position : Nat → Nat → Nat
  | p, 0 => p
  | p, n + 1 => position (p + advance p) n

end Walk

variable {State : Type*} {advance : Nat → Nat} {stop p fuel : Nat} {body : Nat → State → State}
  {s s' : State} {l : List Nat}

theorem le_position (p n : Nat) : p ≤ position advance p n := by
  induction n generalizing p with
  | zero => exact Nat.le_refl p
  | succ n ih => exact Nat.le_trans (Nat.le_add_right p (advance p)) (ih (p + advance p))

theorem Visits.walk_eq (h : Visits advance stop p l) (hfuel : stop - p < fuel) :
    walk advance stop body fuel p s = some (l.foldl (fun s p => body p s) s) := by
  induction h generalizing fuel s with
  | done hend =>
      obtain ⟨fuel, rfl⟩ := Nat.exists_eq_add_of_lt hfuel
      rw [walk, if_neg (Nat.not_lt.mpr hend)]
      rfl
  | @visit p l hlt hpos hrest ih =>
      cases fuel with
      | zero => contradiction
      | succ fuel =>
          rw [walk, if_pos hlt, List.foldl_cons]
          exact ih (by omega)

theorem exists_visits_of_walk (h : walk advance stop body fuel p s = some s') :
    ∃ l, Visits advance stop p l := by
  induction fuel generalizing p s with
  | zero => contradiction
  | succ fuel ih =>
      rw [walk] at h
      split at h
      · rename_i hlt
        obtain ⟨l, hl⟩ := ih h
        rcases Nat.eq_zero_or_pos (advance p) with hzero | hpos
        · rw [hzero] at hl
          exact ⟨l, hl⟩
        · exact ⟨p :: l, .visit hlt hpos hl⟩
      · rename_i hend
        exact ⟨[], .done (Nat.le_of_not_lt hend)⟩

theorem Visits.mem_iff (h : Visits advance stop p l) {q : Nat} :
    q ∈ l ↔ q < stop ∧ ∃ n, position advance p n = q := by
  induction h with
  | @done p hend =>
      simp only [List.not_mem_nil, false_iff, not_and, not_exists]
      rintro hlt n rfl
      have hle : p ≤ position advance p n := le_position p n
      omega
  | @visit p l hlt hpos hrest ih =>
      rw [List.mem_cons, ih]
      constructor
      · rintro (rfl | ⟨hq, n, hn⟩)
        · exact ⟨hlt, 0, rfl⟩
        · exact ⟨hq, n + 1, hn⟩
      · rintro ⟨hq, n, hn⟩
        cases n with
        | zero => exact .inl hn.symm
        | succ n => exact .inr ⟨hq, n, hn⟩

theorem Visits.advances (h : Visits advance stop p l) : ∀ q ∈ l, 0 < advance q := by
  induction h with
  | done => simp
  | visit hlt hpos hrest ih => exact List.forall_mem_cons.mpr ⟨hpos, ih⟩

theorem exists_visits_of_advances
    (h : ∀ n, position advance p n < stop → 0 < advance (position advance p n)) :
    ∃ l, Visits advance stop p l := by
  induction hleft : stop - p using Nat.strongRecOn generalizing p with
  | ind left ih =>
      by_cases hlt : p < stop
      · have hpos : 0 < advance p := h 0 hlt
        obtain ⟨l, hl⟩ := ih (stop - (p + advance p)) (by omega) (fun n => h (n + 1)) rfl
        exact ⟨p :: l, .visit hlt hpos hl⟩
      · exact ⟨[], .done (Nat.le_of_not_lt hlt)⟩

theorem visits_forall_iff (P : Nat → Prop) :
    (∃ l, Visits advance stop p l ∧ ∀ q ∈ l, P q) ↔
      ∀ n, position advance p n < stop →
        0 < advance (position advance p n) ∧ P (position advance p n) := by
  constructor
  · rintro ⟨l, hl, hall⟩ n hlt
    have hmem := hl.mem_iff.mpr ⟨hlt, n, rfl⟩
    exact ⟨hl.advances _ hmem, hall _ hmem⟩
  · intro h
    obtain ⟨l, hl⟩ := exists_visits_of_advances fun n hn => (h n hn).1
    refine ⟨l, hl, fun q hq => ?_⟩
    obtain ⟨hlt, n, rfl⟩ := hl.mem_iff.mp hq
    exact (h n hlt).2

/-- A list that every record appends to, as long as there is room, holds what they all append. -/
theorem foldl_collects {α : Type*} {capacity : Nat} (view : State → List α) (new : Nat → List α)
    (hbody : ∀ p s, (view s).length + (new p).length < capacity →
      view (body p s) = view s ++ new p)
    (hroom : (view s).length + (l.flatMap new).length < capacity) :
    view (l.foldl (fun s p => body p s) s) = view s ++ l.flatMap new := by
  induction l generalizing s with
  | nil => simp
  | cons p l ih =>
      rw [List.flatMap_cons, List.length_append] at hroom
      have hone : view (body p s) = view s ++ new p := hbody p s (by omega)
      have hlength := congrArg List.length hone
      rw [List.length_append] at hlength
      rw [List.foldl_cons, ih (by omega), hone, List.flatMap_cons, List.append_assoc]

end UnifiedOS.Foundation.RecordWalk
