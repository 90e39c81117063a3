import Mathlib.Data.List.Chain
import Mathlib.Logic.Function.Basic

/-!
# Levels and edges

Keys are held or not.  An edge reports that one of them has gone down or up, and
a replay accepts it only if the key was not that way already.  The edges between
two levels lead from the one to the other, and in whatever can be replayed the
edges of every key go down and up by turns.
-/

namespace UnifiedOS.Foundation.EdgeEvents

structure Edge (κ : Type*) where
  key : κ
  down : Bool
  deriving DecidableEq, Repr

variable {κ : Type*} [DecidableEq κ]

def accept (held : κ → Bool) (edge : Edge κ) : Option (κ → Bool) :=
  if held edge.key = edge.down then none
  else some (Function.update held edge.key edge.down)

def replay : (κ → Bool) → List (Edge κ) → Option (κ → Bool)
  | held, [] => some held
  | held, edge :: rest => (accept held edge).bind fun held' => replay held' rest

/-- The edges from one level to another, for one key after the other. -/
def edgesBetween (old new : κ → Bool) : List κ → List (Edge κ)
  | [] => []
  | key :: keys =>
      (if old key ≠ new key then [⟨key, new key⟩] else []) ++ edgesBetween old new keys

/-- What the edges of one key say that it is. -/
def levelsOf (key : κ) : List (Edge κ) → List Bool
  | [] => []
  | edge :: rest => if edge.key = key then edge.down :: levelsOf key rest else levelsOf key rest

variable {held held' old new : κ → Bool} {edges : List (Edge κ)} {keys : List κ} {key : κ}

theorem replay_append (held : κ → Bool) (first second : List (Edge κ)) :
    replay held (first ++ second) = (replay held first).bind fun held' => replay held' second := by
  induction first generalizing held with
  | nil => rfl
  | cons edge first ih =>
      rw [List.cons_append, replay, replay]
      cases accept held edge with
      | none => rfl
      | some held' => exact ih held'

theorem replay_edgesBetween (hkeys : keys.Nodup) (hheld : ∀ key ∈ keys, held key = old key) :
    replay held (edgesBetween old new keys) =
      some fun key => if key ∈ keys then new key else held key := by
  induction keys generalizing held with
  | nil => simp [edgesBetween, replay]
  | cons key keys ih =>
      obtain ⟨hkey, hkeys⟩ := List.nodup_cons.mp hkeys
      obtain ⟨hfirst, hrest⟩ := List.forall_mem_cons.mp hheld
      have hkeep : ∀ other ∈ keys, Function.update held key (new key) other = old other := by
        intro other hother
        have hne : other ≠ key := by
          rintro rfl
          exact hkey hother
        rw [Function.update_of_ne hne]
        exact hrest other hother
      have hedge : replay held (if old key ≠ new key then [⟨key, new key⟩] else []) =
          some (Function.update held key (new key)) := by
        by_cases hchange : old key = new key
        · rw [if_neg (not_not.mpr hchange), ← hchange, ← hfirst, Function.update_eq_self]
          rfl
        · rw [if_pos hchange, replay, accept, hfirst, if_neg hchange]
          rfl
      rw [edgesBetween, replay_append, hedge, Option.bind_some, ih hkeys hkeep]
      congr 1
      funext other
      by_cases hother : other = key
      · subst hother
        simp [hkey]
      · simp [hother]

theorem alternating_of_replay (h : replay held edges = some held') :
    (held key :: levelsOf key edges).IsChain (· ≠ ·) := by
  induction edges generalizing held with
  | nil => simp [levelsOf]
  | cons edge rest ih =>
      rw [replay, accept] at h
      split at h
      · contradiction
      · rename_i hturned
        have hchain := ih h
        rw [levelsOf]
        by_cases hsame : edge.key = key
        · rw [hsame, Function.update_self] at hchain
          rw [if_pos hsame, List.isChain_cons_cons, ← hsame]
          exact ⟨hturned, hsame ▸ hchain⟩
        · rw [Function.update_of_ne (Ne.symm hsame)] at hchain
          rwa [if_neg hsame]

end UnifiedOS.Foundation.EdgeEvents
