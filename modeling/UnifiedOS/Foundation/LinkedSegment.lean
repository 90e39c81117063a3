import Mathlib.Data.List.Basic

/-!
# Doubly linked list segments

A list of cells lies in memory as a doubly linked segment when every cell
holds a link to the cell after it and a link to the cell before it.  What it
means for a cell to hold its links is left to a relation
`Holds cell prev next`, so the same lemmas serve any node layout.  The two
outer links, `prev` before the first cell and `next` after the last one, are
parameters: a complete list takes its null address for both.
-/

namespace UnifiedOS.Foundation

variable {Addr Cell : Type*}

namespace LinkedSegment

def first (addr : Cell → Addr) (next : Addr) : List Cell → Addr
  | [] => next
  | cell :: _ => addr cell

def last (addr : Cell → Addr) (prev : Addr) : List Cell → Addr
  | [] => prev
  | cell :: cells => last addr (addr cell) cells

end LinkedSegment

open LinkedSegment

/-- `cells` is a doubly linked segment between the links `prev` and `next`. -/
def LinkedSegment (addr : Cell → Addr) (Holds : Cell → Addr → Addr → Prop)
    (prev next : Addr) : List Cell → Prop
  | [] => True
  | cell :: cells =>
      Holds cell prev (first addr next cells) ∧
        LinkedSegment addr Holds (addr cell) next cells

namespace LinkedSegment

variable {addr : Cell → Addr} {Holds Holds' : Cell → Addr → Addr → Prop}
  {prev prev' next next' : Addr} {cells before after : List Cell} {cell : Cell}

@[simp] theorem first_nil : first addr next [] = next := rfl

@[simp] theorem first_cons : first addr next (cell :: cells) = addr cell := rfl

@[simp] theorem last_nil : last addr prev [] = prev := rfl

@[simp] theorem last_cons :
    last addr prev (cell :: cells) = last addr (addr cell) cells := rfl

@[simp] theorem last_append :
    last addr prev (before ++ after) = last addr (last addr prev before) after := by
  induction before generalizing prev with
  | nil => rfl
  | cons cell before ih => exact ih

@[simp] theorem first_append :
    first addr next (before ++ after) = first addr (first addr next after) before := by
  cases before <;> rfl

@[simp] theorem nil : LinkedSegment addr Holds prev next [] := trivial

@[simp] theorem cons :
    LinkedSegment addr Holds prev next (cell :: cells) ↔
      Holds cell prev (first addr next cells) ∧
        LinkedSegment addr Holds (addr cell) next cells := Iff.rfl

theorem append :
    LinkedSegment addr Holds prev next (before ++ after) ↔
      LinkedSegment addr Holds prev (first addr next after) before ∧
        LinkedSegment addr Holds (last addr prev before) next after := by
  induction before generalizing prev with
  | nil => simp
  | cons cell before ih =>
      simp only [List.cons_append, cons, first_append, last_cons, ih, and_assoc]

theorem imp (h : LinkedSegment addr Holds prev next cells)
    (hkeep : ∀ cell ∈ cells, ∀ p n, Holds cell p n → Holds' cell p n) :
    LinkedSegment addr Holds' prev next cells := by
  induction cells generalizing prev with
  | nil => trivial
  | cons cell cells ih =>
      exact ⟨hkeep cell List.mem_cons_self _ _ h.1,
        ih h.2 (fun other hother => hkeep other (List.mem_cons_of_mem _ hother))⟩

theorem relink_first (h : LinkedSegment addr Holds prev next cells)
    (hfirst : ∀ cell rest n, cells = cell :: rest →
      Holds cell prev n → Holds' cell prev' n)
    (hkeep : ∀ cell ∈ cells.tail, ∀ p n, Holds cell p n → Holds' cell p n) :
    LinkedSegment addr Holds' prev' next cells := by
  cases cells with
  | nil => trivial
  | cons cell cells => exact ⟨hfirst cell cells _ rfl h.1, imp h.2 hkeep⟩

theorem relink_last
    (h : LinkedSegment addr Holds prev next (before ++ [cell]))
    (hlast : ∀ p, Holds cell p next → Holds' cell p next')
    (hkeep : ∀ other ∈ before, ∀ p n, Holds other p n → Holds' other p n) :
    LinkedSegment addr Holds' prev next' (before ++ [cell]) := by
  rw [append] at h ⊢
  exact ⟨imp h.1 hkeep, hlast _ h.2.1, trivial⟩

end LinkedSegment

end UnifiedOS.Foundation
