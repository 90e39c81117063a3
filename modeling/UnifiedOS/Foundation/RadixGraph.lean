import Mathlib.Algebra.Order.BigOperators.Group.Finset
import Mathlib.Data.Fintype.Card
import Mathlib.Tactic.Ring

/-!
# Insertion into a graph of tables

A node and a key lead to a node or to none, as the entries of nested tables do.
`insertPath` follows a list of keys, takes a node from a supply wherever one is
missing, and sets the last link.  Where different paths lead to different nodes
and the supply is fresh, this changes what one list of keys leads to and no
other.
-/

namespace UnifiedOS.Foundation

abbrev RadixGraph (Node Key : Type*) := Node → Key → Option Node

namespace RadixGraph

variable {Node Key : Type*}

def lookup (g : RadixGraph Node Key) : Node → List Key → Option Node
  | n, [] => some n
  | n, k :: ks => (g n k).bind fun child => lookup g child ks

/-- At most `depth` keys lead from `n` to `x`. -/
def Within (g : RadixGraph Node Key) (n : Node) (depth : Nat) (x : Node) : Prop :=
  ∃ ks, ks.length ≤ depth ∧ lookup g n ks = some x

/-- Different lists of at most `depth` keys lead to different nodes. -/
def UniquePaths (g : RadixGraph Node Key) (n : Node) (depth : Nat) : Prop :=
  ∀ ks js x, ks.length ≤ depth → js.length ≤ depth → lookup g n ks = some x →
    lookup g n js = some x → ks = js

/-- How many nodes on the way, before the last key, are missing. -/
def missing (g : RadixGraph Node Key) : Node → List Key → Nat
  | _, [] => 0
  | _, [_] => 0
  | n, k :: k' :: ks =>
      match g n k with
      | some child => missing g child (k' :: ks)
      | none => (k' :: ks).length

/-- The supply is fresh: none of the nodes that are needed is there, or is given twice. -/
structure FreshSupply (g : RadixGraph Node Key) (supply : Nat → Node) (used : Nat) (n : Node)
    (depth count : Nat) : Prop where
  outside : ∀ i < count, ¬ Within g n depth (supply (used + i))
  distinct : ∀ i i', i < i' → i' < count → supply (used + i) ≠ supply (used + i')

section Lookup

variable {g g' : RadixGraph Node Key} {n x child : Node} {k : Key} {ks : List Key} {d : Nat}

@[simp] theorem lookup_nil : lookup g n [] = some n := rfl

theorem lookup_cons_some (h : g n k = some child) : lookup g n (k :: ks) = lookup g child ks := by
  rw [lookup, h, Option.bind_some]

theorem lookup_cons_none (h : g n k = none) : lookup g n (k :: ks) = none := by
  rw [lookup, h, Option.bind_none]

theorem lookup_of_self (hself : ∀ j, g n j = some n) (ks : List Key) :
    lookup g n ks = some n := by
  induction ks with
  | nil => rfl
  | cons k ks ih => rw [lookup_cons_some (hself k), ih]

theorem lookup_replicate (hloop : g n k = some n) (i : Nat) :
    lookup g n (List.replicate i k) = some n := by
  induction i with
  | zero => rfl
  | succ i ih => rw [List.replicate_succ, lookup_cons_some hloop, ih]

theorem within_self (g : RadixGraph Node Key) (n : Node) (d : Nat) : Within g n d n :=
  ⟨[], Nat.zero_le d, rfl⟩

theorem Within.eq_of_none (hnone : ∀ j, g n j = none) (h : Within g n d x) : x = n := by
  obtain ⟨ks, -, hlookup⟩ := h
  cases ks with
  | nil => exact (Option.some.inj hlookup).symm
  | cons k ks =>
      rw [lookup_cons_none (hnone k)] at hlookup
      contradiction

theorem uniquePaths_of_none (hnone : ∀ j, g n j = none) : UniquePaths g n d := by
  intro ks js x _ _ hlookup hlookup'
  cases ks with
  | cons k ks =>
      rw [lookup_cons_none (hnone k)] at hlookup
      contradiction
  | nil =>
      cases js with
      | nil => rfl
      | cons j js =>
          rw [lookup_cons_none (hnone j)] at hlookup'
          contradiction

theorem Within.cons (hchild : g n k = some child) (h : Within g child d x) :
    Within g n (d + 1) x := by
  obtain ⟨ks, hlength, hlookup⟩ := h
  refine ⟨k :: ks, ?_, ?_⟩
  · rw [List.length_cons]
    omega
  · rw [lookup_cons_some hchild, hlookup]

theorem UniquePaths.below (h : UniquePaths g n (d + 1)) (hchild : g n k = some child) :
    UniquePaths g child d := by
  intro ks js x hks hjs hlookup hlookup'
  rw [← lookup_cons_some hchild] at hlookup hlookup'
  have heq := h (k :: ks) (k :: js) x (by rw [List.length_cons]; omega)
    (by rw [List.length_cons]; omega) hlookup hlookup'
  exact (List.cons.inj heq).2

theorem UniquePaths.not_within_self (h : UniquePaths g n (d + 1))
    (hchild : g n k = some child) : ¬ Within g child d n := by
  rintro ⟨ks, hlength, hlookup⟩
  rw [← lookup_cons_some hchild] at hlookup
  have heq := h [] (k :: ks) n (Nat.zero_le _) (by rw [List.length_cons]; omega) rfl hlookup
  contradiction

theorem UniquePaths.disjoint (h : UniquePaths g n (d + 1)) {k' : Key} {child' : Node}
    (hchild : g n k = some child) (hchild' : g n k' = some child') (hne : k ≠ k')
    (hx : Within g child' d x) : ¬ Within g child d x := by
  obtain ⟨js, hjs, hlookup'⟩ := hx
  rintro ⟨ks, hks, hlookup⟩
  rw [← lookup_cons_some hchild] at hlookup
  rw [← lookup_cons_some hchild'] at hlookup'
  have heq := h (k :: ks) (k' :: js) x (by rw [List.length_cons]; omega)
    (by rw [List.length_cons]; omega) hlookup hlookup'
  exact hne (List.cons.inj heq).1

theorem exists_finset_within [Fintype Key] [DecidableEq Node] (g : RadixGraph Node Key)
    (n : Node) (d : Nat) :
    ∃ nodes : Finset Node, (∀ x, Within g n d x → x ∈ nodes) ∧
      nodes.card ≤ (Fintype.card Key + 1) ^ d := by
  induction d generalizing n with
  | zero =>
      refine ⟨{n}, ?_, by simp⟩
      rintro x ⟨ks, hlength, hlookup⟩
      rw [List.eq_nil_of_length_eq_zero (Nat.le_zero.mp hlength)] at hlookup
      exact Finset.mem_singleton.mpr (Option.some.inj hlookup).symm
  | succ d ih =>
      choose nodes hnodes hcard using ih
      refine ⟨insert n (Finset.univ.biUnion fun k => (g n k).elim ∅ nodes), ?_, ?_⟩
      · rintro x ⟨ks, hlength, hlookup⟩
        cases ks with
        | nil =>
            rw [Option.some.inj hlookup]
            exact Finset.mem_insert_self x _
        | cons k ks =>
            cases hchild : g n k with
            | none =>
                rw [lookup_cons_none hchild] at hlookup
                contradiction
            | some child =>
                rw [lookup_cons_some hchild] at hlookup
                rw [List.length_cons] at hlength
                refine Finset.mem_insert_of_mem (Finset.mem_biUnion.mpr ⟨k, Finset.mem_univ k, ?_⟩)
                rw [hchild]
                exact hnodes child x ⟨ks, by omega, hlookup⟩
      · have hbelow : (Finset.univ.biUnion fun k => (g n k).elim ∅ nodes).card ≤
            Fintype.card Key * (Fintype.card Key + 1) ^ d := by
          refine Finset.card_biUnion_le_card_mul _ _ _ fun k _ => ?_
          cases g n k with
          | none => exact Nat.zero_le _
          | some child => exact hcard child
        have hpos : 0 < (Fintype.card Key + 1) ^ d := Nat.pow_pos (Nat.succ_pos _)
        calc (insert n (Finset.univ.biUnion fun k => (g n k).elim ∅ nodes)).card
            ≤ (Finset.univ.biUnion fun k => (g n k).elim ∅ nodes).card + 1 :=
              Finset.card_insert_le _ _
          _ ≤ Fintype.card Key * (Fintype.card Key + 1) ^ d + (Fintype.card Key + 1) ^ d := by
              omega
          _ = (Fintype.card Key + 1) ^ (d + 1) := by ring

theorem lookup_congr (hlength : ks.length ≤ d + 1)
    (h : ∀ x, Within g n d x → ∀ j, g' x j = g x j) :
    lookup g' n ks = lookup g n ks := by
  induction ks generalizing n d with
  | nil => rfl
  | cons k ks ih =>
      have hhere := h n (within_self g n d) k
      cases hchild : g n k with
      | none => rw [lookup_cons_none hchild, lookup_cons_none (hhere.trans hchild)]
      | some child =>
          rw [lookup_cons_some hchild, lookup_cons_some (hhere.trans hchild)]
          cases d with
          | zero =>
              have hend : ks = [] := by
                rw [List.length_cons] at hlength
                exact List.eq_nil_of_length_eq_zero (by omega)
              rw [hend]
              rfl
          | succ d =>
              rw [List.length_cons] at hlength
              exact ih (by omega) fun x hx => h x (hx.cons hchild)

theorem missing_some (hchild : g n k = some child) {k' : Key} :
    missing g n (k :: k' :: ks) = missing g child (k' :: ks) := by
  rw [missing, hchild]

theorem missing_none (hchild : g n k = none) {k' : Key} :
    missing g n (k :: k' :: ks) = (k' :: ks).length := by
  rw [missing, hchild]

theorem missing_congr (hlength : ks.length ≤ d + 1)
    (h : ∀ x, Within g n d x → ∀ j, g' x j = g x j) : missing g' n ks = missing g n ks := by
  induction ks generalizing n d with
  | nil => rfl
  | cons k ks ih =>
      cases ks with
      | nil => rfl
      | cons k' ks =>
          have hhere := h n (within_self g n d) k
          rw [List.length_cons] at hlength
          cases hchild : g n k with
          | none => rw [missing_none hchild, missing_none (hhere.trans hchild)]
          | some child =>
              rw [missing_some hchild, missing_some (hhere.trans hchild)]
              cases d with
              | zero => simp at hlength
              | succ d => exact ih (by omega) fun x hx => h x (hx.cons hchild)

theorem missing_le (g : RadixGraph Node Key) (n : Node) (k : Key) (ks : List Key) :
    missing g n (k :: ks) ≤ ks.length := by
  induction ks generalizing n k with
  | nil => exact Nat.le_refl 0
  | cons k' ks ih =>
      cases hchild : g n k with
      | none => exact Nat.le_of_eq (missing_none hchild)
      | some child =>
          rw [missing_some hchild, List.length_cons]
          exact Nat.le_succ_of_le (ih child k')

theorem FreshSupply.ne {supply : Nat → Node} {used count i : Nat}
    (h : FreshSupply g supply used n d count) (hi : i < count) (hx : Within g n d x) :
    supply (used + i) ≠ x := by
  intro heq
  exact h.outside i hi (heq ▸ hx)

theorem FreshSupply.below {supply : Nat → Node} {used count : Nat}
    (h : FreshSupply g supply used n (d + 1) count) (hchild : g n k = some child) :
    FreshSupply g supply used child d count :=
  ⟨fun i hi hwithin => h.outside i hi (hwithin.cons hchild), h.distinct⟩

end Lookup

/-! ## Insertion -/

section Insert

variable [DecidableEq Node] [DecidableEq Key]

def link (g : RadixGraph Node Key) (n : Node) (k : Key) (child : Node) : RadixGraph Node Key :=
  fun x j => if x = n ∧ j = k then some child else g x j

def clear (g : RadixGraph Node Key) (n : Node) : RadixGraph Node Key :=
  fun x j => if x = n then none else g x j

/-- The node below `n`; where there is none, the next one of the supply. -/
def ensure (supply : Nat → Node) (g : RadixGraph Node Key) (used : Nat) (n : Node) (k : Key) :
    Node × RadixGraph Node Key × Nat :=
  match g n k with
  | some child => (child, g, used)
  | none => (supply used, link (clear g (supply used)) n k (supply used), used + 1)

def insertPath (supply : Nat → Node) (leaf : Node) :
    RadixGraph Node Key → Nat → Node → List Key → RadixGraph Node Key
  | g, _, _, [] => g
  | g, _, n, [k] => link g n k leaf
  | g, used, n, k :: k' :: ks =>
      let (child, g, used) := ensure supply g used n k
      insertPath supply leaf g used child (k' :: ks)

variable {supply : Nat → Node} {leaf : Node} {g : RadixGraph Node Key} {used : Nat}
  {n x q child : Node} {j k : Key} {ks js : List Key} {d : Nat}

theorem insertPath_ensure {g' : RadixGraph Node Key} {used' : Nat}
    (hensure : ensure supply g used n k = (child, g', used')) {k' : Key} :
    insertPath supply leaf g used n (k :: k' :: ks) =
      insertPath supply leaf g' used' child (k' :: ks) := by
  rw [insertPath, hensure]

theorem insertPath_some (hchild : g n k = some child) {k' : Key} :
    insertPath supply leaf g used n (k :: k' :: ks) =
      insertPath supply leaf g used child (k' :: ks) := by
  exact insertPath_ensure (by rw [ensure, hchild])

theorem insertPath_none (hchild : g n k = none) {k' : Key} :
    insertPath supply leaf g used n (k :: k' :: ks) =
      insertPath supply leaf (link (clear g (supply used)) n k (supply used)) (used + 1)
        (supply used) (k' :: ks) := by
  exact insertPath_ensure (by rw [ensure, hchild])

/-! ## A node is taken -/

theorem link_clear_apply (hx : x ≠ q) (hxn : x ≠ n ∨ j ≠ k) :
    link (clear g q) n k q x j = g x j := by
  rw [link, if_neg (by tauto), clear, if_neg hx]

theorem link_clear_linked : link (clear g q) n k q n k = some q :=
  if_pos ⟨rfl, rfl⟩

theorem lookup_taken (h : lookup (link (clear g q) n k q) q ks = some x) : x = q := by
  induction ks with
  | nil => exact (Option.some.inj h).symm
  | cons j ks ih =>
      by_cases hlinked : q = n ∧ j = k
      · rw [lookup_cons_some (if_pos hlinked)] at h
        exact ih h
      · rw [lookup_cons_none (by rw [link, if_neg hlinked, clear, if_pos rfl])] at h
        contradiction

theorem not_within_taken (hx : x ≠ q) : ¬ Within (link (clear g q) n k q) q d x := by
  rintro ⟨ks, -, hlookup⟩
  exact hx (lookup_taken hlookup)

theorem taken_none (hqn : q ≠ n) (j : Key) : link (clear g q) n k q q j = none := by
  rw [link, if_neg fun h => hqn h.1, clear, if_pos rfl]

theorem FreshSupply.taken {count count' : Nat} (h : FreshSupply g supply used n d (count + 1))
    (hcount : count' ≤ count) (e : Nat) :
    FreshSupply (link (clear g (supply used)) n k (supply used)) supply (used + 1)
      (supply used) e count' := by
  constructor
  · rintro i hi ⟨ks, -, hlookup⟩
    refine h.distinct 0 (i + 1) (by omega) (by omega) ?_
    rw [Nat.add_zero, Nat.add_comm i, ← Nat.add_assoc]
    exact (lookup_taken hlookup).symm
  · intro i i' hlt hi'
    rw [Nat.add_assoc, Nat.add_assoc]
    exact h.distinct (1 + i) (1 + i') (by omega) (by omega)

/-! ## What insertion changes -/

theorem insertPath_apply (hlength : ks.length ≤ d + 1) (hx : ¬ Within g n d x)
    (hsupply : ∀ i < missing g n ks, supply (used + i) ≠ x) (j : Key) :
    insertPath supply leaf g used n ks x j = g x j := by
  induction ks generalizing g used n d with
  | nil => rfl
  | cons k ks ih =>
      have hxn : x ≠ n := fun heq => hx (heq ▸ within_self g n d)
      cases ks with
      | nil => rw [insertPath, link, if_neg fun h => hxn h.1]
      | cons k' ks =>
          rw [List.length_cons] at hlength
          cases hchild : g n k with
          | some child =>
              cases d with
              | zero => simp at hlength
              | succ d =>
                  rw [insertPath_some hchild]
                  rw [missing_some hchild] at hsupply
                  exact ih (by omega) (fun h => hx (h.cons hchild)) hsupply
          | none =>
              rw [missing_none hchild] at hsupply
              have hxq : x ≠ supply used := (hsupply 0 (by simp)).symm
              rw [insertPath_none hchild, ih (d := d) (by omega)
                (not_within_taken hxq) fun i hi => ?_]
              · exact link_clear_apply hxq (Or.inl hxn)
              · have hle := missing_le (link (clear g (supply used)) n k (supply used))
                  (supply used) k' ks
                rw [Nat.add_right_comm, Nat.add_assoc]
                refine hsupply (i + 1) ?_
                rw [List.length_cons]
                omega

theorem lookup_insertPath_child (hchild : g n k = some child) (hlength : ks.length ≤ d + 1)
    (hout : ¬ Within g child d n) (hsupply : ∀ i < missing g child ks, supply (used + i) ≠ n)
    (js : List Key) :
    lookup (insertPath supply leaf g used child ks) n (k :: js) =
      lookup (insertPath supply leaf g used child ks) child js :=
  lookup_cons_some ((insertPath_apply hlength hout hsupply k).trans hchild)

theorem lookup_insertPath_some {k' : Key} (hlength : (k' :: ks).length = d + 1)
    (hunique : UniquePaths g n (d + 1)) (hchild : g n k = some child)
    (hfresh : FreshSupply g supply used n (d + 1) (missing g child (k' :: ks)))
    (hjs : js.length = d + 1) (hne : j :: js ≠ k :: k' :: ks)
    (ih : js ≠ k' :: ks → lookup (insertPath supply leaf g used child (k' :: ks)) child js =
      lookup g child js) :
    lookup (insertPath supply leaf g used n (k :: k' :: ks)) n (j :: js) =
      lookup g n (j :: js) := by
  rw [insertPath_some hchild]
  have hkept : ∀ x, Within g n (d + 1) x → ¬ Within g child d x → ∀ j,
      insertPath supply leaf g used child (k' :: ks) x j = g x j :=
    fun x hx hout => insertPath_apply (Nat.le_of_eq hlength) hout fun i hi => hfresh.ne hi hx
  have hout := hunique.not_within_self hchild
  by_cases hkey : j = k
  · subst hkey
    rw [lookup_insertPath_child hchild (Nat.le_of_eq hlength) hout
      fun i hi => hfresh.ne hi (within_self g n _), lookup_cons_some hchild]
    exact ih fun heq => hne (by rw [heq])
  · have hhere := hkept n (within_self g n _) hout
    cases hother : g n j with
    | none => rw [lookup_cons_none ((hhere j).trans hother), lookup_cons_none hother]
    | some other =>
        rw [lookup_cons_some ((hhere j).trans hother), lookup_cons_some hother]
        refine lookup_congr (d := d) (by omega) fun x hx => ?_
        exact hkept x (hx.cons hother)
          (hunique.disjoint hchild hother (fun h => hkey h.symm) hx)

theorem lookup_insertPath_none {k' : Key} (hlength : (k' :: ks).length = d + 1)
    (hunique : UniquePaths g n (d + 1)) (hchild : g n k = none)
    (hfresh : FreshSupply g supply used n (d + 1) ((k' :: ks).length))
    (hjs : js.length = d + 1) (hne : j :: js ≠ k :: k' :: ks)
    (ih : js ≠ k' :: ks →
      lookup (insertPath supply leaf (link (clear g (supply used)) n k (supply used)) (used + 1)
        (supply used) (k' :: ks)) (supply used) js =
      lookup (link (clear g (supply used)) n k (supply used)) (supply used) js) :
    lookup (insertPath supply leaf g used n (k :: k' :: ks)) n (j :: js) =
      lookup g n (j :: js) := by
  rw [insertPath_none hchild]
  rw [List.length_cons] at hfresh
  have hnew : ∀ {x}, Within g n (d + 1) x → x ≠ supply used :=
    fun hx => (hfresh.ne (Nat.succ_pos _) hx).symm
  have hnq : n ≠ supply used := hnew (within_self g n _)
  have hmissing := missing_le (link (clear g (supply used)) n k (supply used)) (supply used) k' ks
  have hneeded : ∀ {x}, Within g n (d + 1) x →
      ∀ i < missing (link (clear g (supply used)) n k (supply used)) (supply used) (k' :: ks),
        supply (used + 1 + i) ≠ x := by
    intro x hx i hi
    rw [Nat.add_assoc]
    exact hfresh.ne (by omega) hx
  -- a node that was there has the links it had, but for the one to the node taken
  have hkept : ∀ x, Within g n (d + 1) x → ∀ j,
      insertPath supply leaf (link (clear g (supply used)) n k (supply used)) (used + 1)
        (supply used) (k' :: ks) x j = link (clear g (supply used)) n k (supply used) x j :=
    fun x hx => insertPath_apply (Nat.le_of_eq hlength) (not_within_taken (hnew hx)) (hneeded hx)
  by_cases hkey : j = k
  · subst hkey
    rw [lookup_insertPath_child link_clear_linked (Nat.le_of_eq hlength) (not_within_taken hnq)
      (hneeded (within_self g n _)), lookup_cons_none hchild, ih fun heq => hne (by rw [heq])]
    obtain ⟨i, js, rfl⟩ := List.exists_cons_of_length_eq_add_one hjs
    exact lookup_cons_none (taken_none hnq.symm i)
  · have hhere := (hkept n (within_self g n _) j).trans (link_clear_apply hnq (Or.inr hkey))
    cases hother : g n j with
    | none => rw [lookup_cons_none (hhere.trans hother), lookup_cons_none hother]
    | some other =>
        rw [lookup_cons_some (hhere.trans hother), lookup_cons_some hother]
        refine lookup_congr (d := d) (by omega) fun x hx i => ?_
        have hxn : x ≠ n := fun heq => hunique.not_within_self hother (heq ▸ hx)
        have hxTop := hx.cons hother
        rw [hkept x hxTop, link_clear_apply (hnew hxTop) (Or.inl hxn)]

theorem lookup_insertPath_other (hlength : ks.length = d + 1) (hunique : UniquePaths g n d)
    (hfresh : FreshSupply g supply used n d (missing g n ks)) (hjs : js.length = d + 1)
    (hne : js ≠ ks) : lookup (insertPath supply leaf g used n ks) n js = lookup g n js := by
  induction ks generalizing g used n d js with
  | nil => simp at hlength
  | cons k ks ih =>
      obtain ⟨j, js, rfl⟩ := List.exists_cons_of_length_eq_add_one hjs
      rw [List.length_cons, Nat.add_right_cancel_iff] at hlength hjs
      cases ks with
      | nil =>
          -- the last key: another one leads where it led
          obtain rfl : js = [] := List.eq_nil_of_length_eq_zero (by rw [hjs, ← hlength]; rfl)
          have hkey : j ≠ k := by
            rintro rfl
            exact hne rfl
          rw [insertPath, lookup, lookup, link, if_neg fun h => hkey h.2]
          rfl
      | cons k' ks =>
          obtain ⟨e, rfl⟩ : ∃ e, d = e + 1 := ⟨ks.length, hlength.symm⟩
          cases hchild : g n k with
          | some child =>
              rw [missing_some hchild] at hfresh
              exact lookup_insertPath_some hlength hunique hchild hfresh hjs hne fun hrest =>
                ih hlength (hunique.below hchild) (hfresh.below hchild) hjs hrest
          | none =>
              rw [missing_none hchild] at hfresh
              have hqn : supply used ≠ n := hfresh.ne (Nat.succ_pos _) (within_self g n _)
              refine lookup_insertPath_none hlength hunique hchild hfresh hjs hne fun hrest => ?_
              exact ih hlength (uniquePaths_of_none (taken_none hqn))
                (hfresh.taken (missing_le _ _ k' ks) e) hjs hrest

end Insert

end RadixGraph

end UnifiedOS.Foundation
