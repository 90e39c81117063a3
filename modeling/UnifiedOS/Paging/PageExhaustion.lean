import UnifiedOS.Paging.PageFrameAllocator
import UnifiedOS.Paging.TableGraph

/-!
# `MapMemory` without pages

`MapMemory` takes the answer of `RequestPage` for a table whatever it is.  A
first `NULL` makes frame 0 a table, which is as good as any other frame as long
as no table is there.  A second one uses frame 0 for two levels at once: it
links to itself, or an entry of one level serves as one of the other.
-/

namespace UnifiedOS.Paging

open UnifiedOS.Foundation
open RadixGraph PageDirectoryEntry

/-! ## One node for two levels -/

section Aliasing

variable {Node Key : Type*} {g : RadixGraph Node Key} {supply : Nat → Node} {used : Nat}
  {n r z f q : Node} {a b c d : Key}

theorem lookup_loop (htop : g r a = some z) (hloop : g z b = some z) :
    lookup g r [a, b, b, b] ≠ none := by
  rw [lookup_cons_some htop]
  exact (lookup_replicate hloop 3).trans_ne (Option.some_ne_none z)

theorem lookup_leaf (htop : g r a = some z) (hleaf : g z b = some f)
    (hself : ∀ j, g f j = some f) (ks : List Key) : lookup g r (a :: b :: ks) ≠ none := by
  rw [lookup_cons_some htop, lookup_cons_some hleaf, lookup_of_self hself]
  exact Option.some_ne_none f

variable [DecidableEq Node] [DecidableEq Key]

theorem alias_apart (htop : g r a = some z) (hloop : g z b = some z) (hrz : r ≠ z)
    (hbc : b ≠ c) (hc : g z c = none) (hq : supply used ≠ z) (hqr : supply used ≠ r) :
    ∃ y y' y'', [y, y', y''] ≠ [b, c, d] ∧
      lookup (insertPath supply f g used z [c, d]) r [a, y, y', y''] ≠ none := by
  rw [insertPath_none hc, insertPath]
  generalize hG : link (link (clear g (supply used)) z c (supply used)) (supply used) d f = G
  have htopG : G r a = some z := by
    simp [← hG, link, clear, hrz, hqr.symm, htop]
  have hloopG : G z b = some z := by
    simp [← hG, link, clear, hq.symm, hbc, hloop]
  exact ⟨b, b, b, by simp [hbc], lookup_loop htopG hloopG⟩

theorem alias_all (htop : g r a = some z) (hself : ∀ j, g f j = some f) (hrz : r ≠ z)
    (hfz : f ≠ z) (hbc : b ≠ c) (hc : g z c = none) (hq : supply used = z) :
    ∃ y y' y'', [y, y', y''] ≠ [b, c, d] ∧
      lookup (insertPath supply f g used z [c, d]) r [a, y, y', y''] ≠ none := by
  rw [insertPath_none hc, insertPath, hq]
  generalize hG : link (link (clear g z) z c z) z d f = G
  have htopG : G r a = some z := by
    simp [← hG, link, clear, hrz, htop]
  refine ⟨c, c, c, by simp [hbc.symm], ?_⟩
  by_cases hcd : c = d
  · have hleaf : G z c = some f := by
      simp [← hG, link, hcd]
    have hselfG : ∀ j, G f j = some f := by
      simp [← hG, link, clear, hfz, hself]
    exact lookup_leaf htopG hleaf hselfG [c, c]
  · have hloopG : G z c = some z := by
      simp [← hG, link, hcd]
    exact lookup_loop htopG hloopG

variable [Nontrivial Key]

theorem alias_lowest (hself : ∀ j, g f j = some f) (hb : g n b = none) (hnz : n ≠ z)
    (hnf : n ≠ f) (hfz : f ≠ z) (hz : supply used = z) (hz' : supply (used + 1) = z) :
    ∃ y y', [y, y'] ≠ [c, d] ∧
      lookup (insertPath supply f g used n [b, c, d]) n [b, y, y'] ≠ none := by
  have hc : link (clear g z) n b z z c = none := by
    simp [link, clear, hnz.symm]
  have heq : insertPath supply f g used n [b, c, d] =
      link (link (clear (link (clear g z) n b z) z) z c z) z d f := by
    rw [insertPath_none hb, hz, insertPath_none hc, hz', insertPath]
  rw [heq]
  generalize hG : link (link (clear (link (clear g z) n b z) z) z c z) z d f = G
  have htop : G n b = some z := by
    simp [← hG, link, clear, hnz]
  by_cases hcd : c = d
  · -- the entry for `f` replaces the link of `z` to itself
    have hleaf : G z d = some f := by
      simp [← hG, link]
    have hselfG : ∀ j, G f j = some f := by
      simp [← hG, link, clear, hfz, hnf.symm, hself]
    obtain ⟨y, hy⟩ := exists_ne d
    exact ⟨d, y, by simp [hy], lookup_leaf htop hleaf hselfG [y]⟩
  · have hloop : G z c = some z := by
      simp [← hG, link, hcd]
    refine ⟨c, c, by simp [hcd], ?_⟩
    rw [lookup_cons_some htop]
    exact (lookup_replicate hloop 2).trans_ne (Option.some_ne_none z)

theorem alias_again (htop : g r a = some z) (hloop : g z b = some z)
    (hself : ∀ j, g f j = some f) (hrz : r ≠ z) (hfz : f ≠ z) :
    ∃ y y' y'', [y, y', y''] ≠ [b, b, d] ∧
      lookup (insertPath supply f g used z [b, d]) r [a, y, y', y''] ≠ none := by
  rw [insertPath_some hloop, insertPath]
  generalize hG : link g z d f = G
  have htopG : G r a = some z := by
    simp [← hG, link, hrz, htop]
  by_cases hbd : b = d
  · have hleaf : G z d = some f := by
      simp [← hG, link]
    have hselfG : ∀ j, G f j = some f := by
      simp [← hG, link, hfz, hself]
    obtain ⟨y, hy⟩ := exists_ne d
    exact ⟨d, d, y, by simp [hy], lookup_leaf htopG hleaf hselfG [d, y]⟩
  · have hloopG : G z b = some z := by
      simp [← hG, link, hbd, hloop]
    exact ⟨b, b, b, by simp [hbd], lookup_loop htopG hloopG⟩

theorem alias_highest (hself : ∀ j, g f j = some f) (ha : g r a = none) (hrz : r ≠ z)
    (hrf : r ≠ f) (hfz : f ≠ z) (hz : supply used = z) (hz' : supply (used + 1) = z)
    (hlast : supply (used + 1 + 1) ≠ r) :
    ∃ y y' y'', [y, y', y''] ≠ [b, c, d] ∧
      lookup (insertPath supply f g used r [a, b, c, d]) r [a, y, y', y''] ≠ none := by
  have hb : link (clear g z) r a z z b = none := by
    simp [link, clear, hrz.symm]
  rw [insertPath_none ha, hz, insertPath_none hb, hz']
  generalize hg' : link (clear (link (clear g z) r a z) z) z b z = g'
  have htop : g' r a = some z := by
    simp [← hg', link, clear, hrz]
  have hloop : g' z b = some z := by
    simp [← hg', link]
  have hself' : ∀ j, g' f j = some f := by
    simp [← hg', link, clear, hfz, hrf.symm, hself]
  by_cases hbc : b = c
  · subst hbc
    exact alias_again htop hloop hself' hrz hfz
  · have hc : g' z c = none := by
      simp [← hg', link, clear, Ne.symm hbc]
    by_cases hall : supply (used + 1 + 1) = z
    · exact alias_all htop hself' hrz hfz hbc hc hall
    · exact alias_apart htop hloop hrz hbc hc hall hlast

theorem alias_outer (hself : ∀ j, g f j = some f) (ha : g r a = none) (hrz : r ≠ z)
    (hrf : r ≠ f) (hfz : f ≠ z) (hz : supply used = z) (hq : supply (used + 1) = q)
    (hqz : q ≠ z) (hqr : q ≠ r) (hqf : q ≠ f) (hz' : supply (used + 2) = z) :
    ∃ y y' y'', [y, y', y''] ≠ [b, c, d] ∧
      lookup (insertPath supply f g used r [a, b, c, d]) r [a, y, y', y''] ≠ none := by
  have hb : link (clear g z) r a z z b = none := by
    simp [link, clear, hrz.symm]
  have hc : link (clear (link (clear g z) r a z) q) z b q q c = none := by
    simp [link, clear, hqz]
  have heq : insertPath supply f g used r [a, b, c, d] =
      link (link (clear (link (clear (link (clear g z) r a z) q) z b q) z) q c z) z d f := by
    rw [insertPath_none ha, hz, insertPath_none hb, hq, insertPath_none hc, hz', insertPath]
  rw [heq]
  generalize hG :
    link (link (clear (link (clear (link (clear g z) r a z) q) z b q) z) q c z) z d f = G
  have htop : G r a = some z := by
    simp [← hG, link, clear, hrz, hqr.symm]
  have hleaf : G z d = some f := by
    simp [← hG, link]
  have hselfG : ∀ j, G f j = some f := by
    simp [← hG, link, clear, hfz, hrf.symm, hqf.symm, hself]
  obtain ⟨y, hy⟩ := exists_ne c
  exact ⟨d, y, y, by simp [hy], lookup_leaf htop hleaf hselfG [y, y]⟩

theorem alias_below_linked (hunique : UniquePaths g r 3) (hself : ∀ j, g f j = some f)
    (hf : ¬ Within g r 3 f) (hz : ¬ Within g r 3 z) (hfz : f ≠ z)
    (hnotRoot : ∀ k < 3, supply (used + k) ≠ r) (ha : g r a = some n) (hb : g n b = none)
    (hsame : supply used = z) (hsame' : supply (used + 1) = z) :
    ∃ y y', [y, y'] ≠ [c, d] ∧
      lookup (insertPath supply f g used r [a, b, c, d]) r [a, b, y, y'] ≠ none := by
  have hn : Within g r 3 n := (within_self g n 2).cons ha
  obtain ⟨y, y', hne, hlookup⟩ := alias_lowest (z := z) (c := c) (d := d) hself hb
    (fun heq => hz (heq ▸ hn)) (fun heq => hf (heq ▸ hn)) hfz hsame hsame'
  refine ⟨y, y', hne, ?_⟩
  rw [insertPath_some ha, lookup_insertPath_child (d := 2) ha (by simp)
    (hunique.not_within_self ha) fun i hi => hnotRoot i ?_]
  · exact hlookup
  · exact Nat.lt_succ_of_lt (Nat.lt_of_lt_of_le hi (missing_le g n b [c, d]))

theorem alias_below_taken (hself : ∀ j, g f j = some f) (hrf : r ≠ f) (hfz : f ≠ z)
    (hnotRoot : ∀ k < 3, supply (used + k) ≠ r) (ha : g r a = none)
    (hfirst : supply used ≠ z) (hfirst' : supply used ≠ f)
    (hsame : supply (used + 1) = z) (hsame' : supply (used + 2) = z) :
    ∃ y y', [y, y'] ≠ [c, d] ∧
      lookup (insertPath supply f g used r [a, b, c, d]) r [a, b, y, y'] ≠ none := by
  have hqr : supply used ≠ r := hnotRoot 0 (by omega)
  have hself' : ∀ j, link (clear g (supply used)) r a (supply used) f j = some f := by
    intro j
    rw [link_clear_apply (fun heq => hfirst' heq.symm) (Or.inl hrf.symm), hself]
  have hb : link (clear g (supply used)) r a (supply used) (supply used) b = none := by
    simp [link, clear, hqr]
  obtain ⟨y, y', hne, hlookup⟩ := alias_lowest (z := z) (c := c) (d := d) hself' hb
    hfirst hfirst' hfz hsame hsame'
  refine ⟨y, y', hne, ?_⟩
  rw [insertPath_none ha, lookup_insertPath_child (d := 2) link_clear_linked (by simp)
    (not_within_taken hqr.symm) fun i hi => ?_]
  · exact hlookup
  · rw [Nat.add_assoc]
    have hle := Nat.lt_of_lt_of_le hi (missing_le _ _ b [c, d])
    rw [List.length_cons, List.length_singleton] at hle
    exact hnotRoot (1 + i) (by omega)

/--
Where two of the missing nodes are `z`, other keys come to lead somewhere: those
that lead through `z` twice, or through an entry of `z` for another level.
-/
theorem exists_changed (hunique : UniquePaths g r 3) (hself : ∀ j, g f j = some f)
    (hf : ¬ Within g r 3 f) (hz : ¬ Within g r 3 z) (hfz : f ≠ z)
    (hsupply : ∀ k < 3, supply (used + k) ≠ z →
      ¬ Within g r 3 (supply (used + k)) ∧ supply (used + k) ≠ f)
    (htwice : ∃ k k', k < k' ∧ k' < missing g r [a, b, c, d] ∧ supply (used + k) = z ∧
      supply (used + k') = z) :
    ∃ j₃ j₂ j₁ j₀, [j₃, j₂, j₁, j₀] ≠ [a, b, c, d] ∧ lookup g r [j₃, j₂, j₁, j₀] = none ∧
      lookup (insertPath supply f g used r [a, b, c, d]) r [j₃, j₂, j₁, j₀] ≠ none := by
  obtain ⟨k, k', hlt, hk', hsame, hsame'⟩ := htwice
  have hrz : r ≠ z := fun heq => hz (heq ▸ within_self g r 3)
  have hrf : r ≠ f := fun heq => hf (heq ▸ within_self g r 3)
  have hnotRoot : ∀ k < 3, supply (used + k) ≠ r := by
    intro k hk heq
    by_cases hzero : supply (used + k) = z
    · exact hrz (heq.symm.trans hzero)
    · exact (hsupply k hk hzero).1 (heq ▸ within_self g r 3)
  cases ha : g r a with
  | some n =>
      rw [missing_some ha] at hk'
      cases hb : g n b with
      | some n' =>
          rw [missing_some hb] at hk'
          have hle := missing_le g n' c [d]
          rw [List.length_singleton] at hle
          omega
      | none =>
          rw [missing_none hb, List.length_cons, List.length_singleton] at hk'
          obtain ⟨rfl, rfl⟩ : k = 0 ∧ k' = 1 := by omega
          obtain ⟨y, y', hne, hlookup⟩ :=
            alias_below_linked (c := c) (d := d) hunique hself hf hz hfz hnotRoot ha hb hsame hsame'
          refine ⟨a, b, y, y', by simpa using hne, ?_, hlookup⟩
          rw [lookup_cons_some ha, lookup_cons_none hb]
  | none =>
      rw [missing_none ha, List.length_cons, List.length_cons, List.length_singleton] at hk'
      by_cases hfirst : supply used = z
      · by_cases hsecond : supply (used + 1) = z
        · obtain ⟨y, y', y'', hne, hlookup⟩ := alias_highest (b := b) (c := c) (d := d) hself ha
            hrz hrf hfz hfirst hsecond (hnotRoot 2 (by omega))
          exact ⟨a, y, y', y'', by simpa using hne, lookup_cons_none ha, hlookup⟩
        · obtain ⟨rfl, rfl⟩ : k = 0 ∧ k' = 2 := by
            have hone : k ≠ 1 ∧ k' ≠ 1 := by
              constructor <;> rintro rfl <;> contradiction
            omega
          obtain ⟨y, y', y'', hne, hlookup⟩ := alias_outer (b := b) (c := c) (d := d) hself ha
            hrz hrf hfz hfirst rfl hsecond (hnotRoot 1 (by omega))
            (hsupply 1 (by omega) hsecond).2 hsame'
          exact ⟨a, y, y', y'', by simpa using hne, lookup_cons_none ha, hlookup⟩
      · obtain ⟨rfl, rfl⟩ : k = 1 ∧ k' = 2 := by
          have hzero : k ≠ 0 := by
            rintro rfl
            contradiction
          omega
        obtain ⟨y, y', hne, hlookup⟩ := alias_below_taken (b := b) (c := c) (d := d) hself hrf
          hfz hnotRoot ha hfirst (hsupply 0 (by omega) hfirst).2 hsame hsame'
        exact ⟨a, b, y, y', by simpa using hne, lookup_cons_none ha, hlookup⟩

end Aliasing

/-! ## Well-formed tables -/

/-- The tables from the `PML4` in frame `r` on have frames of their own, and none is at `NULL`. -/
structure WellFormed (m : ByteMemory) (r : Nat) : Prop where
  unique : UniquePaths (tableGraph m) r 3
  notNull : ¬ Within (tableGraph m) r 3 (NULL / 4096)

def SameTables (m m' : ByteMemory) (r : Nat) : Prop :=
  ∀ n, Within (tableGraph m) r 3 n → ∀ i < 512, entry m' (4096 * n) i = entry m (4096 * n) i

/--
The next three answers of `RequestPage`: pages, and those that are not `NULL` are
no tables yet and not given twice.
-/
structure AnswersPages (pages : Nat → Nat) (requests : Nat) (m : ByteMemory) (r : Nat) :
    Prop where
  page : ∀ k < 3, IsPage pages (requests + k)
  unused : ∀ k < 3, pages (requests + k) ≠ NULL →
    ¬ Within (tableGraph m) r 3 (pages (requests + k) / 4096)
  distinct : ∀ k k', k < k' → k' < 3 → pages (requests + k) ≠ NULL →
    pages (requests + k) ≠ pages (requests + k')

def missingTables (m : ByteMemory) (r : Nat) (v : BitVec 64) : Nat :=
  missing (tableGraph m) r (pageKeys v)

def RefusedTwice (pages : Nat → Nat) (requests count : Nat) : Prop :=
  ∃ k k', k < k' ∧ k' < count ∧ pages (requests + k) = NULL ∧ pages (requests + k') = NULL

/-- Whatever is mapped to the page of `v`, every other page keeps its translation. -/
def Survives (pages : Nat → Nat) (requests : Nat) (m : ByteMemory) (r : Nat) (v : BitVec 64) :
    Prop :=
  ∀ m', SameTables m m' r → ∀ p u, pageNumber u ≠ pageNumber v →
    translation (mapMemory pages (4096 * r) ⟨m', requests⟩ v p).mem (4096 * r) u =
      translation m' (4096 * r) u

section Survives

variable {pages : Nat → Nat} {requests count r k f : Nat} {m m' : ByteMemory} {v p u : BitVec 64}

theorem SameTables.link_eq (h : SameTables m m' r) {n : Nat}
    (hn : Within (tableGraph m) r 3 n) (j : Fin 512) : tableGraph m' n j = tableGraph m n j := by
  rw [tableGraph, tableGraph, h n hn j j.isLt]

theorem SameTables.lookup_eq (h : SameTables m m' r) {ks : List (Fin 512)}
    (hlength : ks.length ≤ 4) : lookup (tableGraph m') r ks = lookup (tableGraph m) r ks :=
  lookup_congr hlength fun _ => h.link_eq

theorem SameTables.within_iff (h : SameTables m m' r) (n : Nat) :
    Within (tableGraph m') r 3 n ↔ Within (tableGraph m) r 3 n := by
  constructor
  · rintro ⟨ks, hlength, hlookup⟩
    exact ⟨ks, hlength, (h.lookup_eq (by omega)).symm.trans hlookup⟩
  · rintro ⟨ks, hlength, hlookup⟩
    exact ⟨ks, hlength, (h.lookup_eq (by omega)).trans hlookup⟩

theorem SameTables.wellFormed (h : SameTables m m' r) (hwf : WellFormed m r) :
    WellFormed m' r := by
  constructor
  · intro ks js x hks hjs hlookup hlookup'
    rw [h.lookup_eq (by omega)] at hlookup hlookup'
    exact hwf.unique ks js x hks hjs hlookup hlookup'
  · rw [h.within_iff]
    exact hwf.notNull

theorem SameTables.missingTables_eq (h : SameTables m m' r) (v : BitVec 64) :
    missingTables m' r v = missingTables m r v :=
  missing_congr (Nat.le_of_eq (length_pageKeys v)) fun _ => h.link_eq

theorem SameTables.answersPages (h : SameTables m m' r)
    (hanswers : AnswersPages pages requests m r) : AnswersPages pages requests m' r := by
  refine ⟨hanswers.page, fun k hk hne => ?_, hanswers.distinct⟩
  rw [h.within_iff]
  exact hanswers.unused k hk hne

theorem AnswersPages.isPage (h : AnswersPages pages requests m r) :
    ∀ k, requests ≤ k → k < requests + 3 → IsPage pages k := by
  intro k hle hlt
  obtain ⟨i, rfl⟩ := Nat.exists_eq_add_of_le hle
  exact h.page i (by omega)

theorem missingTables_le (m : ByteMemory) (r : Nat) (v : BitVec 64) : missingTables m r v ≤ 3 :=
  missing_le _ _ _ _

/-! ## One refusal does no harm -/

theorem freshSupply_of_refused_once (hwf : WellFormed m r)
    (hanswers : AnswersPages pages requests m r) (hcount : count ≤ 3)
    (honce : ¬ RefusedTwice pages requests count) :
    FreshSupply (tableGraph m) (framesOf pages) requests r 3 count := by
  constructor
  · intro k hk
    by_cases hnull : pages (requests + k) = NULL
    · rw [framesOf, hnull]
      exact hwf.notNull
    · exact hanswers.unused k (by omega) hnull
  · intro k k' hlt hk' heq
    have hpage := hanswers.page k (by omega)
    have hpage' := hanswers.page k' (by omega)
    have hsame : pages (requests + k) = pages (requests + k') := by
      have haligned := hpage.1
      have haligned' := hpage'.1
      unfold framesOf at heq
      omega
    by_cases hnull : pages (requests + k) = NULL
    · exact honce ⟨k, k', hlt, hk', hnull, hsame ▸ hnull⟩
    · exact hanswers.distinct k k' hlt (by omega) hnull hsame

theorem translation_mapMemory_other (hwf : WellFormed m r)
    (hanswers : AnswersPages pages requests m r)
    (honce : ¬ RefusedTwice pages requests (missingTables m r v))
    (hother : pageNumber u ≠ pageNumber v) :
    translation (mapMemory pages (4096 * r) ⟨m, requests⟩ v p).mem (4096 * r) u =
      translation m (4096 * r) u := by
  rw [translation_eq, translation_eq, tableGraph_mapMemory v p hanswers.isPage]
  have hkeys : pageKeys u ≠ pageKeys v := fun heq => hother (pageKeys_inj.mp heq)
  have hfresh := freshSupply_of_refused_once hwf hanswers (missingTables_le m r v) honce
  rw [lookup_insertPath_other (length_pageKeys v) hwf.unique hfresh (length_pageKeys u) hkeys]

/-! ## Two refusals may do harm -/

theorem exists_spare_frame (m : ByteMemory) (pages : Nat → Nat) (requests r : Nat) :
    ∃ f < 2 ^ 40, ¬ Within (tableGraph m) r 3 f ∧ f ≠ NULL / 4096 ∧
      ∀ k < 3, framesOf pages (requests + k) ≠ f := by
  obtain ⟨nodes, hnodes, hcard⟩ := exists_finset_within (tableGraph m) r 3
  rw [Fintype.card_fin] at hcard
  have hsmall : (insert (NULL / 4096) (nodes ∪ (Finset.range 3).image fun k =>
      framesOf pages (requests + k))).card < (Finset.range (2 ^ 40)).card := by
    have hinsert := Finset.card_insert_le (NULL / 4096)
      (nodes ∪ (Finset.range 3).image fun k => framesOf pages (requests + k))
    have hunion := Finset.card_union_le nodes
      ((Finset.range 3).image fun k => framesOf pages (requests + k))
    have himage := Finset.card_image_le (s := Finset.range 3)
      (f := fun k => framesOf pages (requests + k))
    rw [Finset.card_range] at himage ⊢
    omega
  obtain ⟨f, hf, hnot⟩ := Finset.exists_mem_notMem_of_card_lt_card hsmall
  rw [Finset.mem_insert, Finset.mem_union, not_or, not_or] at hnot
  refine ⟨f, Finset.mem_range.mp hf, fun h => hnot.2.1 (hnodes f h), hnot.1, fun k hk heq => ?_⟩
  exact hnot.2.2 (Finset.mem_image.mpr ⟨k, Finset.mem_range.mpr hk, heq⟩)

theorem exists_selfLinked (m : ByteMemory) (hf : f < 2 ^ 40) :
    ∃ m', (∀ n, n ≠ f → ∀ i < 512, entry m' (4096 * n) i = entry m (4096 * n) i) ∧
      ∀ j, tableGraph m' f j = some f := by
  have hframe : frameOf (BitVec.ofNat 64 (4096 * f)) = f := by
    rw [frameOf_page (by omega) (by omega)]
    omega
  have hrun : ∀ k ≤ 512, ∃ m', (∀ n, n ≠ f → ∀ i < 512,
      entry m' (4096 * n) i = entry m (4096 * n) i) ∧
      ∀ j : Fin 512, j.val < k → tableGraph m' f j = some f := by
    intro k hk
    induction k with
    | zero => exact ⟨m, fun _ _ _ _ => rfl, fun j hj => absurd hj (Nat.not_lt_zero _)⟩
    | succ k ih =>
        obtain ⟨m', hsame, hlinked⟩ := ih (by omega)
        refine ⟨setEntry m' (4096 * f) k (mapping ⟨0⟩ (BitVec.ofNat 64 (4096 * f))), ?_, ?_⟩
        · intro n hn i hi
          rw [entry_setEntry_other (by omega), hsame n hn i hi]
        · intro j hj
          have hset := tableGraph_setEntry (m := m') (n := f) (i := (⟨k, by omega⟩ : Fin 512))
            (leadsTo_mapping ⟨0⟩ (BitVec.ofNat 64 (4096 * f))).present
          rw [toNat_getAddress_mapping, hframe] at hset
          rw [hset, link]
          split
          · rfl
          · rename_i hne
            refine hlinked j ?_
            have hjk : j.val ≠ k := fun heq => hne ⟨rfl, Fin.ext heq⟩
            omega
  obtain ⟨m', hsame, hlinked⟩ := hrun 512 (Nat.le_refl _)
  exact ⟨m', hsame, fun j => hlinked j j.isLt⟩

theorem not_survives_of_refusedTwice (hwf : WellFormed m r)
    (hanswers : AnswersPages pages requests m r)
    (htwice : RefusedTwice pages requests (missingTables m r v)) :
    ¬ Survives pages requests m r v := by
  intro hsurvives
  obtain ⟨f, hlt, hfOut, hfNull, hfAnswer⟩ := exists_spare_frame m pages requests r
  obtain ⟨m', hsame, hself⟩ := exists_selfLinked m hlt
  have htables : SameTables m m' r := by
    intro n hn i hi
    refine hsame n ?_ i hi
    rintro rfl
    exact hfOut hn
  have hwf' := htables.wellFormed hwf
  have hanswers' := htables.answersPages hanswers
  rw [← htables.missingTables_eq] at htwice
  obtain ⟨k, k', hltk, hk', hnull, hnull'⟩ := htwice
  have hcount := missingTables_le m' r v
  obtain ⟨a, b, c, d, hkeys⟩ : ∃ a b c d, pageKeys v = [a, b, c, d] := ⟨_, _, _, _, rfl⟩
  rw [missingTables, hkeys] at hk' hcount
  have hsupply : ∀ k < 3, framesOf pages (requests + k) ≠ NULL / 4096 →
      ¬ Within (tableGraph m') r 3 (framesOf pages (requests + k)) ∧
        framesOf pages (requests + k) ≠ f := by
    intro i hi hne
    refine ⟨hanswers'.unused i hi fun hnull => ?_, hfAnswer i hi⟩
    exact hne (by rw [framesOf, hnull])
  obtain ⟨j₃, j₂, j₁, j₀, hne, hbefore, hafter⟩ := exists_changed hwf'.unique hself
    (fun h => hfOut ((htables.within_iff f).mp h)) hwf'.notNull hfNull hsupply
    ⟨k, k', hltk, hk', by rw [framesOf, hnull], by rw [framesOf, hnull']⟩
  obtain ⟨u, hu⟩ := exists_pageKeys j₃ j₂ j₁ j₀
  have hother : pageNumber u ≠ pageNumber v := by
    rw [Ne, ← pageKeys_inj, hu, hkeys]
    exact hne
  have hkept := hsurvives m' htables (BitVec.ofNat 64 (4096 * f)) u hother
  rw [translation_eq, translation_eq, tableGraph_mapMemory _ _ hanswers.isPage, hu, hkeys,
    frameOf_page (by omega) (by omega), Nat.mul_div_cancel_left f (by norm_num), hbefore,
    Option.map_none, Option.map_eq_none_iff] at hkept
  exact hafter hkept

/--
Every other page keeps its translation, whatever the memory around the tables
holds and whatever is mapped, exactly if at most one of the tables needed is
refused.
-/
theorem survives_iff (hwf : WellFormed m r) (hanswers : AnswersPages pages requests m r)
    (v : BitVec 64) : Survives pages requests m r v ↔
      ¬ RefusedTwice pages requests (missingTables m r v) := by
  constructor
  · intro hsurvives htwice
    exact not_survives_of_refusedTwice hwf hanswers htwice hsurvives
  · intro honce m' htables p u hother
    rw [← htables.missingTables_eq] at honce
    exact translation_mapMemory_other (htables.wellFormed hwf) (htables.answersPages hanswers)
      honce hother

/-! ## An empty `PML4` -/

theorem tableGraph_zeroed (n : Nat) (j : Fin 512) : tableGraph (fun _ => 0) n j = none := by
  have hentry : entry (fun _ => 0) (4096 * n) j = ⟨0⟩ := by
    simp [entry, ByteMemory.load]
  rw [tableGraph, hentry, if_neg (by decide)]

theorem wellFormed_zeroed (hr : r ≠ 0) : WellFormed (fun _ => 0) r :=
  ⟨uniquePaths_of_none (tableGraph_zeroed r),
    fun h => hr (h.eq_of_none (tableGraph_zeroed r)).symm⟩

def refusedOnce (k : Nat) : Nat := if k = 1 then NULL else 0x1000 * (k + 2)

theorem answersPages_refusedOnce : AnswersPages refusedOnce 0 (fun _ => 0) 1 := by
  refine ⟨fun k _ => ?_, fun k _ hne hwithin => ?_, fun k k' hlt _ hne heq => ?_⟩
  · simp only [IsPage, refusedOnce, NULL]
    split <;> omega
  · have hroot := hwithin.eq_of_none (tableGraph_zeroed 1)
    simp only [refusedOnce, NULL] at hne hroot
    split at hroot <;> omega
  · simp only [refusedOnce, NULL] at hne heq
    split at heq <;> split at heq <;> omega

theorem survives_refusedOnce : Survives refusedOnce 0 (fun _ => 0) 1 0xdeadb000 := by
  refine (survives_iff (wellFormed_zeroed (by norm_num)) answersPages_refusedOnce _).mpr ?_
  rintro ⟨k, k', hlt, -, hnull, hnull'⟩
  simp only [refusedOnce, NULL] at hnull hnull'
  split at hnull <;> split at hnull' <;> omega

/-- No page at all: the page at address 0 is mapped when the next one should be. -/
theorem mapMemory_maps_page_zero : ¬ Survives (fun _ => NULL) 0 (fun _ => 0) 1 0x1000 := by
  intro h
  have hkept := h (fun _ => 0) (fun _ _ _ _ => rfl) 0x5000 0 (by decide)
  revert hkept
  decide +kernel

end Survives

end UnifiedOS.Paging
