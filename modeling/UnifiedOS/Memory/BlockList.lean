import UnifiedOS.Memory.Heap
import Mathlib.Data.List.Chain
import Mathlib.Algebra.BigOperators.Group.List.Basic
import Mathlib.Tactic.Linarith

/-!
# The abstract heap: a tiled interval of blocks

What the heap is for, without memory or links: an interval of addresses is
tiled by blocks, each a header followed by its payload.  Allocation carves the
first free block that is large enough, releasing a block merges it with free
neighbours, and growth appends a block at the end.  No two neighbouring blocks
are ever both free.
-/

namespace UnifiedOS.Memory

open UnifiedOS.Foundation

structure Block where
  addr : Nat
  length : Nat
  free : Bool
  deriving DecidableEq, Repr

namespace Block

def stop (b : Block) : Nat := b.addr + headerSize + b.length

def payload (b : Block) : Nat := b.addr + headerSize

def merge (b c : Block) : Block :=
  { b with length := b.length + c.length + headerSize }

end Block

/-! ## Tilings -/

/-- The blocks fill `[lo, hi)`, each beginning where the one before it stops. -/
def Tiles : Nat → Nat → List Block → Prop
  | lo, hi, [] => lo = hi
  | lo, hi, b :: bs => b.addr = lo ∧ Tiles b.stop hi bs

section Tilings

variable {lo hi : Nat} {b c : Block} {bs before after : List Block}

@[simp] theorem tiles_nil : Tiles lo hi [] ↔ lo = hi := Iff.rfl

@[simp] theorem tiles_cons :
    Tiles lo hi (b :: bs) ↔ b.addr = lo ∧ Tiles b.stop hi bs := Iff.rfl

theorem tiles_append :
    Tiles lo hi (before ++ after) ↔
      ∃ mid, Tiles lo mid before ∧ Tiles mid hi after := by
  induction before generalizing lo with
  | nil => simp
  | cons b before ih =>
      simp only [List.cons_append, tiles_cons, ih]
      constructor
      · rintro ⟨haddr, mid, hbefore, hafter⟩
        exact ⟨mid, ⟨haddr, hbefore⟩, hafter⟩
      · rintro ⟨mid, ⟨haddr, hbefore⟩, hafter⟩
        exact ⟨haddr, mid, hbefore, hafter⟩

theorem Tiles.le (h : Tiles lo hi bs) : lo ≤ hi := by
  induction bs generalizing lo with
  | nil => exact Nat.le_of_eq h
  | cons b bs ih =>
      obtain ⟨haddr, hrest⟩ := h
      have hstop := ih hrest
      simp only [Block.stop] at hstop
      omega

theorem Tiles.bounds (h : Tiles lo hi bs) (hb : b ∈ bs) :
    lo ≤ b.addr ∧ b.stop ≤ hi := by
  induction bs generalizing lo with
  | nil => contradiction
  | cons c bs ih =>
      obtain ⟨haddr, hrest⟩ := h
      rcases List.mem_cons.mp hb with rfl | hmem
      · exact ⟨Nat.le_of_eq haddr.symm, hrest.le⟩
      · have htail := ih hrest hmem
        simp only [Block.stop] at htail ⊢
        omega

theorem Tiles.eq_or_apart (h : Tiles lo hi bs) (hb : b ∈ bs) (hc : c ∈ bs) :
    b = c ∨ b.stop ≤ c.addr ∨ c.stop ≤ b.addr := by
  obtain ⟨before, after, rfl⟩ := List.append_of_mem hb
  obtain ⟨mid, hbefore, haddr, hafter⟩ := tiles_append.mp h
  rcases List.mem_append.mp hc with hmem | hmem
  · have hbound := (hbefore.bounds hmem).2
    exact Or.inr (Or.inr (haddr ▸ hbound))
  · rcases List.mem_cons.mp hmem with rfl | hmem
    · exact Or.inl rfl
    · exact Or.inr (Or.inl (hafter.bounds hmem).1)

theorem Tiles.eq_of_addr (h : Tiles lo hi bs) (hb : b ∈ bs) (hc : c ∈ bs)
    (haddr : b.addr = c.addr) : b = c := by
  rcases h.eq_or_apart hb hc with heq | hle | hle
  · exact heq
  all_goals
    simp only [Block.stop, headerSize] at hle
    omega

theorem Tiles.span (h : Tiles lo hi bs) :
    lo + (bs.map fun b => headerSize + b.length).sum = hi := by
  induction bs generalizing lo with
  | nil => simpa using h
  | cons b bs ih =>
      have htail := ih h.2
      have haddr := h.1
      simp only [Block.stop] at htail
      simp only [List.map_cons, List.sum_cons]
      omega

end Tilings

/-! ## Merging free neighbours -/

def mergeForward (b : Block) : List Block → List Block
  | [] => [b]
  | c :: rest => if c.free then b.merge c :: rest else b :: c :: rest

def attach (b : Block) (rest : List Block) : List Block :=
  if b.free then mergeForward b rest else b :: rest

def coalesce (bs : List Block) : List Block := bs.foldr attach []

def Coalesced (bs : List Block) : Prop :=
  bs.IsChain fun b c => b.free = false ∨ c.free = false

section Merging

variable {lo hi : Nat} {b c : Block} {bs rest before after : List Block}

@[simp] theorem coalesce_nil : coalesce [] = [] := rfl

@[simp] theorem coalesce_cons : coalesce (b :: bs) = attach b (coalesce bs) := rfl

theorem coalesce_append :
    coalesce (before ++ after) = before.foldr attach (coalesce after) :=
  List.foldr_append

theorem Coalesced.tail (h : Coalesced (b :: bs)) : Coalesced bs :=
  List.IsChain.tail h

theorem coalesced_cons_cons :
    Coalesced (b :: c :: bs) ↔
      (b.free = false ∨ c.free = false) ∧ Coalesced (c :: bs) :=
  List.isChain_cons_cons

theorem Coalesced.replace_head (h : Coalesced (c :: bs)) (hfree : c.free = b.free) :
    Coalesced (b :: bs) := by
  cases bs with
  | nil => exact List.isChain_singleton b
  | cons d bs =>
      rw [coalesced_cons_cons] at h ⊢
      rwa [← hfree]

theorem coalesced_attach (h : Coalesced rest) : Coalesced (attach b rest) := by
  unfold attach
  split
  · cases rest with
    | nil => exact List.isChain_singleton b
    | cons c rest =>
        simp only [mergeForward]
        split
        · rename_i hb hc
          exact h.replace_head (by simp [Block.merge, hb, hc])
        · rename_i hb hc
          exact coalesced_cons_cons.mpr ⟨Or.inr (by simpa using hc), h⟩
  · rename_i hb
    cases rest with
    | nil => exact List.isChain_singleton b
    | cons c rest => exact coalesced_cons_cons.mpr ⟨Or.inl (by simpa using hb), h⟩

theorem coalesced_coalesce (bs : List Block) : Coalesced (coalesce bs) := by
  induction bs with
  | nil => exact List.isChain_nil
  | cons b bs ih => exact coalesced_attach ih

theorem attach_of_coalesced (h : Coalesced (b :: bs)) : attach b bs = b :: bs := by
  unfold attach
  split
  · rename_i hb
    cases bs with
    | nil => rfl
    | cons c bs =>
        have hc := (coalesced_cons_cons.mp h).1.resolve_left (by simp [hb])
        simp [mergeForward, hc]
  · rfl

theorem coalesce_of_coalesced (h : Coalesced bs) : coalesce bs = bs := by
  induction bs with
  | nil => rfl
  | cons b bs ih =>
      rw [coalesce_cons, ih h.tail, attach_of_coalesced h]

theorem foldr_attach_of_coalesced (h : Coalesced (before ++ [b]))
    (hfree : b.free = c.free) :
    before.foldr attach (c :: rest) = before ++ c :: rest := by
  induction before with
  | nil => rfl
  | cons a before ih =>
      rw [List.cons_append] at h
      rw [List.foldr_cons, ih h.tail]
      unfold attach
      split
      · rename_i ha
        cases before with
        | nil =>
            have hb := (coalesced_cons_cons.mp h).1.resolve_left (by simp [ha])
            simp [mergeForward, ← hfree, hb]
        | cons d before =>
            have hd := (coalesced_cons_cons.mp h).1.resolve_left (by simp [ha])
            simp [mergeForward, hd]
      · rfl

theorem tiles_attach (h : Tiles lo hi (b :: rest)) : Tiles lo hi (attach b rest) := by
  unfold attach
  split
  · cases rest with
    | nil => exact h
    | cons c rest =>
        simp only [mergeForward]
        split
        · obtain ⟨hb, hc, hrest⟩ := h
          refine ⟨hb, ?_⟩
          have hstop : (b.merge c).stop = c.stop := by
            simp only [Block.stop, Block.merge] at hc ⊢
            omega
          rwa [hstop]
        · exact h
  · exact h

theorem tiles_coalesce (h : Tiles lo hi bs) : Tiles lo hi (coalesce bs) := by
  induction bs generalizing lo with
  | nil => exact h
  | cons b bs ih => exact tiles_attach ⟨h.1, ih h.2⟩

theorem mem_attach_used :
    c ∈ attach b rest ∧ c.free = false ↔ c ∈ b :: rest ∧ c.free = false := by
  unfold attach
  split
  · rename_i hb
    cases rest with
    | nil => simp [mergeForward]
    | cons d rest =>
        simp only [mergeForward]
        split
        · rename_i hd
          have hmerge : (b.merge d).free = true := by simp [Block.merge, hb]
          simp only [List.mem_cons]
          constructor
          · rintro ⟨rfl | hmem, hfree⟩
            · simp [hmerge] at hfree
            · exact ⟨Or.inr (Or.inr hmem), hfree⟩
          · rintro ⟨rfl | rfl | hmem, hfree⟩
            · simp [hb] at hfree
            · simp [hd] at hfree
            · exact ⟨Or.inr hmem, hfree⟩
        · rfl
  · rfl

theorem mem_coalesce_used :
    c ∈ coalesce bs ∧ c.free = false ↔ c ∈ bs ∧ c.free = false := by
  induction bs with
  | nil => simp
  | cons b bs ih =>
      rw [coalesce_cons, mem_attach_used]
      simp only [List.mem_cons, or_and_right, ih]

theorem dvd_length_attach (h : ∀ d ∈ b :: rest, 16 ∣ d.length) :
    ∀ d ∈ attach b rest, 16 ∣ d.length := by
  unfold attach
  split
  · cases rest with
    | nil => exact h
    | cons c rest =>
        simp only [mergeForward]
        split
        · have hb := h b (by simp)
          have hc := h c (by simp)
          intro d hd
          rcases List.mem_cons.mp hd with rfl | hmem
          · simp only [Block.merge, headerSize]
            omega
          · exact h d (by simp [hmem])
        · exact h
  · exact h

theorem dvd_length_coalesce (h : ∀ b ∈ bs, 16 ∣ b.length) :
    ∀ b ∈ coalesce bs, 16 ∣ b.length := by
  induction bs with
  | nil => simp
  | cons b bs ih =>
      apply dvd_length_attach
      intro d hd
      rcases List.mem_cons.mp hd with rfl | hmem
      · exact h d (by simp)
      · exact ih (fun c hc => h c (by simp [hc])) d hmem

theorem coalesce_ne_nil (h : bs ≠ []) : coalesce bs ≠ [] := by
  cases bs with
  | nil => contradiction
  | cons b bs =>
      rw [coalesce_cons, attach]
      split
      · cases coalesce bs with
        | nil => simp [mergeForward]
        | cons c rest =>
            simp only [mergeForward]
            split <;> simp
      · simp

end Merging

/-! ## Allocating, releasing and growing -/

/-- The rest of the block is worth a block of its own. -/
def Splits (size : Nat) (b : Block) : Prop :=
  size + headerSize + 0x10 ≤ b.length ∧ b.length < 2 ^ 63 + size + headerSize

instance (size : Nat) (b : Block) : Decidable (Splits size b) :=
  inferInstanceAs (Decidable (_ ∧ _))

def carve (size : Nat) (b : Block) : List Block :=
  if Splits size b then
    [⟨b.addr, size, false⟩,
      ⟨b.addr + size + headerSize, b.length - size - headerSize, true⟩]
  else [{ b with free := false }]

/-- First fit: the payload address handed out, and the blocks left. -/
def allocate (size : Nat) : List Block → Option (Nat × List Block)
  | [] => none
  | b :: bs =>
      if b.free ∧ size ≤ b.length then some (b.payload, carve size b ++ bs)
      else (allocate size bs).map fun found => (found.1, b :: found.2)

def release (p : Nat) (bs : List Block) : List Block :=
  coalesce (bs.map fun b => if b.payload = p then { b with free := true } else b)

def grow (bs : List Block) (c : Block) : List Block := coalesce (bs ++ [c])

structure WellFormed (lo hi : Nat) (bs : List Block) : Prop where
  tiles : Tiles lo hi bs
  coalesced : Coalesced bs
  granular : ∀ b ∈ bs, 16 ∣ b.length
  nonempty : bs ≠ []

theorem WellFormed.exists_last {lo hi : Nat} {bs : List Block} (h : WellFormed lo hi bs) :
    ∃ init z, bs = init ++ [z] := by
  rcases List.eq_nil_or_concat bs with hnil | ⟨init, z, hconcat⟩
  · exact absurd hnil h.nonempty
  · exact ⟨init, z, by rw [hconcat, List.concat_eq_append]⟩

section Operations

variable {lo hi size p : Nat} {b c : Block} {bs bs' : List Block}

theorem allocate_eq_some (h : allocate size bs = some (p, bs')) :
    ∃ before b after, bs = before ++ b :: after ∧ b.free = true ∧
      size ≤ b.length ∧ (∀ c ∈ before, ¬ (c.free ∧ size ≤ c.length)) ∧
      p = b.payload ∧ bs' = before ++ (carve size b ++ after) := by
  induction bs generalizing bs' with
  | nil => simp [allocate] at h
  | cons b bs ih =>
      simp only [allocate] at h
      split at h
      · rename_i hfit
        obtain ⟨rfl, rfl⟩ := Prod.mk.inj (Option.some.inj h)
        exact ⟨[], b, bs, rfl, hfit.1, hfit.2, by simp, rfl, rfl⟩
      · rename_i hfit
        obtain ⟨found, hfound, heq⟩ := Option.map_eq_some_iff.mp h
        obtain ⟨rfl, rfl⟩ := Prod.mk.inj heq
        obtain ⟨before, d, after, rfl, hfree, hsize, hskip, hp, hrest⟩ := ih hfound
        refine ⟨b :: before, d, after, rfl, hfree, hsize, ?_, hp, ?_⟩
        · intro c hc
          rcases List.mem_cons.mp hc with rfl | hmem
          · exact hfit
          · exact hskip c hmem
        · rw [hrest, List.cons_append]

theorem allocate_eq_none :
    allocate size bs = none ↔ ∀ b ∈ bs, ¬ (b.free = true ∧ size ≤ b.length) := by
  induction bs with
  | nil => simp [allocate]
  | cons b bs ih =>
      rw [allocate, List.forall_mem_cons]
      by_cases hfit : b.free = true ∧ size ≤ b.length
      · simp [hfit]
      · rw [if_neg hfit, Option.map_eq_none_iff, ih]
        exact (and_iff_right hfit).symm

theorem allocate_append (h : allocate size bs = none) (rest : List Block) :
    allocate size (bs ++ rest) =
      (allocate size rest).map fun found => (found.1, bs ++ found.2) := by
  induction bs with
  | nil => simp
  | cons b bs ih =>
      have hfit := allocate_eq_none.mp h b List.mem_cons_self
      rw [allocate, if_neg hfit, Option.map_eq_none_iff] at h
      rw [List.cons_append, allocate, if_neg hfit, ih h, Option.map_map]
      rfl

theorem tiles_carve : Tiles b.addr b.stop (carve size b) := by
  unfold carve
  split
  · rename_i hsplit
    have hfits := hsplit.1
    refine ⟨rfl, ?_, ?_⟩
    all_goals
      simp only [tiles_nil, Block.stop, headerSize] at hfits ⊢
      omega
  · exact ⟨rfl, rfl⟩

theorem coalesced_used_cons (hb : b.free = false) :
    Coalesced (b :: bs) ↔ Coalesced bs := by
  cases bs with
  | nil => simp [Coalesced]
  | cons c bs => simp [coalesced_cons_cons, hb]

theorem coalesced_carve (h : Coalesced (b :: bs)) (hb : b.free = true) :
    Coalesced (carve size b ++ bs) := by
  unfold carve
  split
  · exact (coalesced_used_cons rfl).mpr (h.replace_head hb)
  · exact (coalesced_used_cons rfl).mpr h.tail

theorem coalesced_append_carve {before after : List Block}
    (h : Coalesced (before ++ b :: after)) (hb : b.free = true) :
    Coalesced (before ++ (carve size b ++ after)) := by
  induction before with
  | nil => exact coalesced_carve h hb
  | cons a before ih =>
      rw [List.cons_append] at h ⊢
      have htail := ih h.tail
      cases before with
      | nil =>
          have ha := (coalesced_cons_cons.mp h).1.resolve_right (by simp [hb])
          exact (coalesced_used_cons ha).mpr htail
      | cons d before =>
          exact coalesced_cons_cons.mpr ⟨(coalesced_cons_cons.mp h).1, htail⟩

theorem dvd_length_carve (hsize : 16 ∣ size) (hb : 16 ∣ b.length) :
    ∀ c ∈ carve size b, 16 ∣ c.length := by
  unfold carve
  split
  · simp only [List.mem_cons, List.not_mem_nil, or_false]
    rintro c (rfl | rfl)
    · exact hsize
    · simp only [headerSize]
      omega
  · simpa using hb

theorem allocate_wellFormed (h : WellFormed lo hi bs) (hsize : 16 ∣ size)
    (ha : allocate size bs = some (p, bs')) : WellFormed lo hi bs' := by
  obtain ⟨before, b, after, rfl, hfree, hfits, -, rfl, rfl⟩ := allocate_eq_some ha
  obtain ⟨mid, hbefore, hb, hafter⟩ := tiles_append.mp h.tiles
  constructor
  · exact tiles_append.mpr ⟨mid, hbefore,
      tiles_append.mpr ⟨b.stop, hb ▸ tiles_carve, hafter⟩⟩
  · exact coalesced_append_carve h.coalesced hfree
  · intro c hc
    rcases List.mem_append.mp hc with hmem | hmem
    · exact h.granular c (by simp [hmem])
    · rcases List.mem_append.mp hmem with hcarved | hmem
      · exact dvd_length_carve hsize (h.granular b (by simp)) c hcarved
      · exact h.granular c (by simp [hmem])
  · unfold carve
    split <;> simp

theorem tiles_markFree (h : Tiles lo hi bs) :
    Tiles lo hi
      (bs.map fun b => if b.payload = p then { b with free := true } else b) := by
  induction bs generalizing lo with
  | nil => exact h
  | cons b bs ih =>
      rw [List.map_cons]
      split
      · exact ⟨h.1, ih h.2⟩
      · exact ⟨h.1, ih h.2⟩

theorem markFree_of_absent (h : ∀ c ∈ bs, c.payload ≠ p) :
    bs.map (fun c => if c.payload = p then { c with free := true } else c) = bs := by
  conv_rhs => rw [← List.map_id bs]
  exact List.map_congr_left fun c hc => if_neg (h c hc)

theorem release_wellFormed (h : WellFormed lo hi bs) :
    WellFormed lo hi (release p bs) := by
  constructor
  · exact tiles_coalesce (tiles_markFree h.tiles)
  · exact coalesced_coalesce _
  · apply dvd_length_coalesce
    intro b hb
    obtain ⟨c, hc, rfl⟩ := List.mem_map.mp hb
    split <;> exact h.granular c hc
  · exact coalesce_ne_nil (by simpa using h.nonempty)

theorem grow_wellFormed (h : WellFormed lo hi bs) (hc : c.addr = hi)
    (hlength : 16 ∣ c.length) : WellFormed lo c.stop (grow bs c) := by
  constructor
  · exact tiles_coalesce (tiles_append.mpr ⟨hi, h.tiles, hc, rfl⟩)
  · exact coalesced_coalesce _
  · apply dvd_length_coalesce
    intro b hb
    rcases List.mem_append.mp hb with hmem | hmem
    · exact h.granular b hmem
    · rw [List.mem_singleton.mp hmem]
      exact hlength
  · exact coalesce_ne_nil (by simp)

theorem mem_release_used :
    c ∈ release p bs ∧ c.free = false ↔
      c ∈ bs ∧ c.free = false ∧ c.payload ≠ p := by
  rw [release, mem_coalesce_used, List.mem_map]
  constructor
  · rintro ⟨⟨b, hb, rfl⟩, hfree⟩
    split at hfree
    · contradiction
    · rename_i hp
      rw [if_neg hp]
      exact ⟨hb, hfree, hp⟩
  · rintro ⟨hc, hfree, hp⟩
    exact ⟨⟨c, hc, by rw [if_neg hp]⟩, hfree⟩

theorem grow_used {init : List Block} {z : Block} (h : Coalesced (init ++ [z]))
    (hz : z.free = false) : grow (init ++ [z]) c = init ++ [z, c] := by
  have hlast : coalesce [z, c] = [z, c] := by
    simp [attach, mergeForward, hz]
  rw [grow, List.append_assoc, coalesce_append, List.singleton_append, hlast]
  exact foldr_attach_of_coalesced h rfl

theorem grow_free {init : List Block} {z : Block} (h : Coalesced (init ++ [z]))
    (hz : z.free = true) (hc : c.free = true) :
    grow (init ++ [z]) c = init ++ [z.merge c] := by
  have hlast : coalesce [z, c] = [z.merge c] := by
    simp [attach, mergeForward, hz, hc]
  rw [grow, List.append_assoc, coalesce_append, List.singleton_append, hlast]
  exact foldr_attach_of_coalesced h rfl

theorem mem_grow_used (hfree : c.free = true) :
    b ∈ grow bs c ∧ b.free = false ↔ b ∈ bs ∧ b.free = false := by
  rw [grow, mem_coalesce_used, List.mem_append, List.mem_singleton]
  constructor
  · rintro ⟨hb | rfl, hused⟩
    · exact ⟨hb, hused⟩
    · simp [hfree] at hused
  · rintro ⟨hb, hused⟩
    exact ⟨Or.inl hb, hused⟩

theorem mem_allocate_used (h : WellFormed lo hi bs)
    (ha : allocate size bs = some (p, bs')) :
    ∃ d, d ∈ bs' ∧ d.free = false ∧ d.payload = p ∧ size ≤ d.length ∧
      (∀ b ∈ bs, b.free = false → b.payload ≠ p) ∧
      ∀ c, c ∈ bs' ∧ c.free = false ↔ c = d ∨ c ∈ bs ∧ c.free = false := by
  have htiles := h.tiles
  obtain ⟨before, b, after, rfl, hfree, hfits, -, rfl, rfl⟩ := allocate_eq_some ha
  have hunique : ∀ c ∈ before ++ b :: after, c.free = false →
      c.payload ≠ b.payload := by
    intro c hc hused hpayload
    have hcb := htiles.eq_of_addr hc (by simp)
      (Nat.add_right_cancel hpayload)
    rw [hcb, hfree] at hused
    contradiction
  obtain ⟨d, hd, hdfree, hpayload, hlength, hcarve⟩ : ∃ d, d ∈ carve size b ∧
      d.free = false ∧ d.payload = b.payload ∧ size ≤ d.length ∧
      ∀ c ∈ carve size b, c.free = false ↔ c = d := by
    unfold carve
    split
    · refine ⟨_, List.mem_cons_self, rfl, rfl, Nat.le_refl _, ?_⟩
      intro c hc
      simp only [List.mem_cons, List.not_mem_nil, or_false] at hc
      rcases hc with rfl | rfl <;> simp
    · refine ⟨_, List.mem_cons_self, rfl, rfl, hfits, ?_⟩
      intro c hc
      simp only [List.mem_singleton] at hc
      simp [hc]
  refine ⟨d, by simp [hd], hdfree, hpayload, hlength, hunique, ?_⟩
  intro c
  simp only [List.mem_append, List.mem_cons]
  constructor
  · rintro ⟨hmem | hmem | hmem, hused⟩
    · exact Or.inr ⟨Or.inl hmem, hused⟩
    · exact Or.inl ((hcarve c hmem).mp hused)
    · exact Or.inr ⟨Or.inr (Or.inr hmem), hused⟩
  · rintro (rfl | ⟨hmem | rfl | hmem, hused⟩)
    · exact ⟨Or.inr (Or.inl hd), hdfree⟩
    · exact ⟨Or.inl hmem, hused⟩
    · rw [hfree] at hused
      contradiction
    · exact ⟨Or.inr (Or.inr hmem), hused⟩

theorem coalesce_carve {after : List Block} (h : Coalesced (b :: after))
    (hb : b.free = true) :
    coalesce ((carve size b).map (fun c =>
      if c.payload = b.payload then { c with free := true } else c) ++ after) =
      b :: after := by
  have hafter : coalesce after = after := coalesce_of_coalesced h.tail
  have hsame : { b with free := true } = b := by rw [← hb]
  unfold carve
  split
  · rename_i hsplit
    have hlower : Block.payload ⟨b.addr, size, false⟩ = b.payload := rfl
    have hupper : Block.payload
        ⟨b.addr + size + headerSize, b.length - size - headerSize, true⟩ ≠ b.payload := by
      simp only [Block.payload, headerSize]
      omega
    have hmerge : Block.merge ⟨b.addr, size, true⟩
        ⟨b.addr + size + headerSize, b.length - size - headerSize, true⟩ = b := by
      have hfits := hsplit.1
      have hlength : size + (b.length - size - headerSize) + headerSize = b.length := by
        omega
      rw [Block.merge, hlength]
      exact hsame
    have hrest : Coalesced
        (⟨b.addr + size + headerSize, b.length - size - headerSize, true⟩ :: after) :=
      h.replace_head hb
    rw [List.map_cons, List.map_cons, List.map_nil, if_pos hlower, if_neg hupper,
      List.cons_append, List.cons_append, List.nil_append, coalesce_cons, coalesce_cons,
      hafter, attach_of_coalesced hrest]
    simp [attach, mergeForward, hmerge]
  · have hpayload : Block.payload { b with free := false } = b.payload := rfl
    rw [List.map_cons, List.map_nil, if_pos hpayload, List.cons_append, List.nil_append,
      coalesce_cons, hafter, hsame]
    exact attach_of_coalesced h

theorem release_allocate (h : WellFormed lo hi bs)
    (ha : allocate size bs = some (p, bs')) : release p bs' = bs := by
  have htiles := h.tiles
  have hcoalesced := h.coalesced
  obtain ⟨before, b, after, rfl, hfree, -, -, rfl, rfl⟩ := allocate_eq_some ha
  obtain ⟨mid, hbefore, hb, hafter⟩ := tiles_append.mp htiles
  have hbeforeOther : ∀ c ∈ before, c.payload ≠ b.payload := by
    intro c hc hpayload
    have hstop := (hbefore.bounds hc).2
    simp only [Block.stop, Block.payload, headerSize] at hstop hpayload
    omega
  have hafterOther : ∀ c ∈ after, c.payload ≠ b.payload := by
    intro c hc hpayload
    have hstart := (hafter.bounds hc).1
    simp only [Block.stop, Block.payload, headerSize] at hstart hpayload
    omega
  rw [release, List.map_append, List.map_append, markFree_of_absent hbeforeOther,
    markFree_of_absent hafterOther, coalesce_append,
    coalesce_carve hcoalesced.right_of_append hfree]
  have hkept := coalesce_of_coalesced hcoalesced
  rwa [coalesce_append, coalesce_of_coalesced hcoalesced.right_of_append] at hkept

theorem WellFormed.eq_singleton (h : WellFormed lo hi bs)
    (hfree : ∀ b ∈ bs, b.free = true) :
    bs = [⟨lo, hi - lo - headerSize, true⟩] := by
  cases bs with
  | nil => exact absurd rfl h.nonempty
  | cons b bs =>
      cases bs with
      | nil =>
          have hb := hfree b (by simp)
          obtain ⟨haddr, hstop⟩ := h.tiles
          rw [tiles_nil, Block.stop] at hstop
          have hlength : b.length = hi - lo - headerSize := by omega
          rw [← haddr, ← hb, haddr, ← hlength, ← haddr]
      | cons c bs =>
          have hb := hfree b (by simp)
          have hc := hfree c (by simp)
          have hpair := (coalesced_cons_cons.mp h.coalesced).1
          simp [hb, hc] at hpair

end Operations

end UnifiedOS.Memory
