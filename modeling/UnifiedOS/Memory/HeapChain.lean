import UnifiedOS.Foundation.LinkedSegment
import UnifiedOS.Memory.BlockList

/-!
# The block chain in memory

`Represents s bs` says that the headers in the memory of `s`, followed from
`heapStart` by `Next`, are the blocks `bs` with correct back links.  Each heap
function is shown to do to the represented list what the abstract operation
does to it.
-/

namespace UnifiedOS.Memory

open UnifiedOS.Foundation
open HeapBlockHeader

/-! ## One header -/

structure HeaderFields where
  length : Nat
  next : Nat
  prev : Nat
  free : Bool
  deriving DecidableEq

def readHeader (m : ByteMemory) (h : Nat) : HeaderFields :=
  ⟨length m h, next m h, prev m h, free m h⟩

def Apart (h h' : Nat) : Prop := h + headerSize ≤ h' ∨ h' + headerSize ≤ h

section Header

variable {m m' : ByteMemory} {h h' value : Nat} {b : Bool}

theorem Apart.symm (hapart : Apart h h') : Apart h' h := Or.symm hapart

theorem readHeader_congr (hsame : ∀ x, h ≤ x → x < h + headerSize → m x = m' x) :
    readHeader m h = readHeader m' h := by
  have hload : ∀ offset n, offset + n ≤ headerSize →
      m.load (h + offset) n = m'.load (h + offset) n := by
    intro offset n hfits
    exact ByteMemory.load_congr fun x hlo hhi => hsame x (by omega) (by omega)
  have hlength : m.load h 8 = m'.load h 8 := hload 0 8 (by decide)
  have hfree : m (h + 24) = m' (h + 24) :=
    hsame _ (by omega) (by simp only [headerSize]; omega)
  simp only [readHeader, length, next, prev, free, hlength, hfree,
    hload 8 8 (by decide), hload 16 8 (by decide)]

theorem readHeader_store_apart {addr n : Nat}
    (hlo : addr + n ≤ h ∨ h + headerSize ≤ addr) :
    readHeader (m.store addr n value) h = readHeader m h :=
  readHeader_congr fun x _ _ => m.store_outside (by omega)

theorem readHeader_setLength_apart (m : ByteMemory) (value : Nat)
    (hapart : Apart h h') :
    readHeader (setLength m h value) h' = readHeader m h' := by
  apply readHeader_store_apart
  simp only [Apart, headerSize] at hapart ⊢
  omega

theorem readHeader_setNext_apart (m : ByteMemory) (value : Nat)
    (hapart : Apart h h') :
    readHeader (setNext m h value) h' = readHeader m h' := by
  apply readHeader_store_apart
  simp only [Apart, headerSize] at hapart ⊢
  omega

theorem readHeader_setPrev_apart (m : ByteMemory) (value : Nat)
    (hapart : Apart h h') :
    readHeader (setPrev m h value) h' = readHeader m h' := by
  apply readHeader_store_apart
  simp only [Apart, headerSize] at hapart ⊢
  omega

theorem readHeader_setFree_apart (m : ByteMemory) (b : Bool)
    (hapart : Apart h h') :
    readHeader (setFree m h b) h' = readHeader m h' := by
  apply readHeader_store_apart
  simp only [Apart, headerSize] at hapart ⊢
  omega

private theorem load_store_own (addr : Nat) (hvalue : value < 2 ^ 64) :
    (m.store addr 8 value).load addr 8 = value := by
  rw [m.load_store_same]
  exact Nat.mod_eq_of_lt (by simpa using hvalue)

theorem readHeader_setLength (hvalue : value < 2 ^ 64) :
    readHeader (setLength m h value) h = { readHeader m h with length := value } := by
  simp only [readHeader, length, next, prev, free, setLength,
    HeaderFields.mk.injEq]
  refine ⟨load_store_own h hvalue, ?_, ?_, ?_⟩
  · exact m.load_store_disjoint (by omega)
  · exact m.load_store_disjoint (by omega)
  · rw [m.store_outside (by omega)]

theorem readHeader_setNext (hvalue : value < 2 ^ 64) :
    readHeader (setNext m h value) h = { readHeader m h with next := value } := by
  simp only [readHeader, length, next, prev, free, setNext,
    HeaderFields.mk.injEq]
  refine ⟨?_, load_store_own _ hvalue, ?_, ?_⟩
  · exact m.load_store_disjoint (by omega)
  · exact m.load_store_disjoint (by omega)
  · rw [m.store_outside (by omega)]

theorem readHeader_setPrev (hvalue : value < 2 ^ 64) :
    readHeader (setPrev m h value) h = { readHeader m h with prev := value } := by
  simp only [readHeader, length, next, prev, free, setPrev,
    HeaderFields.mk.injEq]
  refine ⟨?_, ?_, load_store_own _ hvalue, ?_⟩
  · exact m.load_store_disjoint (by omega)
  · exact m.load_store_disjoint (by omega)
  · rw [m.store_outside (by omega)]

theorem readHeader_setFree :
    readHeader (setFree m h b) h = { readHeader m h with free := b } := by
  simp only [readHeader, length, next, prev, free, setFree,
    HeaderFields.mk.injEq]
  refine ⟨?_, ?_, ?_, ?_⟩
  · exact m.load_store_disjoint (by omega)
  · exact m.load_store_disjoint (by omega)
  · exact m.load_store_disjoint (by omega)
  · cases b <;> simp [ByteMemory.store]

end Header

/-! ## The chain of headers -/

def Stored (m : ByteMemory) (b : Block) (prev next : Nat) : Prop :=
  readHeader m b.addr = ⟨b.length, next, prev, b.free⟩

/-- Addresses where headers fit side by side, in ascending order. -/
structure Placed (addrs : List Nat) : Prop where
  apart : addrs.Pairwise fun x y => x + headerSize ≤ y
  positive : ∀ x ∈ addrs, nullptr < x
  bounded : ∀ x ∈ addrs, x < 2 ^ 64

theorem Placed.sublist {xs ys : List Nat} (h : Placed ys) (hsub : xs.Sublist ys) :
    Placed xs :=
  ⟨h.apart.sublist hsub, fun x hx => h.positive x (hsub.subset hx),
    fun x hx => h.bounded x (hsub.subset hx)⟩

theorem Placed.insert {xs ys : List Nat} {x new : Nat} (h : Placed (xs ++ x :: ys))
    (hlow : x + headerSize ≤ new) (hhigh : ∀ y ∈ ys, new + headerSize ≤ y)
    (hnew : new < 2 ^ 64) : Placed (xs ++ x :: new :: ys) := by
  have hpairs := h.apart
  rw [List.pairwise_append, List.pairwise_cons] at hpairs
  obtain ⟨hxs, ⟨hx, hys⟩, hcross⟩ := hpairs
  have hmem : ∀ z ∈ xs ++ x :: new :: ys, z = new ∨ z ∈ xs ++ x :: ys := by
    intro z hz
    simp only [List.mem_append, List.mem_cons] at hz ⊢
    tauto
  constructor
  · rw [List.pairwise_append, List.pairwise_cons, List.pairwise_cons]
    refine ⟨hxs, ⟨?_, hhigh, hys⟩, ?_⟩
    · intro y hy
      rcases List.mem_cons.mp hy with rfl | hmem
      · exact hlow
      · exact hx y hmem
    · intro z hz y hy
      have hzx := hcross z hz x List.mem_cons_self
      simp only [List.mem_cons] at hy
      rcases hy with rfl | rfl | hmem
      · exact hzx
      · omega
      · exact hcross z hz y (List.mem_cons_of_mem _ hmem)
  · intro z hz
    rcases hmem z hz with rfl | hold
    · simp only [nullptr, headerSize] at hlow ⊢
      omega
    · exact h.positive z hold
  · intro z hz
    rcases hmem z hz with rfl | hold
    · exact hnew
    · exact h.bounded z hold

/-- The chain from `heapStart` is `bs`, doubly linked and ending at `lastHdr`. -/
structure Represents (s : Heap) (bs : List Block) : Prop where
  linked : LinkedSegment Block.addr (Stored s.mem) nullptr nullptr bs
  start : LinkedSegment.first Block.addr nullptr bs = s.heapStart
  last : LinkedSegment.last Block.addr nullptr bs = s.lastHdr
  placed : Placed (bs.map Block.addr)

section Chain

variable {s : Heap} {m m' : ByteMemory} {b c : Block} {p n value : Nat}
  {bs before after : List Block}

theorem Stored.fields (h : Stored m b p n) :
    length m b.addr = b.length ∧ next m b.addr = n ∧ prev m b.addr = p ∧
      free m b.addr = b.free := by
  rw [Stored, readHeader, HeaderFields.mk.injEq] at h
  exact h

theorem Stored.length (h : Stored m b p n) : length m b.addr = b.length := h.fields.1

theorem Stored.next (h : Stored m b p n) : next m b.addr = n := h.fields.2.1

theorem Stored.prev (h : Stored m b p n) : prev m b.addr = p := h.fields.2.2.1

theorem Stored.free (h : Stored m b p n) : free m b.addr = b.free := h.fields.2.2.2

theorem Stored.of_eq (h : Stored m b p n)
    (heq : readHeader m' b.addr = readHeader m b.addr) : Stored m' b p n :=
  heq.trans h

theorem last_mem_addr (hne : bs ≠ []) :
    ∃ b ∈ bs, LinkedSegment.last Block.addr p bs = b.addr := by
  induction bs generalizing p with
  | nil => contradiction
  | cons b bs ih =>
      cases bs with
      | nil => exact ⟨b, List.mem_cons_self, rfl⟩
      | cons c bs =>
          obtain ⟨d, hd, heq⟩ := ih (p := b.addr) (by simp)
          exact ⟨d, List.mem_cons_of_mem _ hd, heq⟩

theorem Represents.split (h : Represents s (before ++ b :: after)) :
    LinkedSegment Block.addr (Stored s.mem) nullptr b.addr before ∧
      Stored s.mem b (LinkedSegment.last Block.addr nullptr before)
        (LinkedSegment.first Block.addr nullptr after) ∧
      LinkedSegment Block.addr (Stored s.mem) b.addr nullptr after := by
  have hsplit := LinkedSegment.append.mp h.linked
  exact ⟨hsplit.1, hsplit.2.1, hsplit.2.2⟩

theorem Represents.positive (h : Represents s bs) (hb : b ∈ bs) :
    nullptr < b.addr :=
  h.placed.positive _ (List.mem_map_of_mem hb)

theorem Represents.bounded (h : Represents s bs) (hb : b ∈ bs) :
    b.addr < 2 ^ 64 :=
  h.placed.bounded _ (List.mem_map_of_mem hb)

theorem apart_of_placed (h : Placed ((before ++ after).map Block.addr))
    (hb : b ∈ before) (hc : c ∈ after) : Apart b.addr c.addr := by
  rw [List.map_append] at h
  exact Or.inl ((List.pairwise_append.mp h.apart).2.2 _ (List.mem_map_of_mem hb)
    _ (List.mem_map_of_mem hc))

theorem Represents.apart_before (h : Represents s (before ++ b :: after))
    (hc : c ∈ before) : Apart b.addr c.addr :=
  (apart_of_placed h.placed hc List.mem_cons_self).symm

theorem Represents.apart_after (h : Represents s (before ++ b :: after))
    (hc : c ∈ after) : Apart b.addr c.addr := by
  have hplaced : Placed (((before ++ [b]) ++ after).map Block.addr) := by
    simpa using h.placed
  exact apart_of_placed hplaced (by simp) hc

theorem Represents.first_lt (h : Represents s (before ++ after)) :
    LinkedSegment.first Block.addr nullptr after < 2 ^ 64 := by
  cases after with
  | nil => simp [nullptr]
  | cons d rest => exact h.bounded (by simp)

theorem Represents.last_ne (h : Represents s (before ++ b :: c :: after)) :
    s.lastHdr ≠ b.addr := by
  obtain ⟨e, he, hlast⟩ : ∃ e ∈ c :: after,
      LinkedSegment.last Block.addr b.addr (c :: after) = e.addr := last_mem_addr (by simp)
  have hapart : Apart b.addr e.addr := h.apart_after he
  rw [← h.last, LinkedSegment.last_append, LinkedSegment.last_cons, hlast]
  simp only [Apart, headerSize] at hapart
  omega

theorem linked_replace (mid : List Block) (q' : Nat) {q : Nat}
    (hbefore : LinkedSegment Block.addr (Stored m) nullptr b.addr before)
    (hafter : LinkedSegment Block.addr (Stored m) q nullptr after)
    (hmid : LinkedSegment Block.addr (Stored m')
      (LinkedSegment.last Block.addr nullptr before)
      (LinkedSegment.first Block.addr nullptr after) mid)
    (hfirst : ∀ n, LinkedSegment.first Block.addr n mid = b.addr)
    (hlast : ∀ p, LinkedSegment.last Block.addr p mid = q')
    (hkeepBefore : ∀ e ∈ before, readHeader m' e.addr = readHeader m e.addr)
    (hrelink : ∀ d rest, after = d :: rest →
      readHeader m' d.addr = { readHeader m d.addr with prev := q' })
    (hkeepAfter : ∀ e ∈ after.tail, readHeader m' e.addr = readHeader m e.addr) :
    LinkedSegment Block.addr (Stored m') nullptr nullptr
      (before ++ (mid ++ after)) := by
  rw [LinkedSegment.append, LinkedSegment.append, LinkedSegment.first_append,
    hfirst, hlast]
  refine ⟨hbefore.imp fun e he p n hold => hold.of_eq (hkeepBefore e he), hmid, ?_⟩
  apply hafter.relink_first
  · intro d rest n heq hold
    unfold Stored at hold ⊢
    rw [hrelink d rest heq, hold]
  · exact fun e he p n hold => hold.of_eq (hkeepAfter e he)

end Chain

/-! ## Merging in memory -/

def Block.absorb (b c : Block) : Block :=
  { b with length := wrap64 (b.length + c.length + headerSize) }

theorem Block.absorb_eq_merge {b c : Block} (h : c.stop < 2 ^ 64)
    (hnext : c.addr = b.stop) : b.absorb c = b.merge c := by
  have hlength : b.length + c.length + headerSize < 2 ^ 64 := by
    simp only [Block.stop] at h hnext
    omega
  rw [Block.absorb, Block.merge, wrap64_of_lt hlength]

section Merging

variable {s : Heap} {b c : Block} {before after : List Block}

theorem combineForward_used
    (h : Represents s (before ++ b :: after))
    (hafter : ∀ c rest, after = c :: rest → c.free = false) :
    s.combineForward b.addr = s := by
  have hnext := h.split.2.1.next
  unfold Heap.combineForward
  cases after with
  | nil =>
      rw [LinkedSegment.first_nil] at hnext
      rw [if_pos hnext]
  | cons c rest =>
      rw [LinkedSegment.first_cons] at hnext
      have hfree := h.split.2.2.1.free
      rw [hafter c rest rfl] at hfree
      rw [hnext, if_pos hfree, ite_self]

/-- The store `Next->Prev = value`, made only when there is a `Next`. -/
def relinkPrev (m : ByteMemory) (target value : Nat) : ByteMemory :=
  if target ≠ nullptr then setPrev m target value else m

/-- Only the back link of the first block of `after` changes, to `value`. -/
structure Relinked (m m' : ByteMemory) (kept after : List Block) (value : Nat) :
    Prop where
  kept : ∀ e ∈ kept, readHeader m' e.addr = readHeader m e.addr
  first : ∀ d rest, after = d :: rest →
    readHeader m' d.addr = { readHeader m d.addr with prev := value }
  rest : ∀ e ∈ after.tail, readHeader m' e.addr = readHeader m e.addr

theorem relinked_setPrev (m : ByteMemory) {kept : List Block} {d : Block}
    {rest : List Block} {value : Nat}
    (hplaced : Placed ((kept ++ d :: rest).map Block.addr))
    (hvalue : value < 2 ^ 64) :
    Relinked m (setPrev m d.addr value) kept (d :: rest) value := by
  constructor
  · intro e he
    exact readHeader_setPrev_apart m value
      (apart_of_placed hplaced he List.mem_cons_self).symm
  · rintro d' rest' heq
    obtain ⟨rfl, rfl⟩ := List.cons.inj heq
    exact readHeader_setPrev hvalue
  · intro e he
    have hplaced' : Placed (((kept ++ [d]) ++ rest).map Block.addr) := by
      simpa using hplaced
    exact readHeader_setPrev_apart m value (apart_of_placed hplaced' (by simp) he)

theorem relinked_relinkPrev (m : ByteMemory) {kept after : List Block} {value : Nat}
    (hplaced : Placed ((kept ++ after).map Block.addr)) (hvalue : value < 2 ^ 64) :
    Relinked m (relinkPrev m (LinkedSegment.first Block.addr nullptr after) value)
      kept after value := by
  cases after with
  | nil => exact ⟨fun _ _ => rfl, by simp, by simp⟩
  | cons d rest =>
      have hd : d.addr ≠ nullptr := Nat.ne_of_gt (hplaced.positive _ (by simp))
      rw [LinkedSegment.first_cons, relinkPrev, if_pos hd]
      exact relinked_setPrev m hplaced hvalue

private theorem combineForward_eq
    (h : Represents s (before ++ b :: c :: after)) (hfree : c.free = true) :
    s.combineForward b.addr =
      { s with
        lastHdr := if c.addr = s.lastHdr then b.addr else s.lastHdr
        mem := setNext
          (setLength
            (relinkPrev s.mem (LinkedSegment.first Block.addr nullptr after) b.addr)
            b.addr (b.absorb c).length)
          b.addr (LinkedSegment.first Block.addr nullptr after) } := by
  obtain ⟨-, hb, hc, -⟩ := h.split
  have hbc : Apart b.addr c.addr := h.apart_after (by simp)
  have hcpos : c.addr ≠ nullptr := Nat.ne_of_gt (h.positive (by simp))
  have hcfree : ¬ free s.mem c.addr = false := by simp [hc.free, hfree]
  have hplaced : Placed (((before ++ [b, c]) ++ after).map Block.addr) := by
    simpa using h.placed
  have hrelinked := relinked_relinkPrev s.mem hplaced
    (h.bounded (List.mem_append_right _ List.mem_cons_self))
  have hb' := hb.of_eq (hrelinked.kept b (by simp))
  have hc' := hc.of_eq (hrelinked.kept c (by simp))
  have hc'' := hc'.of_eq
    (readHeader_setLength_apart _ (b.absorb c).length hbc)
  have hlength : (b.absorb c).length < 2 ^ 64 := Nat.mod_lt _ (by decide)
  have hb'' := (congrArg HeaderFields.next (readHeader_setLength hlength)).trans
    hb'.next
  unfold Heap.combineForward
  rw [hb.next, LinkedSegment.first_cons, if_neg hcpos, if_neg hcfree, hc.next]
  dsimp only
  rw [← relinkPrev, hb'.length, hb'.next, LinkedSegment.first_cons, hc'.length]
  change next _ b.addr = c.addr at hb''
  rw [show wrap64 (b.length + c.length + headerSize) = (b.absorb c).length from rfl,
    hb'', hc''.next]

theorem represents_combineForward
    (h : Represents s (before ++ b :: c :: after)) (hfree : c.free = true) :
    Represents (s.combineForward b.addr) (before ++ b.absorb c :: after) := by
  rw [combineForward_eq h hfree]
  obtain ⟨hbefore, hb, hc, hafter⟩ := h.split
  have hplaced : Placed (((before ++ [b, c]) ++ after).map Block.addr) := by
    simpa using h.placed
  have hrelinked := relinked_relinkPrev s.mem hplaced
    (h.bounded (List.mem_append_right _ List.mem_cons_self))
  have hlength : (b.absorb c).length < 2 ^ 64 := Nat.mod_lt _ (by decide)
  have hnext : LinkedSegment.first Block.addr nullptr after < 2 ^ 64 :=
    @Represents.first_lt _ (before ++ [b, c]) after (by simpa using h)
  have hkeep : ∀ e : Block, Apart b.addr e.addr → ∀ m : ByteMemory,
      readHeader (setNext (setLength m b.addr (b.absorb c).length) b.addr
        (LinkedSegment.first Block.addr nullptr after)) e.addr =
      readHeader m e.addr := by
    intro e hapart m
    rw [readHeader_setNext_apart _ _ hapart, readHeader_setLength_apart _ _ hapart]
  constructor
  · apply linked_replace [b.absorb c] b.addr hbefore hafter
    · refine ⟨?_, trivial⟩
      unfold Stored at hb ⊢
      rw [show (b.absorb c).addr = b.addr from rfl, readHeader_setNext hnext,
        readHeader_setLength hlength, hrelinked.kept b (by simp), hb]
      rfl
    · exact fun n => rfl
    · exact fun p => rfl
    · intro e he
      rw [hkeep e (h.apart_before he), hrelinked.kept e (by simp [he])]
    · rintro d rest rfl
      rw [hkeep d (h.apart_after (by simp)), hrelinked.first d rest rfl]
    · intro e he
      rw [hkeep e (h.apart_after (by simp [List.mem_of_mem_tail he])),
        hrelinked.rest e he]
  · have hstart := h.start
    rw [LinkedSegment.first_append] at hstart ⊢
    exact hstart
  · have hlast := h.last
    rw [LinkedSegment.last_append] at hlast ⊢
    cases after with
    | nil => simp [hlast.symm, Block.absorb]
    | cons d rest =>
        have hne : s.lastHdr ≠ c.addr :=
          @Represents.last_ne _ c d (before ++ [b]) rest (by simpa using h)
        rw [if_neg hne.symm, ← hlast]
        rfl
  · refine h.placed.sublist ?_
    simp [Block.absorb]

theorem represents_setFree (h : Represents s (before ++ b :: after)) (v : Bool) :
    Represents (s.withMem (setFree s.mem b.addr v))
      (before ++ { b with free := v } :: after) := by
  obtain ⟨hbefore, hb, hafter⟩ := h.split
  have hkeep : ∀ e : Block, Apart b.addr e.addr →
      readHeader (setFree s.mem b.addr v) e.addr = readHeader s.mem e.addr :=
    fun e hapart => readHeader_setFree_apart _ _ hapart
  constructor
  · apply linked_replace [{ b with free := v }] b.addr hbefore hafter
    · refine ⟨?_, trivial⟩
      unfold Stored at hb ⊢
      change readHeader (setFree s.mem b.addr v) b.addr = _
      rw [readHeader_setFree, hb]
      rfl
    · exact fun n => rfl
    · exact fun p => rfl
    · exact fun e he => hkeep e (h.apart_before he)
    · rintro d rest rfl
      change readHeader (setFree s.mem b.addr v) d.addr = _
      rw [hkeep d (h.apart_after List.mem_cons_self), hafter.1]
    · exact fun e he => hkeep e (h.apart_after (List.mem_of_mem_tail he))
  · have hstart := h.start
    rw [LinkedSegment.first_append] at hstart ⊢
    exact hstart
  · have hlast := h.last
    rw [LinkedSegment.last_append] at hlast ⊢
    exact hlast
  · simpa using h.placed

theorem combineBackward_used
    (h : Represents s (before ++ b :: after))
    (hbefore : ∀ init a, before = init ++ [a] → a.free = false) :
    s.combineBackward b.addr = s := by
  have hprev := h.split.2.1.prev
  unfold Heap.combineBackward
  rcases List.eq_nil_or_concat before with rfl | ⟨init, a, rfl⟩
  · rw [hprev]
    simp
  · have ha : free s.mem a.addr = a.free := by
      have h' : Represents s (init ++ a :: b :: after) := by simpa using h
      exact h'.split.2.1.free
    simp only [List.concat_eq_append, LinkedSegment.last_append,
      LinkedSegment.last_cons, LinkedSegment.last_nil] at hprev
    rw [hprev, ha, hbefore init a (by simp), if_neg (by simp)]

theorem represents_combineBackward {a : Block}
    (h : Represents s (before ++ a :: b :: after)) (ha : a.free = true)
    (hb : b.free = true) :
    Represents (s.combineBackward b.addr) (before ++ a.absorb b :: after) := by
  have hprev := h.split.2.2.1.prev
  have hfree := h.split.2.1.free
  have hpos : a.addr ≠ nullptr := Nat.ne_of_gt (h.positive (by simp))
  unfold Heap.combineBackward
  rw [hprev, if_pos ⟨hpos, hfree.trans ha⟩]
  exact represents_combineForward h hb

end Merging

/-! ## Splitting in memory -/

section Splitting

variable {s : Heap} {b : Block} {size : Nat} {before after : List Block}

theorem split_refused (h : Represents s (before ++ b :: after))
    (hsize : size ≤ b.length) (hsplit : ¬ Splits size b) :
    s.split b.addr size = (nullptr, s) := by
  have hlength : b.length < 2 ^ 64 := by
    rw [← h.split.2.1.length]
    exact s.mem.load_word_lt b.addr
  have hsmall : toInt64 (sub64 (sub64 b.length size) headerSize) < 0x10 := by
    rw [toInt64_lt_sixteen (sub64_lt _ _)]
    simp only [Splits, sub64, headerSize] at hsplit ⊢
    omega
  unfold Heap.split
  rw [h.split.2.1.length]
  by_cases htiny : size < 0x10
  · rw [if_pos htiny]
  · rw [if_neg htiny, if_pos hsmall]

def upperBlock (size : Nat) (b : Block) : Block :=
  ⟨b.addr + size + headerSize, b.length - size - headerSize, b.free⟩

/--
The stores of `Split` before the new header is filled in.  With `Next` null the
first of them goes to `nullptr->Prev`, below every header.
-/
theorem relinked_split (hplaced : Placed ((before ++ b :: after).map Block.addr))
    (hnull : ∀ e ∈ before ++ b :: after, 24 ≤ e.addr) {value : Nat}
    (hvalue : value < 2 ^ 64) (m : ByteMemory) :
    Relinked m (setPrev m (LinkedSegment.first Block.addr nullptr after) value)
      (before ++ [b]) after value := by
  cases after with
  | nil =>
      refine ⟨fun e he => ?_, by simp, by simp⟩
      have hlow := hnull e he
      apply readHeader_store_apart
      simp only [LinkedSegment.first_nil, nullptr, headerSize]
      omega
  | cons d rest =>
      exact relinked_setPrev m (by simpa using hplaced) hvalue

def splitStores (m : ByteMemory) (this newSplitHdr next splitSegLength splitLength : Nat) :
    ByteMemory :=
  let m := setNext m newSplitHdr next
  let m := setNext m this newSplitHdr
  let m := setPrev m newSplitHdr this
  let m := setLength m newSplitHdr splitSegLength
  let m := setFree m newSplitHdr (free m this)
  setLength m this splitLength

section Stores

variable {m : ByteMemory} {this new next rest splitLength e : Nat} {free : Bool}

theorem splitStores_kept (hthis : Apart this e) (hnew : Apart new e) :
    readHeader (splitStores m this new next rest splitLength) e = readHeader m e := by
  simp only [splitStores, readHeader_setLength_apart _ _ hthis,
    readHeader_setLength_apart _ _ hnew, readHeader_setFree_apart _ _ hnew,
    readHeader_setPrev_apart _ _ hnew, readHeader_setNext_apart _ _ hthis,
    readHeader_setNext_apart _ _ hnew]

theorem splitStores_this (hnew : Apart new this) (hlt : new < 2 ^ 64)
    (hlength : splitLength < 2 ^ 64) :
    readHeader (splitStores m this new next rest splitLength) this =
      { readHeader m this with length := splitLength, next := new } := by
  simp only [splitStores, readHeader_setLength hlength,
    readHeader_setFree_apart _ _ hnew, readHeader_setLength_apart _ _ hnew,
    readHeader_setPrev_apart _ _ hnew, readHeader_setNext hlt,
    readHeader_setNext_apart _ _ hnew]

theorem splitStores_new (hnew : Apart new this) (hthis : this < 2 ^ 64)
    (hlt : new < 2 ^ 64) (hnext : next < 2 ^ 64) (hrest : rest < 2 ^ 64) :
    readHeader (splitStores m this new next rest splitLength) new =
      ⟨rest, next, this, HeapBlockHeader.free m this⟩ := by
  have hfree : HeapBlockHeader.free (setLength (setPrev
      (setNext (setNext m new next) this new) new this) new rest) this =
      HeapBlockHeader.free m this := by
    change (readHeader _ this).free = (readHeader m this).free
    rw [readHeader_setLength_apart _ _ hnew, readHeader_setPrev_apart _ _ hnew,
      readHeader_setNext hlt, readHeader_setNext_apart _ _ hnew]
  simp only [splitStores, hfree]
  rw [readHeader_setLength_apart _ _ hnew.symm, readHeader_setFree,
    readHeader_setLength hrest, readHeader_setPrev hthis,
    readHeader_setNext_apart _ _ hnew.symm, readHeader_setNext hnext]

end Stores

theorem upperBlock_stop (hfits : size + headerSize ≤ b.length) :
    (upperBlock size b).stop = b.stop := by
  simp only [Block.stop, upperBlock]
  omega

private theorem split_eq (h : Represents s (before ++ b :: after))
    (hsize : 0x10 ≤ size) (hsplit : Splits size b)
    (hnull : ∀ e ∈ before ++ b :: after, 24 ≤ e.addr) (hstop : b.stop < 2 ^ 64) :
    s.split b.addr size =
      ((upperBlock size b).addr,
        { s with
          mem := splitStores
            (setPrev s.mem (LinkedSegment.first Block.addr nullptr after)
              (upperBlock size b).addr)
            b.addr (upperBlock size b).addr
            (LinkedSegment.first Block.addr nullptr after)
            (upperBlock size b).length size
          lastHdr := if s.lastHdr = b.addr then (upperBlock size b).addr
            else s.lastHdr }) := by
  have hb := h.split.2.1
  have hfits := hsplit.1
  have hupper : wrap64 (b.addr + size + headerSize) = (upperBlock size b).addr := by
    apply wrap64_of_lt
    simp only [Block.stop] at hstop
    omega
  have hrest : sub64 (sub64 b.length size) headerSize = (upperBlock size b).length := by
    simp only [Block.stop, headerSize] at hstop hfits
    simp only [upperBlock, sub64, headerSize]
    omega
  have hsigned : ¬ toInt64 (upperBlock size b).length < 0x10 := by
    have hupperLength : (upperBlock size b).length = b.length - size - headerSize :=
      rfl
    rw [toInt64_lt_sixteen (hrest ▸ sub64_lt _ _), hupperLength]
    simp only [Splits, headerSize] at hsplit ⊢
    omega
  have hrelinked := relinked_split h.placed hnull (hupper ▸ wrap64_lt _) s.mem
  have hb' := hb.of_eq (hrelinked.kept b (by simp))
  unfold Heap.split
  rw [if_neg (by omega), hb.length]
  simp only [hrest, hsigned, if_false, hupper, hb.next, hb'.next]
  rfl

theorem last_insert {c d : Block} (h : Represents s (before ++ b :: after)) :
    LinkedSegment.last Block.addr nullptr (before ++ c :: d :: after) =
      if s.lastHdr = b.addr then d.addr else s.lastHdr := by
  have hlast := h.last
  rw [LinkedSegment.last_append] at hlast ⊢
  cases after with
  | nil => simp [← hlast]
  | cons e rest =>
      rw [if_neg h.last_ne, ← hlast]
      rfl

theorem represents_split (h : Represents s (before ++ b :: after))
    (hsize : 0x10 ≤ size) (hsplit : Splits size b)
    (hnull : ∀ e ∈ before ++ b :: after, 24 ≤ e.addr)
    (hroom : ∀ e ∈ after, b.stop ≤ e.addr) (hstop : b.stop < 2 ^ 64) :
    Represents (s.split b.addr size).2
      (before ++ ({ b with length := size } :: upperBlock size b :: after)) := by
  rw [split_eq h hsize hsplit hnull hstop]
  obtain ⟨hbefore, hb, hafter⟩ := h.split
  have hfits := hsplit.1
  have hupStop : (upperBlock size b).stop = b.stop := upperBlock_stop (by omega)
  have hlow : b.addr + headerSize ≤ (upperBlock size b).addr := by
    simp only [upperBlock]
    omega
  have hhigh : (upperBlock size b).addr + headerSize ≤ b.stop := by
    rw [← hupStop]
    simp only [Block.stop]
    omega
  have hsizeLt : size < 2 ^ 64 := by
    simp only [Block.stop] at hstop
    omega
  have hbLt : b.addr < 2 ^ 64 := h.bounded (by simp)
  have hupLt : (upperBlock size b).addr < 2 ^ 64 := by omega
  have hrestLt : (upperBlock size b).length < 2 ^ 64 := by
    rw [← hupStop] at hstop
    simp only [Block.stop] at hstop
    omega
  have hnextLt : LinkedSegment.first Block.addr nullptr after < 2 ^ 64 :=
    @Represents.first_lt _ (before ++ [b]) after (by simpa using h)
  have hupApart : Apart (upperBlock size b).addr b.addr := Or.inr hlow
  have hpairs := h.placed.apart
  rw [List.map_append, List.map_cons, List.pairwise_append, List.pairwise_cons] at hpairs
  have hupBefore : ∀ e ∈ before, e.addr + headerSize ≤ (upperBlock size b).addr := by
    intro e he
    have hbe := hpairs.2.2 _ (List.mem_map_of_mem he) b.addr List.mem_cons_self
    omega
  have hupAfter : ∀ e ∈ after, (upperBlock size b).addr + headerSize ≤ e.addr := by
    intro e he
    have hbe := hroom e he
    omega
  have hrelinked := relinked_split h.placed hnull hupLt s.mem
  have hkeep : ∀ e : Block, Apart b.addr e.addr → Apart (upperBlock size b).addr e.addr →
      ∀ m : ByteMemory, readHeader (splitStores m b.addr (upperBlock size b).addr
        (LinkedSegment.first Block.addr nullptr after) (upperBlock size b).length size)
        e.addr = readHeader m e.addr := fun e hapart hup m => splitStores_kept hapart hup
  constructor
  · apply linked_replace [{ b with length := size }, upperBlock size b]
      (upperBlock size b).addr hbefore hafter
    · have hb' := hb.of_eq (hrelinked.kept b (by simp))
      refine ⟨?_, ?_, trivial⟩
      · unfold Stored at hb' ⊢
        change readHeader _ b.addr = _
        rw [splitStores_this hupApart hupLt hsizeLt, hb']
        rfl
      · unfold Stored
        rw [splitStores_new hupApart hbLt hupLt hnextLt hrestLt, hb'.free]
        rfl
    · exact fun n => rfl
    · exact fun p => rfl
    · intro e he
      rw [hkeep e (h.apart_before he) (Or.inr (hupBefore e he)),
        hrelinked.kept e (by simp [he])]
    · rintro d rest rfl
      rw [hkeep d (h.apart_after (by simp)) (Or.inl (hupAfter d (by simp))),
        hrelinked.first d rest rfl]
    · intro e he
      have hmem := List.mem_of_mem_tail he
      rw [hkeep e (h.apart_after hmem) (Or.inl (hupAfter e hmem)),
        hrelinked.rest e he]
  · have hstart := h.start
    rw [LinkedSegment.first_append] at hstart ⊢
    exact hstart
  · exact last_insert h
  · have hplaced := h.placed
    rw [List.map_append, List.map_cons] at hplaced ⊢
    exact hplaced.insert hlow (by simpa using hupAfter) hupLt

end Splitting

end UnifiedOS.Memory
