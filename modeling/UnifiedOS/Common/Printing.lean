import UnifiedOS.Common.Screen

/-!
# Printing

`printf` hands the cursor to `putChar` by value, which scrolls before it draws.
A character is drawn where the cursor was, inside or not, and the condition on
the cursor before each character says when a run of `printf` stays inside the
framebuffer.
-/

namespace UnifiedOS.Common

open UnifiedOS.Foundation

structure PutStep where
  cursorX : BitVec 32
  cursorY : BitVec 32
  chr : BitVec 8
  last : Bool

/--
The set pixels of the glyph lie above the lower border, and the string does not
end at the very last column of a 32-bit coordinate.  Nothing is drawn where a
bound of the loops wraps.
-/
structure PutStep.Fits (fb : Framebuffer) (font : Font) (step : PutStep) : Prop where
  rows : ∀ row < 16, ∀ column < 8, font.lit step.chr row column = true →
    step.cursorY.toNat + 16 < 2 ^ 32 → step.cursorX.toNat + 8 < 2 ^ 32 →
      step.cursorY.toNat + row < fb.height.toNat
  column : step.last = true → step.cursorX.toNat + 16 ≠ 2 ^ 32

namespace Screen

section Steps

variable (fb : Framebuffer) (font : Font)

def putSteps : List (BitVec 8) → Screen → List PutStep
  | [], _ => []
  | chr :: rest, s =>
      if chr ≠ newline then
        ⟨s.cursorX, s.cursorY, chr, rest.isEmpty⟩ ::
          match s.printChar fb font chr with
          | none => []
          | some s' => putSteps rest s'
      else putSteps rest s.next

def printSteps (str : List (BitVec 8)) (s : Screen) : List PutStep :=
  match s.scroll fb with
  | none => []
  | some s' => putSteps fb font (str.takeWhile (· ≠ 0)) s'

def runSteps : List (List (BitVec 8)) → Screen → List PutStep
  | [], _ => []
  | str :: strs, s => printSteps fb font str s ++
      match s.printf fb font str with
      | none => []
      | some s' => runSteps strs s'

def printAll (strs : List (List (BitVec 8))) (s : Screen) : Option Screen :=
  strs.foldlM (fun s str => s.printf fb font str) s

/-- What has been drawn is inside, and at the cursor there is room for a character. -/
structure Inside (s : Screen) : Prop where
  written : ∀ p ∈ s.written, p.1 < fb.width.toNat ∧ p.2 < fb.height.toNat
  cursor : s.cursorX.toNat + 8 ≤ fb.width.toNat

def StaysInside (s : Screen) (strs : List (List (BitVec 8))) : Prop :=
  ∀ printed, printed <+: strs → ∃ s', s.printAll fb font printed = some s' ∧ s'.Inside fb

end Steps

variable {fb : Framebuffer} {font : Font} {s s' : Screen} {p : Nat × Nat} {color : BitVec 32}
  {chr : BitVec 8} {xOff yOff : BitVec 32}

/-! ## Scrolling ends -/

theorem scroll_of_lt (h : s.cursorY + 16 < fb.height) : s.scroll fb = some s := by
  rw [scroll, scrollLoop, if_neg]
  exact BitVec.not_le.mpr h

theorem scroll_clear (hheight : 32 ≤ fb.height.toNat) (color : BitVec 32) (s : Screen) :
    (s.clear fb color).scroll fb = some (s.clear fb color) := by
  apply scroll_of_lt
  rw [BitVec.lt_def]
  change 16 < fb.height.toNat
  omega

theorem scrollLoop_returns (hheight : 32 ≤ fb.height.toNat) {fuel : Nat}
    (hfuel : s.cursorY.toNat / 16 < fuel) :
    ∃ s', scrollLoop fb fuel s = some s' ∧ s'.cursorX = s.cursorX ∧ s'.written = s.written := by
  induction fuel generalizing s with
  | zero => omega
  | succ fuel ih =>
      rw [scrollLoop]
      by_cases hlow : fb.height ≤ s.cursorY + 16
      · have htest : fb.height.toNat ≤ (s.cursorY.toNat + 16) % 2 ^ 32 := by
          simpa [BitVec.le_def] using hlow
        have hlt := s.cursorY.isLt
        have hup : (s.shiftUp fb).cursorY.toNat = s.cursorY.toNat - 16 := by
          change (s.cursorY - 16).toNat = _
          rw [BitVec.toNat_sub_of_le]
          · rfl
          · rw [BitVec.le_def]
            change 16 ≤ _
            omega
        obtain ⟨s', hloop, hcursor, hwritten⟩ := ih (s := s.shiftUp fb) (by omega)
        rw [if_pos hlow]
        exact ⟨s', hloop, hcursor, hwritten⟩
      · rw [if_neg hlow]
        exact ⟨s, rfl, rfl, rfl⟩

theorem scroll_returns (hheight : 32 ≤ fb.height.toNat) (s : Screen) :
    ∃ s', s.scroll fb = some s' ∧ s'.cursorX = s.cursorX ∧ s'.written = s.written := by
  have hlt := s.cursorY.isLt
  exact scrollLoop_returns hheight (by omega)

/-! ## What a glyph draws -/

def Draws (font : Font) (chr : BitVec 8) (xOff yOff : BitVec 32) (p : Nat × Nat) : Prop :=
  (yOff.toNat ≤ p.2 ∧ p.2 < (yOff + 16).toNat) ∧ (xOff.toNat ≤ p.1 ∧ p.1 < (xOff + 8).toNat) ∧
    font.lit chr (p.2 - yOff.toNat) (p.1 - xOff.toNat) = true

section Drawing

theorem cursorX_drawRow (y : Nat) (s : Screen) :
    (s.drawRow fb font color chr xOff yOff y).cursorX = s.cursorX := by
  rw [drawRow]
  refine List.foldlRecOn (motive := fun s' : Screen => s'.cursorX = s.cursorX) _ _ rfl
    fun s' hs' x _ => ?_
  split
  · exact hs'
  · exact hs'

theorem cursorX_drawGlyph (s : Screen) :
    (s.drawGlyph fb font color chr xOff yOff).cursorX = s.cursorX := by
  rw [drawGlyph]
  refine List.foldlRecOn (motive := fun s' : Screen => s'.cursorX = s.cursorX) _ _ rfl
    fun s' hs' y _ => ?_
  rw [cursorX_drawRow, hs']

theorem mem_written_foldl_writePixel (test : Nat → Bool) (y : Nat) (l : List Nat) (s : Screen) :
    p ∈ (l.foldl (fun s x => if test x then s.writePixel fb x y color else s) s).written ↔
      p ∈ s.written ∨ p.2 = y ∧ p.1 ∈ l ∧ test p.1 = true := by
  induction l generalizing s with
  | nil => simp
  | cons x l ih =>
      obtain ⟨px, py⟩ := p
      rw [List.foldl_cons, ih]
      cases htest : test x with
      | true =>
          simp only [if_true, writePixel, List.mem_cons, Prod.mk.injEq]
          constructor
          · rintro ((⟨rfl, rfl⟩ | hold) | hlater)
            · exact .inr ⟨rfl, .inl rfl, htest⟩
            · exact .inl hold
            · exact .inr ⟨hlater.1, .inr hlater.2.1, hlater.2.2⟩
          · rintro (hold | ⟨hy, rfl | hmem, hset⟩)
            · exact .inl (.inr hold)
            · exact .inl (.inl ⟨rfl, hy⟩)
            · exact .inr ⟨hy, hmem, hset⟩
      | false =>
          simp only [Bool.false_eq_true, if_false, List.mem_cons]
          constructor
          · rintro (hold | hlater)
            · exact .inl hold
            · exact .inr ⟨hlater.1, .inr hlater.2.1, hlater.2.2⟩
          · rintro (hold | ⟨hy, rfl | hmem, hset⟩)
            · exact .inl hold
            · exact absurd hset (by simp [htest])
            · exact .inr ⟨hy, hmem, hset⟩

theorem mem_range'_sub {start stop i : Nat} :
    i ∈ List.range' start (stop - start) ↔ start ≤ i ∧ i < stop := by
  rw [List.mem_range'_1]
  omega

theorem mem_written_drawRow (y : Nat) (s : Screen) :
    p ∈ (s.drawRow fb font color chr xOff yOff y).written ↔
      p ∈ s.written ∨ p.2 = y ∧ (xOff.toNat ≤ p.1 ∧ p.1 < (xOff + 8).toNat) ∧
        font.lit chr (y - yOff.toNat) (p.1 - xOff.toNat) = true := by
  rw [drawRow, mem_written_foldl_writePixel fun x =>
    font.lit chr (y - yOff.toNat) (x - xOff.toNat), mem_range'_sub]

theorem mem_written_foldl_drawRow (l : List Nat) (s : Screen) :
    p ∈ (l.foldl (fun s y => s.drawRow fb font color chr xOff yOff y) s).written ↔
      p ∈ s.written ∨ p.2 ∈ l ∧ (xOff.toNat ≤ p.1 ∧ p.1 < (xOff + 8).toNat) ∧
        font.lit chr (p.2 - yOff.toNat) (p.1 - xOff.toNat) = true := by
  induction l generalizing s with
  | nil => simp
  | cons y l ih =>
      rw [List.foldl_cons, ih, mem_written_drawRow, List.mem_cons]
      by_cases hy : p.2 = y
      · subst hy
        tauto
      · tauto

theorem mem_written_drawGlyph (s : Screen) :
    p ∈ (s.drawGlyph fb font color chr xOff yOff).written ↔
      p ∈ s.written ∨ Draws font chr xOff yOff p := by
  rw [drawGlyph, mem_written_foldl_drawRow, mem_range'_sub, Draws]

end Drawing

/-! ## Text columns -/

section Columns

/-- A multiple of the glyph width, with room for a glyph, or else the last one of a `uint32_t`. -/
structure OnColumn (fb : Framebuffer) (x : BitVec 32) : Prop where
  aligned : x.toNat % 8 = 0
  room : x.toNat + 8 ≤ fb.width.toNat ∨ x.toNat + 8 = 2 ^ 32

def advance (fb : Framebuffer) (x : BitVec 32) : BitVec 32 :=
  if fb.width < x + 8 + 8 then 0 else x + 8

theorem onColumn_zero (hwidth : 8 ≤ fb.width.toNat) : OnColumn fb 0 :=
  ⟨rfl, .inl (by simpa using hwidth)⟩

theorem onColumn_advance {x : BitVec 32} (hwidth : 8 ≤ fb.width.toNat) (h : OnColumn fb x) :
    OnColumn fb (advance fb x) ∧
      ((advance fb x).toNat + 8 = 2 ^ 32 ↔ x.toNat + 16 = 2 ^ 32) := by
  have hx := x.isLt
  have hw := fb.width.isLt
  have haligned := h.aligned
  have hroom := h.room
  have hmoved : (x + 8).toNat = (x.toNat + 8) % 2 ^ 32 := by simp
  have hend : (x + 8 + 8).toNat = ((x.toNat + 8) % 2 ^ 32 + 8) % 2 ^ 32 := by simp
  unfold advance
  by_cases hbreak : fb.width < x + 8 + 8
  · rw [BitVec.lt_def, hend] at hbreak
    rw [if_pos (BitVec.lt_def.mpr (hend ▸ hbreak))]
    refine ⟨onColumn_zero hwidth, ?_⟩
    change 0 + 8 = 2 ^ 32 ↔ _
    omega
  · have hfits := Nat.le_of_not_lt fun hlt => hbreak (BitVec.lt_def.mpr hlt)
    rw [hend] at hfits
    rw [if_neg hbreak]
    refine ⟨⟨?_, ?_⟩, ?_⟩ <;> rw [hmoved] <;> omega

theorem draws_inside_iff {step : PutStep} (h : OnColumn fb step.cursorX) :
    (∀ p, Draws font step.chr step.cursorX step.cursorY p →
        p.1 < fb.width.toNat ∧ p.2 < fb.height.toNat) ↔
      ∀ row < 16, ∀ column < 8, font.lit step.chr row column = true →
        step.cursorY.toNat + 16 < 2 ^ 32 → step.cursorX.toNat + 8 < 2 ^ 32 →
          step.cursorY.toNat + row < fb.height.toNat := by
  have hx : (step.cursorX + 8).toNat = (step.cursorX.toNat + 8) % 2 ^ 32 := by simp
  have hy : (step.cursorY + 16).toNat = (step.cursorY.toNat + 16) % 2 ^ 32 := by simp
  have hxlt := step.cursorX.isLt
  have hylt := step.cursorY.isLt
  have hroom := h.room
  constructor
  · intro hinside row hrow column hcolumn hlit hbottom hright
    refine (hinside (step.cursorX.toNat + column, step.cursorY.toNat + row) ⟨?_, ?_, ?_⟩).2
    · rw [hy]
      omega
    · rw [hx]
      omega
    · simpa using hlit
  · rintro hrows ⟨x, y⟩ ⟨hybounds, hxbounds, hlit⟩
    simp only [hx, hy] at hybounds hxbounds
    have hrow := hrows (y - step.cursorY.toNat) (by omega) (x - step.cursorX.toNat) (by omega) hlit
      (by omega) (by omega)
    refine ⟨?_, ?_⟩
    · change x < _
      omega
    · change y < _
      omega

end Columns

/-! ## One call of `printf` -/

theorem printChar_returns (font : Font) (hheight : 32 ≤ fb.height.toNat) (chr : BitVec 8)
    (s : Screen) :
    ∃ s', s.printChar fb font chr = some s' ∧ s'.cursorX = advance fb s.cursorX ∧
      ∀ p, p ∈ s'.written ↔ p ∈ s.written ∨ Draws font chr s.cursorX s.cursorY p := by
  obtain ⟨scrolled, hscroll, hcursor, hwritten⟩ := scroll_returns hheight s
  have hput : s.putChar fb font 0xFFFFFFFF chr s.cursorX s.cursorY =
      some (scrolled.drawGlyph fb font 0xFFFFFFFF chr s.cursorX s.cursorY) := by
    rw [putChar, hscroll]
    rfl
  set drawn := scrolled.drawGlyph fb font 0xFFFFFFFF chr s.cursorX s.cursorY with hdrawn
  have hdrawnX : drawn.cursorX = s.cursorX := by
    rw [hdrawn, cursorX_drawGlyph, hcursor]
  have hdrawnP : ∀ p, p ∈ drawn.written ↔
      p ∈ s.written ∨ Draws font chr s.cursorX s.cursorY p := by
    intro p
    rw [hdrawn, mem_written_drawGlyph, hwritten]
  have hcall : s.printChar fb font chr = some
      (if fb.width < drawn.cursorX + 8 + 8 then
        ({ drawn with cursorX := drawn.cursorX + 8 } : Screen).next
      else { drawn with cursorX := drawn.cursorX + 8 }) := by
    rw [printChar, hput]
    rfl
  refine ⟨_, hcall, ?_, fun p => ?_⟩
  · rw [advance, hdrawnX]
    split
    · rfl
    · rfl
  · rw [← hdrawnP]
    split
    · rfl
    · rfl

structure Printed (fb : Framebuffer) (font : Font) (str : List (BitVec 8)) (s s' : Screen) :
    Prop where
  column : OnColumn fb s'.cursorX
  steps : ∀ step ∈ putSteps fb font str s, OnColumn fb step.cursorX
  written : ∀ p, p ∈ s'.written ↔ p ∈ s.written ∨
    ∃ step ∈ putSteps fb font str s, Draws font step.chr step.cursorX step.cursorY p
  beyond : s'.cursorX.toNat + 8 = 2 ^ 32 ↔ (str = [] ∧ s.cursorX.toNat + 8 = 2 ^ 32) ∨
    ∃ step ∈ putSteps fb font str s, step.last = true ∧ step.cursorX.toNat + 16 = 2 ^ 32

theorem putSteps_newline (rest : List (BitVec 8)) (s : Screen) :
    putSteps fb font (newline :: rest) s = putSteps fb font rest s.next := by
  rw [putSteps, if_neg (not_not_intro rfl)]

theorem putSteps_char (rest : List (BitVec 8)) (hchr : chr ≠ newline)
    (hprint : s.printChar fb font chr = some s') :
    putSteps fb font (chr :: rest) s =
      ⟨s.cursorX, s.cursorY, chr, rest.isEmpty⟩ :: putSteps fb font rest s' := by
  rw [putSteps, if_pos hchr, hprint]

theorem printLoop_returns (font : Font) (hwidth : 8 ≤ fb.width.toNat)
    (hheight : 32 ≤ fb.height.toNat) (str : List (BitVec 8)) (h : OnColumn fb s.cursorX) :
    ∃ s', printLoop fb font str s = some s' ∧ Printed fb font str s s' := by
  induction str generalizing s with
  | nil => exact ⟨s, rfl, h, by simp [putSteps], by simp [putSteps], by simp [putSteps]⟩
  | cons chr rest ih =>
      by_cases hchr : chr = newline
      · subst hchr
        obtain ⟨s', hloop, hcolumn, hsteps, hwritten, hbeyond⟩ :=
          ih (s := s.next) (onColumn_zero hwidth)
        rw [← putSteps_newline rest s] at hsteps hwritten hbeyond
        refine ⟨s', ?_, hcolumn, hsteps, hwritten, ?_⟩
        · rw [printLoop, if_neg (not_not_intro rfl)]
          exact hloop
        · rw [hbeyond]
          have hzero : s.next.cursorX.toNat = 0 := rfl
          simp [hzero]
      · obtain ⟨moved, hprint, hcursor, hdrawn⟩ := printChar_returns font hheight chr s
        obtain ⟨hnext, hend⟩ := onColumn_advance hwidth h
        obtain ⟨s', hloop, hcolumn, hsteps, hwritten, hbeyond⟩ :=
          ih (s := moved) (hcursor ▸ hnext)
        have hcons := putSteps_char rest hchr hprint
        refine ⟨s', ?_, hcolumn, ?_, ?_, ?_⟩
        · rw [printLoop, if_pos hchr, hprint]
          exact hloop
        · rw [hcons]
          exact List.forall_mem_cons.mpr ⟨h, hsteps⟩
        · intro p
          rw [hcons, hwritten, hdrawn, List.exists_mem_cons_iff, or_assoc]
        · rw [hbeyond, hcons, List.exists_mem_cons_iff, hcursor, hend]
          simp

theorem printf_returns (font : Font) (hwidth : 8 ≤ fb.width.toNat)
    (hheight : 32 ≤ fb.height.toNat) (str : List (BitVec 8)) (h : OnColumn fb s.cursorX)
    (hinside : s.Inside fb) :
    ∃ s', s.printf fb font str = some s' ∧ OnColumn fb s'.cursorX ∧
      (s'.Inside fb ↔ ∀ step ∈ printSteps fb font str s, step.Fits fb font) := by
  obtain ⟨scrolled, hscroll, hcursor, hscrolled⟩ := scroll_returns hheight s
  obtain ⟨s', hloop, hcolumn, hsteps, hwritten, hbeyond⟩ := printLoop_returns font
    hwidth hheight (str.takeWhile (· ≠ 0)) (s := scrolled) (hcursor ▸ h)
  have hall : printSteps fb font str s = putSteps fb font (str.takeWhile (· ≠ 0)) scrolled := by
    rw [printSteps, hscroll]
  have hstart : scrolled.cursorX.toNat + 8 ≠ 2 ^ 32 := by
    have hroom := hinside.cursor
    have hlt := fb.width.isLt
    rw [hcursor]
    omega
  refine ⟨s', ?_, hcolumn, ?_⟩
  · rw [printf, hscroll]
    exact hloop
  · rw [hall]
    constructor
    · intro hafter step hstep
      refine ⟨(draws_inside_iff (hsteps step hstep)).mp fun p hp => ?_, fun hlast hend => ?_⟩
      · exact hafter.written p ((hwritten p).mpr (.inr ⟨step, hstep, hp⟩))
      · have hover := hbeyond.mpr (.inr ⟨step, hstep, hlast, hend⟩)
        have hroom := hafter.cursor
        have hlt := fb.width.isLt
        omega
    · intro hfits
      refine ⟨fun p hp => ?_, ?_⟩
      · rcases (hwritten p).mp hp with hold | ⟨step, hstep, hdrawn⟩
        · exact hinside.written p (hscrolled ▸ hold)
        · exact (draws_inside_iff (hsteps step hstep)).mpr (hfits step hstep).rows p hdrawn
      · refine hcolumn.room.resolve_right fun hover => ?_
        rcases hbeyond.mp hover with ⟨-, hbad⟩ | ⟨step, hstep, hlast, hend⟩
        · exact hstart hbad
        · exact (hfits step hstep).column hlast hend

/-! ## Runs -/

theorem staysInside_nil : s.StaysInside fb font [] ↔ s.Inside fb := by
  constructor
  · intro h
    obtain ⟨s', hrun, hinside⟩ := h [] (List.nil_prefix)
    exact Option.some.inj hrun ▸ hinside
  · intro h printed hprefix
    rw [List.prefix_nil.mp hprefix]
    exact ⟨s, rfl, h⟩

theorem staysInside_cons {str : List (BitVec 8)} {strs : List (List (BitVec 8))}
    (hprint : s.printf fb font str = some s') :
    s.StaysInside fb font (str :: strs) ↔ s.Inside fb ∧ s'.StaysInside fb font strs := by
  have hall : ∀ printed, s.printAll fb font (str :: printed) = s'.printAll fb font printed := by
    intro printed
    rw [printAll, List.foldlM_cons, hprint]
    rfl
  constructor
  · intro h
    obtain ⟨start, hrun, hinside⟩ := h [] (List.nil_prefix)
    refine ⟨Option.some.inj hrun ▸ hinside, fun printed hprefix => ?_⟩
    rw [← hall]
    exact h (str :: printed) (List.cons_prefix_cons.mpr ⟨rfl, hprefix⟩)
  · rintro ⟨hinside, h⟩ printed hprefix
    cases printed with
    | nil => exact ⟨s, rfl, hinside⟩
    | cons first printed =>
        obtain ⟨rfl, hrest⟩ := List.cons_prefix_cons.mp hprefix
        rw [hall]
        exact h printed hrest

theorem staysInside_iff (hwidth : 8 ≤ fb.width.toNat) (hheight : 32 ≤ fb.height.toNat)
    {strs : List (List (BitVec 8))} (h : OnColumn fb s.cursorX) (hinside : s.Inside fb) :
    s.StaysInside fb font strs ↔ ∀ step ∈ runSteps fb font strs s, step.Fits fb font := by
  induction strs generalizing s with
  | nil =>
      rw [staysInside_nil]
      simp [runSteps, hinside]
  | cons str strs ih =>
      obtain ⟨s', hprint, hcolumn, hfits⟩ := printf_returns font hwidth hheight str h hinside
      have hsteps : runSteps fb font (str :: strs) s =
          printSteps fb font str s ++ runSteps fb font strs s' := by
        rw [runSteps, hprint]
      rw [staysInside_cons hprint, hsteps, List.forall_mem_append, ← hfits]
      constructor
      · rintro ⟨-, hlater⟩
        obtain ⟨start, hrun, hafter⟩ := hlater [] (List.nil_prefix)
        have hsame : s'.Inside fb := Option.some.inj hrun ▸ hafter
        exact ⟨hsame, (ih hcolumn hsame).mp hlater⟩
      · rintro ⟨hafter, hlater⟩
        exact ⟨hinside, (ih hcolumn hafter).mpr hlater⟩

theorem inside_clear (hwidth : 8 ≤ fb.width.toNat) (color : BitVec 32) (s : Screen) :
    (s.clear fb color).Inside fb := by
  refine ⟨fun p hp => ?_, ?_⟩
  · contradiction
  · simpa [clear] using hwidth

def smallScreen : Framebuffer := ⟨24, 48, 24⟩

/-- `AB\nCDE`, which ends at the end of a line, and `F`, before which the screen scrolls. -/
def twoStrings : List (List (BitVec 8)) := [[65, 66, 10, 67, 68, 69], [70]]

end Screen

end UnifiedOS.Common
