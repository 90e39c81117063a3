import UnifiedOS.Foundation.ByteMemory
import UnifiedOS.Foundation.ScanLines

/-!
# The text screen

The functions of `stdio.cpp` that `printf` is made of.  Pixels are counted from
the base address of the framebuffer, in scan lines of `PixelsPerScanLine`.  The
cursor wraps with the 32 bits of its coordinates, and glyphs are read from the
memory around `glyphBuffer`, since a `char` may be negative.
-/

namespace UnifiedOS.Common

open UnifiedOS.Foundation

/-- `Framebuffer`, without the address and the size of the buffer. -/
structure Framebuffer where
  width : BitVec 32
  height : BitVec 32
  pixelsPerScanLine : BitVec 32

structure Font where
  glyphBuffer : Int → Byte
  charsize : BitVec 8

structure Screen where
  pixels : Nat → BitVec 32
  cursorX : BitVec 32
  cursorY : BitVec 32
  /-- Not in the source: the pixels that `putChar` has written since `Clear`. -/
  written : List (Nat × Nat)

namespace Screen

variable (fb : Framebuffer)

def blank : Screen := ⟨fun _ => 0, 0, 0, []⟩

def pixel (s : Screen) (x y : Nat) : BitVec 32 :=
  s.pixels (x + y * fb.pixelsPerScanLine.toNat)

/-- `Clear`, whose `bytesPerScanLine` is computed in 32 bits. -/
def clear (color : BitVec 32) (s : Screen) : Screen :=
  let perScanLine := (fb.pixelsPerScanLine * 4).toNat / 4
  { pixels := (List.range fb.height.toNat).foldl (fun pixels verticalScanline =>
      (List.range perScanLine).foldl (fun pixels x =>
        Function.update pixels (perScanLine * verticalScanline + x) color) pixels) s.pixels
    cursorX := 0
    cursorY := 0
    written := [] }

def shiftPixel (pixels : Nat → BitVec 32) (r c : Nat) : Nat → BitVec 32 :=
  let moved := Function.update pixels (c + (r - 16) * fb.pixelsPerScanLine.toNat)
    (pixels (c + r * fb.pixelsPerScanLine.toNat))
  Function.update moved (c + r * fb.pixelsPerScanLine.toNat) 0

def shiftUp (s : Screen) : Screen :=
  { s with
    pixels := (List.range' 16 (fb.height.toNat - 16)).foldl (fun pixels r =>
      (List.range fb.width.toNat).foldl (fun pixels c => shiftPixel fb pixels r c) pixels) s.pixels
    cursorY := s.cursorY - 16 }

def next (s : Screen) : Screen :=
  { s with cursorX := 0, cursorY := s.cursorY + 16 }

/-- `while (CursorY + 16 >= Height) ShiftUp();`, for at most `fuel` tests. -/
def scrollLoop : Nat → Screen → Option Screen
  | 0, _ => none
  | fuel + 1, s =>
      if fb.height ≤ s.cursorY + 16 then scrollLoop fuel (s.shiftUp fb) else some s

/-- The loop; there are `2 ^ 28` values of the cursor before one comes again. -/
def scroll (s : Screen) : Option Screen := scrollLoop fb (2 ^ 28 + 1) s

end Screen

def Font.lit (font : Font) (chr : BitVec 8) (row column : Nat) : Bool :=
  (font.glyphBuffer (chr.toInt * font.charsize.toNat + row)).getMsbD column

namespace Screen

variable (fb : Framebuffer) (font : Font)

def writePixel (x y : Nat) (color : BitVec 32) (s : Screen) : Screen :=
  { s with
    pixels := Function.update s.pixels (x + y * fb.pixelsPerScanLine.toNat) color
    written := (x, y) :: s.written }

/-- One row of the loop of `putChar`; the bounds are 32-bit sums. -/
def drawRow (color : BitVec 32) (chr : BitVec 8) (xOff yOff : BitVec 32) (y : Nat) (s : Screen) :
    Screen :=
  (List.range' xOff.toNat ((xOff + 8).toNat - xOff.toNat)).foldl (fun s x =>
    if font.lit chr (y - yOff.toNat) (x - xOff.toNat) then s.writePixel fb x y color else s) s

def drawGlyph (color : BitVec 32) (chr : BitVec 8) (xOff yOff : BitVec 32) (s : Screen) : Screen :=
  (List.range' yOff.toNat ((yOff + 16).toNat - yOff.toNat)).foldl
    (fun s y => s.drawRow fb font color chr xOff yOff y) s

/-- `putChar`, which scrolls first and then draws where it was told to. -/
def putChar (color : BitVec 32) (chr : BitVec 8) (xOff yOff : BitVec 32) (s : Screen) :
    Option Screen := do
  let s ← s.scroll fb
  return s.drawGlyph fb font color chr xOff yOff

def printChar (chr : BitVec 8) (s : Screen) : Option Screen := do
  let s ← s.putChar fb font 0xFFFFFFFF chr s.cursorX s.cursorY
  let moved := { s with cursorX := s.cursorX + 8 }
  return if fb.width < moved.cursorX + 8 then moved.next else moved

def newline : BitVec 8 := 10

def printLoop : List (BitVec 8) → Screen → Option Screen
  | [], s => some s
  | chr :: rest, s =>
      if chr ≠ newline then (s.printChar fb font chr).bind (printLoop rest)
      else printLoop rest s.next

/-- `printf` on the bytes from `str` on, up to the first zero. -/
def printf (str : List (BitVec 8)) (s : Screen) : Option Screen := do
  let s ← s.scroll fb
  printLoop fb font (str.takeWhile (· ≠ 0)) s

/-! ## Scrolling the picture -/

section ShiftUp

variable {fb : Framebuffer} {s : Screen}

theorem shiftPixel_eq_moveCell (pixels : Nat → BitVec 32) (r c : Nat) :
    shiftPixel fb pixels r c =
      ScanLines.moveCell pixels 0 fb.pixelsPerScanLine.toNat r (r - 16) c := by
  rw [shiftPixel, ScanLines.moveCell]

theorem pixels_shiftUp : (s.shiftUp fb).pixels =
    ScanLines.moveUp s.pixels 0 fb.pixelsPerScanLine.toNat fb.width.toNat 16 fb.height.toNat := by
  simp only [shiftUp, shiftPixel_eq_moveCell, ScanLines.moveUp, ScanLines.moveRow]

end ShiftUp

/--
The picture moves up by one text row, black comes from below, and what is beside
it in the scan lines stays.
-/
theorem shiftUp_moves_picture (fb : Framebuffer) (s : Screen) (hheight : 32 ≤ fb.height.toNat)
    (hline : fb.width.toNat ≤ fb.pixelsPerScanLine.toNat) :
    (∀ c < fb.width.toNat, ∀ y < fb.height.toNat - 16,
        (s.shiftUp fb).pixel fb c y = s.pixel fb c (y + 16)) ∧
      (∀ c < fb.width.toNat, ∀ y, fb.height.toNat - 16 ≤ y → y < fb.height.toNat →
        (s.shiftUp fb).pixel fb c y = 0) ∧
      ∀ c, fb.width.toNat ≤ c → c < fb.pixelsPerScanLine.toNat → ∀ y,
        (s.shiftUp fb).pixel fb c y = s.pixel fb c y := by
  simp only [pixel, pixels_shiftUp]
  refine ⟨fun c hc y hy => ?_, fun c hc y hle hlt => ?_, fun c hbeside hc y => ?_⟩
  · rw [ScanLines.moveUp_at hline (by decide) (by omega) hc (by omega), if_pos hy]
  · rw [ScanLines.moveUp_at hline (by decide) (by omega) hc hlt, if_neg (by omega)]
  · exact ScanLines.moveUp_beside hline (by decide) (by omega) hbeside hc

def vga : Framebuffer := ⟨640, 400, 656⟩

def twoDots : Screen :=
  ⟨fun i => if i = 8 + 116 * 656 ∨ i = 650 + 50 * 656 then 0xFFFFFF else 0, 0, 0, []⟩

theorem shiftUp_moves_picture_vga :
    (twoDots.shiftUp vga).pixel vga 8 100 = 0xFFFFFF ∧ (twoDots.shiftUp vga).pixel vga 8 116 = 0 ∧
      (twoDots.shiftUp vga).pixel vga 650 50 = 0xFFFFFF := by
  obtain ⟨hmoved, -, hbeside⟩ := shiftUp_moves_picture vga twoDots (by decide) (by decide)
  refine ⟨(hmoved 8 (by decide) 100 (by decide)).trans ?_,
    (hmoved 8 (by decide) 116 (by decide)).trans ?_,
    (hbeside 650 (by decide) (by decide) 50).trans ?_⟩
  · decide
  · decide
  · decide

end Screen

end UnifiedOS.Common
