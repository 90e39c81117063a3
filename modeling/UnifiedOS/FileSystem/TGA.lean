import UnifiedOS.FileSystem.ByteInteraction
import UnifiedOS.Foundation.MachineInt
import Mathlib.Data.List.GetD
import Mathlib.Logic.Function.Basic

/-!
# TGA images

`ReadTGA` decodes uncompressed images of 24 and of 32 bits to the pixel, row by
row from the bottom up.  The path of 24 bits puts a pixel together byte by byte;
that of 32 bits shifts a number that has been read with its first byte highest,
so that blue and red change places.
-/

namespace UnifiedOS.FileSystem

open UnifiedOS.Foundation

structure TGAHeader where
  idLength : Byte
  colormap : Byte
  encoding : Byte
  cmaporig : BitVec 16
  cmaplen : BitVec 16
  cmapdepth : Byte
  x : BitVec 16
  y : BitVec 16
  width : BitVec 16
  height : BitVec 16
  bpp : Byte
  imagedescriptor : Byte
  deriving DecidableEq

structure TGAImage where
  header : TGAHeader
  buffer : Nat → BitVec 32

namespace TGA

def readHeader (file : ByteMemory) : TGAHeader where
  idLength := getByte file 0
  colormap := getByte file 1
  encoding := getByte file 2
  cmaporig := littleEndian16 (get2Byte file 3)
  cmaplen := littleEndian16 (get2Byte file 5)
  cmapdepth := getByte file 7
  x := littleEndian16 (get2Byte file 8)
  y := littleEndian16 (get2Byte file 10)
  width := littleEndian16 (get2Byte file 12)
  height := littleEndian16 (get2Byte file 14)
  bpp := getByte file 16
  imagedescriptor := getByte file 17

/-- `(((header.height - 1) - y) * header.width) + x`, which is an `int`. -/
def pixelIndex (header : TGAHeader) (y x : Nat) : Nat :=
  intToU64 (BitVec.ofNat 32 ((header.height.toNat - 1 - y) * header.width.toNat + x))

structure Decoding where
  position : Nat
  image : Nat → BitVec 32

section Decode

variable (header : TGAHeader) (color : Nat → BitVec 32) (bytes : Nat)

def decodePixel (y : Nat) (s : Decoding) (x : Nat) : Decoding :=
  ⟨s.position + bytes, Function.update s.image (pixelIndex header y x) (color s.position)⟩

def decodePixels (columns y : Nat) (s : Decoding) : Decoding :=
  (List.range columns).foldl (decodePixel header color bytes y) s

def decodeRow (s : Decoding) (y : Nat) : Decoding :=
  decodePixels header color bytes header.width.toNat y s

def decodeRows (rows : Nat) (s : Decoding) : Decoding :=
  (List.range rows).foldl (decodeRow header color bytes) s

end Decode

def color24 (file : ByteMemory) (p : Nat) : BitVec 32 :=
  let color := 0#32
  let color := color ||| 0xFF#32 <<< 24
  let color := color ||| (getByte file p).setWidth 32 <<< 0
  let color := color ||| (getByte file (p + 1)).setWidth 32 <<< 8
  color ||| (getByte file (p + 2)).setWidth 32 <<< 16

def color32 (file : ByteMemory) (p : Nat) : BitVec 32 :=
  get4Byte file p >>> 8 ||| (getByte file (p + 3)).setWidth 32 <<< 24

/-- `ReadTGA`, with what is in the image that `new` has returned. -/
def readTGA (file : ByteMemory) (fresh : Nat → BitVec 32) : TGAImage :=
  let header := readHeader file
  let start : Decoding := ⟨18 + header.idLength.toNat, fresh⟩
  let buffer :=
    if header.encoding = 2 then
      if header.bpp = 24 then
        (decodeRows header (color24 file) 3 header.height.toNat start).image
      else if header.bpp = 32 then
        (decodeRows header (color32 file) 4 header.height.toNat start).image
      else fresh
    else fresh
  ⟨header, buffer⟩

/-! ## Images in files -/

structure Pixel where
  blue : Byte
  green : Byte
  red : Byte
  deriving DecidableEq

def Pixel.bytes24 (p : Pixel) : List Byte := [p.blue, p.green, p.red]

def Pixel.bytes32 (p : Pixel) : List Byte := [p.blue, p.green, p.red, 0xFF]

def Pixel.color (p : Pixel) : BitVec 32 := 0xFF#8 ++ p.red ++ p.green ++ p.blue

def Pixel.exchanged (p : Pixel) : Pixel := ⟨p.red, p.green, p.blue⟩

/-- An uncompressed image, whatever the other fields of its header say. -/
structure Uncompressed (file : ByteMemory) (bpp : Byte) (width height : BitVec 16)
    (pixels : Nat → Pixel) (bytesOf : Pixel → List Byte) : Prop where
  encoding : file 2 = 2
  widthBytes : file 13 ++ file 12 = width
  heightBytes : file 15 ++ file 14 = height
  bppByte : file 16 = bpp
  data : ∀ k < width.toNat * height.toNat, ∀ j (hj : j < (bytesOf (pixels k)).length),
    file (18 + (file 0).toNat + k * (bytesOf (pixels k)).length + j) = (bytesOf (pixels k))[j]

/-- Both images are the same, with the pixel of row `y` and column `x` where it belongs. -/
structure Agree (width height : BitVec 16) (pixels : Nat → Pixel) (image image' : TGAImage) :
    Prop where
  same : ∀ i < width.toNat * height.toNat, image.buffer i = image'.buffer i
  placed : ∃ color : Pixel → BitVec 32, ∀ y < height.toNat, ∀ x < width.toNat,
    image.buffer ((height.toNat - 1 - y) * width.toNat + x) =
      color (pixels (y * width.toNat + x))

/-! ## The loops -/

section Loops

variable {header : TGAHeader} {color : Nat → BitVec 32} {bytes y x rows columns : Nat}
  {s : Decoding}

theorem pixelIndex_eq (hsize : header.width.toNat * header.height.toNat < 2 ^ 29)
    (hy : y < header.height.toNat) (hx : x < header.width.toNat) :
    pixelIndex header y x = (header.height.toNat - 1 - y) * header.width.toNat + x := by
  have hrow : (header.height.toNat - 1 - y + 1) * header.width.toNat ≤
      header.height.toNat * header.width.toNat := Nat.mul_le_mul_right _ (by omega)
  rw [Nat.succ_mul] at hrow
  rw [Nat.mul_comm] at hsize
  rw [pixelIndex, intToU64_ofNat (by omega), if_pos (by omega)]

theorem decodePixels_spec (color : Nat → BitVec 32) (bytes : Nat) (s : Decoding)
    (hsize : header.width.toNat * header.height.toNat < 2 ^ 29)
    (hy : y < header.height.toNat) (hcolumns : columns ≤ header.width.toNat) (i : Nat) :
    (decodePixels header color bytes columns y s).position = s.position + columns * bytes ∧
      (decodePixels header color bytes columns y s).image i =
        if (header.height.toNat - 1 - y) * header.width.toNat ≤ i ∧
            i < (header.height.toNat - 1 - y) * header.width.toNat + columns then
          color (s.position + (i - (header.height.toNat - 1 - y) * header.width.toNat) * bytes)
        else s.image i := by
  induction columns with
  | zero =>
      rw [if_neg (by omega)]
      exact ⟨by simp [decodePixels], rfl⟩
  | succ columns ih =>
      obtain ⟨hposition, himage⟩ := ih (by omega)
      have hlast : decodePixels header color bytes (columns + 1) y s =
          decodePixel header color bytes y (decodePixels header color bytes columns y s)
            columns := by
        rw [decodePixels, List.range_succ, List.foldl_append]
        rfl
      rw [hlast]
      refine ⟨?_, ?_⟩
      · rw [decodePixel, hposition, Nat.succ_mul, Nat.add_assoc]
      · simp only [decodePixel, Function.update_apply,
          pixelIndex_eq hsize hy (Nat.lt_of_succ_le hcolumns), hposition, himage]
        by_cases hnow : i = (header.height.toNat - 1 - y) * header.width.toNat + columns
        · rw [if_pos hnow, if_pos (by omega), hnow, Nat.add_sub_cancel_left]
        · rw [if_neg hnow]
          congr 1
          simp only [eq_iff_iff]
          omega

theorem decodeRows_spec (hsize : header.width.toNat * header.height.toNat < 2 ^ 29)
    (hrows : rows ≤ header.height.toNat) :
    (decodeRows header color bytes rows s).position =
        s.position + rows * header.width.toNat * bytes ∧
      ∀ y < rows, ∀ x < header.width.toNat,
        (decodeRows header color bytes rows s).image
            ((header.height.toNat - 1 - y) * header.width.toNat + x) =
          color (s.position + (y * header.width.toNat + x) * bytes) := by
  induction rows with
  | zero => exact ⟨by simp [decodeRows], fun y hy => absurd hy (Nat.not_lt_zero y)⟩
  | succ rows ih =>
      obtain ⟨hposition, himage⟩ := ih (by omega)
      have hlast : decodeRows header color bytes (rows + 1) s =
          decodeRow header color bytes (decodeRows header color bytes rows s) rows := by
        rw [decodeRows, List.range_succ, List.foldl_append]
        rfl
      have hrow := decodePixels_spec color bytes (decodeRows header color bytes rows s) hsize
        (Nat.lt_of_succ_le hrows) (Nat.le_refl _)
      rw [hlast, decodeRow]
      refine ⟨?_, ?_⟩
      · rw [(hrow 0).1, hposition, Nat.succ_mul, Nat.add_mul, Nat.add_assoc]
      · intro y hy x hx
        rw [(hrow _).2]
        rcases Nat.lt_or_eq_of_le (Nat.le_of_lt_succ hy) with hbefore | rfl
        · have hbelow : (header.height.toNat - 1 - rows + 1) * header.width.toNat ≤
              (header.height.toNat - 1 - y) * header.width.toNat :=
            Nat.mul_le_mul_right _ (by omega)
          rw [Nat.succ_mul] at hbelow
          rw [if_neg (by omega), himage y hbefore x hx]
        · rw [if_pos (by omega), Nat.add_sub_cancel_left, hposition, Nat.add_mul, Nat.add_assoc]

end Loops

/-! ## The colours -/

section Colors

variable {file : ByteMemory} {p : Nat} {pixel pixel' : Pixel}

theorem append_eq_append {v w : Nat} {a c : BitVec v} {b d : BitVec w} (h : a ++ b = c ++ d) :
    a = c ∧ b = d := by
  have hhigh := congrArg (BitVec.extractLsb' w v) h
  have hlow := congrArg (BitVec.extractLsb' 0 w) h
  rw [BitVec.extractLsb'_append_eq_left, BitVec.extractLsb'_append_eq_left] at hhigh
  rw [BitVec.extractLsb'_append_eq_right, BitVec.extractLsb'_append_eq_right] at hlow
  exact ⟨hhigh, hlow⟩

theorem Pixel.color_inj (h : pixel.color = pixel'.color) : pixel = pixel' := by
  obtain ⟨hupper, hblue⟩ := append_eq_append h
  obtain ⟨htop, hgreen⟩ := append_eq_append hupper
  obtain ⟨-, hred⟩ := append_eq_append htop
  cases pixel
  cases pixel'
  simp_all

theorem exchanged_color_eq_iff : pixel.color = pixel.exchanged.color ↔ pixel.blue = pixel.red := by
  constructor
  · intro h
    exact congrArg Pixel.blue (Pixel.color_inj h)
  · intro h
    simp only [Pixel.exchanged, Pixel.color, h]

theorem color24_eq : color24 file p = (⟨file p, file (p + 1), file (p + 2)⟩ : Pixel).color := by
  apply BitVec.eq_of_getLsbD_eq
  intro i hi
  simp only [color24, getByte, Pixel.color, BitVec.getLsbD_or, BitVec.getLsbD_shiftLeft,
    BitVec.getLsbD_setWidth, BitVec.getLsbD_append]
  interval_cases i <;> simp

theorem color32_eq (halpha : file (p + 3) = 0xFF) : color32 file p =
    (⟨file p, file (p + 1), file (p + 2)⟩ : Pixel).exchanged.color := by
  apply BitVec.eq_of_getLsbD_eq
  intro i hi
  simp only [color32, get4Byte_eq, getByte, halpha, Pixel.exchanged, Pixel.color,
    BitVec.getLsbD_or, BitVec.getLsbD_shiftLeft, BitVec.getLsbD_ushiftRight,
    BitVec.getLsbD_setWidth, BitVec.getLsbD_append]
  interval_cases i <;> simp

end Colors

/-! ## The two paths -/

section Paths

variable {file file' : ByteMemory} {width height : BitVec 16} {pixels : Nat → Pixel}
  {bpp : Byte} {bytesOf : Pixel → List Byte} {x y : Nat}

theorem Uncompressed.header_width (h : Uncompressed file bpp width height pixels bytesOf) :
    (readHeader file).width = width := by
  change littleEndian16 (get2Byte file 12) = width
  rw [get2Byte_eq, littleEndian16_append, h.widthBytes]

theorem Uncompressed.header_height (h : Uncompressed file bpp width height pixels bytesOf) :
    (readHeader file).height = height := by
  change littleEndian16 (get2Byte file 14) = height
  rw [get2Byte_eq, littleEndian16_append, h.heightBytes]

theorem pixel_lt {w h : Nat} (hy : y < h) (hx : x < w) : y * w + x < w * h := by
  have hrow : (y + 1) * w ≤ h * w := Nat.mul_le_mul_right w hy
  rw [Nat.succ_mul] at hrow
  rw [Nat.mul_comm w]
  omega

theorem Uncompressed.decoded (h : Uncompressed file bpp width height pixels bytesOf)
    (color : Nat → BitVec 32) (bytes : Nat) (fresh : Nat → BitVec 32)
    (hsize : width.toNat * height.toNat < 2 ^ 29) (hy : y < height.toNat) (hx : x < width.toNat) :
    (decodeRows (readHeader file) color bytes (readHeader file).height.toNat
        ⟨18 + (readHeader file).idLength.toNat, fresh⟩).image
          ((height.toNat - 1 - y) * width.toNat + x) =
      color (18 + (file 0).toNat + (y * width.toNat + x) * bytes) := by
  have hwidth := h.header_width
  have hheight := h.header_height
  obtain ⟨-, hpixels⟩ := @decodeRows_spec (readHeader file) color bytes
    (readHeader file).height.toNat ⟨18 + (file 0).toNat, fresh⟩
    (by rw [hwidth, hheight]; exact hsize) (Nat.le_refl _)
  have hpixel := hpixels y (by rw [hheight]; exact hy) x (by rw [hwidth]; exact hx)
  rw [hwidth, hheight] at hpixel
  rw [hheight]
  exact hpixel

theorem readTGA_buffer24 (fresh : Nat → BitVec 32)
    (h : Uncompressed file 24 width height pixels Pixel.bytes24)
    (hsize : width.toNat * height.toNat < 2 ^ 29) (hy : y < height.toNat) (hx : x < width.toNat) :
    (readTGA file fresh).buffer ((height.toNat - 1 - y) * width.toNat + x) =
      (pixels (y * width.toNat + x)).color := by
  have hencoding : (readHeader file).encoding = 2 := h.encoding
  have hbpp : (readHeader file).bpp = 24 := h.bppByte
  have hdata := h.data _ (pixel_lt hy hx)
  rw [readTGA, if_pos hencoding, if_pos hbpp]
  refine (h.decoded (color24 file) 3 fresh hsize hy hx).trans ?_
  have hblue := hdata 0 (by simp [Pixel.bytes24])
  have hgreen := hdata 1 (by simp [Pixel.bytes24])
  have hred := hdata 2 (by simp [Pixel.bytes24])
  simp only [Pixel.bytes24, List.length_cons, List.length_nil, List.getElem_cons_zero,
    List.getElem_cons_succ, Nat.add_zero] at hblue hgreen hred
  rw [color24_eq, hblue, hgreen, hred]

theorem readTGA_buffer32 (fresh : Nat → BitVec 32)
    (h : Uncompressed file 32 width height pixels Pixel.bytes32)
    (hsize : width.toNat * height.toNat < 2 ^ 29) (hy : y < height.toNat) (hx : x < width.toNat) :
    (readTGA file fresh).buffer ((height.toNat - 1 - y) * width.toNat + x) =
      (pixels (y * width.toNat + x)).exchanged.color := by
  have hencoding : (readHeader file).encoding = 2 := h.encoding
  have hbpp : (readHeader file).bpp = 32 := h.bppByte
  have hdata := h.data _ (pixel_lt hy hx)
  rw [readTGA, if_pos hencoding, if_neg (by rw [hbpp]; decide), if_pos hbpp]
  refine (h.decoded (color32 file) 4 fresh hsize hy hx).trans ?_
  have hblue := hdata 0 (by simp [Pixel.bytes32])
  have hgreen := hdata 1 (by simp [Pixel.bytes32])
  have hred := hdata 2 (by simp [Pixel.bytes32])
  have halpha := hdata 3 (by simp [Pixel.bytes32])
  simp only [Pixel.bytes32, List.length_cons, List.length_nil, List.getElem_cons_zero,
    List.getElem_cons_succ, Nat.add_zero] at hblue hgreen hred halpha
  rw [color32_eq halpha, hblue, hgreen, hred]

theorem exists_row_column {w h k : Nat} (hk : k < w * h) :
    ∃ y < h, ∃ x < w, k = y * w + x := by
  have hw : 0 < w := Nat.pos_of_mul_pos_right (Nat.zero_lt_of_lt hk)
  refine ⟨k / w, Nat.div_lt_of_lt_mul hk, k % w, Nat.mod_lt k hw, ?_⟩
  rw [Nat.mul_comm, Nat.div_add_mod]

/-- The two paths agree exactly on the images in which every blue is as strong as the red. -/
theorem readTGA_agree_iff (fresh fresh' : Nat → BitVec 32)
    (h : Uncompressed file 24 width height pixels Pixel.bytes24)
    (h' : Uncompressed file' 32 width height pixels Pixel.bytes32)
    (hsize : width.toNat * height.toNat < 2 ^ 29) :
    Agree width height pixels (readTGA file fresh) (readTGA file' fresh') ↔
      ∀ k < width.toNat * height.toNat, (pixels k).blue = (pixels k).red := by
  constructor
  · intro hagree k hk
    obtain ⟨y, hy, x, hx, rfl⟩ := exists_row_column hk
    have hplace := pixel_lt (show height.toNat - 1 - y < height.toNat by omega) hx
    have hsame := hagree.same _ hplace
    rwa [readTGA_buffer24 fresh h hsize hy hx, readTGA_buffer32 fresh' h' hsize hy hx,
      exchanged_color_eq_iff] at hsame
  · intro hpixels
    refine ⟨?_, Pixel.color, ?_⟩
    · intro i hi
      obtain ⟨row, hrow, x, hx, rfl⟩ := exists_row_column hi
      have hy : height.toNat - 1 - row < height.toNat := by omega
      have hturned : row = height.toNat - 1 - (height.toNat - 1 - row) := by omega
      rw [hturned, readTGA_buffer24 fresh h hsize hy hx, readTGA_buffer32 fresh' h' hsize hy hx,
        exchanged_color_eq_iff]
      exact hpixels _ (pixel_lt hy hx)
    · intro y hy x hx
      exact readTGA_buffer24 fresh h hsize hy hx

def imageFile (width height bpp : Byte) (data : List Byte) : ByteMemory := fun p =>
  ([0, 0, 2, 0, 0, 0, 0, 0, 0, 0, 0, 0, width, 0, height, 0, bpp, 0] ++ data).getD p 0

def greys (k : Nat) : Pixel := ⟨BitVec.ofNat 8 (10 * k), 7, BitVec.ofNat 8 (10 * k)⟩

def greyFile (bpp : Byte) (bytesOf : Pixel → List Byte) : ByteMemory :=
  imageFile 2 2 bpp ((List.range 4).flatMap fun k => bytesOf (greys k))

/-- The image begins with the row that comes last in the file. -/
theorem readTGA_agree_iff_grey :
    Agree 2 2 greys (readTGA (greyFile 24 Pixel.bytes24) fun _ => 0)
        (readTGA (greyFile 32 Pixel.bytes32) fun _ => 0) ∧
      (readTGA (greyFile 24 Pixel.bytes24) fun _ => 0).buffer 0 = (greys 2).color := by
  have hfile : Uncompressed (greyFile 24 Pixel.bytes24) 24 2 2 greys Pixel.bytes24 :=
    ⟨by decide, by decide, by decide, by decide, by decide⟩
  have hfile' : Uncompressed (greyFile 32 Pixel.bytes32) 32 2 2 greys Pixel.bytes32 :=
    ⟨by decide, by decide, by decide, by decide, by decide⟩
  exact ⟨(readTGA_agree_iff (fun _ => 0) (fun _ => 0) hfile hfile' (by decide)).mpr
    fun _ _ => rfl, by decide⟩

/-- A red pixel is blue if it is stored with 32 bits. -/
theorem readTGA_red_differs :
    ¬ Agree 1 1 (fun _ => ⟨0, 0, 0xFF⟩)
      (readTGA (imageFile 1 1 24 (Pixel.bytes24 ⟨0, 0, 0xFF⟩)) fun _ => 0)
      (readTGA (imageFile 1 1 32 (Pixel.bytes32 ⟨0, 0, 0xFF⟩)) fun _ => 0) := by
  intro h
  exact absurd (h.same 0 (by decide)) (by decide)

end Paths

end TGA

end UnifiedOS.FileSystem
