import UnifiedOS.Foundation.ByteMemory
import UnifiedOS.Foundation.EdgeEvents
import Mathlib.Tactic.IntervalCases

/-!
# The mouse

An interrupt of the mouse brings one byte of a packet of three, if the controller
says that there is one.  The third byte ends the packet: its movement is reported,
and every button that differs from the last packet.
-/

namespace UnifiedOS.Drivers

open UnifiedOS.Foundation UnifiedOS.Foundation.EdgeEvents

inductive MouseEvent where
  | onMouseDown (button : Byte)
  | onMouseUp (button : Byte)
  | onMouseMove (x y : Int)
  deriving DecidableEq, Repr

/-- What the command port and the data port hold when an interrupt comes. -/
structure MouseInterrupt where
  status : Byte
  data : Byte

/-- The driver with the global `Skip`, the calls it has made and the indices it has written. -/
structure PS2MouseDriver where
  skip : Bool
  buffer : Nat → Byte
  offset : Byte
  buttons : Byte
  handler : Bool
  events : List MouseEvent
  written : List Nat

namespace PS2MouseDriver

def emit (s : PS2MouseDriver) (event : MouseEvent) : PS2MouseDriver :=
  { s with events := s.events ++ [event] }

def compareButton (s : PS2MouseDriver) (i : Nat) : PS2MouseDriver :=
  if s.buffer 0 &&& 1#8 <<< i ≠ s.buttons &&& 1#8 <<< i then
    if s.buttons &&& 1#8 <<< i ≠ 0 then s.emit (.onMouseUp (BitVec.ofNat 8 (i + 1)))
    else s.emit (.onMouseDown (BitVec.ofNat 8 (i + 1)))
  else s

def handlePacket (s : PS2MouseDriver) : PS2MouseDriver :=
  let s :=
    if s.buffer 1 ≠ 0 ∨ s.buffer 2 ≠ 0 then
      s.emit (.onMouseMove (s.buffer 1).toInt (-(s.buffer 2).toInt))
    else s
  let s := (List.range 3).foldl compareButton s
  { s with buttons := s.buffer 0 }

def receive (s : PS2MouseDriver) (data : Byte) : PS2MouseDriver :=
  let s := { s with
    buffer := Function.update s.buffer s.offset.toNat data
    written := s.written ++ [s.offset.toNat] }
  if s.handler then
    let s := { s with offset := BitVec.ofNat 8 ((s.offset.toNat + 1) % 3) }
    if s.offset = 0 then s.handlePacket else s
  else s

def handleInterrupt (s : PS2MouseDriver) (interrupt : MouseInterrupt) : PS2MouseDriver :=
  if s.skip then { s with skip := false }
  else if interrupt.status &&& 0x20 = 0 then s
  else s.receive interrupt.data

end PS2MouseDriver

/-! ## Packets -/

structure MousePacket where
  buttons : Byte
  dx : Byte
  dy : Byte
  deriving DecidableEq

namespace MousePacket

def bytes (p : MousePacket) : List Byte := [p.buttons, p.dx, p.dy]

def move (p : MousePacket) : Option (Int × Int) :=
  if p.dx ≠ 0 ∨ p.dy ≠ 0 then some (p.dx.toInt, -p.dy.toInt) else none

def ofBytes : List Byte → List MousePacket
  | a :: b :: c :: rest => ⟨a, b, c⟩ :: ofBytes rest
  | _ => []

def lastButtons (old : Byte) (packets : List MousePacket) : Byte :=
  (packets.getLast?.map MousePacket.buttons).getD old

end MousePacket

def readyBytes (interrupts : List MouseInterrupt) : List Byte :=
  interrupts.filterMap fun interrupt =>
    if interrupt.status &&& 0x20 = 0 then none else some interrupt.data

namespace MouseEvent

/-- The button events, as edges of the buttons 1, 2 and 3. -/
def edge : MouseEvent → Option (Edge Byte)
  | onMouseDown button => some ⟨button, true⟩
  | onMouseUp button => some ⟨button, false⟩
  | onMouseMove _ _ => none

def move : MouseEvent → Option (Int × Int)
  | onMouseMove x y => some (x, y)
  | _ => none

end MouseEvent

def held (buttons button : Byte) : Bool :=
  [1#8, 2#8, 3#8].contains button && buttons.getLsbD (button.toNat - 1)

namespace PS2MouseDriver

/-- A driver with a handler, between two packets, of which nothing has been recorded. -/
structure Ready (s : PS2MouseDriver) (buttons : Byte) : Prop where
  skip : s.skip = false
  handler : s.handler = true
  offset : s.offset = 0
  buttons : s.buttons = buttons
  events : s.events = []
  written : s.written = []

structure Tracks (b0 : Byte) (bytes : List Byte) (s : PS2MouseDriver) : Prop where
  whole : s.offset = 0 → (MousePacket.ofBytes bytes).flatMap MousePacket.bytes = bytes
  lastPacket : s.buttons = MousePacket.lastButtons b0 (MousePacket.ofBytes bytes)
  replayed : replay (held b0) (s.events.filterMap MouseEvent.edge) = some (held s.buttons)
  alternating : ∀ button, (held b0 button ::
    levelsOf button (s.events.filterMap MouseEvent.edge)).IsChain (· ≠ ·)
  moves : s.events.filterMap MouseEvent.move =
    (MousePacket.ofBytes bytes).filterMap MousePacket.move
  inBuffer : ∀ i ∈ s.written, i < 3

end PS2MouseDriver

/-! ## The events of a packet -/

def eventOf (edge : Edge Byte) : MouseEvent :=
  if edge.down then .onMouseDown edge.key else .onMouseUp edge.key

def packetEvents (old : Byte) (p : MousePacket) : List MouseEvent :=
  (p.move.map fun m => MouseEvent.onMouseMove m.1 m.2).toList ++
    (edgesBetween (held old) (held p.buttons) [1#8, 2#8, 3#8]).map eventOf

def packetsEvents : Byte → List MousePacket → List MouseEvent
  | _, [] => []
  | old, p :: packets => packetEvents old p ++ packetsEvents p.buttons packets

section Packets

variable {old : Byte} {p : MousePacket} {packets : List MousePacket}

theorem edge_eventOf (edge : Edge Byte) : (eventOf edge).edge = some edge := by
  cases edge with
  | mk key down =>
      cases down with
      | true => rfl
      | false => rfl

theorem move_eventOf (edge : Edge Byte) : (eventOf edge).move = none := by
  unfold eventOf
  split
  · rfl
  · rfl

theorem edges_packetEvents : (packetEvents old p).filterMap MouseEvent.edge =
    edgesBetween (held old) (held p.buttons) [1#8, 2#8, 3#8] := by
  have hbuttons : ∀ edges : List (Edge Byte),
      (edges.map eventOf).filterMap MouseEvent.edge = edges := by
    intro edges
    rw [List.filterMap_map]
    exact (List.filterMap_congr fun edge _ => edge_eventOf edge).trans List.filterMap_some
  rw [packetEvents, List.filterMap_append, hbuttons]
  cases p.move with
  | none => rfl
  | some m => rfl

theorem moves_packetEvents :
    (packetEvents old p).filterMap MouseEvent.move = p.move.toList := by
  have hbuttons : ∀ edges : List (Edge Byte),
      (edges.map eventOf).filterMap MouseEvent.move = [] := by
    intro edges
    rw [List.filterMap_map, List.filterMap_eq_nil_iff]
    exact fun edge _ => move_eventOf edge
  rw [packetEvents, List.filterMap_append, hbuttons]
  cases p.move with
  | none => rfl
  | some m => rfl

theorem replay_packetEvents :
    replay (held old) ((packetEvents old p).filterMap MouseEvent.edge) =
      some (held p.buttons) := by
  rw [edges_packetEvents, replay_edgesBetween (by decide) fun _ _ => rfl]
  congr 1
  funext button
  split
  · rfl
  · rename_i hother
    simp [held, hother]

theorem lastButtons_cons : MousePacket.lastButtons old (p :: packets) =
    MousePacket.lastButtons p.buttons packets := by
  unfold MousePacket.lastButtons
  rw [List.getLast?_cons]
  cases packets.getLast? with
  | none => rfl
  | some last => rfl

theorem replay_packetsEvents (old : Byte) (packets : List MousePacket) :
    replay (held old) ((packetsEvents old packets).filterMap MouseEvent.edge) =
      some (held (MousePacket.lastButtons old packets)) := by
  induction packets generalizing old with
  | nil => rfl
  | cons p packets ih =>
      rw [packetsEvents, List.filterMap_append, replay_append, replay_packetEvents,
        Option.bind_some, ih, lastButtons_cons]

theorem moves_packetsEvents (old : Byte) (packets : List MousePacket) :
    (packetsEvents old packets).filterMap MouseEvent.move =
      packets.filterMap MousePacket.move := by
  induction packets generalizing old with
  | nil => rfl
  | cons p packets ih =>
      rw [packetsEvents, List.filterMap_append, moves_packetEvents, ih, List.filterMap_cons]
      cases p.move with
      | none => rfl
      | some m => rfl

end Packets

namespace PS2MouseDriver

section Driver

variable {s : PS2MouseDriver} {interrupts : List MouseInterrupt} {bytes : List Byte} {b0 : Byte}

/-! ## One packet -/

theorem and_bit (buttons : Byte) (i : Nat) :
    buttons &&& 1#8 <<< i = if buttons.getLsbD i then BitVec.twoPow 8 i else 0 :=
  BitVec.and_twoPow buttons i

theorem bit_ne_zero {i : Nat} (hi : i < 8) : BitVec.twoPow 8 i ≠ 0#8 := by
  intro hzero
  have hbit := congrArg (BitVec.getLsbD · i) hzero
  simp [hi] at hbit

theorem held_button {i : Nat} (hi : i < 3) (buttons : Byte) :
    held buttons (BitVec.ofNat 8 (i + 1)) = buttons.getLsbD i := by
  interval_cases i
  · simp [held]
  · simp [held]
  · simp [held]

theorem compareButton_eq {i : Nat} (hi : i < 3) (s : PS2MouseDriver) :
    s.compareButton i = { s with events := s.events ++
      (if held s.buttons (BitVec.ofNat 8 (i + 1)) ≠ held (s.buffer 0) (BitVec.ofNat 8 (i + 1)) then
        [eventOf ⟨BitVec.ofNat 8 (i + 1), held (s.buffer 0) (BitVec.ofNat 8 (i + 1))⟩]
      else []) } := by
  have hbit := bit_ne_zero (show i < 8 by omega)
  rw [held_button hi, held_button hi]
  simp only [compareButton, and_bit]
  cases hnew : (s.buffer 0).getLsbD i with
  | true =>
      cases hold : s.buttons.getLsbD i with
      | true => simp
      | false => simp [hbit, emit, eventOf]
  | false =>
      cases hold : s.buttons.getLsbD i with
      | true => simp [hbit, Ne.symm hbit, emit, eventOf]
      | false => simp

theorem handlePacket_eq (s : PS2MouseDriver) :
    s.handlePacket = { s with
      events := s.events ++ packetEvents s.buttons ⟨s.buffer 0, s.buffer 1, s.buffer 2⟩
      buttons := s.buffer 0 } := by
  have hloop : ∀ s : PS2MouseDriver, (List.range 3).foldl compareButton s = { s with
      events := s.events ++
        (edgesBetween (held s.buttons) (held (s.buffer 0)) [1#8, 2#8, 3#8]).map eventOf } := by
    intro s
    change ((s.compareButton 0).compareButton 1).compareButton 2 = _
    rw [compareButton_eq (by decide), compareButton_eq (by decide), compareButton_eq (by decide)]
    simp only [edgesBetween, List.map_append, apply_ite (List.map eventOf), List.map_cons,
      List.map_nil, List.append_assoc, List.append_nil]
  unfold handlePacket packetEvents MousePacket.move
  dsimp only
  rw [hloop]
  split
  · simp [emit]
  · simp

/-! ## A stream of bytes -/

theorem receive_first (hhandler : s.handler = true) (hoffset : s.offset = 0) (a : Byte) :
    s.receive a = { s with
      buffer := Function.update s.buffer 0 a
      written := s.written ++ [0]
      offset := 1 } := by
  simp [receive, hhandler, hoffset]

theorem receive_second (hhandler : s.handler = true) (hoffset : s.offset = 0) (a b : Byte) :
    (s.receive a).receive b = { s with
      buffer := Function.update (Function.update s.buffer 0 a) 1 b
      written := s.written ++ [0] ++ [1]
      offset := 2 } := by
  simp [receive, hhandler, hoffset]

theorem receive_packet (hhandler : s.handler = true) (hoffset : s.offset = 0) (a b c : Byte) :
    ((s.receive a).receive b).receive c = { s with
      buffer := Function.update (Function.update (Function.update s.buffer 0 a) 1 b) 2 c
      written := s.written ++ [0] ++ [1] ++ [2]
      events := s.events ++ packetEvents s.buttons ⟨a, b, c⟩
      buttons := a } := by
  simp [receive, hhandler, hoffset, handlePacket_eq]

structure Followed (s : PS2MouseDriver) (bytes : List Byte) (s' : PS2MouseDriver) : Prop where
  events : s'.events = s.events ++ packetsEvents s.buttons (MousePacket.ofBytes bytes)
  buttons : s'.buttons = MousePacket.lastButtons s.buttons (MousePacket.ofBytes bytes)
  whole : s'.offset = 0 → (MousePacket.ofBytes bytes).flatMap MousePacket.bytes = bytes
  written : ∀ i ∈ s'.written, i ∈ s.written ∨ i < 3

theorem feed_followed (bytes : List Byte) (s : PS2MouseDriver) (hhandler : s.handler = true)
    (hoffset : s.offset = 0) : Followed s bytes (bytes.foldl receive s) := by
  have hzero : s.offset.toNat = 0 := by rw [hoffset]; rfl
  induction bytes using MousePacket.ofBytes.induct generalizing s with
  | case1 a b c rest ih =>
      rw [List.foldl_cons, List.foldl_cons, List.foldl_cons,
        receive_packet hhandler hoffset a b c]
      have hrest := ih { s with
        buffer := Function.update (Function.update (Function.update s.buffer 0 a) 1 b) 2 c
        written := s.written ++ [0] ++ [1] ++ [2]
        events := s.events ++ packetEvents s.buttons ⟨a, b, c⟩
        buttons := a } hhandler hoffset hzero
      refine ⟨?_, ?_, ?_, ?_⟩
      · rw [hrest.events, List.append_assoc]
        rfl
      · rw [hrest.buttons, MousePacket.ofBytes, lastButtons_cons]
      · intro hboundary
        rw [MousePacket.ofBytes, List.flatMap_cons, hrest.whole hboundary]
        rfl
      · intro i hi
        have hbefore := hrest.written i hi
        simp only [List.mem_append, List.mem_singleton, or_assoc] at hbefore
        exact hbefore.imp_right fun hpacket => by omega
  | case2 bytes hshort =>
      rcases bytes with _ | ⟨a, _ | ⟨b, _ | ⟨c, rest⟩⟩⟩
      · exact ⟨(List.append_nil _).symm, rfl, fun _ => rfl, fun i hi => .inl hi⟩
      · rw [List.foldl_cons, List.foldl_nil, receive_first hhandler hoffset a]
        refine ⟨(List.append_nil _).symm, rfl, fun hboundary => ?_, fun i hi => ?_⟩
        · exact absurd hboundary (show (1 : Byte) ≠ 0 by decide)
        · simp only [List.mem_append, List.mem_singleton] at hi
          exact hi.imp_right fun hfirst => by omega
      · rw [List.foldl_cons, List.foldl_cons, List.foldl_nil, receive_second hhandler hoffset a b]
        refine ⟨(List.append_nil _).symm, rfl, fun hboundary => ?_, fun i hi => ?_⟩
        · exact absurd hboundary (show (2 : Byte) ≠ 0 by decide)
        · simp only [List.mem_append, List.mem_singleton, or_assoc] at hi
          exact hi.imp_right fun hsecond => by omega
      · exact absurd rfl (hshort a b c rest)

/-! ## A run of interrupts -/

theorem skip_receive (data : Byte) : (s.receive data).skip = s.skip := by
  unfold receive
  dsimp only
  split
  · split
    · rw [handlePacket_eq]
    · rfl
  · rfl

theorem run_eq_feed (hskip : s.skip = false) :
    interrupts.foldl handleInterrupt s = (readyBytes interrupts).foldl receive s := by
  induction interrupts generalizing s with
  | nil => rfl
  | cons interrupt rest ih =>
      rw [List.foldl_cons, readyBytes, List.filterMap_cons, handleInterrupt, hskip]
      simp only [Bool.false_eq_true, if_false]
      split
      · exact ih hskip
      · rw [List.foldl_cons]
        exact ih ((skip_receive interrupt.data).trans hskip)

/-- At any time the events tell the last packet from the buttons at the start. -/
theorem handleInterrupts_track (h : s.Ready b0) (interrupts : List MouseInterrupt) :
    (interrupts.foldl handleInterrupt s).Tracks b0 (readyBytes interrupts) := by
  have hfollowed := feed_followed (readyBytes interrupts) s h.handler h.offset
  rw [← run_eq_feed h.skip] at hfollowed
  have hevents := hfollowed.events
  have hbuttons := hfollowed.buttons
  rw [h.events, h.buttons, List.nil_append] at hevents
  rw [h.buttons] at hbuttons
  have hreplay := replay_packetsEvents b0 (MousePacket.ofBytes (readyBytes interrupts))
  rw [← hevents, ← hbuttons] at hreplay
  refine ⟨hfollowed.whole, hbuttons, hreplay, fun button => alternating_of_replay hreplay, ?_, ?_⟩
  · rw [hevents, moves_packetsEvents]
  · intro i hi
    have hwritten := hfollowed.written i hi
    rw [h.written] at hwritten
    exact hwritten.resolve_left List.not_mem_nil

/-- A packet with the left button held and a movement, behind an interrupt without a byte. -/
theorem handleInterrupts_track_leftButton :
    PS2MouseDriver.Tracks 0 (readyBytes [⟨0, 9⟩, ⟨0x20, 1⟩, ⟨0x20, 5⟩, ⟨0x20, 0xFF⟩])
      ([⟨0, 9⟩, ⟨0x20, 1⟩, ⟨0x20, 5⟩, ⟨0x20, 0xFF⟩].foldl handleInterrupt
        ⟨false, fun _ => 0, 0, 0, true, [], []⟩) :=
  handleInterrupts_track (show Ready ⟨false, fun _ => 0, 0, 0, true, [], []⟩ 0 from
    ⟨rfl, rfl, rfl, rfl, rfl, rfl⟩) _

end Driver

end PS2MouseDriver

end UnifiedOS.Drivers
