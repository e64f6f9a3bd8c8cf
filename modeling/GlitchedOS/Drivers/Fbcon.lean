/-
The framebuffer console: a buffer of characters, a cursor, and the escape sequences of
`fbcon_write`.  The accesses to the buffer, to the parameters and to the palette are checked.
There is a frame buffer; what is drawn into it is left out, but for a bitmap that must be there.
-/
import Mathlib.Logic.Function.Basic

namespace GlitchedOS

structure Color where
  r : UInt8
  g : UInt8
  b : UInt8
deriving DecidableEq, Repr

/-- `character_t` -/
structure Character where
  c : UInt8
  fg : Color
  bg : Color
  padding : UInt8
deriving DecidableEq, Repr

inductive AnsiState where
  | text
  | escape
  | csi
deriving DecidableEq, Repr

/-- `ansi_parser_t` -/
structure AnsiParser where
  state : AnsiState
  params : Nat → Int32
  currentParam : Int32
  paramCount : Int
  digitAdded : Bool

/-- The console: `width` times `height` characters, and how many `console_buffer` was allocated
for. -/
structure Fbcon where
  width : UInt32
  height : UInt32
  consoleBuffer : Nat → Character
  allocated : Nat
  bgColor : Color
  fgColor : Color
  cursorX : UInt16
  cursorY : UInt16
  ansiParser : AnsiParser

/-- An access out of bounds, or a bitmap of no character. -/
inductive FbconFault where
  | consoleBuffer (index : Nat)
  | params (index : Int)
  | palette (index : Int)
  | bitmap (index : UInt8)
deriving DecidableEq, Repr

def black : Color := ⟨0x00, 0x00, 0x00⟩

def gray : Color := ⟨0xAA, 0xAA, 0xAA⟩

def ansiPalette : List Color :=
  [⟨0x00, 0x00, 0x00⟩, ⟨0xCD, 0x00, 0x00⟩, ⟨0x00, 0xCD, 0x00⟩, ⟨0xCD, 0xCD, 0x00⟩,
    ⟨0x00, 0x00, 0xEE⟩, ⟨0xCD, 0x00, 0xCD⟩, ⟨0x00, 0xCD, 0xCD⟩, ⟨0xE5, 0xE5, 0xE5⟩,
    ⟨0x7F, 0x7F, 0x7F⟩, ⟨0xFF, 0x00, 0x00⟩, ⟨0x00, 0xFF, 0x00⟩, ⟨0xFF, 0xFF, 0x00⟩,
    ⟨0x5C, 0x5C, 0xFF⟩, ⟨0xFF, 0x00, 0xFF⟩, ⟨0x00, 0xFF, 0xFF⟩, ⟨0xFF, 0xFF, 0xFF⟩]

def paletteAt (i : Int) : Except FbconFault Color :=
  if 0 ≤ i then
    match ansiPalette[i.toNat]? with
    | some color => .ok color
    | none => .error (.palette i)
  else .error (.palette i)

/-- `colorize_bitmap` is `NULL` for what is no character, and what it returns is read. -/
def colorizeBitmap (index : UInt8) : Except FbconFault Unit :=
  if 128 ≤ index then .error (.bitmap index) else .ok ()

/-- A `uint16_t` as an `int`. -/
def promote (x : UInt16) : Int32 := x.toUInt32.toInt32

/-- An `int` as a `uint16_t`. -/
def truncate (x : Int32) : UInt16 := x.toUInt32.toUInt16

namespace Fbcon

/-- The place of a character, in 32 bits. -/
def index (s : Fbcon) (x y : UInt32) : Nat := (y * s.width + x).toNat

def characterAt (s : Fbcon) (i : Nat) : Except FbconFault Character :=
  if i < s.allocated then .ok (s.consoleBuffer i) else .error (.consoleBuffer i)

def putCharacter (s : Fbcon) (i : Nat) (ch : Character) : Except FbconFault Fbcon :=
  if i < s.allocated then .ok { s with consoleBuffer := Function.update s.consoleBuffer i ch }
  else .error (.consoleBuffer i)

def paramAt (s : Fbcon) (i : Int) : Except FbconFault Int32 :=
  if 0 ≤ i ∧ i < 16 then .ok (s.ansiParser.params i.toNat) else .error (.params i)

def overCells (rows columns : Nat) (body : Fbcon → UInt32 → UInt32 → Except FbconFault Fbcon)
    (s : Fbcon) : Except FbconFault Fbcon :=
  (List.range rows).foldlM (fun s y =>
    (List.range columns).foldlM (fun s x => body s (.ofNat x) (.ofNat y)) s) s

/-- The character below is drawn, where it differs. -/
def redrawFromBelow (s : Fbcon) (x y : UInt32) : Except FbconFault Fbcon := do
  let here ← s.characterAt (s.index x y)
  let below ← s.characterAt (s.index x (y + 1))
  if here = below then .ok s
  else do
    colorizeBitmap below.c
    .ok s

def copyFromBelow (s : Fbcon) (x y : UInt32) : Except FbconFault Fbcon := do
  let below ← s.characterAt (s.index x (y + 1))
  s.putCharacter (s.index x y) below

def blankLast (s : Fbcon) (x : UInt32) : Except FbconFault Fbcon := do
  let entry ← s.characterAt (s.index x (s.height - 1))
  s.putCharacter (s.index x (s.height - 1)) { entry with c := 0x20, bg := black, fg := black }

/-- `scroll`.  The colors it draws with are put back. -/
def scroll (s : Fbcon) : Except FbconFault Fbcon := do
  let s ← overCells (s.height - 1).toNat s.width.toNat redrawFromBelow s
  let s ← overCells (s.height - 1).toNat s.width.toNat copyFromBelow s
  (List.range s.width.toNat).foldlM (fun s x => s.blankLast (.ofNat x)) s

def clearCharacter (s : Fbcon) (i : Nat) : Except FbconFault Fbcon := do
  let entry ← s.characterAt i
  s.putCharacter i { entry with c := 0x20, bg := s.bgColor, fg := s.fgColor }

/-- `clear_screen` -/
def clearScreen (s : Fbcon) : Except FbconFault Fbcon :=
  (List.range (s.width * s.height).toNat).foldlM clearCharacter s

/-- `draw_cursor` -/
def drawCursor (s : Fbcon) : Except FbconFault Unit := do
  let entry ← s.characterAt (s.index s.cursorX.toUInt32 s.cursorY.toUInt32)
  colorizeBitmap entry.c

/-- `update_cursor`: the old place is drawn over, if it is on the screen as an unsigned one. -/
def updateCursor (s : Fbcon) (oldX oldY : Int32) : Except FbconFault Fbcon := do
  if (oldX ≠ promote s.cursorX ∨ oldY ≠ promote s.cursorY) ∧
      (oldX.toUInt32 < s.width ∧ oldY.toUInt32 < s.height) then do
    let old ← s.characterAt (s.index oldX.toUInt32 oldY.toUInt32)
    colorizeBitmap old.c
    s.drawCursor
    .ok s
  else do
    s.drawCursor
    .ok s

/-- `newline` -/
def newline (s : Fbcon) : Except FbconFault Fbcon := do
  let oldX := promote s.cursorX
  let oldY := promote s.cursorY
  let s := { s with cursorX := 0, cursorY := s.cursorY + 1 }
  if s.height ≤ s.cursorY.toUInt32 then do
    let s ← s.scroll
    let oldY := (s.height - 2).toInt32
    let s := { s with cursorY := (s.height - 1).toUInt16 }
    s.updateCursor oldX oldY
  else s.updateCursor oldX oldY

/-- `fbcon_putchar` -/
def putchar (s : Fbcon) (c : UInt8) : Except FbconFault Fbcon := do
  if 128 ≤ c then .ok s
  else if c = 0x0A then s.newline
  else if c = 0x08 then
    let oldX := promote s.cursorX
    let oldY := promote s.cursorY
    let s :=
      if s.cursorX = 0 then
        if 0 < s.cursorY then
          { s with cursorX := (s.width - 1).toUInt16, cursorY := s.cursorY - 1 }
        else s
      else { s with cursorX := s.cursorX - 1 }
    s.updateCursor oldX oldY
  else if c = 0x00 then .ok s
  else do
    colorizeBitmap c
    let i := s.index s.cursorX.toUInt32 s.cursorY.toUInt32
    let entry ← s.characterAt i
    let s ← s.putCharacter i { entry with c := c, bg := s.bgColor, fg := s.fgColor }
    let s := { s with cursorX := s.cursorX + 1 }
    if s.width ≤ s.cursorX.toUInt32 then
      newline { s with cursorX := (s.width - 1).toUInt16 }
    else do
      s.drawCursor
      .ok s

/-- `set_cursor_position` -/
def setCursorPosition (s : Fbcon) (x y : UInt16) : Except FbconFault Fbcon :=
  if x.toUInt32 < s.width ∧ y.toUInt32 < s.height then
    { s with cursorX := x, cursorY := y }.updateCursor (promote s.cursorX) (promote s.cursorY)
  else .ok s

/-- A parameter that is missing or zero is one. -/
def countParam (s : Fbcon) : Except FbconFault Int32 := do
  let n ← s.paramAt 0
  .ok (if n ≠ 0 then n else 1)

def cursorTo (s : Fbcon) : Except FbconFault Fbcon := do
  let column ← s.paramAt 1
  let row ← s.paramAt 0
  s.setCursorPosition (truncate (if column ≠ 0 then column - 1 else 0))
    (truncate (if row ≠ 0 then row - 1 else 0))

def cursorUp (s : Fbcon) : Except FbconFault Fbcon := do
  let n ← s.countParam
  s.setCursorPosition s.cursorX
    (truncate (if n < promote s.cursorY then promote s.cursorY - n else 0))

def scrollTimes : Nat → Fbcon → Except FbconFault Fbcon
  | 0, s => .ok s
  | n + 1, s => do
    let s ← s.scroll
    scrollTimes n s

/-- Compared with the height the new row is unsigned, and as a number of rounds it is signed. -/
def cursorDown (s : Fbcon) : Except FbconFault Fbcon := do
  let n ← s.countParam
  let newY := promote s.cursorY + n
  if s.height ≤ newY.toUInt32 then do
    let scrollAmount := (newY.toUInt32 - (s.height - 1)).toInt32
    let s ← scrollTimes scrollAmount.toInt.toNat s
    s.setCursorPosition s.cursorX (s.height - 1).toUInt16
  else s.setCursorPosition s.cursorX (truncate newY)

def cursorForward (s : Fbcon) : Except FbconFault Fbcon := do
  let n ← s.countParam
  let newX := promote s.cursorX + n
  s.setCursorPosition (if s.width ≤ newX.toUInt32 then (s.width - 1).toUInt16 else truncate newX)
    s.cursorY

def cursorBack (s : Fbcon) : Except FbconFault Fbcon := do
  let n ← s.countParam
  let newX := promote s.cursorX - n
  s.setCursorPosition (truncate (if newX < 0 then 0 else newX)) s.cursorY

def trueColor (s : Fbcon) : Except FbconFault Color := do
  let r ← s.paramAt 2
  let g ← s.paramAt 3
  let b ← s.paramAt 4
  .ok ⟨r.toUInt32.toUInt8, g.toUInt32.toUInt8, b.toUInt32.toUInt8⟩

/-- One parameter of a color sequence. -/
def selectColor (s : Fbcon) (i : Nat) : Except FbconFault Fbcon := do
  let p ← s.paramAt i
  if p = 0 then .ok { s with bgColor := black, fgColor := gray }
  else if 30 ≤ p ∧ p ≤ 37 then do
    let color ← paletteAt (p.toInt - 30)
    .ok { s with fgColor := color }
  else if 40 ≤ p ∧ p ≤ 47 then do
    let color ← paletteAt (p.toInt - 40)
    .ok { s with bgColor := color }
  else if 90 ≤ p ∧ p ≤ 97 then do
    let color ← paletteAt (p.toInt - 90 + 8)
    .ok { s with fgColor := color }
  else if 100 ≤ p ∧ p ≤ 107 then do
    let color ← paletteAt (p.toInt - 100 + 8)
    .ok { s with bgColor := color }
  else .ok s

def selectGraphics (s : Fbcon) : Except FbconFault Fbcon := do
  let first ← s.paramAt 0
  let second ← s.paramAt 1
  if first = 38 ∧ second = 2 ∧ 5 ≤ s.ansiParser.paramCount then do
    let color ← s.trueColor
    .ok { s with fgColor := color }
  else if first = 48 ∧ second = 2 ∧ 5 ≤ s.ansiParser.paramCount then do
    let color ← s.trueColor
    .ok { s with bgColor := color }
  else if s.ansiParser.paramCount = 0 then .ok { s with bgColor := black, fgColor := gray }
  else (List.range s.ansiParser.paramCount.toNat).foldlM selectColor s

/-- The current parameter is stored. -/
def pushParam (s : Fbcon) : Except FbconFault Fbcon :=
  let parser := s.ansiParser
  if 0 ≤ parser.paramCount ∧ parser.paramCount < 16 then
    .ok { s with ansiParser := { parser with
      params := Function.update parser.params parser.paramCount.toNat parser.currentParam
      paramCount := parser.paramCount + 1 } }
  else .error (.params parser.paramCount)

/-- What the last byte of a sequence asks for. -/
def command (s : Fbcon) (c : UInt8) : Except FbconFault Fbcon :=
  if c = 0x48 ∨ c = 0x66 then s.cursorTo
  else if c = 0x4A then do
    let s ← s.clearScreen
    s.drawCursor
    .ok s
  else if c = 0x41 then s.cursorUp
  else if c = 0x42 then s.cursorDown
  else if c = 0x43 then s.cursorForward
  else if c = 0x44 then s.cursorBack
  else if c = 0x6D then s.selectGraphics
  else .ok s

def withState (s : Fbcon) (state : AnsiState) : Fbcon :=
  { s with ansiParser := { s.ansiParser with state := state } }

/-- A byte of an escape sequence, after the bracket. -/
def csiByte (s : Fbcon) (c : UInt8) : Except FbconFault Fbcon := do
  let parser := s.ansiParser
  if 0x30 ≤ c ∧ c ≤ 0x39 then
    .ok { s with ansiParser := { parser with
      currentParam := parser.currentParam * 10 + (c - 0x30).toUInt32.toInt32
      digitAdded := true } }
  else if c = 0x3B ∧ parser.paramCount < 16 then do
    let s ← s.pushParam
    .ok { s with ansiParser := { s.ansiParser with currentParam := 0, digitAdded := false } }
  else do
    let s ← if parser.digitAdded ∧ parser.paramCount < 16 then s.pushParam else .ok s
    let s ← s.command c
    .ok (s.withState .text)

/-- One byte of `fbcon_write`. -/
def writeByte (s : Fbcon) (c : UInt8) : Except FbconFault Fbcon :=
  match s.ansiParser.state with
  | .text => if c = 0x1B then .ok (s.withState .escape) else s.putchar c
  | .escape =>
    if c = 0x5B then .ok { s with ansiParser := ⟨.csi, fun _ => 0, 0, 0, false⟩ }
    else .ok (s.withState .text)
  | .csi => s.csiByte c

end Fbcon

inductive FbconCall where
  | write
  | echo
deriving DecidableEq, Repr

def FbconCall.byte : FbconCall → Fbcon → UInt8 → Except FbconFault Fbcon
  | .write => Fbcon.writeByte
  | .echo => Fbcon.putchar

/-- `fbcon_write` and `fbcon_echo`.  The index is an `int`: after 2^31 bytes it is negative, and
compared with the length it is no index below it. -/
def FbconCall.run (call : FbconCall) (bytes : List UInt8) (s : Fbcon) : Except FbconFault Fbcon :=
  (bytes.take 0x80000000).foldlM call.byte s

def fbconCalls (calls : List (FbconCall × List UInt8)) (s : Fbcon) : Except FbconFault Fbcon :=
  calls.foldlM (fun s call => call.1.run call.2 s) s

/-- The end of `fbcon_init`, for a screen of so many characters and a buffer that holds
anything. -/
def fbconInit (width height : UInt32) (memory : Nat → Character) : Except FbconFault Fbcon := do
  let s ← Fbcon.clearScreen ⟨width, height, memory, (width * height).toNat, black, gray, 0, 0,
    ⟨.text, fun _ => 0, 0, 0, false⟩⟩
  s.setCursorPosition 0 0

end GlitchedOS
