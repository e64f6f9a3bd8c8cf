/-
The terminal layer.  Characters received are edited into lines, lines are committed to
the read buffer, and reads take from it.  A character is a byte; `char` is signed, so the
bytes from 128 on are negative and never printable.
-/
import GlitchedOS.Error
import GlitchedOS.Lib.Ring

namespace GlitchedOS

def iCrnl : UInt64 := 0x1
def iStrip : UInt64 := 0x2

def iCanon : UInt64 := 0x1
def tEcho : UInt64 := 0x2
def tEchoe : UInt64 := 0x4
def iSig : UInt64 := 0x10

/-- The fields of `termios_t` that input is processed by. -/
structure Termios where
  cIflag : UInt64
  cLflag : UInt64
deriving DecidableEq, Repr

namespace Termios

def icrnl (t : Termios) : Bool := t.cIflag &&& iCrnl != 0
def istrip (t : Termios) : Bool := t.cIflag &&& iStrip != 0
def icanon (t : Termios) : Bool := t.cLflag &&& iCanon != 0
def echo (t : Termios) : Bool := t.cLflag &&& tEcho != 0
def echoe (t : Termios) : Bool := t.cLflag &&& tEchoe != 0
def isig (t : Termios) : Bool := t.cLflag &&& iSig != 0

/-- The input flags applied to a character. -/
def translate (t : Termios) (c : UInt8) : UInt8 :=
  let c := if t.istrip then c &&& 0x7F else c
  if t.icrnl && c == 0x0D then 0x0A else c

end Termios

/-- `tty_t`, without the callbacks and their data. -/
structure Tty where
  termios : Termios
  readBuffer : Nat → UInt8
  readHead : Nat
  writeHead : Nat
  lineBuffer : Nat → UInt8
  lineIndex : Nat
  foregroundPgid : Int
  eof : Bool

/-- What a received character asks for besides. -/
inductive TtyEffect where
  | kill (pid : Int) (signal : Nat)
  | echo (bytes : List UInt8)
deriving DecidableEq, Repr

def ttyBufferSize : Nat := 4096

def ttyLineLimit : Nat := 1022

def isPrintable (c : UInt8) : Bool := decide (0x20 ≤ c) && decide (c ≤ 0x7E)

def isErase (c : UInt8) : Bool := c == 0x08 || c == 0x7F

namespace Tty

def full (t : Tty) : Bool := (t.writeHead + 1) % ttyBufferSize == t.readHead

def store (t : Tty) (c : UInt8) : Tty :=
  { t with
    readBuffer := Function.update t.readBuffer t.writeHead c
    writeHead := (t.writeHead + 1) % ttyBufferSize }

/-- The loop that copies `n` characters of the line from `i` on, and whether it came to
its end: a full buffer makes `tty_char_recv` return. -/
def copyLine : Nat → Nat → Tty → Bool × Tty
  | 0, _, t => (true, t)
  | n + 1, i, t =>
    if t.full then (false, t) else copyLine n (i + 1) (t.store (t.lineBuffer i))

/-- The end-of-file character: the line is committed as it stands. -/
def endOfFile (t : Tty) : Bool × Tty :=
  let (finished, t) := copyLine t.lineIndex 0 t
  if finished then
    (true, { t with eof := t.eof || t.lineIndex == 0, lineIndex := 0 })
  else (false, t)

/-- A character in canonical mode: whether `tty_char_recv` goes on, whether a character
was erased, and the terminal left. -/
def edit (t : Tty) (c : UInt8) : Bool × Bool × Tty :=
  if isErase c then
    if 0 < t.lineIndex then (true, true, { t with lineIndex := t.lineIndex - 1 })
    else (true, false, t)
  else if c = 0x0A then
    let t := { t with
      lineBuffer := Function.update t.lineBuffer t.lineIndex c
      lineIndex := t.lineIndex + 1 }
    let (finished, t) := copyLine t.lineIndex 0 t
    if finished then (true, false, { t with lineIndex := 0 }) else (false, false, t)
  else if ttyLineLimit ≤ t.lineIndex then (false, false, t)
  else
    (true, false, { t with
      lineBuffer := Function.update t.lineBuffer t.lineIndex c
      lineIndex := t.lineIndex + 1 })

def signals (t : Tty) (c : UInt8) : Bool × List TtyEffect :=
  if t.termios.isig && c == 0x03 then
    (true, if 0 < t.foregroundPgid then [.kill (-t.foregroundPgid) 2] else [])
  else if t.termios.isig && c == 0x1A then
    (true, if 0 < t.foregroundPgid then [.kill (-t.foregroundPgid) 20] else [])
  else (false, [])

def eraseEcho : TtyEffect := .echo [0x08, 0x20, 0x08]

/-- What is echoed for a character that was processed. -/
def echoOf (t : Tty) (c : UInt8) (erased : Bool) : List TtyEffect :=
  if t.termios.echoe && t.termios.icanon && isErase c then
    if erased then
      if isPrintable (t.lineBuffer t.lineIndex) then [eraseEcho] else [eraseEcho, eraseEcho]
    else []
  else if t.termios.echo then
    if isPrintable c || c == 0x0A then [.echo [c]] else [.echo [0x5E, c + 0x40]]
  else []

end Tty

/-- `tty_char_recv` on a terminal that exists. -/
def ttyCharRecv (t : Tty) (c : UInt8) : Tty × List TtyEffect :=
  let c := t.termios.translate c
  let (skipInput, kills) := t.signals c
  if t.termios.icanon && c == 0x04 then
    let (finished, t) := t.endOfFile
    if finished then (t, kills ++ t.echoOf c false) else (t, kills)
  else if skipInput then (t, kills ++ t.echoOf c false)
  else if t.termios.icanon then
    let (finished, erased, t) := t.edit c
    if finished then (t, kills ++ t.echoOf c erased) else (t, kills)
  else if t.full then (t, kills)
  else (t.store c, kills ++ (t.store c).echoOf c false)

/-- The loop of `tty_read`. -/
def ttyReadLoop : Nat → Tty → List UInt8 × Tty
  | 0, t => ([], t)
  | n + 1, t =>
    if t.readHead = t.writeHead then ([], t)
    else
      let (bytes, t') := ttyReadLoop n { t with readHead := (t.readHead + 1) % ttyBufferSize }
      (t.readBuffer t.readHead :: bytes, t')

/-- `tty_read` on a terminal that exists: the result, the bytes and the terminal left. -/
def ttyRead (t : Tty) (len : Nat) : Int × List UInt8 × Tty :=
  if t.eof && t.readHead == t.writeHead then (0, [], { t with eof := false })
  else if t.readHead = t.writeHead then (eAgain, [], t)
  else
    let (bytes, t) := ttyReadLoop len t
    (bytes.length, bytes, t)

namespace Tty

/-- Both ends are in the buffer. -/
structure Valid (t : Tty) : Prop where
  readHead : t.readHead < ttyBufferSize
  writeHead : t.writeHead < ttyBufferSize

def contents (t : Tty) : List UInt8 :=
  ringContents ttyBufferSize t.readBuffer t.readHead t.writeHead

variable {t t' : Tty}

theorem Valid.full_iff (h : t.Valid) : t.full = true ↔ t.contents.length = 4095 := by
  rw [full, beq_iff_eq, ring_full_iff h.readHead h.writeHead, contents, ringContents_length]
  unfold ttyBufferSize
  omega

theorem Valid.length_le (h : t.Valid) : t.contents.length ≤ 4095 := by
  have hcases := ringStored_cases h.readHead h.writeHead
  rw [contents, ringContents_length]
  simp only [ttyBufferSize] at hcases ⊢
  omega

theorem Valid.store (h : t.Valid) (c : UInt8) : (t.store c).Valid :=
  ⟨h.readHead, Nat.mod_lt _ (by decide)⟩

theorem Valid.store_contents (h : t.Valid) (hroom : t.full = false) (c : UInt8) :
    (t.store c).contents = t.contents ++ [c] := by
  apply ringContents_push h.readHead h.writeHead
  simpa [Tty.full] using hroom

/-- Storing touches the read buffer alone. -/
structure SameLine (t t' : Tty) : Prop where
  termios : t'.termios = t.termios
  lineBuffer : t'.lineBuffer = t.lineBuffer
  lineIndex : t'.lineIndex = t.lineIndex
  foregroundPgid : t'.foregroundPgid = t.foregroundPgid
  eof : t'.eof = t.eof

/-- The characters of the line buffer from `i` on. -/
def lineFrom (t : Tty) (i n : Nat) : List UInt8 :=
  (List.range n).map fun k => t.lineBuffer (i + k)

theorem lineFrom_succ (t : Tty) (i n : Nat) :
    t.lineFrom i (n + 1) = t.lineBuffer i :: t.lineFrom (i + 1) n := by
  simp only [lineFrom, List.range_succ_eq_map, List.map_cons, List.map_map, Nat.add_zero]
  congr 1
  refine List.map_congr_left fun k _ => ?_
  simp only [Function.comp_apply, Nat.succ_eq_add_one]
  rw [Nat.add_assoc, Nat.add_comm 1 k]

/-- The loop stores what fits, and comes to its end exactly when all of it fits. -/
theorem copyLine_spec (n i : Nat) (h : t.Valid) :
    let (finished, t') := copyLine n i t
    t'.Valid ∧ SameLine t t' ∧ finished = decide (t.contents.length + n ≤ 4095) ∧
      t'.contents = t.contents ++ (t.lineFrom i n).take (4095 - t.contents.length) := by
  induction n generalizing i t with
  | zero =>
      have hle := h.length_le
      refine ⟨h, ⟨rfl, rfl, rfl, rfl, rfl⟩, ?_, ?_⟩
      · simpa using hle
      · simp [lineFrom]
  | succ n ih =>
      rw [copyLine]
      cases hfull : t.full with
      | true =>
          have hlength := h.full_iff.mp hfull
          refine ⟨h, ⟨rfl, rfl, rfl, rfl, rfl⟩, ?_, ?_⟩
          · simp [hlength]
          · simp [hlength]
      | false =>
          have hle := h.length_le
          have hne : t.contents.length ≠ 4095 := fun heq => by
            simp [h.full_iff.mpr heq] at hfull
          have hstored := h.store_contents hfull (t.lineBuffer i)
          have hrest := ih (i + 1) (h.store (t.lineBuffer i))
          generalize copyLine n (i + 1) (t.store (t.lineBuffer i)) = result at hrest
          obtain ⟨hvalid, hsame, hfinished, hcontents⟩ := hrest
          refine ⟨hvalid, ⟨hsame.termios, hsame.lineBuffer, hsame.lineIndex,
            hsame.foregroundPgid, hsame.eof⟩, ?_, ?_⟩
          · refine hfinished.trans (decide_eq_decide.mpr ?_)
            rw [hstored, List.length_append, List.length_singleton]
            omega
          · refine hcontents.trans ?_
            rw [hstored, lineFrom_succ, List.append_assoc, List.length_append,
              List.length_singleton,
              show 4095 - t.contents.length = 4095 - (t.contents.length + 1) + 1 by omega,
              List.take_succ_cons]
            rfl

theorem readLoop_spec (n : Nat) (h : t.Valid) :
    (ttyReadLoop n t).2.Valid ∧ SameLine t (ttyReadLoop n t).2 ∧
      (ttyReadLoop n t).1 ++ (ttyReadLoop n t).2.contents = t.contents := by
  induction n generalizing t with
  | zero => exact ⟨h, ⟨rfl, rfl, rfl, rfl, rfl⟩, rfl⟩
  | succ n ih =>
      rw [ttyReadLoop]
      by_cases hempty : t.readHead = t.writeHead
      · rw [if_pos hempty]
        exact ⟨h, ⟨rfl, rfl, rfl, rfl, rfl⟩, rfl⟩
      · rw [if_neg hempty]
        obtain ⟨hvalid, hsame, hcontents⟩ :=
          ih (t := { t with readHead := (t.readHead + 1) % ttyBufferSize })
            ⟨Nat.mod_lt _ (by decide), h.writeHead⟩
        refine ⟨hvalid, ⟨hsame.termios, hsame.lineBuffer, hsame.lineIndex,
          hsame.foregroundPgid, hsame.eof⟩, ?_⟩
        have hpop : t.contents = t.readBuffer t.readHead :: _ :=
          ringContents_pop h.readHead h.writeHead hempty
        exact (congrArg (t.readBuffer t.readHead :: ·) hcontents).trans hpop.symm

end Tty

/-- A read takes the oldest bytes and changes only the end-of-file mark besides. -/
theorem ttyRead_spec {t : Tty} (h : t.Valid) (len : Nat) :
    (ttyRead t len).2.2.Valid ∧ (ttyRead t len).2.2.termios = t.termios ∧
      (ttyRead t len).2.2.lineBuffer = t.lineBuffer ∧
      (ttyRead t len).2.2.lineIndex = t.lineIndex ∧
      (ttyRead t len).2.1 ++ (ttyRead t len).2.2.contents = t.contents := by
  rw [ttyRead]
  by_cases heof : (t.eof && t.readHead == t.writeHead) = true
  · rw [if_pos heof]
    exact ⟨⟨h.readHead, h.writeHead⟩, rfl, rfl, rfl, rfl⟩
  · rw [if_neg heof]
    by_cases hempty : t.readHead = t.writeHead
    · rw [if_pos hempty]
      exact ⟨h, rfl, rfl, rfl, rfl⟩
    · rw [if_neg hempty]
      obtain ⟨hvalid, hsame, hcontents⟩ := Tty.readLoop_spec len h
      exact ⟨hvalid, hsame.termios, hsame.lineBuffer, hsame.lineIndex, hcontents⟩

end GlitchedOS
