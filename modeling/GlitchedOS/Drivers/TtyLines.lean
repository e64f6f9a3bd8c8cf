/-
Canonical input.  Beside the terminal runs a line editor that knows nothing of buffers;
what the terminal has delivered should be the lines the editor completes, each whole,
but for lines that found the read buffer without room for them.
-/
import GlitchedOS.Drivers.Tty
import GlitchedOS.Lib.Run

namespace GlitchedOS

/-- A line as completed, and whether the read buffer then had room for all of it. -/
structure CompletedLine where
  bytes : List UInt8
  hadRoom : Bool

/-- The bytes are the lines in order, each whole and once, or absent where there was
no room for it. -/
inductive Delivers : List CompletedLine → List UInt8 → Prop
  | nil : Delivers [] []
  | present {lines : List CompletedLine} {bytes : List UInt8} (line : CompletedLine)
      (before : Delivers lines bytes) : Delivers (lines ++ [line]) (bytes ++ line.bytes)
  | absent {lines : List CompletedLine} {bytes : List UInt8} (line : CompletedLine)
      (noRoom : line.hadRoom = false) (before : Delivers lines bytes) :
      Delivers (lines ++ [line]) bytes

/-- The line editor: backspace takes the last character back, newline starts over, and
a character beyond the limit is ignored. -/
def editPending (pending : List UInt8) (c : UInt8) : List UInt8 :=
  if isErase c then pending.dropLast
  else if c = 0x0A then []
  else if ttyLineLimit ≤ pending.length then pending
  else pending ++ [c]

inductive TtyEvent where
  | charRecv (c : UInt8)
  | read (len : Nat)

/-- A terminal with the line being edited, the lines completed and the bytes read. -/
structure TtyTrace where
  tty : Tty
  pending : List UInt8
  completed : List CompletedLine
  returned : List UInt8

namespace TtyTrace

def start (t : Tty) : TtyTrace := ⟨t, [], [], []⟩

/-- There is room for `n` characters. -/
def room (s : TtyTrace) (n : Nat) : Bool := decide (s.tty.contents.length + n ≤ 4095)

def step (s : TtyTrace) : TtyEvent → TtyTrace
  | .charRecv raw =>
      let c := s.tty.termios.translate raw
      { s with
        tty := (ttyCharRecv s.tty raw).1
        pending := editPending s.pending c
        completed :=
          if c = 0x0A then
            s.completed ++ [⟨s.pending ++ [c], s.room (s.pending.length + 1)⟩]
          else s.completed }
  | .read len =>
      { s with
        tty := (ttyRead s.tty len).2.2
        returned := s.returned ++ (ttyRead s.tty len).2.1 }

/-- What has been read and can be read are the completed lines. -/
def Delivered (s : TtyTrace) : Prop := Delivers s.completed (s.returned ++ s.tty.contents)

/-- A line is completed only when there is room for all of it, and no character is, or
becomes by stripping its top bit, the end-of-file character. -/
def RoomForLine (s : TtyTrace) : TtyEvent → Prop
  | .charRecv raw =>
      s.tty.termios.translate raw ≠ 0x04 ∧
        (s.tty.termios.translate raw = 0x0A → s.room (s.tty.lineIndex + 1) = true)
  | .read _ => True

end TtyTrace

namespace Tty

/-- Canonical mode without signal characters. -/
structure Canonical (t : Tty) : Prop where
  icanon : t.termios.icanon = true
  isig : t.termios.isig = false

structure Fresh (t : Tty) : Prop where
  readHead : t.readHead = 0
  writeHead : t.writeHead = 0
  lineIndex : t.lineIndex = 0

variable {t : Tty}

/-- Canonical input is the line editor of the terminal. -/
theorem charRecv_eq_edit (h : t.Canonical) (raw : UInt8)
    (hc : t.termios.translate raw ≠ 0x04) :
    (ttyCharRecv t raw).1 = (t.edit (t.termios.translate raw)).2.2 := by
  simp only [ttyCharRecv, signals, h.icanon, h.isig, Bool.true_and, Bool.false_and,
    beq_eq_false_iff_ne.mpr hc]
  cases (t.edit (t.termios.translate raw)).1 <;> simp

/-- A character added to the line buffer is the last of the line. -/
theorem lineFrom_push (t : Tty) (c : UInt8) (n : Nat) :
    { t with
      lineBuffer := Function.update t.lineBuffer n c
      lineIndex := n + 1 : Tty }.lineFrom 0 (n + 1) = t.lineFrom 0 n ++ [c] := by
  simp only [lineFrom, List.range_succ, List.map_append, List.map_singleton, Nat.zero_add,
    Function.update_self]
  congr 1
  refine List.map_congr_left fun i hi => Function.update_of_ne ?_ _ _
  exact Nat.ne_of_lt (List.mem_range.mp hi)

theorem lineFrom_pred (t : Tty) (n : Nat) :
    t.lineFrom 0 (n - 1) = (t.lineFrom 0 n).dropLast := by
  cases n with
  | zero => rfl
  | succ n => simp [lineFrom, List.range_succ]

def line (t : Tty) : List UInt8 := t.lineFrom 0 t.lineIndex

@[simp] theorem line_length (t : Tty) : t.line.length = t.lineIndex := by
  simp [line, lineFrom]

/-- A character that does not end the line edits it as the line editor does. -/
theorem edit_line {c : UInt8} (hmore : c ≠ 0x0A) :
    (t.edit c).2.2.line = editPending t.line c ∧ (t.edit c).2.2.termios = t.termios ∧
      ((t.edit c).2.2.Valid ↔ t.Valid) ∧ (t.edit c).2.2.contents = t.contents := by
  rw [edit, editPending, line_length]
  by_cases herase : isErase c = true
  · rw [if_pos herase, if_pos herase]
    by_cases hsome : 0 < t.lineIndex
    · rw [if_pos hsome]
      exact ⟨lineFrom_pred t t.lineIndex, rfl, ⟨fun h => ⟨h.1, h.2⟩, fun h => ⟨h.1, h.2⟩⟩, rfl⟩
    · rw [if_neg hsome]
      have hzero : t.line.length = 0 := by
        rw [line_length]
        omega
      refine ⟨?_, rfl, Iff.rfl, rfl⟩
      rw [List.length_eq_zero_iff.mp hzero]
      rfl
  · rw [if_neg herase, if_neg herase, if_neg hmore, if_neg hmore]
    by_cases hlimit : ttyLineLimit ≤ t.lineIndex
    · rw [if_pos hlimit, if_pos hlimit]
      exact ⟨rfl, rfl, Iff.rfl, rfl⟩
    · rw [if_neg hlimit, if_neg hlimit]
      exact ⟨lineFrom_push t c t.lineIndex, rfl,
        ⟨fun h => ⟨h.1, h.2⟩, fun h => ⟨h.1, h.2⟩⟩, rfl⟩

/-- A newline commits the line as far as it fits; one that fits starts a new line. -/
theorem edit_newline (h : t.Valid) :
    (t.edit 0x0A).2.2.Valid ∧ (t.edit 0x0A).2.2.termios = t.termios ∧
      (t.edit 0x0A).2.2.contents =
        t.contents ++ (t.line ++ [0x0A]).take (4095 - t.contents.length) ∧
      (t.contents.length + (t.lineIndex + 1) ≤ 4095 → (t.edit 0x0A).2.2.line = []) := by
  have hcopy := copyLine_spec (t.lineIndex + 1) 0 (t := { t with
    lineBuffer := Function.update t.lineBuffer t.lineIndex 0x0A
    lineIndex := t.lineIndex + 1 }) ⟨h.readHead, h.writeHead⟩
  rw [lineFrom_push] at hcopy
  have herase : ¬ isErase 0x0A = true := by decide
  rw [edit, if_neg herase, if_pos rfl]
  dsimp only
  generalize copyLine (t.lineIndex + 1) 0 _ = result at hcopy ⊢
  obtain ⟨finished, t'⟩ := result
  obtain ⟨hvalid, hsame, hfinished, hcontents⟩ := hcopy
  cases finished with
  | true => exact ⟨⟨hvalid.1, hvalid.2⟩, hsame.termios, hcontents, fun _ => rfl⟩
  | false =>
      refine ⟨hvalid, hsame.termios, hcontents, fun hfits => ?_⟩
      exact absurd hfits (of_decide_eq_false hfinished.symm)

end Tty

namespace TtyTrace

/-- Between two events: the terminal edits the line the editor edits, and what it has
delivered are whole lines. -/
structure Ready (s : TtyTrace) : Prop where
  valid : s.tty.Valid
  canonical : s.tty.Canonical
  pending : s.tty.line = s.pending
  delivered : s.Delivered

variable {s : TtyTrace}

theorem start_ready {t : Tty} (ht : t.Fresh) (hcanon : t.Canonical) : (start t).Ready where
  valid := by
    rw [start]
    exact ⟨by simp [ht.readHead, ttyBufferSize], by simp [ht.writeHead, ttyBufferSize]⟩
  canonical := hcanon
  pending := by simp [start, Tty.line, ht.lineIndex, Tty.lineFrom]
  delivered := by
    have hempty : t.contents = [] := by simp [Tty.contents, ht.readHead, ht.writeHead]
    rw [Delivered, start, hempty]
    exact .nil

theorem Ready.read (h : s.Ready) (len : Nat) : (s.step (.read len)).Ready := by
  obtain ⟨hvalid, htermios, hbuffer, hindex, hcontents⟩ := ttyRead_spec h.valid len
  refine ⟨hvalid, ⟨?_, ?_⟩, ?_, ?_⟩
  · exact (congrArg Termios.icanon htermios).trans h.canonical.icanon
  · exact (congrArg Termios.isig htermios).trans h.canonical.isig
  · simp only [step, Tty.line, Tty.lineFrom, hbuffer, hindex]
    exact h.pending
  · simp only [Delivered, step]
    rw [List.append_assoc, hcontents]
    exact h.delivered

theorem Ready.edit (h : s.Ready) {raw : UInt8}
    (heof : s.tty.termios.translate raw ≠ 0x04)
    (hmore : s.tty.termios.translate raw ≠ 0x0A) : (s.step (.charRecv raw)).Ready := by
  obtain ⟨hline, htermios, hvalid, hcontents⟩ := Tty.edit_line (t := s.tty) hmore
  have htty := Tty.charRecv_eq_edit h.canonical raw heof
  refine ⟨?_, ⟨?_, ?_⟩, ?_, ?_⟩
  · simp only [step, htty]
    exact hvalid.mpr h.valid
  · simp only [step, htty, htermios]
    exact h.canonical.icanon
  · simp only [step, htty, htermios]
    exact h.canonical.isig
  · simp only [step, htty, hline, h.pending]
  · simp only [Delivered, step, htty, hcontents, if_neg hmore]
    exact h.delivered

/-- A newline delivers the line. -/
theorem Ready.newline (h : s.Ready) {raw : UInt8}
    (hline : s.tty.termios.translate raw = 0x0A)
    (hroom : s.room (s.tty.lineIndex + 1) = true) : (s.step (.charRecv raw)).Ready := by
  have heof : s.tty.termios.translate raw ≠ 0x04 := by
    rw [hline]
    decide
  have hfits : s.tty.contents.length + (s.tty.lineIndex + 1) ≤ 4095 := of_decide_eq_true hroom
  have hnew := Tty.edit_newline h.valid
  rw [← hline] at hnew
  obtain ⟨hvalid, htermios, hcontents, hempty⟩ := hnew
  rw [List.take_of_length_le (by simp; omega)] at hcontents
  have htty := Tty.charRecv_eq_edit h.canonical raw heof
  refine ⟨?_, ⟨?_, ?_⟩, ?_, ?_⟩
  · simp only [step, htty]
    exact hvalid
  · simp only [step, htty, htermios]
    exact h.canonical.icanon
  · simp only [step, htty, htermios]
    exact h.canonical.isig
  · simp only [step, htty]
    rw [hempty hfits, hline]
    rfl
  · simp only [Delivered, step, htty, hcontents, if_pos hline, ← List.append_assoc, h.pending]
    have hpresent := h.delivered.present
      ⟨s.pending ++ [s.tty.termios.translate raw], s.room (s.pending.length + 1)⟩
    simpa [List.append_assoc] using hpresent

/-- One event keeps the terminal ready when a completed line finds room. -/
theorem Ready.step (h : s.Ready) (event : TtyEvent) (hroom : s.RoomForLine event) :
    (s.step event).Ready := by
  cases event with
  | read len => exact h.read len
  | charRecv raw =>
      by_cases hline : s.tty.termios.translate raw = 0x0A
      · exact h.newline hline (hroom.2 hline)
      · exact h.edit hroom.1 hline

end TtyTrace

/-- Canonical input delivers whole lines exactly once, through every run in which each
line completed finds room in the read buffer. -/
theorem tty_delivers_lines (t : Tty) (ht : t.Fresh) (hcanon : t.Canonical)
    (events : List TtyEvent)
    (hroom : Along TtyTrace.step TtyTrace.RoomForLine (.start t) events) :
    Along TtyTrace.step (fun s event => (s.step event).Delivered) (.start t) events := by
  have hready := Along.invariant TtyTrace.Ready
    (fun s event hs hevent => hs.step event hevent) (TtyTrace.start_ready ht hcanon) hroom
  exact hready.mono fun s event hs => hs.delivered

/-- A terminal with `ICANON` alone set. -/
def plainTty : Tty := ⟨⟨0, iCanon⟩, fun _ => 0, 0, 0, fun _ => 0, 0, 0, false⟩

theorem plainTty_fresh : plainTty.Fresh := ⟨rfl, rfl, rfl⟩

theorem plainTty_canonical : plainTty.Canonical := ⟨by decide, by decide⟩

/-- `a`, newline and a read. -/
theorem tty_delivers_lines_one :
    Along TtyTrace.step (fun s event => (s.step event).Delivered) (.start plainTty)
      [.charRecv 0x61, .charRecv 0x0A, .read 16] := by
  apply tty_delivers_lines plainTty plainTty_fresh plainTty_canonical
  exact ⟨⟨by decide, by decide⟩, ⟨by decide, fun _ => by decide⟩, trivial, trivial⟩

/-! ### A line that fits in part

When the read buffer has one free place, a line of two characters is committed in part. -/

theorem Delivers.getLast? {lines : List CompletedLine} {bytes : List UInt8}
    (h : Delivers lines bytes) (hlines : ∀ line ∈ lines, line.bytes.getLast? = some 0x0A) :
    bytes = [] ∨ bytes.getLast? = some 0x0A := by
  induction h with
  | nil => exact .inl rfl
  | present line before ih =>
      right
      rw [List.getLast?_append, hlines line (by simp)]
      rfl
  | absent line noRoom before ih =>
      exact ih fun other hother => hlines other (List.mem_append_left _ hother)

namespace TtyTrace

/-- The lines completed end in a newline. -/
def Ended (s : TtyTrace) : Prop := ∀ line ∈ s.completed, line.bytes.getLast? = some 0x0A

variable {s : TtyTrace}

theorem Ended.step (h : s.Ended) (event : TtyEvent) : (s.step event).Ended := by
  cases event with
  | read len => exact h
  | charRecv raw =>
      by_cases hline : s.tty.termios.translate raw = 0x0A
      · intro line hmem
        simp only [TtyTrace.step, if_pos hline, List.mem_append, List.mem_singleton] at hmem
        rcases hmem with hold | rfl
        · exact h line hold
        · simp [hline]
      · simpa only [Ended, TtyTrace.step, if_neg hline] using h

theorem Ended.run (h : s.Ended) (events : List TtyEvent) :
    (events.foldl TtyTrace.step s).Ended := by
  induction events generalizing s with
  | nil => exact h
  | cons event rest ih => exact ih (h.step event)

/-- Between two lines at a plain terminal whose read buffer holds `n` characters. -/
structure Filled (s : TtyTrace) (n : Nat) : Prop where
  ready : s.Ready
  termios : s.tty.termios = plainTty.termios
  pending : s.pending = []
  length : s.tty.contents.length = n

theorem Filled.newline {n : Nat} (h : s.Filled n) (hroom : n + 1 ≤ 4095) :
    (s.step (.charRecv 0x0A)).Filled (n + 1) := by
  have hline : s.tty.termios.translate 0x0A = 0x0A := by
    rw [h.termios]
    decide
  have hindex : s.tty.lineIndex = 0 := by
    rw [← Tty.line_length, h.ready.pending, h.pending]
    rfl
  have htty := Tty.charRecv_eq_edit h.ready.canonical 0x0A (by rw [hline]; decide)
  rw [hline] at htty
  obtain ⟨hvalid, htermios, hcontents, hempty⟩ := Tty.edit_newline h.ready.valid
  refine ⟨h.ready.newline hline ?_, ?_, ?_, ?_⟩
  · rw [room, h.length, hindex]
    exact decide_eq_true hroom
  · simp only [step, htty, htermios, h.termios]
  · simp only [step, hline]
    rfl
  · simp only [step, htty, hcontents, h.ready.pending, h.pending]
    rw [List.nil_append, List.take_of_length_le (by simp [h.length]; omega)]
    simp [h.length]

theorem fill_filled (n : Nat) (hroom : n ≤ 4095) :
    ((List.replicate n (TtyEvent.charRecv 0x0A)).foldl step (start plainTty)).Filled n := by
  induction n with
  | zero =>
      exact ⟨start_ready plainTty_fresh plainTty_canonical, rfl, rfl, by
        simp [start, Tty.contents, plainTty]⟩
  | succ n ih =>
      have hnext := (ih (by omega)).newline hroom
      simpa [List.replicate_succ', List.foldl_append] using hnext

theorem Filled.letter {n : Nat} (h : s.Filled n) :
    let next := s.step (.charRecv 0x61)
    next.Ready ∧ next.tty.termios = plainTty.termios ∧ next.tty.line = [0x61] ∧
      next.tty.contents.length = n := by
  have hletter : s.tty.termios.translate 0x61 = 0x61 := by
    rw [h.termios]
    decide
  have htty := Tty.charRecv_eq_edit h.ready.canonical 0x61 (by rw [hletter]; decide)
  rw [hletter] at htty
  obtain ⟨hline, htermios, -, hcontents⟩ := Tty.edit_line (t := s.tty) (c := 0x61) (by decide)
  refine ⟨h.ready.edit (by rw [hletter]; decide) (by rw [hletter]; decide), ?_, ?_, ?_⟩
  · simp only [step, htty, htermios, h.termios]
  · simp only [step, htty, hline, h.ready.pending, h.pending]
    decide
  · simp only [step, htty, hcontents, h.length]

/-- One place is left: of the line `a` the newline does not fit. -/
theorem Filled.partial_line (h : s.Filled 4094) (hended : s.Ended) :
    ¬ ((s.step (.charRecv 0x61)).step (.charRecv 0x0A)).Delivered := by
  obtain ⟨hready, htermios, hline, hlength⟩ := h.letter
  have hended' := (hended.step (.charRecv 0x61)).step (.charRecv 0x0A)
  generalize s.step (.charRecv 0x61) = middle at *
  have hnewline : middle.tty.termios.translate 0x0A = 0x0A := by
    rw [htermios]
    decide
  have htty := Tty.charRecv_eq_edit hready.canonical 0x0A (by rw [hnewline]; decide)
  rw [hnewline] at htty
  obtain ⟨-, -, hcontents, -⟩ := Tty.edit_newline hready.valid
  rw [hline, hlength] at hcontents
  intro hdelivered
  have hlast : (middle.returned ++ (middle.tty.edit 0x0A).2.2.contents).getLast? =
      some 0x61 := by
    rw [hcontents]
    simp
  have hbytes := Delivers.getLast? hdelivered hended'
  simp only [step, htty] at hbytes
  rcases hbytes with hnil | hnewlast
  · rw [hnil] at hlast
    contradiction
  · rw [hlast] at hnewlast
    contradiction

end TtyTrace

/-- 4094 empty lines that nobody reads, and then the line `a`: the letter is delivered
without its newline. -/
theorem tty_delivers_partial_line :
    ¬ ((List.replicate 4094 (.charRecv 0x0A) ++ [.charRecv 0x61, .charRecv 0x0A] :
        List TtyEvent).foldl TtyTrace.step (.start plainTty)).Delivered := by
  rw [List.foldl_append]
  apply (TtyTrace.fill_filled 4094 (by decide)).partial_line
  apply TtyTrace.Ended.run
  intro line hline
  simp [TtyTrace.start] at hline

end GlitchedOS
