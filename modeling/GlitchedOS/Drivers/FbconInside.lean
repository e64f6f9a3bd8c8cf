/-
The console stays inside its buffer.  The cursor is set only where the place was compared with
the screen, and what the parser counts are stored parameters; so no parameter, however it wraps
or is cut to 16 bits, leads out of the buffer.
-/
import GlitchedOS.Drivers.Fbcon
import GlitchedOS.Lib.Safe

namespace GlitchedOS

/-- A screen of at most 65535 by 65535 characters, all of them allocated. -/
structure Screen (width height : UInt32) (allocated : Nat) : Prop where
  columns : 1 ≤ width.toNat ∧ width.toNat ≤ 65535
  rows : 1 ≤ height.toNat ∧ height.toNat ≤ 65535
  area : allocated = width.toNat * height.toNat

/-- Each character has a bitmap. -/
def Printable (buffer : Nat → Character) (allocated : Nat) : Prop :=
  ∀ i < allocated, (buffer i).c < 128

namespace Fbcon

/-- The cursor is on the screen, the characters have bitmaps, and the parameters fit. -/
structure Inside (width height : UInt32) (s : Fbcon) : Prop where
  size : s.width = width ∧ s.height = height
  screen : Screen s.width s.height s.allocated
  printable : Printable s.consoleBuffer s.allocated
  cursorX : s.cursorX.toUInt32 < s.width
  cursorY : s.cursorY.toUInt32 < s.height
  paramCount : 0 ≤ s.ansiParser.paramCount ∧ s.ansiParser.paramCount ≤ 16

/-- The characters have changed and have bitmaps, and nothing else has changed. -/
def Redrawn (s s' : Fbcon) : Prop :=
  ∃ buffer, Printable buffer s.allocated ∧ s' = { s with consoleBuffer := buffer }

end Fbcon

section Screen

variable {width height : UInt32} {allocated : Nat}

theorem Screen.area_lt (h : Screen width height allocated) : allocated < 0x100000000 := by
  have hmul := Nat.mul_le_mul h.columns.2 h.rows.2
  rw [h.area]
  omega

theorem Screen.area_eq (h : Screen width height allocated) :
    (width * height).toNat = allocated := by
  have hlt := h.area_lt
  rw [h.area] at hlt ⊢
  rw [UInt32.toNat_mul, Nat.mod_eq_of_lt hlt]

theorem Screen.index_lt (h : Screen width height allocated) {x y : UInt32} (hx : x < width)
    (hy : y < height) : (y * width + x).toNat < allocated := by
  have hlt := h.area_lt
  rw [UInt32.lt_iff_toNat_lt] at hx hy
  have hrow : (y.toNat + 1) * width.toNat ≤ height.toNat * width.toNat :=
    Nat.mul_le_mul_right _ hy
  rw [h.area, Nat.mul_comm width.toNat] at hlt ⊢
  rw [Nat.succ_mul] at hrow
  have hproduct : (y * width).toNat = y.toNat * width.toNat := by
    rw [UInt32.toNat_mul, Nat.mod_eq_of_lt (by omega)]
  rw [UInt32.toNat_add, hproduct, Nat.mod_eq_of_lt (by omega)]
  omega

theorem toNat_pred {n : UInt32} (h : 1 ≤ n.toNat) : (n - 1).toNat = n.toNat - 1 :=
  UInt32.toNat_sub_of_le n 1 (UInt32.le_iff_toNat_le.mpr h)

theorem last_lt {n : UInt32} (h : 1 ≤ n.toNat ∧ n.toNat ≤ 65535) :
    (n - 1).toUInt16.toUInt32 < n := by
  rw [UInt32.lt_iff_toNat_lt, UInt16.toNat_toUInt32, UInt32.toNat_toUInt16, toNat_pred h.1,
    Nat.mod_eq_of_lt (by omega)]
  omega

theorem succ_lt_of_lt_pred {n y : UInt32} (h : 1 ≤ n.toNat) (hy : y < n - 1) :
    y < n ∧ y + 1 < n := by
  rw [UInt32.lt_iff_toNat_lt, toNat_pred h] at hy
  have hn := n.toNat_lt
  constructor
  · rw [UInt32.lt_iff_toNat_lt]
    omega
  · rw [UInt32.lt_iff_toNat_lt, UInt32.toNat_add, UInt32.toNat_one, Nat.mod_eq_of_lt (by omega)]
    omega

end Screen

namespace Fbcon

variable {s s' : Fbcon} {w r : UInt32} {i : Nat} {c : UInt8}

theorem characterAt_safe (hprint : Printable s.consoleBuffer s.allocated) (hi : i < s.allocated) :
    Safe (fun ch => ch.c < 128) (s.characterAt i) := by
  rw [characterAt, if_pos hi]
  exact .ok (hprint i hi)

theorem putCharacter_safe (hprint : Printable s.consoleBuffer s.allocated) (hi : i < s.allocated)
    {ch : Character} (hch : ch.c < 128) : Safe (Redrawn s) (s.putCharacter i ch) := by
  rw [putCharacter, if_pos hi]
  refine .ok ⟨_, fun j hj => ?_, rfl⟩
  by_cases hji : j = i
  · rw [hji, Function.update_self]
    exact hch
  · rw [Function.update_of_ne hji]
    exact hprint j hj

theorem colorizeBitmap_safe (hc : c < 128) : Safe (fun _ => True) (colorizeBitmap c) := by
  rw [colorizeBitmap, if_neg (UInt8.not_le.mpr hc)]
  exact .ok trivial

theorem paramAt_safe (s : Fbcon) {i : Int} (hi : 0 ≤ i ∧ i < 16) :
    Safe (fun _ => True) (s.paramAt i) := by
  rw [paramAt, if_pos hi]
  exact .ok trivial

theorem paletteAt_safe {i : Int} (hi : 0 ≤ i ∧ i < 16) : Safe (fun _ => True) (paletteAt i) := by
  have hlt : i.toNat < ansiPalette.length := by
    rw [show ansiPalette.length = 16 from rfl]
    omega
  rw [paletteAt, if_pos hi.1, List.getElem?_eq_getElem hlt]
  exact .ok trivial

theorem Redrawn.refl (hprint : Printable s.consoleBuffer s.allocated) : Redrawn s s :=
  ⟨s.consoleBuffer, hprint, rfl⟩

theorem Redrawn.trans {s'' : Fbcon} (h : Redrawn s s') (h' : Redrawn s' s'') : Redrawn s s'' := by
  obtain ⟨buffer, -, rfl⟩ := h
  obtain ⟨buffer', hprint, rfl⟩ := h'
  exact ⟨buffer', hprint, rfl⟩

theorem Redrawn.printable (h : Redrawn s s') : Printable s'.consoleBuffer s'.allocated := by
  obtain ⟨buffer, hprint, rfl⟩ := h
  exact hprint

theorem Redrawn.screen (h : Redrawn s s') (hscreen : Screen s.width s.height s.allocated) :
    Screen s'.width s'.height s'.allocated := by
  obtain ⟨buffer, -, rfl⟩ := h
  exact hscreen

theorem Redrawn.inside (h : Redrawn s s') (hin : Inside w r s) : Inside w r s' := by
  obtain ⟨buffer, hprint, rfl⟩ := h
  exact ⟨hin.size, hin.screen, hprint, hin.cursorX, hin.cursorY, hin.paramCount⟩

theorem ofNat_lt {n : UInt32} {i : Nat} (hi : i ∈ List.range n.toNat) : UInt32.ofNat i < n := by
  have hlt := List.mem_range.mp hi
  have hn := n.toNat_lt
  rw [UInt32.lt_iff_toNat_lt, UInt32.toNat_ofNat_of_lt' (Nat.lt_trans hlt hn)]
  exact hlt

/-- A loop over all rows but the last, each round of which redraws. -/
theorem overCells_redrawn {body : Fbcon → UInt32 → UInt32 → Except FbconFault Fbcon}
    (hbody : ∀ {s : Fbcon}, Screen s.width s.height s.allocated →
      Printable s.consoleBuffer s.allocated → ∀ {x y : UInt32}, x < s.width → y < s.height →
        y + 1 < s.height → Safe (Redrawn s) (body s x y))
    (hscreen : Screen s.width s.height s.allocated)
    (hprint : Printable s.consoleBuffer s.allocated) :
    Safe (Redrawn s) (overCells (s.height - 1).toNat s.width.toNat body s) := by
  refine Safe.foldlM (fun y hy s₁ h₁ => Safe.foldlM (fun x hx s₂ h₂ => ?_) h₁) (.refl hprint)
  obtain ⟨hlt, hbelow⟩ := succ_lt_of_lt_pred hscreen.rows.1 (ofNat_lt hy)
  have hround : Safe (Redrawn s₂) (body s₂ (.ofNat x) (.ofNat y)) := by
    refine hbody (h₂.screen hscreen) h₂.printable ?_ ?_ ?_
    all_goals
      obtain ⟨buffer, -, rfl⟩ := h₂
    · exact ofNat_lt hx
    · exact hlt
    · exact hbelow
  exact hround.mono fun s₃ h₃ => h₂.trans h₃

section Drawing

variable (hscreen : Screen s.width s.height s.allocated)
  (hprint : Printable s.consoleBuffer s.allocated)

include hscreen hprint

theorem redrawFromBelow_safe {x y : UInt32} (hx : x < s.width) (hy : y < s.height)
    (hbelow : y + 1 < s.height) : Safe (Redrawn s) (s.redrawFromBelow x y) := by
  rw [redrawFromBelow]
  refine (characterAt_safe hprint (hscreen.index_lt hx hy)).bind fun here _ => ?_
  refine (characterAt_safe hprint (hscreen.index_lt hx hbelow)).bind fun below hc => ?_
  split
  · exact .ok (.refl hprint)
  · exact (colorizeBitmap_safe hc).bind fun _ _ => .ok (.refl hprint)

theorem copyFromBelow_safe {x y : UInt32} (hx : x < s.width) (hy : y < s.height)
    (hbelow : y + 1 < s.height) : Safe (Redrawn s) (s.copyFromBelow x y) := by
  rw [copyFromBelow]
  refine (characterAt_safe hprint (hscreen.index_lt hx hbelow)).bind fun below hc => ?_
  exact putCharacter_safe hprint (hscreen.index_lt hx hy) hc

theorem blankLast_safe {x : UInt32} (hx : x < s.width) : Safe (Redrawn s) (s.blankLast x) := by
  have hlast : s.height - 1 < s.height := by
    rw [UInt32.lt_iff_toNat_lt, toNat_pred hscreen.rows.1]
    have hrows := hscreen.rows
    omega
  have hindex : s.index x (s.height - 1) < s.allocated := hscreen.index_lt hx hlast
  rw [blankLast]
  refine (characterAt_safe hprint hindex).bind fun entry _ => ?_
  exact putCharacter_safe hprint hindex (by simp)

theorem scroll_safe : Safe (Redrawn s) s.scroll := by
  rw [scroll]
  have hdraw := overCells_redrawn redrawFromBelow_safe hscreen hprint
  refine hdraw.bind fun s₁ h₁ => ?_
  have hcopy := overCells_redrawn copyFromBelow_safe (h₁.screen hscreen) h₁.printable
  refine hcopy.bind fun s₂ h₂ => ?_
  refine Safe.foldlM (fun x hx s₃ h₃ => ?_) (h₁.trans h₂)
  have hround : Safe (Redrawn s₃) (s₃.blankLast (.ofNat x)) := by
    refine blankLast_safe (h₃.screen hscreen) h₃.printable ?_
    obtain ⟨buffer₂, -, rfl⟩ := h₁.trans h₂
    obtain ⟨buffer₃, -, rfl⟩ := h₃
    exact ofNat_lt hx
  exact hround.mono fun s₄ h₄ => h₃.trans h₄

end Drawing

/-- `clear_screen` makes every character printable, whatever was in the buffer. -/
theorem clearScreen_safe (hscreen : Screen s.width s.height s.allocated) :
    Safe (Redrawn s) s.clearScreen := by
  rw [clearScreen, hscreen.area_eq]
  refine Safe.range
    (fun i s' => ∃ buffer, Printable buffer i ∧ s' = { s with consoleBuffer := buffer })
    (fun i hi s' hs' => ?_) ⟨s.consoleBuffer, fun _ hj => absurd hj (Nat.not_lt_zero _), rfl⟩
  obtain ⟨buffer, hbuffer, rfl⟩ := hs'
  have hentry : characterAt { s with consoleBuffer := buffer } i = .ok (buffer i) := if_pos hi
  rw [clearCharacter, hentry]
  refine ⟨_, if_pos hi, _, fun j hj => ?_, rfl⟩
  by_cases hji : j = i
  · rw [hji, Function.update_self]
    simp
  · rw [Function.update_of_ne hji]
    exact hbuffer j (by omega)

/-- What is drawn needs the characters at the cursor and at the old place. -/
theorem drawCursor_safe (h : Inside w r s) : Safe (fun _ => True) s.drawCursor := by
  rw [drawCursor]
  have hat := characterAt_safe h.printable (h.screen.index_lt h.cursorX h.cursorY)
  exact hat.bind fun _ hc => colorizeBitmap_safe hc

theorem updateCursor_safe (h : Inside w r s) (oldX oldY : Int32) :
    Safe (Inside w r) (s.updateCursor oldX oldY) := by
  have hdraw : Safe (Inside w r) (do s.drawCursor; .ok s : Except FbconFault Fbcon) :=
    (drawCursor_safe h).bind fun _ _ => .ok h
  rw [updateCursor]
  split
  · rename_i hold
    have hat := characterAt_safe h.printable (h.screen.index_lt hold.2.1 hold.2.2)
    exact hat.bind fun _ hc => (colorizeBitmap_safe hc).bind fun _ _ => hdraw
  · exact hdraw

theorem setCursorPosition_safe (h : Inside w r s) (x y : UInt16) :
    Safe (Inside w r) (s.setCursorPosition x y) := by
  rw [setCursorPosition]
  split
  · rename_i hplace
    have hset : Inside w r { s with cursorX := x, cursorY := y } :=
      ⟨h.size, h.screen, h.printable, hplace.1, hplace.2, h.paramCount⟩
    exact updateCursor_safe hset _ _
  · exact .ok h

theorem newline_safe (h : Inside w r s) : Safe (Inside w r) s.newline := by
  have hzero : (0 : UInt16).toUInt32 < s.width := by
    rw [UInt32.lt_iff_toNat_lt]
    exact h.screen.columns.1
  rw [newline]
  split
  · have hscroll := scroll_safe (s := { s with cursorX := 0, cursorY := s.cursorY + 1 })
      h.screen h.printable
    refine hscroll.bind fun s₁ h₁ => ?_
    obtain ⟨buffer, hbuffer, rfl⟩ := h₁
    have hlast : Inside w r { s with
        consoleBuffer := buffer, cursorX := 0, cursorY := (s.height - 1).toUInt16 } :=
      ⟨h.size, h.screen, hbuffer, hzero, last_lt h.screen.rows, h.paramCount⟩
    exact updateCursor_safe hlast _ _
  · rename_i hbelow
    have hnext : Inside w r { s with cursorX := 0, cursorY := s.cursorY + 1 } :=
      ⟨h.size, h.screen, h.printable, hzero, UInt32.not_le.mp hbelow, h.paramCount⟩
    exact updateCursor_safe hnext _ _

theorem pred_toUInt32_lt {x : UInt16} {n : UInt32} (hx : x ≠ 0) (hn : x.toUInt32 < n) :
    (x - 1).toUInt32 < n := by
  have hpos : 1 ≤ x.toNat := by
    rw [Nat.one_le_iff_ne_zero]
    exact fun hzero => hx (UInt16.toNat.inj hzero)
  rw [UInt32.lt_iff_toNat_lt, UInt16.toNat_toUInt32] at hn ⊢
  rw [UInt16.toNat_sub_of_le x 1 (UInt16.le_iff_toNat_le.mpr hpos)]
  exact Nat.lt_of_le_of_lt (Nat.sub_le _ _) hn

/-- One place to the left, or to the end of the line above. -/
theorem backspace_inside (h : Inside w r s) :
    Inside w r (if s.cursorX = 0 then
        if 0 < s.cursorY then
          { s with cursorX := (s.width - 1).toUInt16, cursorY := s.cursorY - 1 }
        else s
      else { s with cursorX := s.cursorX - 1 }) := by
  split
  · split
    · rename_i hrow
      refine ⟨h.size, h.screen, h.printable, last_lt h.screen.columns, ?_, h.paramCount⟩
      exact pred_toUInt32_lt (UInt16.pos_iff_ne_zero.mp hrow) h.cursorY
    · exact h
  · rename_i hcolumn
    exact ⟨h.size, h.screen, h.printable, pred_toUInt32_lt hcolumn h.cursorX, h.cursorY,
      h.paramCount⟩

theorem putchar_safe (h : Inside w r s) (c : UInt8) : Safe (Inside w r) (s.putchar c) := by
  have hindex : s.index s.cursorX.toUInt32 s.cursorY.toUInt32 < s.allocated :=
    h.screen.index_lt h.cursorX h.cursorY
  rw [putchar]
  split
  · exact .ok h
  rename_i hchar
  have hc : c < 128 := UInt8.not_le.mp hchar
  split
  · exact newline_safe h
  split
  · exact updateCursor_safe (backspace_inside h) _ _
  split
  · exact .ok h
  refine (colorizeBitmap_safe hc).bind fun _ _ => ?_
  refine (characterAt_safe h.printable hindex).bind fun entry _ => ?_
  refine (putCharacter_safe h.printable hindex hc).bind fun s₁ h₁ => ?_
  have hput := h₁.inside h
  dsimp only
  split
  · have hlast : Inside w r { s₁ with cursorX := (s₁.width - 1).toUInt16 } :=
      ⟨hput.size, hput.screen, hput.printable, last_lt hput.screen.columns, hput.cursorY,
        hput.paramCount⟩
    exact newline_safe hlast
  · rename_i hroom
    have hnext : Inside w r { s₁ with cursorX := s₁.cursorX + 1 } :=
      ⟨hput.size, hput.screen, hput.printable, UInt32.not_le.mp hroom, hput.cursorY,
        hput.paramCount⟩
    exact (drawCursor_safe hnext).bind fun _ _ => .ok hnext

theorem countParam_safe (s : Fbcon) : Safe (fun _ => True) s.countParam :=
  (paramAt_safe s (by decide)).bind fun _ _ => .ok trivial

theorem cursorTo_safe (h : Inside w r s) : Safe (Inside w r) s.cursorTo :=
  (paramAt_safe s (by decide)).bind fun _ _ => (paramAt_safe s (by decide)).bind fun _ _ =>
    setCursorPosition_safe h _ _

theorem cursorUp_safe (h : Inside w r s) : Safe (Inside w r) s.cursorUp :=
  (countParam_safe s).bind fun _ _ => setCursorPosition_safe h _ _

theorem cursorForward_safe (h : Inside w r s) : Safe (Inside w r) s.cursorForward :=
  (countParam_safe s).bind fun _ _ => setCursorPosition_safe h _ _

theorem cursorBack_safe (h : Inside w r s) : Safe (Inside w r) s.cursorBack :=
  (countParam_safe s).bind fun _ _ => setCursorPosition_safe h _ _

theorem scrollTimes_safe (h : Inside w r s) (n : Nat) : Safe (Inside w r) (scrollTimes n s) := by
  induction n generalizing s with
  | zero => exact .ok h
  | succ n ih => exact (scroll_safe h.screen h.printable).bind fun _ h₁ => ih (h₁.inside h)

theorem cursorDown_safe (h : Inside w r s) : Safe (Inside w r) s.cursorDown := by
  rw [cursorDown]
  refine (countParam_safe s).bind fun n _ => ?_
  dsimp only
  split
  · exact (scrollTimes_safe h _).bind fun _ h₁ => setCursorPosition_safe h₁ _ _
  · exact setCursorPosition_safe h _ _

theorem trueColor_safe (s : Fbcon) : Safe (fun _ => True) s.trueColor :=
  (paramAt_safe s (by decide)).bind fun _ _ => (paramAt_safe s (by decide)).bind fun _ _ =>
    (paramAt_safe s (by decide)).bind fun _ _ => .ok trivial

theorem Inside.colors (h : Inside w r s) (bg fg : Color) :
    Inside w r { s with bgColor := bg, fgColor := fg } :=
  ⟨h.size, h.screen, h.printable, h.cursorX, h.cursorY, h.paramCount⟩

theorem palette_safe {i : Int} {next : Color → Fbcon} (hi : 0 ≤ i ∧ i < 16)
    (hnext : ∀ color, Inside w r (next color)) :
    Safe (Inside w r) (do let color ← paletteAt i; .ok (next color)) :=
  (paletteAt_safe hi).bind fun color _ => .ok (hnext color)

theorem selectColor_safe (h : Inside w r s) {i : Nat} (hi : i < 16) :
    Safe (Inside w r) (s.selectColor i) := by
  have hrange : ∀ {p low high : Int32}, low ≤ p ∧ p ≤ high →
      low.toInt ≤ p.toInt ∧ p.toInt ≤ high.toInt := fun hp =>
    ⟨Int32.le_iff_toInt_le.mp hp.1, Int32.le_iff_toInt_le.mp hp.2⟩
  rw [selectColor]
  refine (paramAt_safe s (by omega)).bind fun p _ => ?_
  split
  · exact .ok (h.colors black gray)
  split
  · rename_i hp
    have hp : 30 ≤ p.toInt ∧ p.toInt ≤ 37 := hrange hp
    exact palette_safe (by omega) fun color => h.colors s.bgColor color
  split
  · rename_i hp
    have hp : 40 ≤ p.toInt ∧ p.toInt ≤ 47 := hrange hp
    exact palette_safe (by omega) fun color => h.colors color s.fgColor
  split
  · rename_i hp
    have hp : 90 ≤ p.toInt ∧ p.toInt ≤ 97 := hrange hp
    exact palette_safe (by omega) fun color => h.colors s.bgColor color
  split
  · rename_i hp
    have hp : 100 ≤ p.toInt ∧ p.toInt ≤ 107 := hrange hp
    exact palette_safe (by omega) fun color => h.colors color s.fgColor
  · exact .ok h

theorem selectGraphics_safe (h : Inside w r s) : Safe (Inside w r) s.selectGraphics := by
  rw [selectGraphics]
  refine (paramAt_safe s (by decide)).bind fun first _ => ?_
  refine (paramAt_safe s (by decide)).bind fun second _ => ?_
  split
  · exact (trueColor_safe s).bind fun color _ => .ok (h.colors s.bgColor color)
  split
  · exact (trueColor_safe s).bind fun color _ => .ok (h.colors color s.fgColor)
  split
  · exact .ok (h.colors black gray)
  · refine Safe.foldlM (fun i hi s₁ h₁ => selectColor_safe h₁ ?_) h
    have hcount := h.paramCount
    have hlt := List.mem_range.mp hi
    omega

theorem Inside.parser (h : Inside w r s) {parser : AnsiParser}
    (hcount : 0 ≤ parser.paramCount ∧ parser.paramCount ≤ 16) :
    Inside w r { s with ansiParser := parser } :=
  ⟨h.size, h.screen, h.printable, h.cursorX, h.cursorY, hcount⟩

theorem pushParam_safe (h : Inside w r s) (hroom : s.ansiParser.paramCount < 16) :
    Safe (Inside w r) s.pushParam := by
  have hcount := h.paramCount
  rw [pushParam, if_pos ⟨hcount.1, hroom⟩]
  exact .ok (h.parser (by dsimp only; omega))

/-- Each command keeps the cursor on the screen. -/
theorem command_safe (h : Inside w r s) (c : UInt8) : Safe (Inside w r) (s.command c) := by
  rw [command]
  split
  · exact cursorTo_safe h
  split
  · refine (clearScreen_safe h.screen).bind fun s₁ h₁ => ?_
    exact (drawCursor_safe (h₁.inside h)).bind fun _ _ => .ok (h₁.inside h)
  split
  · exact cursorUp_safe h
  split
  · exact cursorDown_safe h
  split
  · exact cursorForward_safe h
  split
  · exact cursorBack_safe h
  split
  · exact selectGraphics_safe h
  · exact .ok h

theorem Inside.withState (h : Inside w r s) (state : AnsiState) : Inside w r (s.withState state) :=
  h.parser h.paramCount

theorem csiByte_safe (h : Inside w r s) (c : UInt8) : Safe (Inside w r) (s.csiByte c) := by
  rw [csiByte]
  dsimp only
  split
  · exact .ok (h.parser h.paramCount)
  split
  · rename_i hsemicolon
    refine (pushParam_safe h hsemicolon.2).bind fun s₁ h₁ => ?_
    exact .ok (h₁.parser h₁.paramCount)
  have hend : ∀ {s}, Inside w r s →
      Safe (Inside w r) (do let s ← s.command c; .ok (s.withState .text)) := fun h₁ =>
    (command_safe h₁ c).bind fun _ h₂ => .ok (h₂.withState .text)
  split
  · rename_i hadded
    exact (pushParam_safe h hadded.2).bind fun _ => hend
  · exact hend h

theorem writeByte_safe (h : Inside w r s) (c : UInt8) : Safe (Inside w r) (s.writeByte c) := by
  rw [writeByte]
  split
  · split
    · exact .ok (h.withState .escape)
    · exact putchar_safe h c
  · split
    · exact .ok (h.parser (by decide))
    · exact .ok (h.withState .text)
  · exact csiByte_safe h c

end Fbcon

section Calls

variable {s : Fbcon} {w r : UInt32}

theorem FbconCall.byte_safe (call : FbconCall) (h : Fbcon.Inside w r s) (c : UInt8) :
    Safe (Fbcon.Inside w r) (call.byte s c) := by
  cases call with
  | write => exact Fbcon.writeByte_safe h c
  | echo => exact Fbcon.putchar_safe h c

theorem FbconCall.run_safe (call : FbconCall) (bytes : List UInt8) (h : Fbcon.Inside w r s) :
    Safe (Fbcon.Inside w r) (call.run bytes s) :=
  Safe.foldlM (fun c _ _ h => call.byte_safe h c) h

theorem fbconCalls_safe (calls : List (FbconCall × List UInt8)) (h : Fbcon.Inside w r s) :
    Safe (Fbcon.Inside w r) (fbconCalls calls s) :=
  Safe.foldlM (fun call _ _ h => call.1.run_safe call.2 h) h

theorem screen_of_bounds (hw : 1 ≤ w ∧ w ≤ 65535) (hr : 1 ≤ r ∧ r ≤ 65535) :
    Screen w r (w * r).toNat := by
  have htoNat : ∀ {n : UInt32}, 1 ≤ n ∧ n ≤ 65535 → 1 ≤ n.toNat ∧ n.toNat ≤ 65535 := fun hn =>
    ⟨UInt32.le_iff_toNat_le.mp hn.1, UInt32.le_iff_toNat_le.mp hn.2⟩
  have harea : Screen w r (w.toNat * r.toNat) := ⟨htoNat hw, htoNat hr, rfl⟩
  rwa [harea.area_eq]

/-- Whatever was in the memory of the buffer. -/
theorem fbconInit_safe (hw : 1 ≤ w ∧ w ≤ 65535) (hr : 1 ≤ r ∧ r ≤ 65535)
    (memory : Nat → Character) : Safe (Fbcon.Inside w r) (fbconInit w r memory) := by
  have hscreen := screen_of_bounds hw hr
  have horigin : ∀ {n : UInt32}, 1 ≤ n → (0 : UInt16).toUInt32 < n := fun hn =>
    UInt32.lt_iff_toNat_lt.mpr (UInt32.le_iff_toNat_le.mp hn)
  rw [fbconInit]
  refine (Fbcon.clearScreen_safe hscreen).bind fun s hs => ?_
  obtain ⟨buffer, hbuffer, rfl⟩ := hs
  refine Fbcon.setCursorPosition_safe ?_ 0 0
  exact ⟨⟨rfl, rfl⟩, hscreen, hbuffer, horigin hw.1, horigin hr.1, by simp⟩

end Calls

/-- For every screen of 1 to 65535 columns and rows, after every sequence of calls of
`fbcon_write` and `fbcon_echo` and any bytes of one more: no access was out of bounds, the
cursor is on the screen, at most 16 parameters are counted, and every character is below 128. -/
theorem fbcon_stays_inside {width height : UInt32} (hwidth : 1 ≤ width ∧ width ≤ 65535)
    (hheight : 1 ≤ height ∧ height ≤ 65535) (memory : Nat → Character)
    (calls : List (FbconCall × List UInt8)) (call : FbconCall) (bytes : List UInt8) :
    ∃ start s, fbconInit width height memory = .ok start ∧
      (do let s ← fbconCalls calls start; call.run bytes s) = .ok s ∧
      s.cursorX.toUInt32 < width ∧ s.cursorY.toUInt32 < height ∧
      (0 ≤ s.ansiParser.paramCount ∧ s.ansiParser.paramCount ≤ 16) ∧
      ∀ i < width.toNat * height.toNat, (s.consoleBuffer i).c < 128 := by
  obtain ⟨start, hstart, hinside⟩ := fbconInit_safe hwidth hheight memory
  obtain ⟨s, hs, hin⟩ := (fbconCalls_safe calls hinside).bind fun _ h => call.run_safe bytes h
  obtain ⟨⟨rfl, rfl⟩, hscreen, hprint, hx, hy, hcount⟩ := hin
  exact ⟨start, s, hstart, hs, hx, hy, hcount, fun i hi => hprint i (hscreen.area ▸ hi)⟩

def downFarAway : List UInt8 := [0x1B, 0x5B] ++ List.replicate 10 0x39 ++ [0x42]

/-- On a screen of 80 by 25, in memory full of ones. -/
theorem fbcon_stays_inside_far : ∃ start s,
    fbconInit 80 25 (fun _ => ⟨0xFF, black, black, 0xFF⟩) = .ok start ∧
      (do
        let s ← fbconCalls [(.echo, [0x41])] start
        FbconCall.write.run downFarAway s) = .ok s ∧
      s.cursorX.toUInt32 < 80 ∧ s.cursorY.toUInt32 < 25 := by
  have hwidth : (1 : UInt32) ≤ 80 ∧ (80 : UInt32) ≤ 65535 := by decide
  have hheight : (1 : UInt32) ≤ 25 ∧ (25 : UInt32) ≤ 65535 := by decide
  obtain ⟨start, s, hstart, hs, hx, hy, -⟩ := fbcon_stays_inside hwidth hheight
    (fun _ => ⟨0xFF, black, black, 0xFF⟩) [(.echo, [0x41])] .write downFarAway
  exact ⟨start, s, hstart, hs, hx, hy⟩

end GlitchedOS
