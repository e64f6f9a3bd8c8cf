/-
The indices of a terminal.  `tty_char_recv` again, with the end of `line_buffer` checked at
every access.  A newline is stored without a look at the limit that other characters have, and
a line that finds the read buffer full is not reset; so each such newline moves `line_index`.
-/
import GlitchedOS.Drivers.TtyLines

namespace GlitchedOS

def ttyLineSize : Nat := 1024

/-- An access to `line_buffer` beyond its end. -/
inductive LineFault where
  | outOfBounds (index : Nat)
deriving DecidableEq, Repr

namespace Tty

def lineAt (t : Tty) (i : Nat) : Except LineFault UInt8 :=
  if i < ttyLineSize then .ok (t.lineBuffer i) else .error (.outOfBounds i)

def putLine (t : Tty) (i : Nat) (c : UInt8) : Except LineFault Tty :=
  if i < ttyLineSize then .ok { t with lineBuffer := Function.update t.lineBuffer i c }
  else .error (.outOfBounds i)

def copyLineChecked : Nat → Nat → Tty → Except LineFault (Bool × Tty)
  | 0, _, t => .ok (true, t)
  | n + 1, i, t =>
    if t.full then .ok (false, t)
    else do
      let c ← t.lineAt i
      copyLineChecked n (i + 1) (t.store c)

def endOfFileChecked (t : Tty) : Except LineFault (Bool × Tty) := do
  let (finished, t) ← copyLineChecked t.lineIndex 0 t
  if finished then
    .ok (true, { t with eof := t.eof || t.lineIndex == 0, lineIndex := 0 })
  else .ok (false, t)

def editChecked (t : Tty) (c : UInt8) : Except LineFault (Bool × Bool × Tty) :=
  if isErase c then
    if 0 < t.lineIndex then .ok (true, true, { t with lineIndex := t.lineIndex - 1 })
    else .ok (true, false, t)
  else if c = 0x0A then do
    let t ← t.putLine t.lineIndex c
    let t := { t with lineIndex := t.lineIndex + 1 }
    let (finished, t) ← copyLineChecked t.lineIndex 0 t
    if finished then .ok (true, false, { t with lineIndex := 0 }) else .ok (false, false, t)
  else if ttyLineLimit ≤ t.lineIndex then .ok (false, false, t)
  else do
    let t ← t.putLine t.lineIndex c
    .ok (true, false, { t with lineIndex := t.lineIndex + 1 })

def echoOfChecked (t : Tty) (c : UInt8) (erased : Bool) : Except LineFault (List TtyEffect) :=
  if t.termios.echoe && t.termios.icanon && isErase c then
    if erased then do
      let last ← t.lineAt t.lineIndex
      .ok (if isPrintable last then [eraseEcho] else [eraseEcho, eraseEcho])
    else .ok []
  else if t.termios.echo then
    .ok (if isPrintable c || c == 0x0A then [.echo [c]] else [.echo [0x5E, c + 0x40]])
  else .ok []

end Tty

/-- `tty_char_recv`, with every access to `line_buffer` checked. -/
def ttyCharRecvChecked (t : Tty) (c : UInt8) : Except LineFault (Tty × List TtyEffect) :=
  let c := t.termios.translate c
  let (skipInput, kills) := t.signals c
  if t.termios.icanon && c == 0x04 then do
    let (finished, t) ← t.endOfFileChecked
    if finished then
      let echoed ← t.echoOfChecked c false
      .ok (t, kills ++ echoed)
    else .ok (t, kills)
  else if skipInput then do
    let echoed ← t.echoOfChecked c false
    .ok (t, kills ++ echoed)
  else if t.termios.icanon then do
    let (finished, erased, t) ← t.editChecked c
    if finished then
      let echoed ← t.echoOfChecked c erased
      .ok (t, kills ++ echoed)
    else .ok (t, kills)
  else if t.full then .ok (t, kills)
  else do
    let echoed ← (t.store c).echoOfChecked c false
    .ok (t.store c, kills ++ echoed)

/-- What happens to a terminal: characters, reads, and changes of its flags. -/
inductive TtyInput where
  | charRecv (c : UInt8)
  | read (len : Nat)
  | setTermios (termios : Termios)

namespace Tty

def input (t : Tty) : TtyInput → Tty
  | .charRecv c => (ttyCharRecv t c).1
  | .read len => (ttyRead t len).2.2
  | .setTermios termios => { t with termios := termios }

def inputChecked (t : Tty) : TtyInput → Except LineFault Tty
  | .charRecv c => do
      let (t, _) ← ttyCharRecvChecked t c
      .ok t
  | .read len => .ok (ttyRead t len).2.2
  | .setTermios termios => .ok { t with termios := termios }

/-- The heads and `line_index` are in range. -/
structure InRange (t : Tty) : Prop where
  valid : t.Valid
  lineIndex : t.lineIndex ≤ ttyLineSize

/-- The input makes no access beyond the line buffer, and leaves the terminal in range. -/
def StaysInRange (t : Tty) (event : TtyInput) : Prop :=
  t.inputChecked event = .ok (t.input event) ∧ (t.input event).InRange

/-- A newline in canonical mode finds a place in the line buffer. -/
def NewlineFits (t : Tty) : TtyInput → Prop
  | .charRecv c => t.termios.icanon = true → t.termios.translate c = 0x0A →
      t.lineIndex < ttyLineSize
  | _ => True

variable {t : Tty} {c : UInt8}

theorem lineAt_eq {i : Nat} (hi : i < ttyLineSize) : t.lineAt i = .ok (t.lineBuffer i) :=
  if_pos hi

theorem putLine_eq {i : Nat} (hi : i < ttyLineSize) :
    t.putLine i c = .ok { t with lineBuffer := Function.update t.lineBuffer i c } := if_pos hi

theorem putLine_error {i : Nat} (hi : ttyLineSize ≤ i) : t.putLine i c = .error (.outOfBounds i) :=
  if_neg (Nat.not_lt.mpr hi)

theorem copyLineChecked_eq {n i : Nat} (hfits : i + n ≤ ttyLineSize) :
    copyLineChecked n i t = .ok (copyLine n i t) := by
  induction n generalizing i t with
  | zero => rfl
  | succ n ih =>
      rw [copyLineChecked, copyLine, lineAt_eq (show i < ttyLineSize by omega)]
      split
      · rfl
      · exact ih (by omega)

theorem endOfFileChecked_eq (h : t.lineIndex ≤ ttyLineSize) :
    t.endOfFileChecked = .ok t.endOfFile := by
  rw [endOfFileChecked, endOfFile, copyLineChecked_eq ((Nat.zero_add _).trans_le h)]
  rcases copyLine t.lineIndex 0 t with ⟨finished, t'⟩
  cases finished <;> rfl

theorem editChecked_eq (hfits : c = 0x0A → t.lineIndex < ttyLineSize) :
    t.editChecked c = .ok (t.edit c) := by
  rw [editChecked, edit]
  by_cases herase : isErase c = true
  · rw [if_pos herase, if_pos herase]
    split <;> rfl
  rw [if_neg herase, if_neg herase]
  by_cases hline : c = 0x0A
  · have hlt := hfits hline
    rw [if_pos hline, if_pos hline, putLine_eq hlt]
    dsimp only [bind, Except.bind]
    rw [copyLineChecked_eq (by omega)]
    rcases copyLine (t.lineIndex + 1) 0 _ with ⟨finished, t'⟩
    cases finished <;> rfl
  rw [if_neg hline, if_neg hline]
  split
  · rfl
  · rename_i hlimit
    have hlt : t.lineIndex < ttyLineSize := by
      simp only [ttyLineLimit, ttyLineSize] at hlimit ⊢
      omega
    rw [putLine_eq hlt]
    rfl

theorem editChecked_newline (h : ttyLineSize ≤ t.lineIndex) :
    t.editChecked 0x0A = .error (.outOfBounds t.lineIndex) := by
  rw [editChecked, if_neg (by decide), if_pos rfl, putLine_error h]
  rfl

theorem echoOfChecked_eq {erased : Bool} (h : erased = true → t.lineIndex < ttyLineSize) :
    t.echoOfChecked c erased = .ok (t.echoOf c erased) := by
  rw [echoOfChecked, echoOf]
  split
  · cases erased with
    | false => rfl
    | true =>
        rw [if_pos rfl, if_pos rfl, lineAt_eq (h rfl)]
        rfl
  split <;> rfl

theorem edit_erased (h : t.lineIndex ≤ ttyLineSize) (herased : (t.edit c).2.1 = true) :
    (t.edit c).2.2.lineIndex < ttyLineSize := by
  rw [edit] at herased ⊢
  by_cases herase : isErase c = true
  · rw [if_pos herase] at herased ⊢
    split
    · change t.lineIndex - 1 < ttyLineSize
      omega
    · rename_i hempty
      rw [if_neg hempty] at herased
      cases herased
  · rw [if_neg herase] at herased
    revert herased
    split
    · dsimp only
      split <;> exact fun h => by cases h
    split <;> exact fun h => by cases h

theorem copyLine_kept (n i : Nat) (h : t.Valid) :
    (copyLine n i t).2.Valid ∧ SameLine t (copyLine n i t).2 :=
  ⟨(copyLine_spec n i h).1, (copyLine_spec n i h).2.1⟩

theorem endOfFile_inRange (h : t.InRange) : t.endOfFile.2.InRange := by
  obtain ⟨hvalid, hsame⟩ := copyLine_kept t.lineIndex 0 h.valid
  rw [endOfFile]
  rcases hcopy : copyLine t.lineIndex 0 t with ⟨finished, t'⟩
  rw [hcopy] at hvalid hsame
  cases finished with
  | true => exact ⟨⟨hvalid.1, hvalid.2⟩, Nat.zero_le _⟩
  | false => exact ⟨hvalid, hsame.lineIndex ▸ h.lineIndex⟩

theorem edit_inRange (h : t.InRange) (hfits : c = 0x0A → t.lineIndex < ttyLineSize) :
    (t.edit c).2.2.InRange := by
  have hvalid := h.valid
  have hindex := h.lineIndex
  rw [edit]
  split
  · split
    · exact ⟨⟨hvalid.1, hvalid.2⟩, (Nat.sub_le _ _).trans hindex⟩
    · exact h
  split
  · rename_i hline
    have hlt := hfits hline
    have hkept := copyLine_kept (t.lineIndex + 1) 0 (t := { t with
      lineBuffer := Function.update t.lineBuffer t.lineIndex c
      lineIndex := t.lineIndex + 1 }) ⟨hvalid.readHead, hvalid.writeHead⟩
    dsimp only
    rcases hcopy : copyLine (t.lineIndex + 1) 0 { t with
      lineBuffer := Function.update t.lineBuffer t.lineIndex c
      lineIndex := t.lineIndex + 1 } with ⟨finished, t'⟩
    rw [hcopy] at hkept
    obtain ⟨hvalid', hsame⟩ := hkept
    cases finished with
    | true => exact ⟨⟨hvalid'.1, hvalid'.2⟩, Nat.zero_le _⟩
    | false =>
        have hmoved : t'.lineIndex = t.lineIndex + 1 := hsame.lineIndex
        exact ⟨hvalid', hmoved.trans_le hlt⟩
  split
  · exact h
  · rename_i hlimit
    refine ⟨⟨hvalid.1, hvalid.2⟩, ?_⟩
    simp only [ttyLineLimit, ttyLineSize] at hlimit ⊢
    omega

/-- A newline does not end in a signal or in the end of the file. -/
theorem signals_newline (t : Tty) : t.signals 0x0A = (false, []) := by
  have h3 : ((0x0A : UInt8) == 0x03) = false := by decide
  have h1A : ((0x0A : UInt8) == 0x1A) = false := by decide
  rw [signals, h3, h1A, Bool.and_false, if_neg Bool.false_ne_true, if_neg Bool.false_ne_true]

theorem charRecv_fits (h : t.InRange) (hfits : t.NewlineFits (.charRecv c)) :
    ttyCharRecvChecked t c = .ok (ttyCharRecv t c) ∧ (ttyCharRecv t c).1.InRange := by
  rw [ttyCharRecvChecked, ttyCharRecv]
  have hfits : t.termios.icanon = true → t.termios.translate c = 0x0A →
      t.lineIndex < ttyLineSize := hfits
  generalize t.termios.translate c = c at hfits ⊢
  rcases t.signals c with ⟨skipInput, kills⟩
  dsimp only
  by_cases heof : (t.termios.icanon && c == 0x04) = true
  · rw [if_pos heof, if_pos heof, endOfFileChecked_eq h.lineIndex]
    have hend := endOfFile_inRange h
    generalize t.endOfFile = result at hend ⊢
    rcases result with ⟨finished, t'⟩
    dsimp only [bind, Except.bind] at hend ⊢
    cases finished with
    | true => exact ⟨by rw [if_pos rfl, echoOfChecked_eq (by simp)]; rfl, hend⟩
    | false => exact ⟨rfl, hend⟩
  rw [if_neg heof, if_neg heof]
  by_cases hskip : skipInput = true
  · rw [if_pos hskip, if_pos hskip, echoOfChecked_eq (by simp)]
    exact ⟨rfl, h⟩
  rw [if_neg hskip, if_neg hskip]
  by_cases hcanon : t.termios.icanon = true
  · rw [if_pos hcanon, if_pos hcanon, editChecked_eq (hfits hcanon)]
    have herased := edit_erased (c := c) h.lineIndex
    have hedit := edit_inRange h (hfits hcanon)
    generalize t.edit c = result at herased hedit ⊢
    rcases result with ⟨finished, erased, t'⟩
    dsimp only [bind, Except.bind] at herased hedit ⊢
    cases finished with
    | true => exact ⟨by rw [if_pos rfl, echoOfChecked_eq herased]; rfl, hedit⟩
    | false => exact ⟨rfl, hedit⟩
  rw [if_neg hcanon, if_neg hcanon]
  split
  · exact ⟨rfl, h⟩
  · rw [echoOfChecked_eq (by simp)]
    exact ⟨rfl, h.valid.store c, h.lineIndex⟩

theorem charRecv_beyond (hcanon : t.termios.icanon = true)
    (hline : t.termios.translate c = 0x0A) (hbeyond : ttyLineSize ≤ t.lineIndex) :
    ttyCharRecvChecked t c = .error (.outOfBounds t.lineIndex) := by
  have hnot : ((0x0A : UInt8) == 0x04) = false := by decide
  rw [ttyCharRecvChecked, hline]
  dsimp only
  rw [signals_newline, hnot, Bool.and_false, if_neg Bool.false_ne_true]
  dsimp only
  rw [if_neg Bool.false_ne_true, if_pos hcanon, editChecked_newline hbeyond]
  rfl

/-- An input to a terminal in range stays in range exactly when a newline, if it is one, finds
a place. -/
theorem staysInRange_iff (h : t.InRange) (event : TtyInput) :
    t.StaysInRange event ↔ t.NewlineFits event := by
  cases event with
  | read len =>
      obtain ⟨hvalid, -, -, hindex, -⟩ := ttyRead_spec h.valid len
      exact ⟨fun _ => trivial, fun _ => ⟨rfl, hvalid, hindex ▸ h.lineIndex⟩⟩
  | setTermios termios =>
      exact ⟨fun _ => trivial, fun _ => ⟨rfl, ⟨h.valid.1, h.valid.2⟩, h.lineIndex⟩⟩
  | charRecv c =>
      constructor
      · rintro ⟨hchecked, -⟩ hcanon hline
        by_contra hbeyond
        rw [inputChecked, charRecv_beyond hcanon hline (Nat.not_lt.mp hbeyond)] at hchecked
        cases hchecked
      · intro hfits
        obtain ⟨hchecked, hrange⟩ := charRecv_fits h hfits
        refine ⟨?_, hrange⟩
        rw [inputChecked, hchecked]
        rfl

theorem Fresh.inRange (ht : t.Fresh) : t.InRange := by
  refine ⟨⟨?_, ?_⟩, ?_⟩
  · rw [ht.readHead]
    decide
  · rw [ht.writeHead]
    decide
  · rw [ht.lineIndex]
    exact Nat.zero_le _

end Tty

/-- A run of inputs at a fresh terminal, with any flags, stays in range and in the line buffer
if and only if each newline that arrives in canonical mode finds a place in it. -/
theorem tty_indices_in_range_iff {t : Tty} (ht : t.Fresh) (events : List TtyInput) :
    t.InRange ∧ (Along Tty.input Tty.StaysInRange t events ↔
      Along Tty.input Tty.NewlineFits t events) := by
  have hany : Along Tty.input (fun _ _ => True) t events := Along.of_forall fun _ _ => trivial
  refine ⟨ht.inRange, Along.iff_of_step Tty.InRange (fun t event h _ => ?_) ht.inRange hany⟩
  exact ⟨Tty.staysInRange_iff h event, fun hstays => hstays.2⟩

/-- `a`, a newline, a read, and a newline without `ICANON`. -/
theorem tty_indices_in_range_iff_one :
    Along Tty.input Tty.StaysInRange plainTty
      [.charRecv 0x61, .charRecv 0x0A, .read 16, .setTermios ⟨0, 0⟩, .charRecv 0x0A] := by
  refine (tty_indices_in_range_iff plainTty_fresh _).2.mpr ⟨?_, ?_, trivial, trivial, ?_, trivial⟩
  · exact fun _ _ => by decide
  · exact fun _ _ => by decide
  · exact fun h => absurd h (by decide)

/-! ### A run without a reader

The read buffer is filled by 4095 newlines; then a line of 1022 letters and two newlines fill
the line buffer, and the third newline is stored beyond it. -/

namespace Tty

/-- Nobody has read from the plain terminal. -/
structure Unread (t : Tty) (w l : Nat) : Prop where
  termios : t.termios = plainTty.termios
  readHead : t.readHead = 0
  writeHead : t.writeHead = w
  lineIndex : t.lineIndex = l

variable {t : Tty} {w l : Nat}

theorem Unread.full (h : t.Unread 4095 l) : t.full = true := by
  rw [Tty.full, h.readHead, h.writeHead]
  decide

theorem Unread.room (h : t.Unread w l) (hw : w < 4095) : t.full = false := by
  rw [Tty.full, h.readHead, h.writeHead, beq_eq_false_iff_ne, ttyBufferSize]
  omega

/-- In canonical mode without signals and translations, a character edits the line. -/
theorem Unread.charRecv (h : t.Unread w l) (c : UInt8) (hc : c ≠ 0x04) :
    t.input (.charRecv c) = (t.edit c).2.2 := by
  have hcanonical : t.Canonical := by
    constructor <;> rw [h.termios] <;> decide
  have hsame : t.termios.translate c = c := by
    rw [h.termios]
    rfl
  have hedit := charRecv_eq_edit hcanonical c (by rwa [hsame])
  rwa [hsame] at hedit

def ended (t : Tty) : Tty :=
  { t with
    lineBuffer := Function.update t.lineBuffer t.lineIndex 0x0A
    lineIndex := t.lineIndex + 1 }

theorem Unread.ended (h : t.Unread w l) : t.ended.Unread w (l + 1) :=
  ⟨h.termios, h.readHead, h.writeHead, congrArg (· + 1) h.lineIndex⟩

theorem edit_ended (t : Tty) :
    (t.edit 0x0A).2.2 =
      if (copyLine (t.lineIndex + 1) 0 t.ended).1 then
        { (copyLine (t.lineIndex + 1) 0 t.ended).2 with lineIndex := 0 }
      else (copyLine (t.lineIndex + 1) 0 t.ended).2 := by
  have hedit : t.edit 0x0A =
      if (copyLine (t.lineIndex + 1) 0 t.ended).1 then
        (true, false, { (copyLine (t.lineIndex + 1) 0 t.ended).2 with lineIndex := 0 })
      else (false, false, (copyLine (t.lineIndex + 1) 0 t.ended).2) := rfl
  rw [hedit]
  split <;> rfl

/-- A line that finds room is committed. -/
theorem Unread.emptyLine (h : t.Unread w 0) (hw : w < 4095) :
    (t.input (.charRecv 0x0A)).Unread (w + 1) 0 := by
  have hended := h.ended
  rw [h.charRecv 0x0A (by decide), edit_ended, h.lineIndex, copyLine, hended.room hw,
    if_neg Bool.false_ne_true]
  refine ⟨hended.termios, hended.readHead, ?_, rfl⟩
  change (t.ended.writeHead + 1) % ttyBufferSize = w + 1
  rw [hended.writeHead, ttyBufferSize, Nat.mod_eq_of_lt (by omega)]

theorem Unread.letter (h : t.Unread w l) (hl : l < ttyLineLimit) :
    (t.input (.charRecv 0x61)).Unread w (l + 1) := by
  rw [h.charRecv 0x61 (by decide), edit, if_neg (by decide), if_neg (by decide),
    if_neg (by rw [h.lineIndex]; omega)]
  exact ⟨h.termios, h.readHead, h.writeHead, congrArg (· + 1) h.lineIndex⟩

theorem Unread.longLine (h : t.Unread 4095 l) :
    (t.input (.charRecv 0x0A)).Unread 4095 (l + 1) := by
  have hended := h.ended
  rw [h.charRecv 0x0A (by decide), edit_ended, copyLine, hended.full, if_pos rfl]
  exact hended

/-- The same input again and again. -/
theorem Unread.replicate {event : TtyInput} (w' l' : Nat → Nat) (n : Nat)
    (hstep : ∀ m < n, ∀ {t : Tty}, t.Unread (w' m) (l' m) →
      (t.input event).Unread (w' (m + 1)) (l' (m + 1))) (h : t.Unread (w' 0) (l' 0)) :
    ((List.replicate n event).foldl input t).Unread (w' n) (l' n) := by
  induction n with
  | zero => exact h
  | succ n ih =>
      rw [List.replicate_succ', List.foldl_append]
      exact hstep n (Nat.lt_succ_self n) (ih fun m hm => hstep m (by omega))

theorem Unread.fill : ((List.replicate 4095 (.charRecv 0x0A)).foldl input plainTty).Unread 4095 0 :=
  Unread.replicate id (fun _ => 0) 4095 (fun _ hm _ h => h.emptyLine hm) ⟨rfl, rfl, rfl, rfl⟩

theorem Unread.type (h : t.Unread 4095 0) :
    ((List.replicate 1022 (.charRecv 0x61)).foldl input t).Unread 4095 1022 :=
  Unread.replicate (fun _ => 4095) id 1022 (fun _ hm _ h => h.letter hm) h

/-- Two newlines fill it. -/
theorem Unread.stay (h : t.Unread 4095 1022) :
    ((List.replicate 2 (.charRecv 0x0A)).foldl input t).Unread 4095 1024 :=
  Unread.replicate (fun _ => 4095) (1022 + ·) 2 (fun _ _ _ h => h.longLine) h

end Tty

/-- 4095 newlines that nobody reads, 1022 letters and two newlines. -/
def unreadLines : List TtyInput :=
  List.replicate 4095 (.charRecv 0x0A) ++ List.replicate 1022 (.charRecv 0x61) ++
    List.replicate 2 (.charRecv 0x0A)

/-- The next newline is stored behind the line buffer. -/
theorem newline_beyond_line_buffer :
    ttyCharRecvChecked (unreadLines.foldl Tty.input plainTty) 0x0A =
        .error (.outOfBounds 1024) ∧
      ¬Along Tty.input Tty.StaysInRange plainTty (unreadLines ++ [.charRecv 0x0A]) := by
  have hfull : (unreadLines.foldl Tty.input plainTty).Unread 4095 1024 := by
    rw [unreadLines, List.foldl_append, List.foldl_append]
    exact Tty.Unread.fill.type.stay
  generalize hlast : unreadLines.foldl Tty.input plainTty = t at hfull
  have hfault : ttyCharRecvChecked t 0x0A = .error (.outOfBounds 1024) := by
    have hbeyond := Tty.charRecv_beyond (t := t) (c := 0x0A) (by rw [hfull.termios]; decide)
      (by rw [hfull.termios]; decide) (by rw [hfull.lineIndex]; decide)
    rwa [hfull.lineIndex] at hbeyond
  refine ⟨hfault, fun hruns => ?_⟩
  obtain ⟨hchecked, -⟩ := (Along.append.mp hruns).2.1
  rw [hlast, Tty.inputChecked, hfault] at hchecked
  cases hchecked

end GlitchedOS
