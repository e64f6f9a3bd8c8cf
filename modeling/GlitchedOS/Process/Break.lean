/-
`break.c`: the program break.  The pages of the heap are those below the break; a
break that moves up gets pages of zeros, one that moves down gives pages back.
-/
import GlitchedOS.Lib.Run
import GlitchedOS.Paging.Ranges
import GlitchedOS.Paging.System

namespace GlitchedOS

open Radix

/-- `USER_MAX` -/
def userMax : Nat := 0x00007FFFFFFFFFFF

/-- The fields of `current_task` that hold the break, and the memory it runs in. -/
structure BreakTask where
  phys : PhysMem
  brk : Nat
  initialBrk : Nat

inductive BreakStop where
  | panic (reason : Panic)
  | fault
deriving Repr, DecidableEq

theorem userRw_masked : (flagsUser ||| flagsRw) &&& ~~~flagsMask = 0#64 := by decide

def brkFlags : Flags := ⟨flagsUser ||| flagsRw, userRw_masked⟩

/-- `set_brk`, with a current task; a null pointer is `0`. -/
def setBrk (root : Nat) (t : BreakTask) (addr : Nat) : Except BreakStop (Nat × BreakTask) :=
  if addr = 0 then .ok (t.brk, t) else
  if addr < t.initialBrk then .ok (0, t) else
  if userMax < addr then .ok (0, t) else
  if t.brk < t.initialBrk then .ok (0, t) else
  let oldPageEnd := pageAlign64 t.brk
  let newPageEnd := pageAlign64 addr
  if oldPageEnd < newPageEnd then
    match allocRegion64 t.phys root oldPageEnd (newPageEnd - oldPageEnd) brkFlags with
    | .error reason => .error (.panic reason)
    | .ok s =>
        match storeBytes root oldPageEnd (fun _ => 0) (newPageEnd - oldPageEnd) s with
        | none => .error .fault
        | some s => .ok (addr, { t with phys := s, brk := addr })
  else if newPageEnd < oldPageEnd then
    .ok (addr, { t with
      phys := freeRegion64 t.phys root newPageEnd (oldPageEnd - newPageEnd), brk := addr })
  else .ok (addr, { t with brk := addr })

/-- `(void*)-1` -/
def sbrkFailed : Nat := 2 ^ 64 - 1

/-- The end of `sbrk`, with the break to move to. -/
def sbrkTo (root : Nat) (t : BreakTask) (newBrk : Nat) : Except BreakStop (Nat × BreakTask) :=
  match setBrk root t newBrk with
  | .error stop => .error stop
  | .ok (r, t') => if r = 0 then .ok (sbrkFailed, t') else .ok (t.brk, t')

/-- `sbrk` -/
def sbrk (root : Nat) (t : BreakTask) (increment : Int) : Except BreakStop (Nat × BreakTask) :=
  if t.brk = 0 then .ok (sbrkFailed, t) else
  if 0 < increment then
    let amount := increment.toNat
    if 2 ^ 64 - 1 - t.brk < amount then .ok (sbrkFailed, t) else
    if userMax < t.brk + amount then .ok (sbrkFailed, t) else
    sbrkTo root t (t.brk + amount)
  else if increment < 0 then
    let amount := (-(increment + 1)).toNat + 1
    if t.brk < t.initialBrk ∨ t.brk - t.initialBrk < amount then .ok (sbrkFailed, t) else
    sbrkTo root t (t.brk - amount)
  else .ok (t.brk, t)

inductive BreakOp where
  | setBrk (addr : Nat)
  | sbrk (increment : Int)
deriving Repr, DecidableEq

def breakCall (root : Nat) (t : BreakTask) : BreakOp → Except BreakStop (Nat × BreakTask)
  | .setBrk addr => setBrk root t addr
  | .sbrk increment => sbrk root t increment

/-- A task, and the highest break it ever had. -/
structure BreakRun where
  task : BreakTask
  highest : Nat

inductive BreakStep (root : Nat) : BreakRun → BreakOp → BreakRun → Prop
  | call {run : BreakRun} {op : BreakOp} {r : Nat} {t' : BreakTask}
      (hok : breakCall root run.task op = .ok (r, t')) :
      BreakStep root run op ⟨t', max run.highest t'.brk⟩

/-- The call does not ask `sbrk` to take the break down to address `0`, where the heap
begins there. -/
def NotToZero (t : BreakTask) : BreakOp → Prop
  | .setBrk _ => True
  | .sbrk increment => t.initialBrk = 0 → t.brk ≠ 0 → (t.brk : Int) + increment ≠ 0

/-- A task as its program starts: the break is where the heap begins. -/
structure BreakStart (held : Nat → Nat) (root : Nat) (rest : List (Nat × Nat))
    (t : BreakTask) : Prop where
  counted : Counted t.phys held ((4, root) :: rest)
  aligned : t.initialBrk % pageSize = 0
  brk : t.brk = t.initialBrk
  low : t.initialBrk ≤ userMax

/-- What a call that returns `r` has done. -/
structure CallTracks (root : Nat) (t : BreakTask) (op : BreakOp) (r : Nat)
    (t' : BreakTask) : Prop where
  initialBrk : t'.initialBrk = t.initialBrk
  answer : match op with
    | .setBrk addr => (r = 0 ∧ t' = t) ∨ (addr = 0 ∧ r = t.brk ∧ t' = t) ∨
        (addr ≠ 0 ∧ r = addr ∧ t'.brk = addr)
    | .sbrk increment => (r = t.brk ∧ (t'.brk : Int) = t.brk + increment) ∨
        (r = sbrkFailed ∧ t' = t)
  zero : ∀ a, t'.initialBrk ≤ a → a < pageAlign64 t'.brk → pte t.phys root a = none →
    virtByte t'.phys root a = some 0

/-- The break and the pages of the heap. -/
structure BreakTracks (held : Nat → Nat) (root : Nat) (rest : List (Nat × Nat))
    (run : BreakRun) : Prop where
  counted : Counted run.task.phys held ((4, root) :: rest)
  aligned : run.task.initialBrk % pageSize = 0
  low : run.task.initialBrk ≤ run.task.brk
  reached : run.task.brk ≤ run.highest
  high : run.highest ≤ userMax
  mapped : ∀ a, run.task.initialBrk ≤ a → a < pageAlign64 run.highest →
    (pte run.task.phys root a ≠ none ↔ a < pageAlign64 run.task.brk)

variable {held : Nat → Nat} {root : Nat} {rest : List (Nat × Nat)} {t t' : BreakTask}
  {addr r : Nat}

theorem pageAlign64_spec {x : Nat} (hx : x ≤ userMax) :
    x ≤ pageAlign64 x ∧ pageAlign64 x < x + pageSize ∧ pageAlign64 x % pageSize = 0 ∧
      pageAlign64 x ≤ lowerHalf := by
  simp only [userMax] at hx
  simp only [pageAlign64, pageSize, lowerHalf]
  omega

theorem pageAlign64_mono {x y : Nat} (hxy : x ≤ y) (hy : y ≤ userMax) :
    pageAlign64 x ≤ pageAlign64 y := by
  simp only [userMax] at hy
  simp only [pageAlign64, pageSize]
  omega

theorem regionRounds_aligned {lo hi : Nat} (hlo : lo % pageSize = 0) (hhi : hi % pageSize = 0)
    (hle : lo ≤ hi) (hlow : hi ≤ lowerHalf) :
    regionRounds lo (hi - lo) * pageSize = hi - lo ∧
      (∀ k < regionRounds lo (hi - lo), lo + k * pageSize < lowerHalf) ∧
      ∀ a, InPages lo (regionRounds lo (hi - lo)) a ↔ lo ≤ a ∧ a < hi := by
  have hfit : lo + (hi - lo) + pageSize ≤ 2 ^ 64 := by
    simp only [lowerHalf, pageSize] at *
    omega
  rw [regionRounds_eq hfit]
  simp only [pageRounds, pageAlign, pageSize, InPages, lowerHalf] at *
  refine ⟨by omega, fun k hk => by omega, fun a => by omega⟩

theorem pte_of_virtByte {s : PhysMem} {a : Nat} {b : Byte} (ha : a < lowerHalf)
    (h : virtByte s root a = some b) : pte s root a ≠ none := by
  intro hnone
  rw [virtByte, UserData.translate_eq ha, hnone] at h
  cases h

/-- What a move of the break to `addr` does to the pages. -/
structure BreakMoved (held : Nat → Nat) (root : Nat) (rest : List (Nat × Nat))
    (t : BreakTask) (addr : Nat) (s' : PhysMem) : Prop where
  counted : Counted s' held ((4, root) :: rest)
  kept : ∀ a < lowerHalf, (a < pageAlign64 addr ↔ a < pageAlign64 t.brk) →
    pte s' root a = pte t.phys root a
  grown : ∀ a, pageAlign64 t.brk ≤ a → a < pageAlign64 addr →
    pte t.phys root a = none ∧ virtByte s' root a = some 0
  shrunk : ∀ a, pageAlign64 addr ≤ a → a < pageAlign64 t.brk → pte s' root a = none

theorem breakMoved_grow {s₁ : PhysMem} (hc : Counted t.phys held ((4, root) :: rest))
    (hbrk : t.brk ≤ userMax) (haddr : addr ≤ userMax)
    (hgrow : pageAlign64 t.brk < pageAlign64 addr)
    (hok : allocRegion64 t.phys root (pageAlign64 t.brk)
      (pageAlign64 addr - pageAlign64 t.brk) brkFlags = .ok s₁) :
    ∃ s', storeBytes root (pageAlign64 t.brk) (fun _ => 0)
        (pageAlign64 addr - pageAlign64 t.brk) s₁ = some s' ∧
      BreakMoved held root rest t addr s' := by
  obtain ⟨-, -, haligned, -⟩ := pageAlign64_spec hbrk
  obtain ⟨-, -, haligned', hlow⟩ := pageAlign64_spec haddr
  obtain ⟨hsize, hfit, hpages⟩ := regionRounds_aligned haligned haligned' hgrow.le hlow
  obtain ⟨hc₁, hbuilt⟩ := allocRegion64_built hc hfit hok
  obtain ⟨s', hstore, hc', hpte, hzero⟩ := hbuilt.zeroed hc₁ haligned (by omega)
  rw [hsize] at hstore hzero
  refine ⟨s', hstore, hc', fun a ha hiff => ?_, fun a hlo hhi => ?_, fun a hlo hhi => ?_⟩
  · rw [hpte a ha, hbuilt.other a ha]
    rw [hpages]
    omega
  · have hin := (hpages a).mpr ⟨hlo, hhi⟩
    exact ⟨(hbuilt.mapped a (by omega) hin).1, hzero a hlo (by omega)⟩
  · omega

/-- A break that moves down gives whole pages back. -/
theorem breakMoved_shrink (hc : Counted t.phys held ((4, root) :: rest))
    (hbrk : t.brk ≤ userMax) (hne : addr ≠ 0) (haddr : addr ≤ userMax)
    (hshrink : pageAlign64 addr < pageAlign64 t.brk) :
    BreakMoved held root rest t addr
      (freeRegion64 t.phys root (pageAlign64 addr) (pageAlign64 t.brk - pageAlign64 addr)) := by
  obtain ⟨-, -, haligned, hlow⟩ := pageAlign64_spec hbrk
  obtain ⟨hle, -, haligned', -⟩ := pageAlign64_spec haddr
  obtain ⟨-, hfit, hpages⟩ := regionRounds_aligned haligned' haligned hshrink.le hlow
  obtain ⟨hc', hpte⟩ := freeRegion64_pte hc (by omega) hfit
  refine ⟨hc', fun a ha hiff => ?_, fun a hlo hhi => ?_, fun a hlo hhi => ?_⟩
  · rw [hpte a ha, if_neg]
    rw [hpages]
    omega
  · omega
  · rw [hpte a (by omega), if_pos ((hpages a).mpr ⟨hlo, hhi⟩)]

/-- An address that is not refused: the break moves there, unless the kernel panics. -/
theorem setBrk_moves (hc : Counted t.phys held ((4, root) :: rest))
    (hlow : t.initialBrk ≤ t.brk) (hbrk : t.brk ≤ userMax) (hne : addr ≠ 0)
    (hlo : t.initialBrk ≤ addr) (hhi : addr ≤ userMax) :
    (∃ reason, setBrk root t addr = .error (.panic reason)) ∨
      ∃ s', setBrk root t addr = .ok (addr, { t with phys := s', brk := addr }) ∧
        BreakMoved held root rest t addr s' := by
  rw [setBrk, if_neg hne, if_neg (Nat.not_lt.mpr hlo), if_neg (Nat.not_lt.mpr hhi),
    if_neg (Nat.not_lt.mpr hlow)]
  dsimp only
  split
  next hgrow =>
    cases hok : allocRegion64 t.phys root (pageAlign64 t.brk)
        (pageAlign64 addr - pageAlign64 t.brk) brkFlags with
    | error reason => exact .inl ⟨reason, rfl⟩
    | ok s₁ =>
        obtain ⟨s', hstore, hmoved⟩ := breakMoved_grow hc hbrk hhi hgrow hok
        dsimp only
        rw [hstore]
        exact .inr ⟨s', rfl, hmoved⟩
  next hgrow =>
    split
    next hshrink => exact .inr ⟨_, rfl, breakMoved_shrink hc hbrk hne hhi hshrink⟩
    next hshrink =>
      have heq : pageAlign64 addr = pageAlign64 t.brk := by omega
      refine .inr ⟨t.phys, rfl, hc, fun _ _ _ => rfl, fun a hlo hhi => ?_, fun a hlo hhi => ?_⟩
      · omega
      · omega

namespace BreakTracks

variable {run : BreakRun}

/-- A break that has moved tracks the pages again. -/
theorem moved {s' : PhysMem} (h : BreakTracks held root rest run)
    (hlo : run.task.initialBrk ≤ addr) (hhi : addr ≤ userMax)
    (hmoved : BreakMoved held root rest run.task addr s') :
    BreakTracks held root rest
        ⟨{ run.task with phys := s', brk := addr }, max run.highest addr⟩ ∧
      ∀ a, run.task.initialBrk ≤ a → a < pageAlign64 addr →
        pte run.task.phys root a = none → virtByte s' root a = some 0 := by
  have hold := pageAlign64_mono h.reached h.high
  obtain ⟨-, -, -, hlow⟩ := pageAlign64_spec hhi
  obtain ⟨-, -, -, hlow'⟩ := pageAlign64_spec h.high
  refine ⟨⟨hmoved.counted, h.aligned, hlo, Nat.le_max_right _ _, max_le h.high hhi, ?_⟩, ?_⟩
  · intro a ha hmax
    have hcases : a < pageAlign64 addr ∨ a < pageAlign64 run.highest := by
      rcases Nat.le_total run.highest addr with hle | hle
      · rw [Nat.max_eq_right hle] at hmax
        exact .inl hmax
      · rw [Nat.max_eq_left hle] at hmax
        exact .inr hmax
    dsimp only
    by_cases hbelow : a < pageAlign64 addr
    · refine iff_of_true ?_ hbelow
      by_cases hwas : a < pageAlign64 run.task.brk
      · rw [hmoved.kept a (by omega) (iff_of_true hbelow hwas)]
        exact (h.mapped a ha (by omega)).mpr hwas
      · exact pte_of_virtByte (by omega) (hmoved.grown a (by omega) hbelow).2
    · refine iff_of_false ?_ hbelow
      rw [not_not]
      by_cases hwas : a < pageAlign64 run.task.brk
      · exact hmoved.shrunk a (by omega) hwas
      · rw [hmoved.kept a (by omega) (iff_of_false hbelow hwas)]
        have hunmapped := (h.mapped a ha (by omega)).not.mpr hwas
        rwa [not_not] at hunmapped
  · intro a ha hbelow hnone
    have hwas : ¬ a < pageAlign64 run.task.brk := fun hwas =>
      (h.mapped a ha (by omega)).mpr hwas hnone
    exact (hmoved.grown a (by omega) hbelow).2

theorem stays (h : BreakTracks held root rest run) :
    BreakTracks held root rest ⟨run.task, max run.highest run.task.brk⟩ := by
  rw [Nat.max_eq_left h.reached]
  exact h

theorem noneEnters (h : BreakTracks held root rest run) {a : Nat}
    (ha : run.task.initialBrk ≤ a) (hbelow : a < pageAlign64 run.task.brk)
    (hnone : pte run.task.phys root a = none) : virtByte run.task.phys root a = some 0 := by
  have hold := pageAlign64_mono h.reached h.high
  exact absurd hnone ((h.mapped a ha (by omega)).mpr hbelow)

def Returns (held : Nat → Nat) (root : Nat) (rest : List (Nat × Nat)) (run : BreakRun)
    (op : BreakOp) : Prop :=
  (∃ reason, breakCall root run.task op = .error (.panic reason)) ∨
    ∃ r t', breakCall root run.task op = .ok (r, t') ∧ CallTracks root run.task op r t' ∧
      BreakTracks held root rest ⟨t', max run.highest t'.brk⟩

theorem returns_setBrk (h : BreakTracks held root rest run) (addr : Nat) :
    Returns held root rest run (.setBrk addr) := by
  by_cases hzero : addr = 0
  · refine .inr ⟨run.task.brk, run.task, if_pos hzero, ⟨rfl, ?_, fun a => h.noneEnters⟩, h.stays⟩
    exact .inr (.inl ⟨hzero, rfl, rfl⟩)
  by_cases hin : run.task.initialBrk ≤ addr ∧ addr ≤ userMax
  · obtain ⟨reason, hpanic⟩ | ⟨s', hok, hmoved⟩ := setBrk_moves h.counted h.low
      (h.reached.trans h.high) hzero hin.1 hin.2
    · exact .inl ⟨reason, hpanic⟩
    · obtain ⟨htracks, hzeros⟩ := h.moved hin.1 hin.2 hmoved
      exact .inr ⟨addr, _, hok, ⟨rfl, .inr (.inr ⟨hzero, rfl, rfl⟩), hzeros⟩, htracks⟩
  · have hrefused : setBrk root run.task addr = .ok (0, run.task) := by
      rw [setBrk, if_neg hzero]
      split
      · rfl
      · rw [if_pos (by omega)]
    exact .inr ⟨0, run.task, hrefused, ⟨rfl, .inl ⟨rfl, rfl⟩, fun a => h.noneEnters⟩, h.stays⟩

theorem sbrkTo_moves {newBrk : Nat} (h : BreakTracks held root rest run) (hne : newBrk ≠ 0)
    (hlo : run.task.initialBrk ≤ newBrk) (hhi : newBrk ≤ userMax) :
    (∃ reason, sbrkTo root run.task newBrk = .error (.panic reason)) ∨
      ∃ s', sbrkTo root run.task newBrk =
          .ok (run.task.brk, { run.task with phys := s', brk := newBrk }) ∧
        BreakMoved held root rest run.task newBrk s' := by
  rw [sbrkTo]
  obtain ⟨reason, hpanic⟩ | ⟨s', hok, hmoved⟩ := setBrk_moves h.counted h.low
    (h.reached.trans h.high) hne hlo hhi
  · rw [hpanic]
    exact .inl ⟨reason, rfl⟩
  · rw [hok]
    exact .inr ⟨s', if_neg hne, hmoved⟩

theorem returns_sbrk {increment : Int} (h : BreakTracks held root rest run)
    (hfits : NotToZero run.task (.sbrk increment)) :
    Returns held root rest run (.sbrk increment) := by
  have hrefused (heq : sbrk root run.task increment = .ok (sbrkFailed, run.task)) :
      Returns held root rest run (.sbrk increment) :=
    .inr ⟨sbrkFailed, run.task, heq, ⟨rfl, .inr ⟨rfl, rfl⟩, fun a => h.noneEnters⟩, h.stays⟩
  have hmoves {newBrk : Nat} (hcall : sbrk root run.task increment = sbrkTo root run.task newBrk)
      (hne : newBrk ≠ 0) (hlo : run.task.initialBrk ≤ newBrk) (hhi : newBrk ≤ userMax)
      (hby : (newBrk : Int) = run.task.brk + increment) :
      Returns held root rest run (.sbrk increment) := by
    obtain ⟨reason, hpanic⟩ | ⟨s', hok, hmoved⟩ := h.sbrkTo_moves hne hlo hhi
    · exact .inl ⟨reason, hcall.trans hpanic⟩
    · obtain ⟨htracks, hzeros⟩ := h.moved hlo hhi hmoved
      exact .inr ⟨_, _, hcall.trans hok, ⟨rfl, .inl ⟨rfl, hby⟩, hzeros⟩, htracks⟩
  have hlow := h.low
  have hhigh := h.reached.trans h.high
  by_cases hbrk : run.task.brk = 0
  · exact hrefused (if_pos hbrk)
  have hcall : sbrk root run.task increment = _ := if_neg hbrk
  rcases Int.lt_trichotomy increment 0 with hneg | hzero | hpos
  · rw [if_neg (by omega), if_pos hneg] at hcall
    dsimp only at hcall
    split at hcall
    next => exact hrefused hcall
    next hroom =>
      refine hmoves hcall ?_ (by omega) (by omega) (by omega)
      intro hto
      exact hfits (by omega) hbrk (by omega)
  · refine .inr ⟨run.task.brk, run.task, ?_, ⟨rfl, .inl ⟨rfl, ?_⟩, fun a => h.noneEnters⟩, h.stays⟩
    · rw [if_neg (by omega), if_neg (by omega)] at hcall
      exact hcall
    · rw [hzero, Int.add_zero]
  · rw [if_pos hpos] at hcall
    dsimp only at hcall
    split at hcall
    next => exact hrefused hcall
    next =>
      split at hcall
      next => exact hrefused hcall
      next => exact hmoves hcall (by omega) (by omega) (by omega) (by omega)

theorem returns {op : BreakOp} (h : BreakTracks held root rest run)
    (hfits : NotToZero run.task op) : Returns held root rest run op := by
  cases op with
  | setBrk addr => exact h.returns_setBrk addr
  | sbrk increment => exact h.returns_sbrk hfits

/-- A call keeps the invariant. -/
theorem step {run' : BreakRun} {op : BreakOp} (h : BreakTracks held root rest run)
    (hfits : NotToZero run.task op) (hstep : BreakStep root run op run') :
    BreakTracks held root rest run' := by
  cases hstep with
  | call hok =>
      obtain ⟨reason, hpanic⟩ | ⟨r, t', hok', -, htracks⟩ := h.returns hfits
      · rw [hpanic] at hok
        cases hok
      · obtain ⟨rfl, rfl⟩ := Prod.mk.inj (Except.ok.inj (hok'.symm.trans hok))
        exact htracks

end BreakTracks

theorem BreakStart.tracks (h : BreakStart held root rest t) :
    BreakTracks held root rest ⟨t, t.brk⟩ := by
  have hbrk := h.brk
  refine ⟨h.counted, h.aligned, h.brk.ge, Nat.le_refl _, h.brk.le.trans h.low, ?_⟩
  intro a ha hbelow
  obtain ⟨-, -, haligned, -⟩ := pageAlign64_spec (h.brk.le.trans h.low)
  have hend : pageAlign64 t.brk = t.brk := by
    have hlow := h.low
    have haligned := h.aligned
    rw [hbrk]
    simp only [userMax] at hlow
    simp only [pageAlign64, pageSize] at haligned ⊢
    omega
  dsimp only at ha hbelow
  omega

/-- Over every run of `set_brk` and `sbrk` calls, the break stays between its initial value
and the end of user space and the mapped heap pages are those below it; a call that returns
moves the break as asked or changes nothing, and brings zeros only. -/
theorem run_break_tracks {finish : BreakRun} {ops : List BreakOp}
    (hstart : BreakStart held root rest t)
    (hrun : Run (fun run op run' => BreakStep root run op run' ∧ NotToZero run.task op)
      ⟨t, t.brk⟩ ops finish) :
    finish.task.initialBrk = t.initialBrk ∧ t.initialBrk ≤ finish.task.brk ∧
    finish.task.brk ≤ userMax ∧
    (∀ a, t.initialBrk ≤ a → a < pageAlign64 finish.highest →
      (pte finish.task.phys root a ≠ none ↔ a < pageAlign64 finish.task.brk)) ∧
    ∀ op, NotToZero finish.task op →
      breakCall root finish.task op ≠ .error .fault ∧
      ∀ r t', breakCall root finish.task op = .ok (r, t') →
        CallTracks root finish.task op r t' := by
  have hend : BreakTracks held root rest finish ∧ finish.task.initialBrk = t.initialBrk := by
    refine hrun.invariant (fun run => BreakTracks held root rest run ∧
      run.task.initialBrk = t.initialBrk) ?_ ⟨hstart.tracks, rfl⟩
    rintro run op run' ⟨hstep, hfits⟩ ⟨h, hinitial⟩
    refine ⟨h.step hfits hstep, ?_⟩
    cases hstep with
    | call hok =>
        obtain ⟨reason, hpanic⟩ | ⟨r, t', hok', hcall, -⟩ := h.returns hfits
        · rw [hpanic] at hok
          cases hok
        · obtain ⟨rfl, rfl⟩ := Prod.mk.inj (Except.ok.inj (hok'.symm.trans hok))
          exact hcall.initialBrk.trans hinitial
  obtain ⟨h, hinitial⟩ := hend
  rw [← hinitial]
  refine ⟨rfl, h.low, h.reached.trans h.high, h.mapped, fun op hfits => ?_⟩
  obtain ⟨reason, hpanic⟩ | ⟨r, t', hok, hcall, -⟩ := h.returns hfits
  · rw [hpanic]
    exact ⟨nofun, nofun⟩
  · rw [hok]
    refine ⟨nofun, fun r' t'' hok' => ?_⟩
    obtain ⟨rfl, rfl⟩ := Prod.mk.inj (Except.ok.inj hok')
    exact hcall

theorem setBrk_first {s : PhysMem} {initialBrk k : Nat}
    (hstart : BreakStart held root rest ⟨s, initialBrk, initialBrk⟩)
    (hbelow : initialBrk < userMax) (habs : ∀ a < lowerHalf, pte s root a = none)
    (hroomy : Roomy s k) (hframes : k + 4 ≤ s.usablePageCount) :
    ∃ s', setBrk root ⟨s, initialBrk, initialBrk⟩ (initialBrk + 1) =
      .ok (initialBrk + 1, ⟨s', initialBrk + 1, initialBrk⟩) := by
  have haligned : initialBrk % pageSize = 0 := hstart.aligned
  have hend : pageAlign64 initialBrk = initialBrk ∧
      pageAlign64 (initialBrk + 1) = initialBrk + pageSize := by
    simp only [userMax] at hbelow
    simp only [pageAlign64, pageSize] at haligned ⊢
    omega
  have hlow : initialBrk + pageSize ≤ lowerHalf := by
    simp only [userMax, pageSize, lowerHalf] at hbelow haligned ⊢
    omega
  obtain ⟨hsize, hfit, -⟩ := regionRounds_aligned haligned
    (by rw [Nat.add_mod_right]; exact haligned) (Nat.le_add_right initialBrk pageSize) hlow
  rw [Nat.add_sub_cancel_left] at hsize hfit
  have hone : regionRounds initialBrk pageSize = 1 := by
    exact Nat.eq_of_mul_eq_mul_right (by decide : 0 < pageSize)
      (hsize.trans (Nat.one_mul pageSize).symm)
  obtain ⟨s₁, hok⟩ := allocRegion64_progress brkFlags hstart.counted habs hfit hroomy
    (by rw [hone]; exact hframes)
  set t : BreakTask := ⟨s, initialBrk, initialBrk⟩
  obtain ⟨reason, hpanic⟩ | ⟨s', hcall, -⟩ := setBrk_moves (t := t) hstart.counted
    (Nat.le_refl _) hbelow.le (Nat.succ_ne_zero initialBrk) (Nat.le_succ initialBrk)
    (Nat.succ_le_of_lt hbelow)
  · have hreach : ¬ userMax < initialBrk + 1 := Nat.not_lt.mpr hbelow
    have hgrow : initialBrk < initialBrk + pageSize := Nat.lt_add_of_pos_right (by decide)
    have hsize' : initialBrk + pageSize - initialBrk = pageSize := Nat.add_sub_cancel_left _ _
    simp only [setBrk, t, hend.1, hend.2, hsize', if_neg hreach, if_pos hgrow, hok] at hpanic
    rw [if_neg (Nat.succ_ne_zero _), if_neg (Nat.not_lt.mpr (Nat.le_succ _)),
      if_neg (Nat.lt_irrefl _)] at hpanic
    split at hpanic
    · cases hpanic
    · cases hpanic
  · exact ⟨s', hcall⟩

/-- A heap of one byte at `0x400000`. -/
theorem run_break_tracks_large : ∃ held t finish,
    BreakStart held largeRoot [] t ∧ t.initialBrk = 0x400000 ∧
    Run (fun run op run' => BreakStep largeRoot run op run' ∧ NotToZero run.task op)
      ⟨t, t.brk⟩ [.setBrk 0x400001] finish ∧
    ∀ a, t.initialBrk ≤ a → a < pageAlign64 finish.highest →
      (pte finish.task.phys largeRoot a ≠ none ↔ a < pageAlign64 finish.task.brk) := by
  obtain ⟨s, hinit, hroomy, husable, -, -, habs⟩ := large_boots
  have hc := (bootSystem_consistent largeRoot_bootTables hinit).counted
  have hstart : BreakStart _ largeRoot [] ⟨s, 0x400000, 0x400000⟩ :=
    ⟨hc, (by decide : 0x400000 % pageSize = 0), rfl, (by decide : 0x400000 ≤ userMax)⟩
  obtain ⟨s', hcall⟩ := setBrk_first hstart (by decide) habs hroomy (by rw [husable]; decide)
  have hrun : Run (fun run op run' => BreakStep largeRoot run op run' ∧ NotToZero run.task op)
      ⟨⟨s, 0x400000, 0x400000⟩, 0x400000⟩ [.setBrk 0x400001] _ :=
    .single ⟨.call hcall, trivial⟩
  exact ⟨_, _, _, hstart, rfl, hrun, (run_break_tracks hstart hrun).2.2.2.1⟩

/-- Where the heap begins at address `0`, `sbrk` back to `0` returns the old break and does
not move it. -/
theorem sbrk_to_zero_stays : ∃ held t t₁,
    BreakStart held largeRoot [] t ∧
    BreakStep largeRoot ⟨t, t.brk⟩ (.setBrk 1) ⟨t₁, 1⟩ ∧
    sbrk largeRoot t₁ (-1) = .ok (t₁.brk, t₁) ∧
    ¬ CallTracks largeRoot t₁ (.sbrk (-1)) t₁.brk t₁ := by
  obtain ⟨s, hinit, hroomy, husable, -, -, habs⟩ := large_boots
  have hc := (bootSystem_consistent largeRoot_bootTables hinit).counted
  have hstart : BreakStart _ largeRoot [] ⟨s, 0, 0⟩ := ⟨hc, rfl, rfl, Nat.zero_le _⟩
  obtain ⟨s', hcall⟩ := setBrk_first hstart (by decide) habs hroomy (by rw [husable]; decide)
  refine ⟨_, _, ⟨s', 1, 0⟩, hstart, .call hcall, rfl, fun h => ?_⟩
  obtain ⟨-, hby⟩ | ⟨hfailed, -⟩ := h.answer
  · exact absurd hby (by decide : (1 : Int) ≠ 1 + -1)
  · exact absurd hfailed (by decide : 1 ≠ sbrkFailed)

end GlitchedOS
