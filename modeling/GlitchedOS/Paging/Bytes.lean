/-
Bytes behind virtual addresses.  A store goes through the page tables to one byte
of one word of a frame, or faults.  Where the pages a set of addresses is mapped to
are neither page tables nor shared, a run of stores changes these bytes and nothing
else.
-/
import GlitchedOS.Paging.Walk

namespace GlitchedOS

abbrev Byte := BitVec 8

/-- Byte `k` of a word, least significant first. -/
def getByte (w : Word) (k : Nat) : Byte := w.extractLsb' (8 * k) 8

def setByte (w : Word) (k : Nat) (b : Byte) : Word :=
  (w &&& ~~~(255#64 <<< (8 * k))) ||| (b.setWidth 64 <<< (8 * k))

/-- Byte `offset` of a frame. -/
def PhysMem.byteAt (s : PhysMem) (f offset : Nat) : Byte :=
  getByte (s.mem f (offset / 8)) (offset % 8)

def PhysMem.storeByte (s : PhysMem) (f offset : Nat) (b : Byte) : PhysMem :=
  s.writeWord f (offset / 8) (setByte (s.mem f (offset / 8)) (offset % 8) b)

/-- An address whose upper bits are all equal. -/
def Canonical (addr : Nat) : Prop :=
  addr < lowerHalf ∨ (2 ^ 64 - lowerHalf ≤ addr ∧ addr < 2 ^ 64)

instance Canonical.decidable (addr : Nat) : Decidable (Canonical addr) :=
  inferInstanceAs (Decidable (_ ∨ _))

/-- The frame the page of `addr` is mapped to; pages have 4 KiB. -/
def translate (s : PhysMem) (root addr : Nat) : Option Nat :=
  if Canonical addr then (pte s root addr).map frameOf else none

def virtByte (s : PhysMem) (root addr : Nat) : Option Byte :=
  (translate s root addr).map fun f => s.byteAt f (addr % pageSize)

/-- A store of the kernel to one byte; `none` is a page fault or a general protection
fault, on which the kernel panics. -/
def storeVirt (s : PhysMem) (root addr : Nat) (b : Byte) : Option PhysMem :=
  (translate s root addr).map fun f => s.storeByte f (addr % pageSize) b

/-- Stores to `n` consecutive addresses. -/
def storeBytes (root addr : Nat) (byte : Nat → Byte) :
    Nat → PhysMem → Option PhysMem
  | 0, s => some s
  | n + 1, s => do
      let s ← storeBytes root addr byte n s
      storeVirt s root ((addr + n) % 2 ^ 64) (byte n)

theorem getLsbD_255 (i : Nat) : (255#64).getLsbD i = decide (i < 8) := by
  by_cases hi : i < 64
  · have hall : ∀ j : Fin 64, (255#64).getLsbD j.1 = decide (j.1 < 8) := by decide
    exact hall ⟨i, hi⟩
  · rw [BitVec.getLsbD_of_ge _ _ (by omega)]
    symm
    rw [decide_eq_false_iff_not]
    omega

theorem getByte_setByte (w : Word) {k j : Nat} (hk : k < 8) (hj : j < 8) (b : Byte) :
    getByte (setByte w k b) j = if j = k then b else getByte w j := by
  apply BitVec.eq_of_getLsbD_eq
  intro i hi
  have hlt : 8 * j + i < 64 := by omega
  rw [getByte, setByte, BitVec.getLsbD_extractLsb', BitVec.getLsbD_or,
    BitVec.getLsbD_and, BitVec.getLsbD_not, BitVec.getLsbD_shiftLeft,
    BitVec.getLsbD_shiftLeft, getLsbD_255, BitVec.getLsbD_setWidth]
  split
  · rename_i heq
    subst heq
    have hsub : 8 * j + i - 8 * j = i := by omega
    simp [hi, hlt, hsub]
    omega
  · rename_i hne
    have hout : 8 * j + i < 8 * k ∨ 8 ≤ 8 * j + i - 8 * k := by omega
    rw [getByte, BitVec.getLsbD_extractLsb']
    rcases hout with hout | hout
    · simp [hi, hlt, hout]
    · have hnot : ¬ 8 * j + i - 8 * k < 8 := by omega
      have hzero : b.getLsbD (8 * j + i - 8 * k) = false :=
        BitVec.getLsbD_of_ge _ _ hout
      simp [hi, hlt, hnot, hzero]

variable {s s' : PhysMem} {root : Nat}

theorem PhysMem.byteAt_storeByte (f o g p : Nat) (b : Byte) :
    (s.storeByte f o b).byteAt g p = if g = f ∧ p = o then b else s.byteAt g p := by
  have hmod : o % 8 < 8 := Nat.mod_lt _ (by decide)
  have hmod' : p % 8 < 8 := Nat.mod_lt _ (by decide)
  rw [byteAt, storeByte, writeWord_mem]
  by_cases hword : g = f ∧ p / 8 = o / 8
  · obtain ⟨rfl, hdiv⟩ := hword
    rw [hdiv, Radix.write_same, getByte_setByte _ hmod hmod', byteAt, hdiv]
    have hiff : p % 8 = o % 8 ↔ g = g ∧ p = o := by
      rw [eq_self_iff_true, true_and]
      omega
    simp only [hiff]
  · have hne : ¬ (g = f ∧ p = o) := by
      rintro ⟨rfl, rfl⟩
      exact hword ⟨rfl, rfl⟩
    rw [if_neg hne, byteAt]
    simp only [Radix.write, if_neg hword]

/-- A memory that differs from `s` outside the frames `T` only. -/
structure SameTables (T : Nat → Prop) (s s' : PhysMem) : Prop where
  globals : ∃ m, s' = { s with mem := m }
  mem : ∀ f, T f → s'.mem f = s.mem f

theorem SameTables.refl (T : Nat → Prop) (s : PhysMem) : SameTables T s s :=
  ⟨⟨s.mem, rfl⟩, fun _ _ => rfl⟩

theorem SameTables.trans {T : Nat → Prop} {s'' : PhysMem} (h : SameTables T s s')
    (h' : SameTables T s' s'') : SameTables T s s'' := by
  obtain ⟨⟨m, rfl⟩, hmem⟩ := h
  obtain ⟨⟨m', rfl⟩, hmem'⟩ := h'
  exact ⟨⟨m', rfl⟩, fun f hf => (hmem' f hf).trans (hmem f hf)⟩

/-- The translation of the addresses `A` rests on the frames `T`, which none of them
is mapped to, and no two pages share a frame. -/
structure DataPages (s : PhysMem) (root : Nat) (A T : Nat → Prop) : Prop where
  stable : ∀ s', SameTables T s s' → ∀ a, A a →
    translate s' root a = translate s root a
  data : ∀ a f, A a → translate s root a = some f → ¬ T f
  inj : ∀ a b f, A a → A b → translate s root a = some f →
    translate s root b = some f → a / pageSize = b / pageSize

namespace DataPages

variable {A T : Nat → Prop} {addr : Nat} {b : Byte}

theorem sameTables (hd : DataPages s root A T) (hsame : SameTables T s s') :
    DataPages s' root A T where
  stable s'' h a ha := by
    rw [hd.stable s'' (hsame.trans h) a ha, hd.stable s' hsame a ha]
  data a f ha h := by
    rw [hd.stable s' hsame a ha] at h
    exact hd.data a f ha h
  inj a b f ha hb h h' := by
    rw [hd.stable s' hsame a ha] at h
    rw [hd.stable s' hsame b hb] at h'
    exact hd.inj a b f ha hb h h'

theorem storeVirt (hd : DataPages s root A T) (ha : A addr)
    (h : GlitchedOS.storeVirt s root addr b = some s') :
    SameTables T s s' ∧ ∀ a, A a →
      virtByte s' root a = if a = addr then some b else virtByte s root a := by
  obtain ⟨f, htrans, rfl⟩ := Option.map_eq_some_iff.mp h
  have hsame : SameTables T s (s.storeByte f (addr % pageSize) b) := by
    refine ⟨⟨_, rfl⟩, fun g hg => ?_⟩
    have hne : g ≠ f := by
      rintro rfl
      exact hd.data addr g ha htrans hg
    funext i
    exact Radix.write_frame_ne _ _ _ hne i
  refine ⟨hsame, fun a haA => ?_⟩
  rw [virtByte, virtByte, hd.stable _ hsame a haA]
  cases hta : translate s root a with
  | none =>
      have hne : a ≠ addr := by
        rintro rfl
        rw [hta] at htrans
        cases htrans
      rw [if_neg hne]
      rfl
  | some g =>
      simp only [Option.map_some, PhysMem.byteAt_storeByte]
      have hiff : g = f ∧ a % pageSize = addr % pageSize ↔ a = addr := by
        constructor
        · rintro ⟨rfl, hoff⟩
          have hpage := hd.inj a addr g haA ha hta htrans
          rw [← Nat.div_add_mod a pageSize, ← Nat.div_add_mod addr pageSize, hpage,
            hoff]
        · rintro rfl
          rw [hta] at htrans
          exact ⟨Option.some.inj htrans, rfl⟩
      simp only [hiff]
      split <;> rfl

/-- A run of stores into mapped pages succeeds and changes the bytes of the run. -/
theorem storeBytes (hd : DataPages s root A T) (addr : Nat) (byte : Nat → Byte) :
    ∀ {n : Nat}, addr + n ≤ 2 ^ 64 → (∀ k < n, A (addr + k)) →
      (∀ k < n, translate s root (addr + k) ≠ none) →
      ∃ s', GlitchedOS.storeBytes root addr byte n s = some s' ∧ SameTables T s s' ∧
        ∀ a, A a → virtByte s' root a =
          if addr ≤ a ∧ a < addr + n then some (byte (a - addr))
          else virtByte s root a
  | 0, _, _, _ => by
      refine ⟨s, rfl, .refl T s, fun a _ => ?_⟩
      rw [if_neg]
      omega
  | n + 1, hwrap, hA, hmapped => by
      obtain ⟨s₁, hstore, hsame, hbytes⟩ := hd.storeBytes addr byte (n := n)
        (by omega) (fun k hk => hA k (by omega)) (fun k hk => hmapped k (by omega))
      have hlast := hA n (by omega)
      have hmod : (addr + n) % 2 ^ 64 = addr + n := Nat.mod_eq_of_lt (by omega)
      have htrans : translate s₁ root (addr + n) ≠ none := by
        rw [hd.stable s₁ hsame _ hlast]
        exact hmapped n (by omega)
      obtain ⟨f, hf⟩ := Option.ne_none_iff_exists'.mp htrans
      have hone : GlitchedOS.storeVirt s₁ root (addr + n) (byte n) =
          some (s₁.storeByte f ((addr + n) % pageSize) (byte n)) := by
        rw [GlitchedOS.storeVirt, hf]
        rfl
      obtain ⟨hsame', hbyte⟩ := (hd.sameTables hsame).storeVirt hlast hone
      refine ⟨_, ?_, hsame.trans hsame', fun a ha => ?_⟩
      · rw [GlitchedOS.storeBytes, hstore, Option.bind_eq_bind, Option.bind_some,
          hmod, hone]
      · rw [hbyte a ha, hbytes a ha]
        by_cases heq : a = addr + n
        · subst heq
          rw [if_pos rfl, if_pos (by omega), Nat.add_sub_cancel_left]
        · rw [if_neg heq]
          have hiff : (addr ≤ a ∧ a < addr + (n + 1)) ↔
              (addr ≤ a ∧ a < addr + n) := by omega
          simp only [hiff]

end DataPages

end GlitchedOS
