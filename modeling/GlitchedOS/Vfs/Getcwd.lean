/-
The GETCWD system call.  It validates the buffer with the length that it is given and
then copies at most one byte less; a length of zero is validated at once, and one byte
less than that is a length of 64 bits.
-/
import GlitchedOS.Paging.Model
import Mathlib.Tactic.Ring

namespace GlitchedOS

/-- The string in `wd` of a task, without its terminator. -/
structure WdString where
  bytes : List UInt8
  nonzero : ∀ b ∈ bytes, b ≠ 0
  fits : bytes.length < 4096

/-- A byte stored to memory. -/
structure ByteStore where
  addr : BitVec 64
  byte : UInt8
deriving Repr, DecidableEq

/-- The byte lies among the `len` ones from `buffer` on. -/
def ByteStore.Within (buffer len : BitVec 64) (store : ByteStore) : Prop :=
  buffer.toNat ≤ store.addr.toNat ∧ store.addr.toNat < buffer.toNat + len.toNat

/-- The loop of `strncpy` in `vfs.c`, with the counter `i`, which a string of a task
keeps far below the range of `int`; the terminator is copied as well when there is
room. -/
def strncpyLoop (len : BitVec 64) : Nat → BitVec 64 → List UInt8 → List ByteStore
  | i, dest, [] => if i < len.toNat then [⟨dest, 0⟩] else []
  | i, dest, b :: src =>
    if i < len.toNat then ⟨dest, b⟩ :: strncpyLoop len (i + 1) (dest + 1) src else []

/-- `strncpy` -/
def strncpyStores (dest : BitVec 64) (src : List UInt8) (len : BitVec 64) : List ByteStore :=
  strncpyLoop len 0 dest src

/-- `getcwd` -/
def getcwd (wd : WdString) (buffer len : BitVec 64) : List ByteStore :=
  strncpyStores buffer wd.bytes (len - 1) ++ [⟨buffer + (len - 1), 0⟩]

/-- `SYSCALL_GETCWD`: what it returns, and the bytes that it stores. -/
def syscallGetcwd (s : PhysMem) (root : Nat) (wd : WdString) (arg1 arg2 : BitVec 64) :
    Except Panic (Int × PhysMem × List ByteStore) := do
  let (ret, s) ← validateUserPointer s root arg1.toNat arg2.toNat true
  if ret < 0 then .ok (ret, s, []) else .ok (ret, s, getcwd wd arg1 arg2)

/-- Every byte that the call stores is one of the `arg2` bytes from `arg1` on, and these
passed `validate_user_pointer`. -/
def StoresValidated (s : PhysMem) (root : Nat) (wd : WdString) (arg1 arg2 : BitVec 64) : Prop :=
  ∀ ret s' stores, syscallGetcwd s root wd arg1 arg2 = .ok (ret, s', stores) →
    ∀ store ∈ stores, store.Within arg1 arg2 ∧ 0 ≤ ret ∧
      validateUserPointer s root arg1.toNat arg2.toNat true = .ok (ret, s')

theorem ByteStore.within_of_index {buffer dest len : BitVec 64} {i : Nat}
    (hdest : dest.toNat = buffer.toNat + i) (hi : i < len.toNat) (byte : UInt8) :
    ByteStore.Within buffer len ⟨dest, byte⟩ := by
  rw [ByteStore.Within, hdest]
  omega

/-- The bytes of `strncpy` are the first `len` ones behind `dest`. -/
theorem strncpyLoop_bounds {len buffer dest : BitVec 64} {i : Nat} {src : List UInt8}
    (hdest : dest.toNat = buffer.toNat + i) (hroom : buffer.toNat + len.toNat < 2 ^ 64) :
    ∀ store ∈ strncpyLoop len i dest src, store.Within buffer len := by
  induction src generalizing i dest with
  | nil =>
      intro store hstore
      rw [strncpyLoop] at hstore
      split at hstore
      · rename_i hi
        obtain rfl := List.mem_singleton.mp hstore
        exact ByteStore.within_of_index hdest hi 0
      · exact absurd hstore List.not_mem_nil
  | cons b src ih =>
      intro store hstore
      rw [strncpyLoop] at hstore
      split at hstore
      · rename_i hi
        rcases List.mem_cons.mp hstore with rfl | hstore
        · exact ByteStore.within_of_index hdest hi b
        · have hnext : (dest + 1).toNat = buffer.toNat + (i + 1) := by
            rw [BitVec.toNat_add, hdest, Nat.mod_eq_of_lt]
            · rfl
            · change buffer.toNat + i + 1 < 2 ^ 64
              omega
          exact ih hnext store hstore
      · exact absurd hstore List.not_mem_nil

/-- A range that passes does not reach the end of the lower half. -/
theorem validateUserPointer_range {s s' : PhysMem} {root ptr len : Nat} {write : Bool} {ret : Int}
    (hlen : len ≠ 0) (hcall : validateUserPointer s root ptr len write = .ok (ret, s'))
    (hret : 0 ≤ ret) : ptr + len ≤ userLimit + 1 := by
  rw [validateUserPointer, if_neg hlen] at hcall
  split at hcall
  · obtain ⟨rfl, -⟩ := Prod.mk.inj (Except.ok.inj hcall)
    exact absurd hret (by decide)
  split at hcall
  · obtain ⟨rfl, -⟩ := Prod.mk.inj (Except.ok.inj hcall)
    exact absurd hret (by decide)
  split at hcall
  · obtain ⟨rfl, -⟩ := Prod.mk.inj (Except.ok.inj hcall)
    exact absurd hret (by decide)
  · omega

/-- What the system call does when the validation comes back. -/
theorem syscallGetcwd_cases {s s' : PhysMem} {root : Nat} {wd : WdString} {arg1 arg2 : BitVec 64}
    {ret : Int} {stores : List ByteStore}
    (hcall : syscallGetcwd s root wd arg1 arg2 = .ok (ret, s', stores)) :
    validateUserPointer s root arg1.toNat arg2.toNat true = .ok (ret, s') ∧
      stores = if ret < 0 then [] else getcwd wd arg1 arg2 := by
  rw [syscallGetcwd] at hcall
  cases hvalidate : validateUserPointer s root arg1.toNat arg2.toNat true with
  | error why =>
      rw [hvalidate] at hcall
      cases hcall
  | ok found =>
      obtain ⟨ret', after⟩ := found
      rw [hvalidate] at hcall
      change (if ret' < 0 then _ else _) = _ at hcall
      split at hcall
      · rename_i hneg
        obtain ⟨rfl, hrest⟩ := Prod.mk.inj (Except.ok.inj hcall)
        obtain ⟨rfl, rfl⟩ := Prod.mk.inj hrest
        exact ⟨rfl, (if_pos hneg).symm⟩
      · rename_i hneg
        obtain ⟨rfl, hrest⟩ := Prod.mk.inj (Except.ok.inj hcall)
        obtain ⟨rfl, rfl⟩ := Prod.mk.inj hrest
        exact ⟨rfl, (if_neg hneg).symm⟩

/-- GETCWD stores only where it validated exactly when the length is not zero. -/
theorem getcwd_stores_validated_iff (s : PhysMem) (root : Nat) (wd : WdString)
    (arg1 arg2 : BitVec 64) : StoresValidated s root wd arg1 arg2 ↔ arg2 ≠ 0 := by
  constructor
  · rintro hvalidated rfl
    have hcall : syscallGetcwd s root wd arg1 0 = .ok (0, s, getcwd wd arg1 0) := rfl
    obtain ⟨⟨hle, hlt⟩, -⟩ := hvalidated 0 s _ hcall ⟨arg1 + (0 - 1), 0⟩ (by simp [getcwd])
    have hzero : (0 : BitVec 64).toNat = 0 := rfl
    omega
  · intro hlen ret s' stores hcall store hstore
    obtain ⟨hvalidate, rfl⟩ := syscallGetcwd_cases hcall
    split at hstore
    · exact absurd hstore List.not_mem_nil
    · rename_i hneg
      have hret : 0 ≤ ret := not_lt.mp hneg
      have hpos : arg2.toNat ≠ 0 := fun h => hlen (BitVec.eq_of_toNat_eq h)
      have hrange := validateUserPointer_range hpos hvalidate hret
      have hless : (arg2 - 1).toNat = arg2.toNat - 1 := by bv_omega
      have hlimit : userLimit + 1 < 2 ^ 64 := by decide
      refine ⟨?_, hret, hvalidate⟩
      rw [getcwd, List.mem_append] at hstore
      rcases hstore with hstore | hstore
      · obtain ⟨hle, hlt⟩ := strncpyLoop_bounds (Nat.add_zero _).symm (by omega) store hstore
        exact ⟨hle, by omega⟩
      · obtain rfl := List.mem_singleton.mp hstore
        have hlast : (arg1 + (arg2 - 1)).toNat = arg1.toNat + (arg2.toNat - 1) := by
          rw [BitVec.toNat_add, hless, Nat.mod_eq_of_lt (by omega)]
        rw [ByteStore.Within, hlast]
        omega

def noPages : PhysMem := ⟨fun _ _ => 0, fun _ => 0, 0, 0, 0, by decide⟩

def rootWd : WdString := ⟨[47], by simp, by decide⟩

/-- With the length 0 the working directory is stored, and a zero in front of the buffer. -/
theorem getcwd_stores_before_buffer :
    syscallGetcwd noPages 0 rootWd 0x1000 0 =
        .ok (0, noPages, [⟨0x1000, 47⟩, ⟨0x1001, 0⟩, ⟨0xfff, 0⟩]) ∧
      ¬ StoresValidated noPages 0 rootWd 0x1000 0 := by
  have hcall : syscallGetcwd noPages 0 rootWd 0x1000 0 =
      .ok (0, noPages, [⟨0x1000, 47⟩, ⟨0x1001, 0⟩, ⟨0xfff, 0⟩]) := rfl
  refine ⟨hcall, fun hvalidated => ?_⟩
  obtain ⟨⟨hle, -⟩, -⟩ := hvalidated 0 noPages _ hcall ⟨0xfff, 0⟩ (by simp)
  exact absurd hle (by decide)

end GlitchedOS
