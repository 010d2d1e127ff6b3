import Mathlib

/-!
# Octet strings

Byte strings are `List UInt8`.  Both OAEP routines mask with exclusive-or, and
every round trip below comes down to `xorBytes_xorBytes_cancel`: masking twice
with the same mask gives back what was masked.

`i2osp` and `os2ip` are the integer/octet-string conversions of PKCS #1: the
counter of `PKCS1_MGF1` is `i2osp i 4`, and `BN_bin2bn` is `os2ip`.
-/

namespace Libcrypto

/-! ### Exclusive-or of bytes -/

theorem byte_xor_assoc (a b c : UInt8) : a ^^^ b ^^^ c = a ^^^ (b ^^^ c) := by
  cases a; cases b; cases c
  exact congrArg UInt8.mk (BitVec.xor_assoc _ _ _)

theorem byte_xor_comm (a b : UInt8) : a ^^^ b = b ^^^ a := by
  cases a; cases b
  exact congrArg UInt8.mk (BitVec.xor_comm _ _)

@[simp] theorem byte_xor_self (a : UInt8) : a ^^^ a = 0 := by
  cases a
  exact congrArg UInt8.mk BitVec.xor_self

@[simp] theorem byte_xor_zero (a : UInt8) : a ^^^ 0 = a := by
  cases a
  exact congrArg UInt8.mk BitVec.xor_zero

@[simp] theorem byte_xor_xor_cancel (a b : UInt8) : a ^^^ b ^^^ b = a := by
  rw [byte_xor_assoc, byte_xor_self, byte_xor_zero]

/-! ### Exclusive-or of byte strings -/

/-- Bytewise exclusive-or, as long as the shorter operand. -/
def xorBytes (a b : List UInt8) : List UInt8 := List.zipWith (· ^^^ ·) a b

@[simp] theorem xorBytes_nil_left (b : List UInt8) : xorBytes [] b = [] := rfl

@[simp] theorem xorBytes_nil_right (a : List UInt8) : xorBytes a [] = [] := by
  cases a <;> rfl

@[simp] theorem xorBytes_cons (x y : UInt8) (a b : List UInt8) :
    xorBytes (x :: a) (y :: b) = (x ^^^ y) :: xorBytes a b := rfl

@[simp] theorem length_xorBytes (a b : List UInt8) :
    (xorBytes a b).length = min a.length b.length :=
  List.length_zipWith _ _ _

theorem xorBytes_comm (a b : List UInt8) : xorBytes a b = xorBytes b a := by
  induction a generalizing b with
  | nil => simp
  | cons x a ih => cases b <;> simp [ih, byte_xor_comm]

/-- Unmasking: exclusive-or with the same mask twice is the identity, as long as
the mask is at least as long as the masked string. -/
theorem xorBytes_xorBytes_cancel {a b : List UInt8} (h : a.length ≤ b.length) :
    xorBytes (xorBytes a b) b = a := by
  induction a generalizing b with
  | nil => simp
  | cons x a ih =>
    cases b with
    | nil => simp at h
    | cons y b => simp [ih (b := b) (by simpa using h)]

theorem xorBytes_append {a a' b b' : List UInt8} (h : a.length = b.length) :
    xorBytes (a ++ a') (b ++ b') = xorBytes a b ++ xorBytes a' b' :=
  List.zipWith_append _ _ _ _ _ h

theorem take_xorBytes (n : Nat) (a b : List UInt8) :
    (xorBytes a b).take n = xorBytes (a.take n) (b.take n) := List.take_zipWith

theorem drop_xorBytes (n : Nat) (a b : List UInt8) :
    (xorBytes a b).drop n = xorBytes (a.drop n) (b.drop n) := List.drop_zipWith

/-- A string is recovered from its masked form and the mask. -/
theorem xorBytes_eq_iff {a b c : List UInt8} (ha : a.length ≤ b.length)
    (hc : c.length ≤ b.length) (hac : a.length = c.length) :
    xorBytes a b = c ↔ a = xorBytes c b := by
  constructor
  · rintro rfl; exact (xorBytes_xorBytes_cancel ha).symm
  · rintro rfl; exact xorBytes_xorBytes_cancel hc

/-! ### Integers and octet strings -/

/-- `I2OSP(x, len)`: the `len`-byte big-endian encoding of `x`, exact for
`x < 256 ^ len` and reducing `x` modulo `256 ^ len` above that. -/
def i2osp (x : Nat) : Nat → List UInt8
  | 0 => []
  | len + 1 => i2osp (x / 256) len ++ [UInt8.ofNat x]

@[simp] theorem length_i2osp (x len : Nat) : (i2osp x len).length = len := by
  induction len generalizing x with
  | zero => rfl
  | succ len ih => simp [i2osp, ih]

/-- `I2OSP(x, len)` depends on `x` only modulo `256 ^ len`. -/
theorem i2osp_mod (x len : Nat) : i2osp (x % 256 ^ len) len = i2osp x len := by
  induction len generalizing x with
  | zero => rfl
  | succ len ih =>
    rw [i2osp, i2osp, Nat.pow_succ', Nat.mod_mul_right_div_self, ih]
    congr 2
    apply UInt8.ext
    simp [UInt8.toNat, UInt8.ofNat, BitVec.toNat_ofNat, Nat.mod_mul_right_mod]

/-- `OS2IP`: the big-endian value of an octet string, as `BN_bin2bn` reads it. -/
def os2ip (bs : List UInt8) : Nat := bs.foldl (fun acc b => acc * 256 + b.toNat) 0

theorem os2ip_append_singleton (bs : List UInt8) (b : UInt8) :
    os2ip (bs ++ [b]) = os2ip bs * 256 + b.toNat := by
  simp [os2ip]

/-- `i2osp x len` is the `len`-byte encoding of `x` modulo `256 ^ len`, so the
exact one below `256 ^ len`. -/
theorem os2ip_i2osp (x len : Nat) : os2ip (i2osp x len) = x % 256 ^ len := by
  induction len generalizing x with
  | zero => simp [i2osp, os2ip, Nat.mod_one]
  | succ len ih =>
    rw [i2osp, os2ip_append_singleton, ih, Nat.pow_succ, Nat.mul_comm (256 ^ len), Nat.mod_mul]
    simp [UInt8.toNat, UInt8.ofNat, BitVec.toNat_ofNat]
    ring

end Libcrypto
