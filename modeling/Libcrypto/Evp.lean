import Libcrypto.Memory

/-!
# Digests, allocation and randomness

What `rsa_oaep.c` asks of its collaborators.  An `EVP_MD` is its size and the
hash it computes; the streaming calls `EVP_DigestInit_ex`, `EVP_DigestUpdate`
and `EVP_DigestFinal_ex` may report failure, and `fails` says on which inputs
they do.  A digest whose calls never fail is `Reliable`.

`Libc` holds the two calls whose outcome the code cannot choose: whether
`malloc` returns memory, and the bytes `arc4random_buf` hands out.

C converts `int` lengths to `size_t` and `unsigned int` silently; `sizeT` and
`unsignedInt` are those conversions, so that a negative length becomes the huge
count the C library then sees.  An `int` sum past `INT_MAX` is undefined in C;
`intWrap` is the 32-bit value the compiled addition leaves.
-/

namespace Libcrypto

/-- `EVP_MAX_MD_SIZE`, the size of the stack arrays that receive a digest. -/
def evpMaxMdSize : Int := 64

structure EvpMd where
  /-- `EVP_MD_size`. -/
  mdSize : Int
  hash : List UInt8 → List UInt8
  hash_length : ∀ x, (hash x).length = mdSize.toNat
  /-- Whether the init, update or final call fails while digesting this input. -/
  fails : List UInt8 → Bool

namespace EvpMd

/-- The digest calls never fail. -/
def Reliable (md : EvpMd) : Prop := ∀ x, md.fails x = false

/-- A one-byte digest, the sum of the input bytes, for concrete runs. -/
def byteSum : EvpMd where
  mdSize := 1
  hash x := [x.foldl (· + ·) 0]
  hash_length _ := rfl
  fails _ := false

theorem byteSum_reliable : byteSum.Reliable := fun _ => rfl

/-- `EVP_md_null()`: a digest of size 0 whose calls succeed and produce no
bytes. -/
def mdNull : EvpMd where
  mdSize := 0
  hash _ := []
  hash_length _ := rfl
  fails _ := false

theorem mdNull_reliable : mdNull.Reliable := fun _ => rfl

end EvpMd

structure Libc where
  /-- Whether `malloc` of this many bytes returns memory. -/
  malloc : Nat → Bool
  /-- The byte stream `arc4random_buf` draws from. -/
  arc4random : Nat → UInt8

namespace Libc

/-- A `malloc` that always returns memory, and the random bytes `3, 4, 5, …`,
for concrete runs. -/
def always : Libc := ⟨fun _ => true, fun i => (i + 3 : Nat).toUInt8⟩

/-- The random bytes of `always`, and a `malloc` that serves exactly the
requests below `2^31` bytes. -/
def intSized : Libc := ⟨fun n => decide (n < 2 ^ 31), fun i => (i + 3 : Nat).toUInt8⟩

end Libc

/-- A C `int` or `long` converted to a 64-bit `size_t`. -/
def sizeT (x : Int) : Nat := if 0 ≤ x then x.toNat else (x + 2 ^ 64).toNat

/-- A C `int` converted to a 32-bit `unsigned int`. -/
def unsignedInt (x : Int) : Nat := if 0 ≤ x then x.toNat else (x + 2 ^ 32).toNat

theorem sizeT_of_nonneg {x : Int} (h : 0 ≤ x) : sizeT x = x.toNat := if_pos h

@[simp] theorem sizeT_natCast (n : Nat) : sizeT n = n := by simp [sizeT]

theorem unsignedInt_of_nonneg {x : Int} (h : 0 ≤ x) : unsignedInt x = x.toNat := if_pos h

/-- The `int` a C addition of mathematical value `x` leaves: `x` wrapped to
32 bits, two's complement. -/
def intWrap (x : Int) : Int := (x + 2 ^ 31) % 2 ^ 32 - 2 ^ 31

theorem intWrap_of_lt {x : Int} (h0 : -2 ^ 31 ≤ x) (h1 : x < 2 ^ 31) : intWrap x = x := by
  unfold intWrap
  norm_num at h0 h1 ⊢
  omega

theorem sizeT_intWrap {x : Int} (h0 : 0 ≤ x) (h1 : x < 2 ^ 31) : sizeT (intWrap x) = x.toNat := by
  rw [intWrap_of_lt (by omega) h1, sizeT_of_nonneg h0]

/-- An `int` sum just past `INT_MAX` wraps negative, and `size_t` conversion
turns it into a request of at least `2^63` bytes. -/
theorem le_sizeT_intWrap {x : Int} (h0 : 2 ^ 31 ≤ x) (h1 : x < 2 ^ 32) :
    2 ^ 63 ≤ sizeT (intWrap x) := by
  unfold sizeT intWrap
  norm_num at h0 h1 ⊢
  split_ifs <;> omega

/-- `EVP_Digest(src, cnt, dst, NULL, md, NULL)`: digest `cnt` bytes at `src`
into `dst`; the flag is the return value. -/
def evpDigest (md : EvpMd) (src : Ptr) (cnt : Nat) (dst : Ptr) (s : State) : Bool × State :=
  let x := s.mem.read src cnt
  if md.fails x then (false, s.look src cnt) else (true, (s.look src cnt).put dst (md.hash x))

/-- `arc4random_buf(p, n)`. -/
def arc4randomBuf (lib : Libc) (p : Ptr) (n : Nat) (s : State) : State :=
  s.put p ((List.range n).map lib.arc4random)

theorem evpDigest_reliable {md : EvpMd} (h : md.Reliable) (src : Ptr) (cnt : Nat) (dst : Ptr)
    (s : State) : evpDigest md src cnt dst s =
      (true, (s.look src cnt).put dst (md.hash (s.mem.read src cnt))) := by
  simp [evpDigest, h _]

@[simp] theorem evpDigest_mem_of_fail {md : EvpMd} {src : Ptr} {cnt : Nat} {dst : Ptr}
    {s : State} (h : (evpDigest md src cnt dst s).1 = false) :
    (evpDigest md src cnt dst s).2.mem = s.mem := by
  by_cases hf : md.fails (s.mem.read src cnt) <;> simp_all [evpDigest]

theorem evpDigest_trace (md : EvpMd) (src : Ptr) (cnt : Nat) (dst : Ptr) (s : State) :
    ∃ t, (evpDigest md src cnt dst s).2.trace = s.trace ++ .read src cnt :: t ∧
      ∀ a ∈ t, a = .write dst md.mdSize.toNat := by
  by_cases hf : md.fails (s.mem.read src cnt)
  · exact ⟨[], by simp [evpDigest, hf], by simp⟩
  · exact ⟨[.write dst md.mdSize.toNat], by simp [evpDigest, hf, md.hash_length], by simp⟩

theorem confined_evpDigest {bound : Region → Int} (md : EvpMd) (src : Ptr) (cnt : Nat) (dst : Ptr)
    (s : State) (hs : 0 ≤ src.off ∧ src.off + cnt ≤ bound src.region)
    (hd : 0 ≤ dst.off ∧ dst.off + md.mdSize.toNat ≤ bound dst.region) :
    Confined bound s (evpDigest md src cnt dst s).2 := by
  obtain ⟨t, ht, hall⟩ := evpDigest_trace md src cnt dst s
  refine .of_trace ht fun a ha => ?_
  rcases List.mem_cons.1 ha with rfl | ha
  · exact Access.bounded_read hs.1 hs.2
  · rw [hall a ha]
    exact Access.bounded_write hd.1 hd.2

theorem evpDigest_mem (md : EvpMd) (src : Ptr) (cnt : Nat) (dst : Ptr) (s : State) :
    (evpDigest md src cnt dst s).2.mem = s.mem ∨
      (evpDigest md src cnt dst s).2.mem = s.mem.write dst (md.hash (s.mem.read src cnt)) := by
  by_cases hf : md.fails (s.mem.read src cnt) <;> simp [evpDigest, hf]

@[simp] theorem arc4randomBuf_mem (lib : Libc) (p : Ptr) (n : Nat) (s : State) :
    (arc4randomBuf lib p n s).mem = s.mem.write p ((List.range n).map lib.arc4random) := rfl

@[simp] theorem arc4randomBuf_trace (lib : Libc) (p : Ptr) (n : Nat) (s : State) :
    (arc4randomBuf lib p n s).trace = s.trace ++ [.write p n] := by
  simp [arc4randomBuf]

end Libcrypto
