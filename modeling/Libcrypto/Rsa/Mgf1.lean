import Libcrypto.Evp

/-!
# `PKCS1_MGF1`

The mask generation function of `rsa_oaep.c`.  The loop

    for (i = 0; outlen < len; i++) { cnt = I2OSP(i, 4); ... }

appends `H(seed ‖ cnt)` to the mask while a whole digest still fits, and sends
the last, partial block through the stack array `md`.  `mgf1Loop` is that loop
with explicit fuel, and `pkcs1Mgf1` gives it `len + 2 ^ 32` iterations: when the
digest size is positive the loop needs at most `len`, and when it is zero the
loop makes no progress, so it either stops at a failing digest call within one
period `2 ^ 32` of the counter or never stops.  `none` is a run that does not
stop.

`mgf1` is MGF1 as PKCS #1 defines it, and `mgf1Loop_spec` is the loop
invariant: the mask written so far is a prefix of `mgf1`, nothing outside the
mask and `md` changes, and every access stays in the seed, the mask and `md`.
-/

namespace Libcrypto
namespace Rsa

/-- The counter block `cnt` of `PKCS1_MGF1`. -/
def mgf1Counter (i : Nat) : List UInt8 :=
  [UInt8.ofNat ((i >>> 24) &&& 255), UInt8.ofNat ((i >>> 16) &&& 255),
    UInt8.ofNat ((i >>> 8) &&& 255), UInt8.ofNat (i &&& 255)]

/-- The loop of `PKCS1_MGF1(mask, len, seed, seedlen, dgst)` from iteration `i`
with `outlen` bytes of the mask done, for at most `fuel` more iterations. -/
def mgf1Loop (dgst : EvpMd) (mask : Ptr) (len : Int) (seed : Ptr) (seedlen mdlen : Int) :
    Nat → Nat → Int → State → Option (Int × State)
  | 0, _, outlen, s => if outlen < len then none else some (0, s)
  | fuel + 1, i, outlen, s =>
    if outlen < len then
      let x := s.mem.read seed (sizeT seedlen) ++ mgf1Counter i
      let s := s.look seed (sizeT seedlen)
      if dgst.fails x then some (-1, s)
      else if outlen + mdlen ≤ len then
        mgf1Loop dgst mask len seed seedlen mdlen fuel (i + 1) (outlen + mdlen)
          (s.put (mask.add outlen) (dgst.hash x))
      else
        mgf1Loop dgst mask len seed seedlen mdlen fuel (i + 1) len
          (memcpy (s.put ⟨.md, 0⟩ (dgst.hash x)) (mask.add outlen) ⟨.md, 0⟩ (sizeT (len - outlen)))
    else some (0, s)

/-- `PKCS1_MGF1(mask, len, seed, seedlen, dgst)`: the return value and the
state it leaves, or `none` when it does not return. -/
def pkcs1Mgf1 (dgst : EvpMd) (mask : Ptr) (len : Int) (seed : Ptr) (seedlen : Int)
    (s : State) : Option (Int × State) :=
  if dgst.mdSize < 0 then some (-1, s)
  else mgf1Loop dgst mask len seed seedlen dgst.mdSize (len.toNat + 2 ^ 32) 0 0 s

/-! ### MGF1 as PKCS #1 defines it -/

/-- The digests `H(seed ‖ I2OSP(j, 4))` for the `k` counters from `i` on. -/
def mgf1Blocks (dgst : EvpMd) (seed : List UInt8) (i k : Nat) : List UInt8 :=
  (List.range' i k).flatMap fun j => dgst.hash (seed ++ i2osp j 4)

/-- MGF1: the first `len` bytes of `H(seed ‖ I2OSP(0, 4)) ‖ H(seed ‖ I2OSP(1, 4)) ‖ ⋯`,
over `⌈len / hLen⌉` counters. -/
def mgf1 (dgst : EvpMd) (seed : List UInt8) (len : Nat) : List UInt8 :=
  let hLen := dgst.mdSize.toNat
  ((List.range ((len + hLen - 1) / hLen)).flatMap fun i => dgst.hash (seed ++ i2osp i 4)).take len

theorem ofNat_and_255 (x : Nat) : UInt8.ofNat (x &&& 255) = UInt8.ofNat x := by
  rw [show x &&& 255 = x % 256 from Nat.and_pow_two_sub_one_eq_mod x 8]
  apply UInt8.ext
  simp [UInt8.toNat, UInt8.ofNat, BitVec.toNat_ofNat]

theorem mgf1Counter_eq_i2osp (i : Nat) : mgf1Counter i = i2osp i 4 := by
  simp only [mgf1Counter, ofNat_and_255, Nat.shiftRight_eq_div_pow, i2osp, List.nil_append,
    List.cons_append, List.singleton_append, Nat.div_div_eq_div_mul]

@[simp] theorem mgf1Blocks_zero (dgst : EvpMd) (seed : List UInt8) (i : Nat) :
    mgf1Blocks dgst seed i 0 = [] := rfl

theorem mgf1Blocks_succ (dgst : EvpMd) (seed : List UInt8) (i k : Nat) :
    mgf1Blocks dgst seed i (k + 1) =
      dgst.hash (seed ++ i2osp i 4) ++ mgf1Blocks dgst seed (i + 1) k := by
  simp [mgf1Blocks, List.range'_succ]

@[simp] theorem length_mgf1Blocks (dgst : EvpMd) (seed : List UInt8) (i k : Nat) :
    (mgf1Blocks dgst seed i k).length = k * dgst.mdSize.toNat := by
  induction k generalizing i with
  | zero => simp
  | succ k ih => rw [mgf1Blocks_succ, List.length_append, ih, dgst.hash_length]; ring

theorem mgf1Blocks_add (dgst : EvpMd) (seed : List UInt8) (i k k' : Nat) :
    mgf1Blocks dgst seed i (k + k') = mgf1Blocks dgst seed i k ++ mgf1Blocks dgst seed (i + k) k' := by
  induction k generalizing i with
  | zero => simp
  | succ k ih =>
    rw [Nat.add_right_comm, mgf1Blocks_succ, mgf1Blocks_succ, ih, List.append_assoc,
      Nat.add_right_comm, Nat.add_assoc i]

theorem take_mgf1Blocks {dgst : EvpMd} {seed : List UInt8} {i k k' L : Nat}
    (hk : L ≤ k * dgst.mdSize.toNat) (hk' : k ≤ k') :
    (mgf1Blocks dgst seed i k').take L = (mgf1Blocks dgst seed i k).take L := by
  obtain ⟨d, rfl⟩ := Nat.exists_eq_add_of_le hk'
  rw [mgf1Blocks_add, List.take_append_of_le_length (by simpa using hk)]

/-- The counter has four bytes, so the blocks repeat after `2 ^ 32` counters. -/
theorem mgf1Blocks_add_two_pow (dgst : EvpMd) (seed : List UInt8) (i k : Nat) :
    mgf1Blocks dgst seed (i + 2 ^ 32) k = mgf1Blocks dgst seed i k := by
  induction k generalizing i with
  | zero => rfl
  | succ k ih =>
    have hc : i2osp (i + 2 ^ 32) 4 = i2osp i 4 := by
      rw [← i2osp_mod, show 2 ^ 32 = 256 ^ 4 by norm_num, Nat.add_mod_right, i2osp_mod]
    rw [mgf1Blocks_succ, mgf1Blocks_succ, hc, Nat.add_right_comm, ih]

theorem mgf1_eq_take_mgf1Blocks (dgst : EvpMd) (seed : List UInt8) (len : Nat) :
    mgf1 dgst seed len =
      (mgf1Blocks dgst seed 0 ((len + dgst.mdSize.toNat - 1) / dgst.mdSize.toNat)).take len := by
  simp [mgf1, mgf1Blocks, List.range_eq_range']

theorem le_ceil_mul {L h : Nat} (h1 : 0 < h) : L ≤ (L + h - 1) / h * h := by
  have := Nat.div_add_mod (L + h - 1) h
  have := Nat.mod_lt (L + h - 1) h1
  rw [Nat.mul_comm]
  omega

theorem ceil_pred_mul_lt {L h : Nat} (h1 : 0 < h) (hL : 0 < L) : ((L + h - 1) / h - 1) * h < L := by
  have := Nat.div_add_mod (L + h - 1) h
  have := Nat.mod_lt (L + h - 1) h1
  rw [Nat.sub_mul, Nat.one_mul, Nat.mul_comm]
  omega

theorem mgf1_eq_take {dgst : EvpMd} {seed : List UInt8} {len k : Nat} (h1 : 0 < dgst.mdSize.toNat)
    (hk : len ≤ k * dgst.mdSize.toNat) :
    mgf1 dgst seed len = (mgf1Blocks dgst seed 0 k).take len := by
  rw [mgf1_eq_take_mgf1Blocks]
  rcases Nat.le_total k ((len + dgst.mdSize.toNat - 1) / dgst.mdSize.toNat) with h | h
  · exact take_mgf1Blocks hk h
  · exact (take_mgf1Blocks (le_ceil_mul h1) h).symm

@[simp] theorem length_mgf1 {dgst : EvpMd} (h1 : 0 < dgst.mdSize.toNat) (seed : List UInt8)
    (len : Nat) : (mgf1 dgst seed len).length = len := by
  rw [mgf1_eq_take_mgf1Blocks, List.length_take, length_mgf1Blocks]
  exact min_eq_left (le_ceil_mul h1)

/-! ### The loop invariant -/

/-- The accesses of `PKCS1_MGF1` on an `L`-byte mask, an `S`-byte seed and an
`hLen`-byte digest: reads of the seed, writes into the mask, and reads and
writes of its own `md`. -/
def Mgf1Access (mask seed : Ptr) (L S hLen : Nat) (a : Access) : Prop :=
  a = .read seed S ∨ (∃ k n : Nat, k + n ≤ L ∧ a = .write (mask.add k) n) ∨
    ∃ n, n ≤ hLen ∧ (a = .read ⟨.md, 0⟩ n ∨ a = .write ⟨.md, 0⟩ n)

theorem Mgf1Access.writes {mask seed : Ptr} {L S hLen : Nat} {a : Access} {r : Region} {j : Int}
    (ha : Mgf1Access mask seed L S hLen a) (hw : a.Writes r j) :
    r = .md ∨ (r = mask.region ∧ mask.off ≤ j ∧ j < mask.off + L) := by
  rcases ha with rfl | ⟨k, m, hkm, rfl⟩ | ⟨m, -, rfl | rfl⟩
  · simp at hw
  · simp only [Access.writes_write, Ptr.add_region, Ptr.add_off] at hw
    exact .inr ⟨hw.1.symm, by omega, by omega⟩
  · simp at hw
  · simp only [Access.writes_write] at hw
    exact .inl hw.1.symm

/-- What the loop leaves when it starts at counter `i` on `s` and stops in `s'`:
the mask from byte `i * hLen` to `L` holds the digests of counters `i, i + 1, …`
of the seed, memory outside that part of the mask and outside `md` is
unchanged, and the new accesses are MGF1's own and write every byte of that
part of the mask. -/
structure Mgf1Post (dgst : EvpMd) (mask seed : Ptr) (seedlen : Int) (L hLen : Nat) (s s' : State)
    (i k : Nat) : Prop where
  mask_eq : s'.mem.read (mask.add ((i * hLen : Nat) : Int)) (L - i * hLen) =
    (mgf1Blocks dgst (s.mem.read seed (sizeT seedlen)) i k).take (L - i * hLen)
  frame : ∀ r j, r ≠ .md → (r ≠ mask.region ∨ j < mask.off + ((i * hLen : Nat) : Int) ∨
    mask.off + L ≤ j) → s'.mem r j = s.mem r j
  trace : ∃ t, s'.trace = s.trace ++ t ∧ (∀ a ∈ t, Mgf1Access mask seed L (sizeT seedlen) hLen a) ∧
    ∀ j, mask.off + ((i * hLen : Nat) : Int) ≤ j → j < mask.off + L → ∃ a ∈ t, a.Writes mask.region j

section Loop

variable {dgst : EvpMd} {mask seed : Ptr} {len seedlen mdlen : Int} {L : Nat}

theorem mgf1Loop_done {fuel i : Nat} {outlen : Int} {s : State} (h : len ≤ outlen) :
    mgf1Loop dgst mask len seed seedlen mdlen fuel i outlen s = some (0, s) := by
  cases fuel <;> simp [mgf1Loop, not_lt.mpr h]

theorem mgf1Post_done {s : State} {i k hLen : Nat} (h : i * hLen = L) :
    Mgf1Post dgst mask seed seedlen L hLen s s i k := by
  refine ⟨by simp [h], fun _ _ _ _ => rfl, [], by simp, by simp, ?_⟩
  intro j h1 h2
  rw [h] at h1
  omega

/-- The loop invariant, for fuel that covers the rest of the mask. -/
theorem mgf1Loop_spec (seedlen : Int) (hrel : dgst.Reliable) (h1 : 0 < dgst.mdSize.toNat)
    (hms : mask.region ≠ seed.region) (hmd : mask.region ≠ .md) (hsd : seed.region ≠ .md)
    (hL : len = L) : ∀ fuel i s, i * dgst.mdSize.toNat ≤ L → L ≤ (i + fuel) * dgst.mdSize.toNat →
      ∃ s', mgf1Loop dgst mask len seed seedlen dgst.mdSize.toNat fuel i
        (i * dgst.mdSize.toNat : Nat) s = some (0, s') ∧
        Mgf1Post dgst mask seed seedlen L dgst.mdSize.toNat s s' i fuel := by
  subst hL
  intro fuel
  induction fuel with
  | zero =>
    intro i s hi hf
    have : i * dgst.mdSize.toNat = L := by simp at hf; omega
    exact ⟨s, mgf1Loop_done (by rw [this]), mgf1Post_done this⟩
  | succ fuel ih =>
    intro i s hi hf
    rcases Nat.lt_or_ge (i * dgst.mdSize.toNat) L with hlt | hge
    swap
    · have : i * dgst.mdSize.toNat = L := by omega
      exact ⟨s, mgf1Loop_done (by rw [this]), mgf1Post_done this⟩
    obtain ⟨h, hh⟩ : ∃ h, dgst.mdSize.toNat = h := ⟨_, rfl⟩
    simp only [hh] at ih hi hf hlt h1 ⊢
    set S := s.mem.read seed (sizeT seedlen)
    have hx : dgst.hash (S ++ mgf1Counter i) = dgst.hash (S ++ i2osp i 4) := by
      rw [mgf1Counter_eq_i2osp]
    have hlen : (dgst.hash (S ++ mgf1Counter i)).length = h := by rw [dgst.hash_length, hh]
    have hS : ∀ m : Mem, ∀ p bs, p.region = mask.region ∨ p.region = .md →
        (m.write p bs).read seed (sizeT seedlen) = m.read seed (sizeT seedlen) := by
      intro m p bs hp
      exact Mem.read_write_disjoint (.inl (by rcases hp with hp | hp <;> rw [hp] <;> tauto))
    have hblk : mgf1Blocks dgst S i (fuel + 1) =
        dgst.hash (S ++ mgf1Counter i) ++ mgf1Blocks dgst S (i + 1) fuel := by
      rw [mgf1Blocks_succ, hx]
    rcases Nat.lt_or_ge L ((i + 1) * h) with hpart | hfull
    · -- the last, partial digest goes through `md`
      have hrest : ((L : Int) - (i * h : Nat)) = ((L - i * h : Nat) : Int) := by omega
      set s2 := (s.look seed (sizeT seedlen)).put ⟨.md, 0⟩ (dgst.hash (S ++ mgf1Counter i))
      set s3 := memcpy s2 (mask.add (i * h : Nat)) ⟨.md, 0⟩ (L - i * h)
      have hnot : ¬ ((i * h : Nat) : Int) + (h : Int) ≤ L := by
        rw [Nat.add_mul, Nat.one_mul] at hpart; omega
      refine ⟨s3, ?_, ?_⟩
      · simp only [mgf1Loop, Nat.cast_lt.mpr hlt, if_true, hrel _, Bool.false_eq_true,
          if_false, hnot, hrest, sizeT_natCast]
        exact mgf1Loop_done le_rfl
      have hmd2 : s2.mem.read ⟨.md, 0⟩ (L - i * h) =
          (dgst.hash (S ++ mgf1Counter i)).take (L - i * h) :=
        Mem.read_take (b := h - (L - i * h)) (by
          rw [show L - i * h + (h - (L - i * h)) = (dgst.hash (S ++ mgf1Counter i)).length by
            rw [hlen, Nat.add_mul] at *; omega]
          exact Mem.read_write_same _ _ _)
      refine ⟨?_, ?_, [.read seed (sizeT seedlen), .write ⟨.md, 0⟩ h, .read ⟨.md, 0⟩ (L - i * h),
        .write (mask.add (i * h : Nat)) (L - i * h)], by simp [s3, s2, hlen], ?_, ?_⟩
      · rw [hblk, List.take_append_of_le_length (by rw [hlen, Nat.add_mul] at *; omega), ← hmd2]
        simpa [s3] using Mem.read_write_same s2.mem (mask.add (i * h : Nat))
          (s2.mem.read ⟨.md, 0⟩ (L - i * h))
      · intro r j hr hj
        simp only [s3, s2, memcpy_mem, State.put_mem, State.look_mem]
        rw [Mem.write_apply_outside, Mem.write_apply_outside (.inl hr)]
        simp only [Ptr.add_region, Ptr.add_off, Mem.length_read]
        rcases hj with hj | hj | hj
        · exact .inl hj
        · exact .inr (.inl hj)
        · exact .inr (.inr (by omega))
      · intro a ha
        simp only [List.mem_cons, List.not_mem_nil, or_false] at ha
        rcases ha with rfl | rfl | rfl | rfl
        · exact .inl rfl
        · exact .inr (.inr ⟨h, le_rfl, .inr rfl⟩)
        · exact .inr (.inr ⟨L - i * h, by rw [Nat.add_mul] at hpart; omega, .inl rfl⟩)
        · exact .inr (.inl ⟨i * h, L - i * h, by omega, rfl⟩)
      · intro j hj1 hj2
        refine ⟨.write (mask.add (i * h : Nat)) (L - i * h), by simp, ?_⟩
        simp only [Access.writes_write, Ptr.add_region, Ptr.add_off, true_and]
        omega
    · -- a whole digest fits: it goes straight into the mask
      set s1 := (s.look seed (sizeT seedlen)).put (mask.add (i * h : Nat))
        (dgst.hash (S ++ mgf1Counter i))
      obtain ⟨s', hrun, hpost⟩ := ih (i + 1) s1 hfull (by rw [Nat.add_right_comm]; exact hf)
      have hcast : ((i * h : Nat) : Int) + (h : Int) = ((i + 1) * h : Nat) := by push_cast; ring
      have hstep : (i * h : Nat) + h = (i + 1) * h := by ring
      refine ⟨s', ?_, ?_⟩
      · simp only [mgf1Loop, Nat.cast_lt.mpr hlt, if_true, hrel _, Bool.false_eq_true,
          if_false, hcast, Nat.cast_le.mpr hfull]
        exact hrun
      have hS1 : s1.mem.read seed (sizeT seedlen) = S := hS _ _ _ (.inl rfl)
      obtain ⟨hmask, hframe, t, ht, hacc, hcov⟩ := hpost
      rw [hS1] at hmask
      have hframe' : ∀ r j, r ≠ .md → (r ≠ mask.region ∨ j < mask.off + (i * h : Nat) ∨
          mask.off + L ≤ j) → s'.mem r j = s.mem r j := by
        intro r j hr hj
        have hj' : r ≠ mask.region ∨ j < mask.off + ((i + 1) * h : Nat) ∨ mask.off + L ≤ j := by
          rcases hj with hj | hj | hj
          · exact .inl hj
          · exact .inr (.inl (by rw [← hstep]; push_cast at hj ⊢; omega))
          · exact .inr (.inr hj)
        rw [hframe r j hr hj']
        exact Mem.write_apply_outside (by
          simp only [Ptr.add_region, Ptr.add_off, hlen]
          rcases hj with hj | hj | hj
          · exact .inl hj
          · exact .inr (.inl hj)
          · exact .inr (.inr (by rw [← hstep] at hfull; push_cast; omega)))
      refine ⟨?_, hframe', [.read seed (sizeT seedlen),
        .write (mask.add (i * h : Nat)) h] ++ t, by simp [s1, ht, hlen], ?_, ?_⟩
      · have hsplit : L - i * h = h + (L - (i + 1) * h) := by rw [← hstep] at hfull ⊢; omega
        rw [hsplit, Mem.read_add, hblk, List.take_append_eq_append_take, hlen,
          List.take_of_length_le (by omega), Nat.add_sub_cancel_left, Ptr.add_add, hcast, ← hmask]
        congr 1
        rw [Mem.read_congr (b := s1.mem) (p := mask.add ((i * h : Nat) : Int)) (n := h)
          (fun j _ h2 => hframe _ _ hmd
            (.inr (.inl (by simp only [Ptr.add_off] at h2; rw [← hstep]; push_cast at h2 ⊢; omega))))]
        simpa [s1, hlen] using Mem.read_write_same s.mem (mask.add (i * h : Nat))
          (dgst.hash (S ++ mgf1Counter i))
      · intro a ha
        simp only [List.mem_append, List.mem_cons, List.not_mem_nil, or_false] at ha
        rcases ha with (rfl | rfl) | ha
        · exact .inl rfl
        · exact .inr (.inl ⟨i * h, h, by omega, rfl⟩)
        · exact hacc a ha
      · intro j hj1 hj2
        by_cases hj : j < mask.off + ((i + 1) * h : Nat)
        · refine ⟨.write (mask.add (i * h : Nat)) h, by simp, ?_⟩
          simp only [Access.writes_write, Ptr.add_region, Ptr.add_off, true_and]
          rw [← hstep] at hj
          push_cast at hj ⊢
          omega
        · obtain ⟨a, ha, hw⟩ := hcov j (by omega) hj2
          exact ⟨a, List.mem_append_right _ ha, hw⟩

theorem mgf1Loop_succ_of_some {fuel i : Nat} {outlen : Int} {s : State} {r : Int × State}
    (h : mgf1Loop dgst mask len seed seedlen mdlen fuel i outlen s = some r) :
    mgf1Loop dgst mask len seed seedlen mdlen (fuel + 1) i outlen s = some r := by
  induction fuel generalizing i outlen s with
  | zero =>
    simp only [mgf1Loop] at h
    split_ifs at h with h0
    rw [mgf1Loop, if_neg h0, h]
  | succ fuel ih =>
    rw [mgf1Loop] at h ⊢
    dsimp only at h ⊢
    split_ifs at h ⊢
    all_goals first | exact h | exact ih h

theorem mgf1Loop_add_of_some {fuel i : Nat} {outlen : Int} {s : State} {r : Int × State}
    (h : mgf1Loop dgst mask len seed seedlen mdlen fuel i outlen s = some r) (d : Nat) :
    mgf1Loop dgst mask len seed seedlen mdlen (fuel + d) i outlen s = some r := by
  induction d with
  | zero => exact h
  | succ d ih => exact mgf1Loop_succ_of_some ih

/-- **Two runs.** With a reliable digest nothing the loop does depends on the
bytes in memory: runs from states with one trace return the same value, or
both do not return, and leave the same trace. -/
theorem mgf1Loop_observe (hrel : dgst.Reliable) :
    ∀ fuel i outlen {s₁ s₂ : State}, s₁.trace = s₂.trace →
      (mgf1Loop dgst mask len seed seedlen mdlen fuel i outlen s₁).map observe =
        (mgf1Loop dgst mask len seed seedlen mdlen fuel i outlen s₂).map observe := by
  intro fuel
  induction fuel with
  | zero =>
    intro i outlen s₁ s₂ ht
    simp only [mgf1Loop]
    split_ifs <;> simp [ht]
  | succ fuel ih =>
    intro i outlen s₁ s₂ ht
    simp only [mgf1Loop, hrel _, Bool.false_eq_true, if_false]
    split_ifs
    · exact ih _ _ (by simp [ht, dgst.hash_length])
    · exact ih _ _ (by simp [ht, dgst.hash_length])
    · simp [ht]

theorem pkcs1Mgf1_observe (hrel : dgst.Reliable) (mask seed : Ptr) (len seedlen : Int)
    {s₁ s₂ : State} (ht : s₁.trace = s₂.trace) :
    (pkcs1Mgf1 dgst mask len seed seedlen s₁).map observe =
      (pkcs1Mgf1 dgst mask len seed seedlen s₂).map observe := by
  unfold pkcs1Mgf1
  split_ifs
  · simp [ht]
  · exact mgf1Loop_observe hrel _ _ _ ht

theorem mgf1Loop_none (mask seed : Ptr) (seedlen : Int) (hrel : dgst.Reliable) (hL : len = L)
    {h : Nat} :
    ∀ fuel i s, i * h ≤ L → (i + fuel) * h < L →
      mgf1Loop dgst mask len seed seedlen h fuel i (i * h : Nat) s = none := by
  subst hL
  intro fuel
  induction fuel with
  | zero =>
    intro i s _ hf
    simp only [Nat.add_zero] at hf
    rw [mgf1Loop, if_pos (Nat.cast_lt.mpr hf)]
  | succ fuel ih =>
    intro i s _ hf
    have hlt : i * h < L := lt_of_le_of_lt (Nat.mul_le_mul_right h (by omega)) hf
    have hnext : (i + 1) * h ≤ L := by
      have := Nat.mul_le_mul_right h (show i + 1 ≤ i + (fuel + 1) by omega); omega
    have hcast : ((i * h : Nat) : Int) + (h : Int) = ((i + 1) * h : Nat) := by push_cast; ring
    simp only [mgf1Loop, Nat.cast_lt.mpr hlt, if_true, hrel _, Bool.false_eq_true, if_false,
      hcast, Nat.cast_le.mpr hnext]
    exact ih (i + 1) _ hnext (by rw [Nat.add_right_comm]; exact hf)

theorem ceil_le_self {L h : Nat} (h1 : 0 < h) : (L + h - 1) / h ≤ L := by
  rcases L with _ | L
  · simp [Nat.div_eq_of_lt (show h - 1 < h by omega)]
  · refine Nat.div_le_of_le_mul ?_
    rw [Nat.mul_succ]
    have := Nat.le_mul_of_pos_left L h1
    omega

/-- `PKCS1_MGF1` with a reliable digest of positive size returns 0, and the run
satisfies the loop invariant from counter 0. -/
theorem pkcs1Mgf1_spec (mask seed : Ptr) (len seedlen : Int) (hrel : dgst.Reliable)
    (h1 : 0 < dgst.mdSize)
    (hms : mask.region ≠ seed.region) (hmd : mask.region ≠ .md) (hsd : seed.region ≠ .md)
    (hlen : 0 ≤ len) (s : State) :
    ∃ s', pkcs1Mgf1 dgst mask len seed seedlen s = some (0, s') ∧
      Mgf1Post dgst mask seed seedlen len.toNat dgst.mdSize.toNat s s' 0
        ((len.toNat + dgst.mdSize.toNat - 1) / dgst.mdSize.toNat) := by
  have hpos : 0 < dgst.mdSize.toNat := by omega
  obtain ⟨s', hrun, hpost⟩ := mgf1Loop_spec seedlen hrel hpos hms hmd hsd
    (Int.toNat_of_nonneg hlen).symm _ 0 s (by simp) (by rw [Nat.zero_add]; exact le_ceil_mul hpos)
  refine ⟨s', ?_, hpost⟩
  have hfuel := mgf1Loop_add_of_some hrun (len.toNat + 2 ^ 32 - (len.toNat + dgst.mdSize.toNat - 1) / dgst.mdSize.toNat)
  rw [Nat.add_sub_cancel' (by have := ceil_le_self (L := len.toNat) hpos; omega),
    Int.toNat_of_nonneg h1.le] at hfuel
  simpa [pkcs1Mgf1, not_lt.mpr h1.le] using hfuel

theorem Mgf1Post.read_of_ne {hLen i k : Nat} {s s' : State} {q : Ptr} {n : Nat}
    (hp : Mgf1Post dgst mask seed seedlen L hLen s s' i k) (hq : q.region ≠ .md)
    (hq' : q.region ≠ mask.region) : s'.mem.read q n = s.mem.read q n :=
  Mem.read_congr fun _ _ _ => hp.frame _ _ hq (.inl hq')

theorem Mgf1Post.writes {hLen i k : Nat} {s s' : State}
    (hp : Mgf1Post dgst mask seed seedlen L hLen s s' i k) :
    ∃ t, s'.trace = s.trace ++ t ∧ ∀ a ∈ t, ∀ r j, a.Writes r j →
      r = .md ∨ (r = mask.region ∧ mask.off ≤ j ∧ j < mask.off + L) := by
  obtain ⟨t, ht, hacc, -⟩ := hp.trace
  exact ⟨t, ht, fun a ha _ _ hw => (hacc a ha).writes hw⟩

theorem Mgf1Post.read_mask {s s' : State} {k : Nat} (h1 : 0 < dgst.mdSize.toNat)
    (hp : Mgf1Post dgst mask seed seedlen L dgst.mdSize.toNat s s' 0 k)
    (hk : L ≤ k * dgst.mdSize.toNat) :
    s'.mem.read mask L = mgf1 dgst (s.mem.read seed (sizeT seedlen)) L := by
  simpa [mgf1_eq_take h1 hk] using hp.mask_eq

/-- **MGF1.** For every seed, every reliable digest of positive size and every
length, `PKCS1_MGF1` stops after exactly `⌈len / mdlen⌉` iterations, returns 0,
leaves MGF1 of the seed in `mask[0..len)`, writes every byte of `mask[0..len)`
and no byte of any buffer but that range and its own `md`.  Below `2 ^ 32`
counters, the ones `len ≤ 2 ^ 32 * mdlen` needs, `i2osp i 4` is the exact
big-endian encoding (`os2ip_i2osp`). -/
theorem pkcs1Mgf1_eq_mgf1 (dgst : EvpMd) (mask seed : Ptr) (len seedlen : Int) (s : State)
    (hrel : dgst.Reliable) (h1 : 1 ≤ dgst.mdSize) (hlen : 0 ≤ len)
    (hms : mask.region ≠ seed.region) (hmd : mask.region ≠ .md) (hsd : seed.region ≠ .md) :
    let n := (len.toNat + dgst.mdSize.toNat - 1) / dgst.mdSize.toNat
    (∃ s', mgf1Loop dgst mask len seed seedlen dgst.mdSize n 0 0 s = some (0, s') ∧
      pkcs1Mgf1 dgst mask len seed seedlen s = some (0, s') ∧
      s'.mem.read mask len.toNat = mgf1 dgst (s.mem.read seed (sizeT seedlen)) len.toNat ∧
      ∃ t, s'.trace = s.trace ++ t ∧
        (∀ a ∈ t, ∀ r j, a.Writes r j → r = .md ∨ (r = mask.region ∧ mask.off ≤ j ∧ j < mask.off + len)) ∧
        (∀ j, mask.off ≤ j → j < mask.off + len → ∃ a ∈ t, a.Writes mask.region j)) ∧
    (0 < len → mgf1Loop dgst mask len seed seedlen dgst.mdSize (n - 1) 0 0 s = none) := by
  intro n
  have hpos : 0 < dgst.mdSize.toNat := by omega
  have hcast : ((dgst.mdSize.toNat : Nat) : Int) = dgst.mdSize := Int.toNat_of_nonneg (by omega)
  have hL : len = (len.toNat : Int) := (Int.toNat_of_nonneg hlen).symm
  obtain ⟨s', hrun, hpost⟩ := mgf1Loop_spec seedlen hrel hpos hms hmd hsd hL n 0 s
    (by simp) (by rw [Nat.zero_add]; exact le_ceil_mul hpos)
  rw [hcast] at hrun
  simp only [Nat.zero_mul, Nat.cast_zero] at hrun
  refine ⟨⟨s', hrun, ?_, hpost.read_mask hpos (le_ceil_mul hpos), ?_⟩, ?_⟩
  · -- both runs stop, so they agree
    have := mgf1Loop_add_of_some hrun (len.toNat + 2 ^ 32 - n)
    rw [Nat.add_sub_cancel' (by have := ceil_le_self (L := len.toNat) hpos; omega)] at this
    simpa [pkcs1Mgf1, not_lt.mpr (show 0 ≤ dgst.mdSize by omega)] using this
  · obtain ⟨t, ht, hacc, hcov⟩ := hpost.trace
    refine ⟨t, ht, fun a ha r j hw => hL ▸ (hacc a ha).writes hw,
      fun j h1 h2 => hcov j (by simpa using h1) (by rw [← hL]; exact h2)⟩
  · intro hpos'
    have := mgf1Loop_none mask seed seedlen hrel hL (h := dgst.mdSize.toNat)
      (n - 1) 0 s (by simp) (by rw [Nat.zero_add]; exact ceil_pred_mul_lt hpos (by omega))
    rw [hcast] at this
    simpa using this

theorem pkcs1Mgf1_eq_mgf1_byteSum :
    EvpMd.byteSum.Reliable ∧ 1 ≤ EvpMd.byteSum.mdSize ∧ (0 : Int) ≤ 3 ∧
      Region.dbmask ≠ Region.toBuf ∧ Region.dbmask ≠ .md ∧ Region.toBuf ≠ .md ∧
      ((∃ s', mgf1Loop EvpMd.byteSum ⟨.dbmask, 0⟩ 3 ⟨.toBuf, 1⟩ 2 1 3 0 0 State.zero = some (0, s') ∧
        pkcs1Mgf1 EvpMd.byteSum ⟨.dbmask, 0⟩ 3 ⟨.toBuf, 1⟩ 2 State.zero = some (0, s') ∧
        s'.mem.read ⟨.dbmask, 0⟩ 3 =
          mgf1 EvpMd.byteSum (State.zero.mem.read ⟨.toBuf, 1⟩ 2) 3 ∧
        ∃ t, s'.trace = State.zero.trace ++ t ∧
          (∀ a ∈ t, ∀ r j, a.Writes r j → r = .md ∨ (r = .dbmask ∧ 0 ≤ j ∧ j < 0 + 3)) ∧
          (∀ j, 0 ≤ j → j < 0 + 3 → ∃ a ∈ t, a.Writes .dbmask j)) ∧
      (0 < (3 : Int) → mgf1Loop EvpMd.byteSum ⟨.dbmask, 0⟩ 3 ⟨.toBuf, 1⟩ 2 1 (3 - 1) 0 0
        State.zero = none)) :=
  ⟨EvpMd.byteSum_reliable, by decide, by decide, by decide, by decide, by decide,
    pkcs1Mgf1_eq_mgf1 EvpMd.byteSum ⟨.dbmask, 0⟩ ⟨.toBuf, 1⟩ 3 2 State.zero
      EvpMd.byteSum_reliable (by decide) (by decide) (by decide) (by decide) (by decide)⟩

/-! ### Sizes the loop does not handle

`PKCS1_MGF1` rejects only `mdlen < 0`.  A digest of size 0 adds nothing to the
mask, so the loop runs as long as the digest calls succeed; a mask longer than
`2 ^ 32` digests runs the counter past `2 ^ 32`, where its four bytes start
again from zero. -/

/-- With a reliable digest of size 0, no amount of fuel ends the loop. -/
theorem mgf1Loop_mdSize_zero (mask seed : Ptr) (seedlen : Int) (hrel : dgst.Reliable)
    (hlen : 0 < len) (fuel i : Nat) (s : State) :
    mgf1Loop dgst mask len seed seedlen 0 fuel i 0 s = none := by
  simpa using mgf1Loop_none mask seed seedlen hrel (Int.toNat_of_nonneg hlen.le).symm
    (h := 0) fuel i s (by simp) (by omega)

theorem pkcs1Mgf1_mdSize_zero (mask seed : Ptr) (seedlen : Int) (hrel : dgst.Reliable)
    (h0 : dgst.mdSize = 0) (hlen : 0 < len) (s : State) :
    pkcs1Mgf1 dgst mask len seed seedlen s = none := by
  rw [pkcs1Mgf1, if_neg (by omega), h0]
  exact mgf1Loop_mdSize_zero mask seed seedlen hrel hlen _ 0 s

/-- Past `2 ^ 32` digests `PKCS1_MGF1` still returns 0, and the mask repeats with
period `2 ^ 32 * mdlen`. -/
theorem pkcs1Mgf1_periodic (mask seed : Ptr) (len seedlen : Int) (hrel : dgst.Reliable)
    (h1 : 0 < dgst.mdSize)
    (hms : mask.region ≠ seed.region) (hmd : mask.region ≠ .md) (hsd : seed.region ≠ .md)
    (hlen : 2 ^ 32 * dgst.mdSize < len) (s : State) :
    ∃ s', pkcs1Mgf1 dgst mask len seed seedlen s = some (0, s') ∧
      s'.mem.read (mask.add (2 ^ 32 * dgst.mdSize)) (len - 2 ^ 32 * dgst.mdSize).toNat =
        s'.mem.read mask (len - 2 ^ 32 * dgst.mdSize).toNat := by
  obtain ⟨s', hrun, hpost⟩ := pkcs1Mgf1_spec mask seed len seedlen hrel h1 hms hmd hsd (by omega) s
  refine ⟨s', hrun, ?_⟩
  set h := dgst.mdSize.toNat with hh
  have hpos : 0 < h := by omega
  have hP : 2 ^ 32 * h < len.toNat := by omega
  -- the run used `2 ^ 32 + d` counters, enough for the mask
  have hcover := le_ceil_mul (L := len.toNat) hpos
  obtain ⟨d, hd⟩ : ∃ d, (len.toNat + h - 1) / h = 2 ^ 32 + d :=
    Nat.exists_eq_add_of_le (Nat.lt_of_mul_lt_mul_right (lt_of_lt_of_le hP hcover)).le
  rw [hd, Nat.add_mul] at hcover
  have hmask := hpost.mask_eq
  simp only [Nat.zero_mul, Nat.cast_zero, Ptr.add_zero, Nat.sub_zero, hd] at hmask
  have hR : (len - 2 ^ 32 * dgst.mdSize).toNat = len.toNat - 2 ^ 32 * h := by omega
  rw [hR, show (2 : Int) ^ 32 * dgst.mdSize = ((2 ^ 32 * h : Nat) : Int) by push_cast; omega,
    Mem.read_drop (a := 2 ^ 32 * h) (b := len.toNat - 2 ^ 32 * h) (by rw [Nat.add_sub_cancel' hP.le]),
    Mem.read_take (a := len.toNat - 2 ^ 32 * h) (b := 2 ^ 32 * h) (by rw [Nat.sub_add_cancel hP.le]),
    hmask, List.drop_take, List.take_take, Nat.min_eq_left (Nat.sub_le _ _),
    take_mgf1Blocks (k := d) (by rw [← hh]; omega) (by omega)]
  -- the part after `2 ^ 32` blocks is made by counters `0, 1, …` again
  rw [mgf1Blocks_add, List.drop_left' (by simp), mgf1Blocks_add_two_pow]

/-- `PKCS1_MGF1` checks only `mdlen < 0`.  With `EVP_md_null`, of size 0, and a
one-byte mask it does not return after any number of iterations; with a
one-byte digest and a mask of `2 ^ 32 + 1` bytes it returns 0, and the last
byte, made with counter `2 ^ 32`, is the first one again. -/
theorem pkcs1Mgf1_loops_or_wraps :
    EvpMd.mdNull.Reliable ∧ EvpMd.mdNull.mdSize = 0 ∧
      (∀ fuel, mgf1Loop EvpMd.mdNull ⟨.dbmask, 0⟩ 1 ⟨.seed, 0⟩ 0 0 fuel 0 0 State.zero = none) ∧
      pkcs1Mgf1 EvpMd.mdNull ⟨.dbmask, 0⟩ 1 ⟨.seed, 0⟩ 0 State.zero = none ∧
    EvpMd.byteSum.Reliable ∧ EvpMd.byteSum.mdSize = 1 ∧
      ∃ s', pkcs1Mgf1 EvpMd.byteSum ⟨.dbmask, 0⟩ (2 ^ 32 + 1) ⟨.seed, 0⟩ 0 State.zero = some (0, s') ∧
        s'.mem.read ⟨.dbmask, 2 ^ 32⟩ 1 = s'.mem.read ⟨.dbmask, 0⟩ 1 := by
  refine ⟨EvpMd.mdNull_reliable, rfl,
    fun fuel => mgf1Loop_mdSize_zero _ _ 0 EvpMd.mdNull_reliable (by decide) fuel 0 _,
    pkcs1Mgf1_mdSize_zero _ _ 0 EvpMd.mdNull_reliable rfl (by decide) _,
    EvpMd.byteSum_reliable, rfl, ?_⟩
  obtain ⟨s', hrun, hper⟩ := pkcs1Mgf1_periodic ⟨.dbmask, 0⟩ ⟨.seed, 0⟩ (2 ^ 32 + 1) 0
    EvpMd.byteSum_reliable (by decide) (by decide) (by decide) (by decide) (by decide) State.zero
  exact ⟨s', hrun, by simpa [EvpMd.byteSum] using hper⟩

end Loop

/-! ### Every run, whatever the digest calls return -/

/-- What a run of `PKCS1_MGF1` that returns keeps to whatever its digest calls
report: memory outside `mask[0..L)` and `md` is unchanged, and every access is
one of MGF1's own. -/
structure Mgf1Safe (mask seed : Ptr) (L S hLen : Nat) (s s' : State) : Prop where
  frame : ∀ r j, r ≠ .md → (r ≠ mask.region ∨ j < mask.off ∨ mask.off + L ≤ j) →
    s'.mem r j = s.mem r j
  trace : ∃ t, s'.trace = s.trace ++ t ∧ ∀ a ∈ t, Mgf1Access mask seed L S hLen a

section Safe

variable {dgst : EvpMd} {mask seed : Ptr} {seedlen : Int} {L : Nat}

theorem Mgf1Safe.refl {S hLen : Nat} (s : State) : Mgf1Safe mask seed L S hLen s s :=
  ⟨fun _ _ _ _ => rfl, [], by simp, by simp⟩

theorem Mgf1Safe.confined {S g : Nat} {s s' : State} {bound : Region → Int}
    (hs : Mgf1Safe mask seed L S g s s') (hm : 0 ≤ mask.off ∧ mask.off + L ≤ bound mask.region)
    (hsd : 0 ≤ seed.off ∧ seed.off + S ≤ bound seed.region) (hg : (g : Int) ≤ bound .md) :
    Confined bound s s' := by
  obtain ⟨t, ht, hacc⟩ := hs.trace
  refine .of_trace ht fun a ha => ?_
  rcases hacc a ha with rfl | ⟨k, n, hkn, rfl⟩ | ⟨n, hn, rfl | rfl⟩
  · exact Access.bounded_read hsd.1 hsd.2
  · exact Access.bounded_write (by simp; omega) (by simp; omega)
  · exact Access.bounded_read le_rfl (by simp; omega)
  · exact Access.bounded_write le_rfl (by simp; omega)

theorem mgf1Loop_safe :
    ∀ fuel i (o : Nat) s, o ≤ L → L - o ≤ fuel * dgst.mdSize.toNat →
      ∃ rv s', mgf1Loop dgst mask L seed seedlen dgst.mdSize.toNat fuel i o s = some (rv, s') ∧
        Mgf1Safe mask seed L (sizeT seedlen) dgst.mdSize.toNat s s' := by
  intro fuel
  induction fuel with
  | zero =>
    intro i o s ho hf
    exact ⟨0, s, mgf1Loop_done (by omega), .refl s⟩
  | succ fuel ih =>
    intro i o s ho hf
    obtain ⟨h, hh⟩ : ∃ h, dgst.mdSize.toNat = h := ⟨_, rfl⟩
    simp only [hh] at ih hf ⊢
    rcases Nat.lt_or_ge o L with hlt | hge
    swap
    · exact ⟨0, s, mgf1Loop_done (by omega), .refl s⟩
    set x := s.mem.read seed (sizeT seedlen) ++ mgf1Counter i
    have hlen : (dgst.hash x).length = h := by rw [dgst.hash_length, hh]
    by_cases hf' : dgst.fails x
    · refine ⟨-1, s.look seed (sizeT seedlen), ?_, fun _ _ _ _ => rfl, [.read seed (sizeT seedlen)],
        by simp,
        fun a ha => by rw [List.mem_singleton.1 ha]; exact .inl rfl⟩
      simp only [mgf1Loop, Nat.cast_lt.mpr hlt, if_true, x, hf']
    rcases Nat.lt_or_ge L (o + h) with hpart | hfull
    · -- the last, partial digest goes through `md`
      have hrest : ((L : Int) - o) = ((L - o : Nat) : Int) := by omega
      set s2 := (s.look seed (sizeT seedlen)).put ⟨.md, 0⟩ (dgst.hash x)
      refine ⟨0, memcpy s2 (mask.add o) ⟨.md, 0⟩ (L - o), ?_, ?_, ?_⟩
      · simp only [mgf1Loop, Nat.cast_lt.mpr hlt, if_true, x, hf', Bool.false_eq_true, if_false,
          show ¬ ((o : Int) + h ≤ L) by omega, hrest, sizeT_natCast]
        exact mgf1Loop_done le_rfl
      · intro r j hr hj
        simp only [s2, memcpy_mem, State.put_mem, State.look_mem]
        rw [Mem.write_apply_outside, Mem.write_apply_outside (.inl hr)]
        simp only [Ptr.add_region, Ptr.add_off, Mem.length_read]
        rcases hj with hj | hj | hj
        · exact .inl hj
        · exact .inr (.inl (by omega))
        · exact .inr (.inr (by omega))
      · refine ⟨[.read seed (sizeT seedlen), .write ⟨.md, 0⟩ h, .read ⟨.md, 0⟩ (L - o),
          .write (mask.add o) (L - o)], by simp [s2, hlen], ?_⟩
        intro a ha
        simp only [List.mem_cons, List.not_mem_nil, or_false] at ha
        rcases ha with rfl | rfl | rfl | rfl
        · exact .inl rfl
        · exact .inr (.inr ⟨h, le_rfl, .inr rfl⟩)
        · exact .inr (.inr ⟨L - o, by omega, .inl rfl⟩)
        · exact .inr (.inl ⟨o, L - o, by omega, rfl⟩)
    · -- a whole digest goes straight into the mask
      set s1 := (s.look seed (sizeT seedlen)).put (mask.add o) (dgst.hash x)
      obtain ⟨rv, s', hrun, hframe, t, ht, hacc⟩ := ih (i + 1) (o + h) s1 hfull (by
        rw [Nat.succ_mul] at hf; omega)
      refine ⟨rv, s', ?_, ?_, ⟨[.read seed (sizeT seedlen), .write (mask.add o) h] ++ t,
        by simp [s1, ht, hlen], ?_⟩⟩
      · simp only [mgf1Loop, Nat.cast_lt.mpr hlt, if_true, x, hf', Bool.false_eq_true, if_false,
          show (o : Int) + h ≤ L by omega]
        simpa using hrun
      · intro r j hr hj
        rw [hframe r j hr hj]
        exact Mem.write_apply_outside (by
          simp only [Ptr.add_region, Ptr.add_off, hlen]
          rcases hj with hj | hj | hj
          · exact .inl hj
          · exact .inr (.inl (by omega))
          · exact .inr (.inr (by omega)))
      · intro a ha
        simp only [List.mem_append, List.mem_cons, List.not_mem_nil, or_false] at ha
        rcases ha with (rfl | rfl) | ha
        · exact .inl rfl
        · exact .inr (.inl ⟨o, h, by omega, rfl⟩)
        · exact hacc a ha

/-- `PKCS1_MGF1` with a digest of positive size returns, whether or not its
digest calls fail, and keeps to its own accesses. -/
theorem pkcs1Mgf1_safe (mask seed : Ptr) (len seedlen : Int) (h1 : 0 < dgst.mdSize)
    (hlen : 0 ≤ len) (s : State) :
    ∃ rv s', pkcs1Mgf1 dgst mask len seed seedlen s = some (rv, s') ∧
      Mgf1Safe mask seed len.toNat (sizeT seedlen) dgst.mdSize.toNat s s' := by
  have hpos : 0 < dgst.mdSize.toNat := by omega
  have hfuel : len.toNat + 2 ^ 32 ≤ (len.toNat + 2 ^ 32) * dgst.mdSize.toNat :=
    Nat.le_mul_of_pos_right _ hpos
  obtain ⟨rv, s', hrun, hsafe⟩ := @mgf1Loop_safe dgst mask seed seedlen len.toNat (len.toNat + 2 ^ 32) 0 0 s
    (Nat.zero_le _) (by omega)
  refine ⟨rv, s', ?_, hsafe⟩
  rw [Int.toNat_of_nonneg hlen, Int.toNat_of_nonneg h1.le] at hrun
  simpa [pkcs1Mgf1, not_lt.mpr h1.le] using hrun

end Safe

end Rsa
end Libcrypto
