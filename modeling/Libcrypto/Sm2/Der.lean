import Libcrypto.Sm2.Sign

/-!
# `SM2_sign` and `SM2_verify`

The byte-string interface of SM2.  The digest value is the big-endian integer of
`dgst` (`BN_bin2bn`), and a signature travels as the DER encoding of its
`ECDSA_SIG`.  The codec is the ASN.1 library's `d2i_ECDSA_SIG` and
`i2d_ECDSA_SIG`, which the model takes as an argument and of which it assumes
nothing.

`SM2_verify` parses the signature, encodes the parsed pair again and rejects
unless that encoding is the input byte for byte.  Whatever the parser accepts,
the verifier therefore accepts only strings the encoder produces
(`sm2Verify_eq_one_iff`), and two accepted strings that parse alike are equal.
-/

namespace Libcrypto
namespace Sm2

/-- `d2i_ECDSA_SIG` and `i2d_ECDSA_SIG` on whole byte strings.  `d2i` is `none`
where the C returns `NULL`, `i2d` is `none` where it returns a negative length. -/
structure EcdsaSigCodec where
  d2i : List UInt8 → Option EcdsaSig
  i2d : EcdsaSig → Option (List UInt8)

/-- A codec for concrete runs: a pair of bytes, read by a parser that ignores
whatever follows them, as a lax BER parser ignores trailing data. -/
def EcdsaSigCodec.twoBytes : EcdsaSigCodec where
  d2i
    | r :: s :: _ => some ⟨r.toNat, s.toNat⟩
    | _ => none
  i2d sig :=
    if 0 ≤ sig.r ∧ sig.r < 256 ∧ 0 ≤ sig.s ∧ sig.s < 256 then
      some [UInt8.ofNat sig.r.toNat, UInt8.ofNat sig.s.toNat]
    else none

theorem EcdsaSigCodec.twoBytes_d2i_of_i2d (sig : EcdsaSig) (der : List UInt8)
    (h : EcdsaSigCodec.twoBytes.i2d sig = some der) : EcdsaSigCodec.twoBytes.d2i der = some sig := by
  simp only [EcdsaSigCodec.twoBytes] at h
  split_ifs at h with hr
  cases h
  obtain ⟨r0, r1, s0, s1⟩ := hr
  have er : (UInt8.ofNat sig.r.toNat).toNat = sig.r.toNat := Nat.mod_eq_of_lt (by omega)
  have es : (UInt8.ofNat sig.s.toNat).toNat = sig.s.toNat := Nat.mod_eq_of_lt (by omega)
  simp only [EcdsaSigCodec.twoBytes, er, es, Int.toNat_of_nonneg r0, Int.toNat_of_nonneg s0]

variable {P : Type} [AddCommGroup P]

/-- `SM2_sign(dgst, dgstlen, sig, siglen, eckey)`: 1 with the bytes written to
`sig`, whose number goes to `*siglen`, or -1 with nothing written; `none` when
the nonce draws run out before `SM2_sig_gen` returns.  `alloc` says whether
`BN_bin2bn` and the allocations of `SM2_sig_gen` return memory. -/
def sm2Sign (alloc : Bool) (codec : EcdsaSigCodec) (dgst : List UInt8) (eckey : EcKey P)
    (draws : List (Option (Fin eckey.group.order))) : Option (Int × List UInt8) :=
  if !alloc then some (-1, [])
  else
    match sm2SigGen alloc eckey (os2ip dgst) draws with
    | none => none
    | some none => some (-1, [])
    | some (some s) =>
      match codec.i2d s with
      | none => some (-1, [])
      | some der => some (1, der)

/-- `SM2_verify(dgst, dgstlen, sig, sig_len, eckey)` on the `sig_len` bytes
`sig`.  A failed `i2d_ECDSA_SIG` returns a negative `derlen`, which is never
`sig_len`.  `alloc` says whether `ECDSA_SIG_new`, `BN_bin2bn` and the
allocations of `SM2_sig_verify` return memory. -/
def sm2Verify (alloc : Bool) (codec : EcdsaSigCodec) (dgst sig : List UInt8) (eckey : EcKey P) :
    Int :=
  if !alloc then -1
  else
    match codec.d2i sig with
    | none => -1
    | some s =>
      match codec.i2d s with
      | none => -1
      | some der =>
        if (der.length : Int) ≠ sig.length ∨ sig.take der.length ≠ der then -1
        else sm2SigVerify alloc eckey s (os2ip dgst)

/-! ### The re-encoding check -/

theorem sm2Verify_of_i2d {codec : EcdsaSigCodec} {sig : List UInt8} {s : EcdsaSig}
    (dgst : List UInt8) (eckey : EcKey P) (hs : codec.d2i sig = some s)
    (hi : codec.i2d s = some sig) :
    sm2Verify true codec dgst sig eckey = sm2SigVerify true eckey s (os2ip dgst) := by
  simp [sm2Verify, hs, hi]

theorem sm2Verify_eq_one_iff (alloc : Bool) (codec : EcdsaSigCodec) (dgst sig : List UInt8)
    (eckey : EcKey P) :
    sm2Verify alloc codec dgst sig eckey = 1 ↔
      ∃ s, codec.d2i sig = some s ∧ codec.i2d s = some sig ∧
        sm2SigVerify alloc eckey s (os2ip dgst) = 1 := by
  cases alloc
  · simp [sm2Verify]
  constructor
  · intro h
    simp only [sm2Verify, Bool.not_true, Bool.false_eq_true, if_false] at h
    rcases hs : codec.d2i sig with _ | s
    · simp [hs] at h
    rcases hi : codec.i2d s with _ | der
    · simp [hs, hi] at h
    simp only [hs, hi] at h
    split_ifs at h with hne
    -- the lengths agree, so the compared prefix is all of `sig`
    obtain ⟨hlen, htake⟩ := not_or.1 hne
    rw [not_not, Nat.cast_inj] at hlen
    rw [not_not, hlen, List.take_length] at htake
    exact ⟨s, rfl, by rw [htake, hi], h⟩
  · rintro ⟨s, hs, hi, hv⟩
    rw [sm2Verify_of_i2d dgst eckey hs hi, hv]

theorem eq_of_sm2Verify_eq_one {alloc : Bool} {codec : EcdsaSigCodec} {dgst sig sig' : List UInt8}
    {eckey : EcKey P} (h : sm2Verify alloc codec dgst sig eckey = 1)
    (h' : sm2Verify alloc codec dgst sig' eckey = 1) (hd : codec.d2i sig = codec.d2i sig') :
    sig = sig' := by
  obtain ⟨s, hs, hi, -⟩ := (sm2Verify_eq_one_iff _ _ _ _ _).1 h
  obtain ⟨s', hs', hi', -⟩ := (sm2Verify_eq_one_iff _ _ _ _ _).1 h'
  rw [hs, hs', Option.some_inj] at hd
  rw [hd, hi'] at hi
  exact (Option.some_inj.1 hi).symm

/-- `SM2_verify` accepts only the encoding `i2d_ECDSA_SIG` gives to a pair
`SM2_sig_verify` accepts for `e = OS2IP(dgst)`: no trailing bytes and no other
form of the same pair, whatever `d2i_ECDSA_SIG` tolerates.  Distinct accepted
strings therefore parse to distinct pairs. -/
theorem sm2Verify_accepts_only_der (alloc : Bool) (codec : EcdsaSigCodec) (dgst : List UInt8)
    (eckey : EcKey P) :
    (∀ sig, sm2Verify alloc codec dgst sig eckey = 1 →
      ∃ s, codec.d2i sig = some s ∧ codec.i2d s = some sig ∧
        sm2SigVerify alloc eckey s (os2ip dgst) = 1) ∧
    ∀ sig sig', sm2Verify alloc codec dgst sig eckey = 1 →
      sm2Verify alloc codec dgst sig' eckey = 1 → sig ≠ sig' →
        ∃ s s', codec.d2i sig = some s ∧ codec.d2i sig' = some s' ∧ s ≠ s' := by
  refine ⟨fun sig => (sm2Verify_eq_one_iff alloc codec dgst sig eckey).1, ?_⟩
  intro sig sig' h h' hne
  obtain ⟨s, hs, -⟩ := (sm2Verify_eq_one_iff _ _ _ _ _).1 h
  obtain ⟨s', hs', -⟩ := (sm2Verify_eq_one_iff _ _ _ _ _).1 h'
  exact ⟨s, s', hs, hs', fun hss => hne (eq_of_sm2Verify_eq_one h h' (by rw [hs, hs', hss]))⟩

-- With a trailing byte the lax parser reads the same pair, and the verifier rejects.
example : sm2Verify true EcdsaSigCodec.twoBytes [3] [8, 5] curve17Key = 1 ∧
    sm2Verify true EcdsaSigCodec.twoBytes [3] [8, 5, 0] curve17Key = -1 := by
  decide

/-! ### Signing then verifying -/

theorem sm2Sign_eq_one {alloc : Bool} {codec : EcdsaSigCodec} {dgst der : List UInt8}
    {eckey : EcKey P} {draws : List (Option (Fin eckey.group.order))}
    (h : sm2Sign alloc codec dgst eckey draws = some (1, der)) :
    ∃ s, sm2SigGen alloc eckey (os2ip dgst) draws = some (some s) ∧ codec.i2d s = some der := by
  unfold sm2Sign at h
  split_ifs at h
  · simp at h
  split at h
  next => cases h
  next => simp at h
  next s hg =>
    split at h
    next => simp at h
    next der' hi =>
      cases h
      exact ⟨s, hg, hi⟩

/-- With a codec that parses what it encodes, `SM2_verify` accepts what
`SM2_sign` wrote for the same digest and key exactly when its `s` is not
zero. -/
theorem sm2Verify_sm2Sign {alloc : Bool} {codec : EcdsaSigCodec} {dgst der : List UInt8}
    {eckey : EcKey P} {draws : List (Option (Fin eckey.group.order))}
    (hcodec : ∀ s der, codec.i2d s = some der → codec.d2i der = some s)
    (hpub : eckey.pub = eckey.priv • eckey.group.generator)
    (h : sm2Sign alloc codec dgst eckey draws = some (1, der)) :
    ∃ s, codec.d2i der = some s ∧ sm2Verify alloc codec dgst der eckey = if s.s = 0 then 0 else 1 := by
  obtain ⟨s, hg, hi⟩ := sm2Sign_eq_one h
  obtain ⟨rfl, -⟩ := sm2SigGen_signs hg
  refine ⟨s, hcodec s der hi, ?_⟩
  rw [sm2Verify_of_i2d dgst eckey (hcodec s der hi) hi]
  exact sm2SigVerify_sm2SigGen hpub hg

theorem sm2Verify_sm2Sign_curve17 :
    (∀ s der, EcdsaSigCodec.twoBytes.i2d s = some der → EcdsaSigCodec.twoBytes.d2i der = some s) ∧
      curve17Key.pub = curve17Key.priv • curve17Key.group.generator ∧
      sm2Sign true EcdsaSigCodec.twoBytes [3] curve17Key [some ⟨1, by decide⟩] = some (1, [8, 5]) ∧
      ∃ s, EcdsaSigCodec.twoBytes.d2i [8, 5] = some s ∧
        sm2Verify true EcdsaSigCodec.twoBytes [3] [8, 5] curve17Key = if s.s = 0 then 0 else 1 :=
  have hpub : curve17Key.pub = curve17Key.priv • curve17Key.group.generator := by decide
  have h : sm2Sign true EcdsaSigCodec.twoBytes [3] curve17Key [some ⟨1, by decide⟩] =
      some (1, [8, 5]) := by decide
  ⟨EcdsaSigCodec.twoBytes_d2i_of_i2d, hpub, h,
    sm2Verify_sm2Sign EcdsaSigCodec.twoBytes_d2i_of_i2d hpub h⟩

/-! ### The digest modulo the order -/

/-- **Digests count modulo the order.** `SM2_sign` and `SM2_verify` use the
digest only through its big-endian value modulo the group order, whatever its
length: two digests whose values agree modulo `n` get the same output from
`SM2_sign` on the same draws and the same verdict from `SM2_verify` on every
string, so a signature made for one verifies for the other. -/
theorem sm2Sign_sm2Verify_of_os2ip_mod_eq (alloc : Bool) (codec : EcdsaSigCodec)
    {dgst dgst' : List UInt8} (eckey : EcKey P)
    (h : os2ip dgst % eckey.group.order = os2ip dgst' % eckey.group.order) :
    (∀ draws, sm2Sign alloc codec dgst eckey draws = sm2Sign alloc codec dgst' eckey draws) ∧
      ∀ sig, sm2Verify alloc codec dgst sig eckey = sm2Verify alloc codec dgst' sig eckey := by
  have he : ((os2ip dgst : Int) % eckey.group.order) = (os2ip dgst' : Int) % eckey.group.order := by
    exact_mod_cast congrArg (fun n : Nat => (n : Int)) h
  refine ⟨fun draws => ?_, fun sig => ?_⟩
  · have hg : sm2SigGen alloc eckey (os2ip dgst) draws = sm2SigGen alloc eckey (os2ip dgst') draws := by
      rw [← sm2SigGen_emod, he, sm2SigGen_emod]
    simp only [sm2Sign, hg]
  · have hv : ∀ s, sm2SigVerify alloc eckey s (os2ip dgst) = sm2SigVerify alloc eckey s (os2ip dgst') :=
      fun s => by rw [← sm2SigVerify_emod, he, sm2SigVerify_emod]
    simp only [sm2Verify, hv]

theorem sm2Sign_sm2Verify_of_os2ip_mod_eq_curve17 :
    os2ip [3] % curve17Key.group.order = os2ip [22] % curve17Key.group.order ∧
      (∀ draws, sm2Sign true EcdsaSigCodec.twoBytes [3] curve17Key draws =
        sm2Sign true EcdsaSigCodec.twoBytes [22] curve17Key draws) ∧
      ∀ sig, sm2Verify true EcdsaSigCodec.twoBytes [3] sig curve17Key =
        sm2Verify true EcdsaSigCodec.twoBytes [22] sig curve17Key :=
  have h : os2ip [3] % curve17Key.group.order = os2ip [22] % curve17Key.group.order := by decide
  ⟨h, sm2Sign_sm2Verify_of_os2ip_mod_eq true EcdsaSigCodec.twoBytes curve17Key h⟩

end Sm2
end Libcrypto
