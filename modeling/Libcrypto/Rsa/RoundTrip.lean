import Libcrypto.Rsa.OaepAdd
import Libcrypto.Rsa.OaepCheck

/-!
# The encoder and the decoder together

RSA decryption hands the decoder the encoded block as a number: `BN_bn2bin`
drops the leading zero bytes, and the decoder is told the modulus length `num`
to pad them back.  The two results of this file connect the two C functions
through the laws of `EmeOaep`:

* what `RSA_padding_add_PKCS1_OAEP_mgf1` writes, stripped of its leading zero
  bytes, decodes under every label to the message when the label digests agree
  and fails otherwise;
* every block the decoder accepts is what the encoder writes for the message
  the decoder returns.
-/

namespace Libcrypto
namespace Rsa

/-- **Round trip with label binding.** For reliable digests of positive size, a
message the padding has room for, a block whose buffer size `dblen + num`
fits in an `int`, and a `malloc` that serves every request below `2^31` bytes,
the encoder returns 1; and the decoder, on what it wrote after the leading
byte, with any number `k` of the leading zero bytes stripped, under any label
`L2` and into any `tlen'` bytes, returns the message and writes it to
`to[0..|M|)` when `md(L2) = md(L1)` and it fits, and returns -1 otherwise; it
changes no byte of `to` outside what it returns. -/
theorem rsaPaddingCheckPkcs1OaepMgf1_rsaPaddingAddPkcs1OaepMgf1 (lib : Libc) (md mgf1md : EvpMd)
    (tlen : Int) (M L1 L2 : List UInt8) (s1 : State) (hmd : 1 ≤ md.mdSize)
    (hmgf : 1 ≤ mgf1md.mdSize) (hrel : md.Reliable) (hrel' : mgf1md.Reliable)
    (hmalloc : ∀ n, n < 2 ^ 31 → lib.malloc n = true) (hint : 2 * tlen - 2 - md.mdSize < 2 ^ 31)
    (hfit : (M.length : Int) ≤ tlen - 2 * md.mdSize - 2)
    (hM : s1.mem.read ⟨.fromBuf, 0⟩ M.length = M) (hL1 : s1.mem.read ⟨.paramBuf, 0⟩ L1.length = L1) :
    ∃ s1', rsaPaddingAddPkcs1OaepMgf1 lib md mgf1md tlen M.length L1.length s1 = some (1, s1') ∧
      let EM := s1'.mem.read ⟨.toBuf, 0⟩ tlen.toNat
      ∀ (k : Nat) (tlen' : Int) (s2 : State), (EM.drop 1).take k = List.replicate k 0 →
        s2.mem.read ⟨.fromBuf, 0⟩ (tlen.toNat - 1 - k) = EM.drop (1 + k) →
        s2.mem.read ⟨.paramBuf, 0⟩ L2.length = L2 →
        ∃ r s2', rsaPaddingCheckPkcs1OaepMgf1 lib md mgf1md tlen' (tlen - 1 - k) tlen L2.length s2 =
            some (r, s2') ∧
          (∀ j, (j < 0 ∨ r ≤ j) → s2'.mem .toBuf j = s2.mem .toBuf j) ∧
          if md.hash L2 = md.hash L1 ∧ (M.length : Int) ≤ tlen' then
            r = M.length ∧ s2'.mem.read ⟨.toBuf, 0⟩ M.length = M
          else r = -1 := by
  obtain ⟨s1', hrun, hEM, -⟩ := rsaPaddingAddPkcs1OaepMgf1_spec lib md mgf1md tlen M.length L1.length
    s1 hmd hmgf hrel hrel' (hmalloc _ (by rw [sizeT_of_nonneg (by omega)]; omega))
    (Int.natCast_nonneg _) hfit
  rw [sizeT_natCast, hL1, Int.toNat_natCast, hM] at hEM
  refine ⟨s1', hrun, ?_⟩
  intro EM k tlen' s2 hk hfrom hL2
  obtain ⟨h, hh⟩ : ∃ h : Nat, md.mdSize = h := ⟨md.mdSize.toNat, by omega⟩
  obtain ⟨T, hT⟩ : ∃ T : Nat, tlen = T := ⟨tlen.toNat, by omega⟩
  subst hT
  rw [Int.toNat_natCast] at hfrom
  have hlen : EM.length = T := by simp [EM]
  have hkT : k ≤ T - 1 := by
    have := congrArg List.length hk
    simp only [List.length_take, List.length_drop, hlen, List.length_replicate] at this
    omega
  -- the decoder sees `EM[1..T)` again once it pads the stripped zeros back
  have hB : List.replicate ((T : Int) - 1 - ((T : Int) - 1 - k)).toNat 0 ++
      s2.mem.read ⟨.fromBuf, 0⟩ ((T : Int) - 1 - k).toNat = EM.tail := by
    rw [show ((T : Int) - 1 - ((T : Int) - 1 - k)).toNat = k by omega,
      show ((T : Int) - 1 - k).toNat = T - 1 - k by omega, hfrom, ← hk, ← List.drop_drop,
      List.take_append_drop, List.drop_one]
  have hpos : 0 < mgf1md.mdSize.toNat := by omega
  have hH : ∀ x, (md.hash x).length = h := fun x => by rw [md.hash_length, hh, Int.toNat_natCast]
  have hdec : emeOaepDecode mgf1md (md.hash L2) EM.tail =
      if md.hash L2 = md.hash L1 then some M else none := by
    rw [show EM = _ from hEM]
    exact emeOaepDecode_emeOaepEncode hpos (by simp [hH, hh]) (by rw [hH, hH])
      (by rw [hH]; omega)
  obtain ⟨r, s2', hrun2, hacc, hrej⟩ := rsaPaddingCheckPkcs1OaepMgf1_spec lib md mgf1md tlen'
    (T - 1 - k) T L2.length s2 hmd hmgf hrel hrel' (by omega) (by omega) (by omega)
    (hmalloc _ (by rw [sizeT_intWrap (by omega) (by omega)]; omega))
  obtain ⟨r', s2'', hrun2', -, hto, -⟩ := rsaPaddingCheckPkcs1OaepMgf1_safe lib md mgf1md tlen'
    (T - 1 - k) T L2.length s2 hmd hmgf (by omega)
  obtain ⟨rfl, rfl⟩ := Prod.mk.inj (Option.some.inj (hrun2.symm.trans hrun2'))
  simp only [sizeT_natCast, hL2, hB, hdec] at hacc hrej
  refine ⟨r, s2', hrun2, hto, ?_⟩
  split_ifs with hc
  · exact hacc M (by rw [if_pos hc.1]) hc.2
  · rcases hrej with h1 | ⟨M', hM', hfit'⟩
    · exact h1
    · split_ifs at hM' with he
      cases hM'
      exact absurd ⟨he, hfit'⟩ hc

theorem rsaPaddingCheckPkcs1OaepMgf1_rsaPaddingAddPkcs1OaepMgf1_byteSum :
    1 ≤ EvpMd.byteSum.mdSize ∧ EvpMd.byteSum.Reliable ∧
      (∀ n, n < 2 ^ 31 → Libc.intSized.malloc n = true) ∧
      2 * (5 : Int) - 2 - EvpMd.byteSum.mdSize < 2 ^ 31 ∧
      (1 : Int) ≤ 5 - 2 * EvpMd.byteSum.mdSize - 2 ∧
      State.sample.mem.read ⟨.fromBuf, 0⟩ 1 = [7] ∧
      State.sample.mem.read ⟨.paramBuf, 0⟩ 1 = [2] ∧
      ∃ s1', rsaPaddingAddPkcs1OaepMgf1 Libc.intSized EvpMd.byteSum EvpMd.byteSum 5 1 1
          State.sample = some (1, s1') ∧
        let EM := s1'.mem.read ⟨.toBuf, 0⟩ (5 : Int).toNat
        ∀ (k : Nat) (tlen' : Int) (s2 : State), (EM.drop 1).take k = List.replicate k 0 →
          s2.mem.read ⟨.fromBuf, 0⟩ ((5 : Int).toNat - 1 - k) = EM.drop (1 + k) →
          s2.mem.read ⟨.paramBuf, 0⟩ 1 = [2] →
          ∃ r s2', rsaPaddingCheckPkcs1OaepMgf1 Libc.intSized EvpMd.byteSum EvpMd.byteSum tlen'
              (5 - 1 - k) 5 1 s2 = some (r, s2') ∧
            (∀ j, (j < 0 ∨ r ≤ j) → s2'.mem .toBuf j = s2.mem .toBuf j) ∧
            if EvpMd.byteSum.hash [2] = EvpMd.byteSum.hash [2] ∧ (1 : Int) ≤ tlen' then
              r = 1 ∧ s2'.mem.read ⟨.toBuf, 0⟩ 1 = [7]
            else r = -1 :=
  ⟨by decide, EvpMd.byteSum_reliable, fun _ h => decide_eq_true h, by decide, by decide, rfl, rfl,
    rsaPaddingCheckPkcs1OaepMgf1_rsaPaddingAddPkcs1OaepMgf1 Libc.intSized EvpMd.byteSum
      EvpMd.byteSum 5 [7] [2] [2] State.sample (by decide) (by decide) EvpMd.byteSum_reliable
      EvpMd.byteSum_reliable (fun _ h => decide_eq_true h) (by decide) (by decide) rfl rfl⟩

/-- **`dblen + num` overflows.** Once `dblen + (num - 1)` passes `INT_MAX`, the
decoder's `int` size wraps negative and becomes a request of at least `2^63`
bytes.  With a `malloc` that serves requests below `2^31` bytes and refuses
those of `2^63` bytes or more, the encoder encodes, on such a block length,
every message it has room for, while the decoder returns -1 on every input
without touching memory. -/
theorem rsaPaddingCheckPkcs1OaepMgf1_int_overflow (lib : Libc) (md mgf1md : EvpMd) (tlen : Int)
    (M L : List UInt8) (s1 : State) (hmd : 1 ≤ md.mdSize) (hmgf : 1 ≤ mgf1md.mdSize)
    (hrel : md.Reliable) (hrel' : mgf1md.Reliable) (hsmall : ∀ n, n < 2 ^ 31 → lib.malloc n = true)
    (hhuge : ∀ n, 2 ^ 63 ≤ n → lib.malloc n = false) (htlen : tlen < 2 ^ 31)
    (hover : 2 ^ 31 ≤ 2 * tlen - 2 - md.mdSize) (hfit : (M.length : Int) ≤ tlen - 2 * md.mdSize - 2) :
    (∃ s1', rsaPaddingAddPkcs1OaepMgf1 lib md mgf1md tlen M.length L.length s1 = some (1, s1')) ∧
      ∀ (tlen' flen plen : Int) (s2 : State),
        rsaPaddingCheckPkcs1OaepMgf1 lib md mgf1md tlen' flen tlen plen s2 = some (-1, s2) :=
  ⟨(rsaPaddingAddPkcs1OaepMgf1_spec lib md mgf1md tlen M.length L.length s1 hmd hmgf hrel hrel'
      (hsmall _ (by rw [sizeT_of_nonneg (by omega)]; omega)) (Int.natCast_nonneg _) hfit).imp
      fun _ h => h.1,
    -- the `int` size `dblen + num` wraps negative: a request `malloc` refuses
    fun _ _ _ s2 => rsaPaddingCheckPkcs1OaepMgf1_of_malloc s2 (by omega)
      (hhuge _ (le_sizeT_intWrap (by omega) (by omega)))⟩

theorem rsaPaddingCheckPkcs1OaepMgf1_int_overflow_byteSum :
    1 ≤ EvpMd.byteSum.mdSize ∧ EvpMd.byteSum.Reliable ∧
      (∀ n, n < 2 ^ 31 → Libc.intSized.malloc n = true) ∧
      (∀ n, 2 ^ 63 ≤ n → Libc.intSized.malloc n = false) ∧
      (2 ^ 30 + 2 : Int) < 2 ^ 31 ∧ 2 ^ 31 ≤ 2 * (2 ^ 30 + 2 : Int) - 2 - EvpMd.byteSum.mdSize ∧
      (0 : Int) ≤ 2 ^ 30 + 2 - 2 * EvpMd.byteSum.mdSize - 2 ∧
      (∃ s1', rsaPaddingAddPkcs1OaepMgf1 Libc.intSized EvpMd.byteSum EvpMd.byteSum (2 ^ 30 + 2) 0 0
          State.zero = some (1, s1')) ∧
        ∀ (tlen' flen plen : Int) (s2 : State),
          rsaPaddingCheckPkcs1OaepMgf1 Libc.intSized EvpMd.byteSum EvpMd.byteSum tlen' flen (2 ^ 30 + 2)
            plen s2 = some (-1, s2) :=
  ⟨by decide, EvpMd.byteSum_reliable, fun _ h => decide_eq_true h,
    fun _ h => decide_eq_false (by omega), by norm_num, by norm_num [EvpMd.byteSum],
    by norm_num [EvpMd.byteSum],
    rsaPaddingCheckPkcs1OaepMgf1_int_overflow Libc.intSized EvpMd.byteSum EvpMd.byteSum (2 ^ 30 + 2) [] []
      State.zero (by decide) (by decide) EvpMd.byteSum_reliable EvpMd.byteSum_reliable
      (fun _ h => decide_eq_true h) (fun _ h => decide_eq_false (by omega)) (by norm_num)
      (by norm_num [EvpMd.byteSum]) (by norm_num [EvpMd.byteSum])⟩

/-- **Only encodings decode.** When the decoder returns `m ≥ 0` on an input of
`flen` bytes, the input was no longer than the block, the block had room for two
digests, `m ≤ tlen`, and the encoder, given the message the decoder wrote to
`to`, the same label and digests, and the seed the decoder unmasked, writes
exactly `0x00` followed by the zero-padded input. -/
theorem rsaPaddingCheckPkcs1OaepMgf1_accepts_encodings (lib : Libc) (md mgf1md : EvpMd)
    (tlen flen num plen : Int) (s s' : State) (m : Int) (hmd : 1 ≤ md.mdSize)
    (hmgf : 1 ≤ mgf1md.mdSize) (hrel : md.Reliable) (hrel' : mgf1md.Reliable) (hflen : 0 ≤ flen)
    (hrun : rsaPaddingCheckPkcs1OaepMgf1 lib md mgf1md tlen flen num plen s = some (m, s'))
    (hm : 0 ≤ m) :
    flen ≤ num - 1 ∧ 2 * md.mdSize + 2 ≤ num ∧ m ≤ tlen ∧
      let h := md.mdSize.toNat
      let B := List.replicate (num - 1 - flen).toNat 0 ++ s.mem.read ⟨.fromBuf, 0⟩ flen.toNat
      ∀ (lib' : Libc) (s2 : State),
        (List.range h).map lib'.arc4random = xorBytes (B.take h) (mgf1 mgf1md (B.drop h) h) →
        lib'.malloc (sizeT (num - 1 - md.mdSize)) = true →
        s2.mem.read ⟨.fromBuf, 0⟩ m.toNat = s'.mem.read ⟨.toBuf, 0⟩ m.toNat →
        s2.mem.read ⟨.paramBuf, 0⟩ (sizeT plen) = s.mem.read ⟨.paramBuf, 0⟩ (sizeT plen) →
        ∃ s2', rsaPaddingAddPkcs1OaepMgf1 lib' md mgf1md num m plen s2 = some (1, s2') ∧
          s2'.mem.read ⟨.toBuf, 0⟩ num.toNat = 0 :: B := by
  obtain ⟨m0, s0, hrun0, hr, -⟩ := rsaPaddingCheckPkcs1OaepMgf1_safe lib md mgf1md tlen flen num plen
    s hmd hmgf hflen
  obtain ⟨rfl, rfl⟩ := Prod.mk.inj (Option.some.inj (hrun.symm.trans hrun0))
  obtain ⟨-, htl, hfit, hnum⟩ := hr.resolve_left (by omega)
  refine ⟨hfit, hnum, htl, ?_⟩
  intro h B lib' s2 hseed hmalloc hfrom hparam
  have hh : h = md.mdSize.toNat := rfl
  have hBdef : B = List.replicate (num - 1 - flen).toNat 0 ++ s.mem.read ⟨.fromBuf, 0⟩ flen.toNat := rfl
  -- the allocation of the decoder succeeded, since it returned `m ≥ 0`
  have hm' : lib.malloc (sizeT (intWrap (num - 1 - md.mdSize + (num - 1)))) = true := by
    by_contra hc
    rw [rsaPaddingCheckPkcs1OaepMgf1_of_malloc s (by omega) (by simpa using hc)] at hrun0
    cases hrun0
    omega
  obtain ⟨m1, s1, hrun1, hacc, hrej⟩ := rsaPaddingCheckPkcs1OaepMgf1_spec lib md mgf1md tlen flen num
    plen s hmd hmgf hrel hrel' hflen hfit hnum hm'
  rw [← hBdef] at hacc hrej
  obtain ⟨rfl, rfl⟩ := Prod.mk.inj (Option.some.inj (hrun1.symm.trans hrun0))
  obtain ⟨M, hM, hMt⟩ := hrej.resolve_left (by omega)
  obtain ⟨rfl, hto⟩ := hacc M hM hMt
  have hpos : 0 < mgf1md.mdSize.toNat := by omega
  have hH : ∀ x, (md.hash x).length = h := fun x => md.hash_length x
  have hBlen : B.length = (num - 1).toNat := by
    rw [hBdef, List.length_append, List.length_replicate, Mem.length_read]
    omega
  have hML := length_le_of_emeOaepDecode hpos hM
  rw [hH] at hML
  obtain ⟨s2', hrun2, hEM, -⟩ := rsaPaddingAddPkcs1OaepMgf1_spec lib' md mgf1md num M.length plen s2
    hmd hmgf hrel hrel' hmalloc (Int.natCast_nonneg _) (by omega)
  refine ⟨s2', hrun2, ?_⟩
  rw [hEM, hfrom, hparam, ← hh, hseed, Int.toNat_natCast, hto, show num.toNat = B.length + 1 by omega]
  simpa only [hH] using emeOaepEncode_of_emeOaepDecode hpos (by rw [hH]; omega) hM

theorem rsaPaddingCheckPkcs1OaepMgf1_accepts_encodings_byteSum :
    ∃ s', rsaPaddingCheckPkcs1OaepMgf1 ⟨fun _ => true, fun _ => 0⟩ EvpMd.byteSum EvpMd.byteSum
        0 3 4 0 State.zero = some (0, s') ∧
      1 ≤ EvpMd.byteSum.mdSize ∧ EvpMd.byteSum.Reliable ∧ (0 : Int) ≤ 3 ∧ (0 : Int) ≤ 0 ∧
      ((3 : Int) ≤ 4 - 1 ∧ 2 * EvpMd.byteSum.mdSize + 2 ≤ 4 ∧ (0 : Int) ≤ 0 ∧
        let h := EvpMd.byteSum.mdSize.toNat
        let B := List.replicate ((4 : Int) - 1 - 3).toNat 0 ++ State.zero.mem.read ⟨.fromBuf, 0⟩ 3
        ∀ (lib' : Libc) (s2 : State),
          (List.range h).map lib'.arc4random = xorBytes (B.take h) (mgf1 EvpMd.byteSum (B.drop h) h) →
          lib'.malloc (sizeT (4 - 1 - EvpMd.byteSum.mdSize)) = true →
          s2.mem.read ⟨.fromBuf, 0⟩ 0 = s'.mem.read ⟨.toBuf, 0⟩ 0 →
          s2.mem.read ⟨.paramBuf, 0⟩ (sizeT 0) = State.zero.mem.read ⟨.paramBuf, 0⟩ (sizeT 0) →
          ∃ s2', rsaPaddingAddPkcs1OaepMgf1 lib' EvpMd.byteSum EvpMd.byteSum 4 0 0 s2 = some (1, s2') ∧
            s2'.mem.read ⟨.toBuf, 0⟩ 4 = 0 :: B) := by
  obtain ⟨m, s', hrun, hacc, -⟩ := rsaPaddingCheckPkcs1OaepMgf1_spec ⟨fun _ => true, fun _ => 0⟩
    EvpMd.byteSum EvpMd.byteSum 0 3 4 0 State.zero (by decide) (by decide) EvpMd.byteSum_reliable
    EvpMd.byteSum_reliable (by decide) (by decide) (by decide) rfl
  obtain ⟨rfl, -⟩ := hacc [] (by decide) (by decide)
  exact ⟨s', hrun, by decide, EvpMd.byteSum_reliable, by decide, le_rfl,
    rsaPaddingCheckPkcs1OaepMgf1_accepts_encodings _ _ _ 0 3 4 0 State.zero s' 0 (by decide)
      (by decide) EvpMd.byteSum_reliable EvpMd.byteSum_reliable (by decide) hrun le_rfl⟩

end Rsa
end Libcrypto
