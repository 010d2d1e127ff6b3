import Libcrypto.Rsa.OaepAdd
import Libcrypto.Rsa.OaepCheck

/-!
# What the accesses of OAEP padding reveal

The return value of the padding functions and the sequence of their accesses
(which buffer, which offset, how many bytes) are what a caller or a side
channel can see of a run; the bytes read and written are not.

The encoder branches on lengths only: for digests whose calls do not fail, two
runs with the same lengths cannot be told apart
(`rsaPaddingAddPkcs1OaepMgf1_observe`).

`RSA_padding_check_PKCS1_OAEP_mgf1` takes care that its failures look alike
from outside: an over-long block sets `bad` instead of returning at once, the
zero-padding copy runs whatever `lzero` is, and the label digest is compared
with `timingsafe_memcmp`.  The label check and `bad` are tested before the scan
for the separator, though, and the scan breaks at the first nonzero byte.
`rsaPaddingCheckPkcs1OaepMgf1_observe` says exactly what the decoder shows of
the block and the label: two runs with the same `tlen`, `num` and `plen` that
cut their inputs to the same length and whose inputs agree on `oaepCheckLeak`
cannot be told apart.  That is whether `DB` starts with the label digest and,
when it does, the number of zero bytes after it and whether the separator
follows them; neither the seed nor the message nor any other byte of `DB`
shows, and an over-long input looks like a full-length one that fails the
label check.

The proofs run two calls side by side.  Up to the label check both make the
same accesses whatever the bytes (`mgf1Loop_observe`, `xorLoop_trace_congr`);
the checks branch on what `oaepCheckView` records and on nothing else.
-/

namespace Libcrypto
namespace Rsa

/-- What `RSA_padding_check_PKCS1_OAEP_mgf1` shows of `from[0..flen)` and
`param[0..plen)` beyond their lengths: nothing for a block longer than
`num - 1` bytes, else `oaepCheckView` of the `DB` that the zero-padded block
unmasks to, under the label digest. -/
def oaepCheckLeak (md mgf1md : EvpMd) (flen num plen : Int) (s : State) : Option (Nat × Bool) :=
  if num - 1 < flen then none
  else
    oaepCheckView (md.hash (s.mem.read ⟨.paramBuf, 0⟩ (sizeT plen)))
      (emeOaepUnmask mgf1md md.mdSize.toNat
        (List.replicate (num - 1 - flen).toNat 0 ++ s.mem.read ⟨.fromBuf, 0⟩ flen.toNat))

/-! ### The encoder

The encoder branches on lengths only, and with digests whose calls do not fail
its accesses are fixed by the lengths: it shows nothing of the message, the
label or the seed. -/

-- The masking draws no random bytes: two libraries with one `malloc` run it alike.
theorem oaepAddMask_observe {lib₁ lib₂ : Libc} (hm : lib₁.malloc = lib₂.malloc) {mgf1md : EvpMd}
    (hrel : mgf1md.Reliable) (emlen mdlen : Int) {s₁ s₂ : State} (ht : s₁.trace = s₂.trace) :
    (oaepAddMask lib₁ mgf1md emlen mdlen s₁).map observe =
      (oaepAddMask lib₂ mgf1md emlen mdlen s₂).map observe := by
  unfold oaepAddMask
  dsimp only
  rw [hm]
  split_ifs
  · simp [ht]
  rcases map_observe_eq_iff.1 (pkcs1Mgf1_observe hrel ⟨.dbmask, 0⟩ ⟨.toBuf, 1⟩ (emlen - mdlen)
    mdlen ht) with ⟨e₁, e₂⟩ | ⟨rv, t₁, t₂, e₁, e₂, h1⟩ <;> simp only [e₁, e₂]
  split_ifs
  · simp [h1]
  rcases map_observe_eq_iff.1 (pkcs1Mgf1_observe hrel ⟨.seedmask, 0⟩ ⟨.toBuf, mdlen + 1⟩ mdlen
    (emlen - mdlen) (xorLoop_trace_congr h1 ⟨.toBuf, mdlen + 1⟩ ⟨.dbmask, 0⟩ (emlen - mdlen).toNat)) with
    ⟨e₃, e₄⟩ | ⟨rv', t₃, t₄, e₃, e₄, h3⟩ <;> simp only [e₃, e₄]
  split_ifs
  · simp [h3]
  · simp [xorLoop_trace_congr h3]

/-- **The encoder reveals the lengths and no more.** For digests whose calls do
not fail, and every `tlen`, `flen` and `plen`, two runs of
`RSA_padding_add_PKCS1_OAEP_mgf1` from states with one trace, under libraries
with one `malloc` whose `arc4random_buf` may hand out different seeds, return
the same value and make the same accesses in the same order, whatever the
message, the label and the seed. -/
theorem rsaPaddingAddPkcs1OaepMgf1_observe (lib₁ lib₂ : Libc) (hm : lib₁.malloc = lib₂.malloc)
    (md mgf1md : EvpMd) (tlen flen plen : Int) (hrel : md.Reliable) (hrel' : mgf1md.Reliable)
    {s₁ s₂ : State} (ht : s₁.trace = s₂.trace) :
    (rsaPaddingAddPkcs1OaepMgf1 lib₁ md mgf1md tlen flen plen s₁).map observe =
      (rsaPaddingAddPkcs1OaepMgf1 lib₂ md mgf1md tlen flen plen s₂).map observe := by
  obtain ⟨hl₁, ht₁⟩ := oaepAddLayout_reliable lib₁ hrel (tlen - 1) flen plen md.mdSize s₁
  obtain ⟨hl₂, ht₂⟩ := oaepAddLayout_reliable lib₂ hrel (tlen - 1) flen plen md.mdSize s₂
  unfold rsaPaddingAddPkcs1OaepMgf1
  dsimp only
  split_ifs
  · simp [ht]
  · simp [ht]
  rw [← Prod.eta (oaepAddLayout lib₁ md _ _ _ _ s₁), hl₁,
    ← Prod.eta (oaepAddLayout lib₂ md _ _ _ _ s₂), hl₂]
  exact oaepAddMask_observe hm hrel' _ _ (by rw [ht₁, ht₂, ht])

theorem rsaPaddingAddPkcs1OaepMgf1_observe_byteSum :
    (⟨fun _ => true, fun _ => 0⟩ : Libc).malloc = (⟨fun _ => true, fun _ => 5⟩ : Libc).malloc ∧
      EvpMd.byteSum.Reliable ∧ EvpMd.byteSum.Reliable ∧
      (⟨fun _ _ => 1, []⟩ : State).trace = (⟨fun _ _ => 2, []⟩ : State).trace ∧
      (rsaPaddingAddPkcs1OaepMgf1 ⟨fun _ => true, fun _ => 0⟩ EvpMd.byteSum EvpMd.byteSum 5 1 0
          ⟨fun _ _ => 1, []⟩).map observe =
        (rsaPaddingAddPkcs1OaepMgf1 ⟨fun _ => true, fun _ => 5⟩ EvpMd.byteSum EvpMd.byteSum 5 1 0
          ⟨fun _ _ => 2, []⟩).map observe :=
  ⟨rfl, EvpMd.byteSum_reliable, EvpMd.byteSum_reliable, rfl,
    rsaPaddingAddPkcs1OaepMgf1_observe ⟨fun _ => true, fun _ => 0⟩ ⟨fun _ => true, fun _ => 5⟩ rfl _ _
      5 1 0 EvpMd.byteSum_reliable EvpMd.byteSum_reliable rfl⟩

/-! ### The scan -/

theorem scanZeros_fst (s : State) (i : Int) (n : Nat) :
    (scanZeros s i n).1 = i + ((s.mem.read ⟨.db, i⟩ n).takeWhile (· == 0)).length := by
  obtain ⟨k, hk, h1, -, h3, -⟩ := scanZeros_spec s i n
  have hlen := congrArg List.length
    (List.takeWhile_append_dropWhile (· == (0 : UInt8)) (s.mem.read ⟨.db, i⟩ n))
  rw [List.length_append, h3, Mem.length_read, Mem.length_read] at hlen
  omega

theorem scanZeros_trace_congr {s₁ s₂ : State} (ht : s₁.trace = s₂.trace) (i : Int) (n : Nat)
    (hi : (scanZeros s₁ i n).1 = (scanZeros s₂ i n).1) :
    (scanZeros s₁ i n).2.trace = (scanZeros s₂ i n).2.trace := by
  induction n generalizing s₁ s₂ i with
  | zero => exact ht
  | succ n ih =>
    -- a scan that passes the byte at `i` stops beyond it
    have hgt : ∀ s : State, i < (scanZeros s (i + 1) n).1 := fun s => by
      rw [scanZeros_fst]
      omega
    by_cases h₁ : s₁.mem .db i = 0 <;> by_cases h₂ : s₂.mem .db i = 0 <;>
      simp only [scanZeros, h₁, h₂, ne_eq, not_true_eq_false, not_false_eq_true, if_true,
        if_false] at hi ⊢
    · exact ih (by simp [ht]) _ hi
    · exact absurd hi (hgt _).ne'
    · exact absurd hi (hgt _).ne
    · simp [ht]

theorem isSome_oaepUnpad_read (s : State) {i : Int} {n : Nat}
    (hk : ((s.mem.read ⟨.db, i⟩ n).takeWhile (· == 0)).length < n) :
    (oaepUnpad (s.mem.read ⟨.db, i⟩ n)).isSome =
      decide (s.mem .db (i + ((s.mem.read ⟨.db, i⟩ n).takeWhile (· == 0)).length) = 1) := by
  obtain ⟨k, -, h1, -, h3, -⟩ := scanZeros_spec s i n
  have hk' : ((s.mem.read ⟨.db, i⟩ n).takeWhile (· == 0)).length = k := by
    have := scanZeros_fst s i n
    omega
  rw [hk'] at hk ⊢
  rw [oaepUnpad, h3, show n - k = n - k - 1 + 1 by omega, Mem.read_succ]
  by_cases hb : s.mem .db (i + k) = 1 <;> simp [hb]

/-! ### The checks -/

section Checks

variable (tlen : Int) {dblen h : Nat}

theorem oaepCheckDecode_of_view_none {bad : Bool} {s : State} (hh : h ≤ dblen)
    (hv : (if bad then none else
      oaepCheckView (s.mem.read ⟨.phash, 0⟩ h) (s.mem.read ⟨.db, 0⟩ dblen)) = none) :
    oaepCheckDecode tlen dblen h bad s = (-1, (timingsafeMemcmp s h ⟨.db, 0⟩ ⟨.phash, 0⟩).2) := by
  have hc : ((timingsafeMemcmp s h ⟨.db, 0⟩ ⟨.phash, 0⟩).1 || bad) = true := by
    cases bad
    · simp only [Bool.false_eq_true, if_false, oaepCheckView, Mem.length_read,
        Mem.take_read _ _ hh] at hv
      split_ifs at hv with heq
      simp [heq]
    · simp
  simp only [oaepCheckDecode, sizeT_natCast, hc, if_true]

theorem oaepCheckDecode_of_view_some {s : State} {k : Nat} {b : Bool} (hh : h ≤ dblen)
    (hv : oaepCheckView (s.mem.read ⟨.phash, 0⟩ h) (s.mem.read ⟨.db, 0⟩ dblen) = some (k, b)) :
    let r := scanZeros (timingsafeMemcmp s h ⟨.db, 0⟩ ⟨.phash, 0⟩).2 h (dblen - h)
    r.1 = h + k ∧
    oaepCheckDecode tlen dblen h false s =
      if (h : Int) + k = dblen then ((-1 : Int), r.2)
      else if b = false then (-1, r.2.look ⟨.db, h + k⟩ 1)
      else if tlen < dblen - (h + k + 1) then (-1, r.2.look ⟨.db, h + k⟩ 1)
      else ((dblen : Int) - (h + k + 1), memcpy (r.2.look ⟨.db, h + k⟩ 1) ⟨.toBuf, 0⟩ ⟨.db, h + k + 1⟩
        (sizeT (dblen - (h + k + 1)))) := by
  dsimp only
  simp only [oaepCheckView, Mem.length_read, Mem.take_read _ _ hh, Mem.drop_read _ _ hh,
    Ptr.mk_add, zero_add] at hv
  split_ifs at hv with hlab
  obtain ⟨hk, hb⟩ := Prod.mk.inj (Option.some.inj hv)
  have hc : (timingsafeMemcmp s h ⟨.db, 0⟩ ⟨.phash, 0⟩).1 = false := by simp [hlab]
  simp only [oaepCheckDecode, sizeT_natCast, hc, Bool.or_false, Bool.false_eq_true, if_false,
    show ((dblen : Int) - h).toNat = dblen - h by omega]
  obtain ⟨k', hk', hr', hrm, -⟩ :=
    scanZeros_spec (timingsafeMemcmp s h ⟨.db, 0⟩ ⟨.phash, 0⟩).2 h (dblen - h)
  have hr1 : (scanZeros (timingsafeMemcmp s h ⟨.db, 0⟩ ⟨.phash, 0⟩).2 h (dblen - h)).1 = h + k := by
    rw [scanZeros_fst, timingsafeMemcmp_mem, hk]
  rw [timingsafeMemcmp_mem] at hrm
  refine ⟨hr1, ?_⟩
  rw [hr1]
  by_cases hend : (h : Int) + k = dblen
  · simp only [hend, if_true]
  -- the scan stopped on a nonzero byte: the separator test is `b`
  have hsep := isSome_oaepUnpad_read s (i := h) (n := dblen - h) (by rw [hk]; omega)
  rw [hb, hk] at hsep
  simp only [hend, if_false, State.look_mem, hrm, ne_eq, hsep]
  cases b <;> simp

/-- **Two runs of the checks.** From states with one trace on which the checks
see the same thing (nothing when `bad` is set, else `oaepCheckView` of the label
digest and `DB`), they return the same value and make the same accesses. -/
theorem oaepCheckDecode_observe (hh : h ≤ dblen) {bad₁ bad₂ : Bool} {s₁ s₂ : State}
    (ht : s₁.trace = s₂.trace)
    (hv : (if bad₁ then none else
        oaepCheckView (s₁.mem.read ⟨.phash, 0⟩ h) (s₁.mem.read ⟨.db, 0⟩ dblen)) =
      if bad₂ then none else
        oaepCheckView (s₂.mem.read ⟨.phash, 0⟩ h) (s₂.mem.read ⟨.db, 0⟩ dblen)) :
    observe (oaepCheckDecode tlen dblen h bad₁ s₁) = observe (oaepCheckDecode tlen dblen h bad₂ s₂) := by
  rcases hv₁ : (if bad₁ then none else
    oaepCheckView (s₁.mem.read ⟨.phash, 0⟩ h) (s₁.mem.read ⟨.db, 0⟩ dblen)) with _ | ⟨k, b⟩
  · rw [oaepCheckDecode_of_view_none tlen hh hv₁,
      oaepCheckDecode_of_view_none tlen hh (hv.symm.trans hv₁)]
    simp [ht]
  -- neither run is turned away before the scan, and both scans stop at `h + k`
  have hv₂ := hv.symm.trans hv₁
  cases bad₁ <;> cases bad₂ <;> simp only [Bool.false_eq_true, if_true, if_false, reduceCtorEq]
    at hv₁ hv₂
  obtain ⟨hr₁, e₁⟩ := oaepCheckDecode_of_view_some tlen hh hv₁
  obtain ⟨hr₂, e₂⟩ := oaepCheckDecode_of_view_some tlen hh hv₂
  have hr := scanZeros_trace_congr (by simp [ht]) h (dblen - h) (hr₁.trans hr₂.symm)
  rw [e₁, e₂]
  split_ifs <;> simp [hr]

end Checks

/-! ### The unmasking -/

theorem oaepCheckUnmask_observe {mgf1md : EvpMd} (hrel : mgf1md.Reliable) (dblen mdlen : Int)
    {s₁ s₂ : State} (ht : s₁.trace = s₂.trace) :
    (oaepCheckUnmask mgf1md dblen mdlen s₁).map observe =
      (oaepCheckUnmask mgf1md dblen mdlen s₂).map observe := by
  unfold oaepCheckUnmask
  dsimp only
  rcases map_observe_eq_iff.1 (pkcs1Mgf1_observe hrel ⟨.seed, 0⟩ ((⟨.db, dblen⟩ : Ptr).add mdlen)
    mdlen dblen ht) with ⟨e₁, e₂⟩ | ⟨rv, t₁, t₂, e₁, e₂, h1⟩ <;> simp only [e₁, e₂]
  split_ifs
  · simp [h1]
  rcases map_observe_eq_iff.1 (pkcs1Mgf1_observe hrel ⟨.db, 0⟩ ⟨.seed, 0⟩ dblen mdlen
    (xorLoop_trace_congr h1 ⟨.seed, 0⟩ ⟨.db, dblen⟩ mdlen.toNat)) with
    ⟨e₃, e₄⟩ | ⟨rv', t₃, t₄, e₃, e₄, h3⟩ <;> simp only [e₃, e₄]
  split_ifs
  · simp [h3]
  · simp [xorLoop_trace_congr h3]

/-! ### The body -/

section Body

variable {md mgf1md : EvpMd} {dblen h Z F : Nat}

theorem oaepCheckUnmask_oaepCheckCopy (hrel' : mgf1md.Reliable) (hmgf : 0 < mgf1md.mdSize)
    (hZF : Z + F = h + dblen) (s : State) :
    ∃ s2, oaepCheckUnmask mgf1md dblen h (oaepCheckCopy dblen Z F s) = some (true, s2) ∧
      s2.mem.read ⟨.db, 0⟩ dblen =
        emeOaepUnmask mgf1md h (List.replicate Z 0 ++ s.mem.read ⟨.fromBuf, 0⟩ F) ∧
      ∀ n, s2.mem.read ⟨.paramBuf, 0⟩ n = s.mem.read ⟨.paramBuf, 0⟩ n := by
  set s1 := oaepCheckCopy dblen Z F s
  have hB : s1.mem.read ⟨.db, dblen⟩ (h + dblen) =
      List.replicate Z 0 ++ s.mem.read ⟨.fromBuf, 0⟩ F := by
    rw [← hZF]
    exact oaepCheckCopy_read dblen Z F s
  obtain ⟨s2, hun, hdb2, -⟩ := @oaepCheckUnmask_spec mgf1md dblen h hrel' hmgf s1
  obtain ⟨⟨ok, s2'⟩, hun', c2⟩ := @oaepCheckUnmask_safe mgf1md dblen h hmgf s1
    (checkBound 0 0 (dblen + h + dblen) h mgf1md.mdSize 0) (by simp [checkBound])
    (by simp [checkBound]) (by simp [checkBound])
  obtain ⟨rfl, rfl⟩ := Prod.mk.inj (Option.some.inj (hun.symm.trans hun'))
  have hBlen : (List.replicate Z 0 ++ s.mem.read ⟨.fromBuf, 0⟩ F).length = h + dblen := by
    rw [← hB, Mem.length_read]
  refine ⟨s2, hun, ?_, fun n => ?_⟩
  · rw [hdb2, Mem.read_take hB, ← Ptr.mk_add, Mem.read_drop hB]
    simp only [emeOaepUnmask, hBlen, Nat.add_sub_cancel_left]
  · rw [Mem.read_congr fun j _ _ => c2.keep _ j (by decide) (by decide) (by decide) (.inl (by decide))]
    exact Mem.read_congr fun j _ _ => oaepCheckCopy_apply_of_ne (by decide)

theorem oaepCheckBody_observe (hmd : md.mdSize = h) (hrel : md.Reliable)
    (hrel' : mgf1md.Reliable) (hmgf : 0 < mgf1md.mdSize) (hh : h ≤ dblen)
    (hZF : Z + F = h + dblen) (tlen plen : Int) {bad₁ bad₂ : Bool} {s₁ s₂ : State}
    (ht : s₁.trace = s₂.trace)
    (hv : (if bad₁ then none else
        oaepCheckView (md.hash (s₁.mem.read ⟨.paramBuf, 0⟩ (sizeT plen)))
          (emeOaepUnmask mgf1md h (List.replicate Z 0 ++ s₁.mem.read ⟨.fromBuf, 0⟩ F))) =
      if bad₂ then none else
        oaepCheckView (md.hash (s₂.mem.read ⟨.paramBuf, 0⟩ (sizeT plen)))
          (emeOaepUnmask mgf1md h (List.replicate Z 0 ++ s₂.mem.read ⟨.fromBuf, 0⟩ F))) :
    (oaepCheckBody md mgf1md tlen plen dblen h Z F bad₁ s₁).map observe =
      (oaepCheckBody md mgf1md tlen plen dblen h Z F bad₂ s₂).map observe := by
  obtain ⟨s2₁, hun₁, hdb₁, hpar₁⟩ := oaepCheckUnmask_oaepCheckCopy hrel' hmgf hZF s₁
  obtain ⟨s2₂, hun₂, hdb₂, hpar₂⟩ := oaepCheckUnmask_oaepCheckCopy hrel' hmgf hZF s₂
  have ht2 : s2₁.trace = s2₂.trace := by
    have := oaepCheckUnmask_observe hrel' dblen h (by simp [ht] :
      (oaepCheckCopy dblen Z F s₁).trace = (oaepCheckCopy dblen Z F s₂).trace)
    simpa [hun₁, hun₂] using this
  -- the label digest lands in `phash`, away from `db`
  have hph : ∀ s2 : State, ((s2.look ⟨.paramBuf, 0⟩ (sizeT plen)).put ⟨.phash, 0⟩
      (md.hash (s2.mem.read ⟨.paramBuf, 0⟩ (sizeT plen)))).mem.read ⟨.phash, 0⟩ h =
        md.hash (s2.mem.read ⟨.paramBuf, 0⟩ (sizeT plen)) := fun s2 => by
    simpa [md.hash_length, hmd] using
      Mem.read_write_same s2.mem ⟨.phash, 0⟩ (md.hash (s2.mem.read ⟨.paramBuf, 0⟩ (sizeT plen)))
  have hdb : ∀ s2 : State, ((s2.look ⟨.paramBuf, 0⟩ (sizeT plen)).put ⟨.phash, 0⟩
      (md.hash (s2.mem.read ⟨.paramBuf, 0⟩ (sizeT plen)))).mem.read ⟨.db, 0⟩ dblen =
        s2.mem.read ⟨.db, 0⟩ dblen := fun s2 => by
    simp [Mem.read_write_ne]
  have hd : observe (oaepCheckDecode tlen dblen h bad₁ ((s2₁.look ⟨.paramBuf, 0⟩ (sizeT plen)).put
        ⟨.phash, 0⟩ (md.hash (s2₁.mem.read ⟨.paramBuf, 0⟩ (sizeT plen))))) =
      observe (oaepCheckDecode tlen dblen h bad₂ ((s2₂.look ⟨.paramBuf, 0⟩ (sizeT plen)).put
        ⟨.phash, 0⟩ (md.hash (s2₂.mem.read ⟨.paramBuf, 0⟩ (sizeT plen))))) :=
    oaepCheckDecode_observe tlen hh (by simp [ht2, md.hash_length])
      (by rw [hph, hph, hdb, hdb, hdb₁, hdb₂, hpar₁, hpar₂]; exact hv)
  simp only [observe, Prod.mk.injEq] at hd
  simp [oaepCheckBody, hun₁, hun₂, evpDigest_reliable hrel, hd.1, hd.2]

end Body

/-! ### The decoder -/

theorem oaepCheckLeak_eq {md mgf1md : EvpMd} {flen num plen : Int} (s : State) {N h F : Nat}
    (hN : num - 1 = N) (hh : md.mdSize = h) (hF : min flen (num - 1) = F) :
    oaepCheckLeak md mgf1md flen num plen s =
      if decide ((N : Int) < flen) then none
      else oaepCheckView (md.hash (s.mem.read ⟨.paramBuf, 0⟩ (sizeT plen)))
        (emeOaepUnmask mgf1md h (List.replicate (N - F) 0 ++ s.mem.read ⟨.fromBuf, 0⟩ F)) := by
  by_cases hbad : (N : Int) < flen
  · simp [oaepCheckLeak, hN, hbad]
  have e1 : ((N : Int) - flen).toNat = N - F := by omega
  have e2 : flen.toNat = F := by omega
  simp [oaepCheckLeak, hN, hbad, hh, e1, e2]

/-- **The decoder reveals `oaepCheckLeak` and no more.** For digests of
positive size whose calls do not fail, two runs of
`RSA_padding_check_PKCS1_OAEP_mgf1` with the same `tlen`, `num` and `plen`,
on inputs that it cuts to the same `min flen (num - 1) ≥ 0` bytes, from states
with one trace whose `from` and `param` agree on `oaepCheckLeak`, return the
same value and make the same accesses in the same order.  In particular an over-long input looks exactly like one of
`num - 1` bytes that fails the label check. -/
theorem rsaPaddingCheckPkcs1OaepMgf1_observe (lib : Libc) (md mgf1md : EvpMd) (tlen num plen : Int)
    {flen₁ flen₂ : Int} (hmd : 1 ≤ md.mdSize) (hmgf : 1 ≤ mgf1md.mdSize) (hrel : md.Reliable)
    (hrel' : mgf1md.Reliable) (hflen : 0 ≤ flen₂) (hmin : min flen₁ (num - 1) = min flen₂ (num - 1))
    {s₁ s₂ : State} (ht : s₁.trace = s₂.trace)
    (hv : oaepCheckLeak md mgf1md flen₁ num plen s₁ = oaepCheckLeak md mgf1md flen₂ num plen s₂) :
    (rsaPaddingCheckPkcs1OaepMgf1 lib md mgf1md tlen flen₁ num plen s₁).map observe =
      (rsaPaddingCheckPkcs1OaepMgf1 lib md mgf1md tlen flen₂ num plen s₂).map observe := by
  by_cases hg : num - 1 < 2 * md.mdSize + 1
  · simp [rsaPaddingCheckPkcs1OaepMgf1_of_short _ hg, ht]
  cases hm : lib.malloc (sizeT (intWrap (num - 1 - md.mdSize + (num - 1))))
  · simp [rsaPaddingCheckPkcs1OaepMgf1_of_malloc _ (not_lt.1 hg) hm, ht]
  obtain ⟨h, hh⟩ : ∃ h : Nat, md.mdSize = h := ⟨md.mdSize.toNat, by omega⟩
  obtain ⟨N, hN⟩ : ∃ N : Nat, num - 1 = N := ⟨(num - 1).toNat, by omega⟩
  obtain ⟨F, hF⟩ : ∃ F : Nat, min flen₁ (num - 1) = F := ⟨(min flen₁ (num - 1)).toNat, by omega⟩
  rw [rsaPaddingCheckPkcs1OaepMgf1_eq_body s₁ hh hN (by omega) hF hm,
    rsaPaddingCheckPkcs1OaepMgf1_eq_body s₂ hh hN (by omega) (hmin ▸ hF) hm]
  refine oaepCheckBody_observe hh hrel hrel' (by omega) (by omega) (by omega) tlen plen ht ?_
  rwa [← oaepCheckLeak_eq s₁ hN hh hF, ← oaepCheckLeak_eq s₂ hN hh (hmin ▸ hF)]

theorem rsaPaddingCheckPkcs1OaepMgf1_observe_byteSum :
    1 ≤ EvpMd.byteSum.mdSize ∧ 1 ≤ EvpMd.byteSum.mdSize ∧ EvpMd.byteSum.Reliable ∧
      EvpMd.byteSum.Reliable ∧ (0 : Int) ≤ 4 ∧ min (9 : Int) (5 - 1) = min 4 (5 - 1) ∧
      (⟨fun _ _ => 7, []⟩ : State).trace = (⟨fun _ _ => 1, []⟩ : State).trace ∧
      oaepCheckLeak EvpMd.byteSum EvpMd.byteSum 9 5 0 ⟨fun _ _ => 7, []⟩ =
        oaepCheckLeak EvpMd.byteSum EvpMd.byteSum 4 5 0 ⟨fun _ _ => 1, []⟩ ∧
      (rsaPaddingCheckPkcs1OaepMgf1 ⟨fun _ => true, fun _ => 0⟩ EvpMd.byteSum EvpMd.byteSum 4 9 5 0
          ⟨fun _ _ => 7, []⟩).map observe =
        (rsaPaddingCheckPkcs1OaepMgf1 ⟨fun _ => true, fun _ => 0⟩ EvpMd.byteSum EvpMd.byteSum 4 4 5 0
          ⟨fun _ _ => 1, []⟩).map observe :=
  ⟨by decide, by decide, EvpMd.byteSum_reliable, EvpMd.byteSum_reliable, by decide, by decide, rfl,
    by decide,
    rsaPaddingCheckPkcs1OaepMgf1_observe _ _ _ 4 5 0 (by decide) (by decide)
      EvpMd.byteSum_reliable EvpMd.byteSum_reliable (by decide) (by decide) rfl (by decide)⟩

end Rsa
end Libcrypto
