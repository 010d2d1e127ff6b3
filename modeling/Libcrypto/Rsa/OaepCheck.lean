import Libcrypto.Rsa.EmeOaep

/-!
# `RSA_padding_check_PKCS1_OAEP_mgf1`

The decoder works in one heap buffer `db` of `dblen + num` bytes, where after
`--num` the block without its leading byte is `num` bytes long and
`dblen = num - mdlen`:

    db[0..dblen)            the recovered DB
    db[dblen..dblen + num)  padded_from: the input zero-padded on the left to num bytes

and in two stack arrays, `seed` and `phash`, of `EVP_MAX_MD_SIZE` bytes.  The
model follows the C in stages: the zero-padding copy of lines 159–166
(`oaepCheckCopy`), the unmasking of lines 168–178 (`oaepCheckUnmask`), the label
digest, and the checks of lines 183–206 (`oaepCheckDecode`), whose scan for the
separator is `scanZeros`.

`rsaPaddingCheckPkcs1OaepMgf1_safe` bounds every access of every run, whatever
the digest calls return, and `rsaPaddingCheckPkcs1OaepMgf1_spec` says that with
reliable digests the decoder computes `emeOaepDecode`.  Every return after the
allocation goes through `freezero(db, dblen)`, which clears the first `dblen`
bytes of the buffer only: `padded_from` keeps the input block.
-/

namespace Libcrypto
namespace Rsa

/-! ### The model -/

/-- Lines 159–166: `memset(padded_from, 0, lzero)` and
`memcpy(padded_from + lzero, from, flen)`, with `padded_from = db + dblen`. -/
def oaepCheckCopy (dblen lzero flen : Int) (s : State) : State :=
  let paddedFrom : Ptr := ⟨.db, dblen⟩
  memcpy (memset s paddedFrom (sizeT lzero) 0) (paddedFrom.add lzero) ⟨.fromBuf, 0⟩ (sizeT flen)

/-- Lines 168–178: recover the seed into `seed` and `DB` into `db[0..dblen)`;
`false` when a `PKCS1_MGF1` call fails, `none` when one does not return. -/
def oaepCheckUnmask (mgf1md : EvpMd) (dblen mdlen : Int) (s : State) : Option (Bool × State) :=
  let paddedFrom : Ptr := ⟨.db, dblen⟩
  let maskeddb := paddedFrom.add mdlen
  match pkcs1Mgf1 mgf1md ⟨.seed, 0⟩ mdlen maskeddb dblen s with
  | none => none
  | some (rv, s) =>
    if rv ≠ 0 then some (false, s)
    else
      let s := xorLoop s ⟨.seed, 0⟩ paddedFrom mdlen.toNat
      match pkcs1Mgf1 mgf1md ⟨.db, 0⟩ dblen ⟨.seed, 0⟩ mdlen s with
      | none => none
      | some (rv, s) =>
        if rv ≠ 0 then some (false, s)
        else some (true, xorLoop s ⟨.db, 0⟩ maskeddb dblen.toNat)

/-- The loop `for (i = mdlen; i < dblen; i++) if (db[i] != 0x00) break;` from
index `i` with `n` indices to go: the index where it stops. -/
def scanZeros (s : State) (i : Int) : Nat → Int × State
  | 0 => (i, s)
  | n + 1 =>
    if s.mem .db i ≠ 0 then (i, s.look ⟨.db, i⟩ 1)
    else scanZeros (s.look ⟨.db, i⟩ 1) (i + 1) n

/-- Lines 183–206: compare the label digest, find the `0x01` separator and copy
the message to `to`; the value `mlen` the function returns. -/
def oaepCheckDecode (tlen dblen mdlen : Int) (bad : Bool) (s : State) : Int × State :=
  let c := timingsafeMemcmp s (sizeT mdlen) ⟨.db, 0⟩ ⟨.phash, 0⟩
  if c.1 || bad then (-1, c.2)
  else
    let r := scanZeros c.2 mdlen (dblen - mdlen).toNat
    let i := r.1
    if i = dblen then (-1, r.2)
    else
      let s := r.2.look ⟨.db, i⟩ 1
      if s.mem .db i ≠ 1 then (-1, s)
      else if tlen < dblen - (i + 1) then (-1, s)
      else (dblen - (i + 1), memcpy s ⟨.toBuf, 0⟩ ⟨.db, i + 1⟩ (sizeT (dblen - (i + 1))))

/-- Lines 159–218, once `db` is allocated: the copy, the unmasking, the label
digest into `phash` and the checks, then `freezero(db, dblen)` on every path. -/
def oaepCheckBody (md mgf1md : EvpMd) (tlen plen dblen mdlen lzero flen : Int) (bad : Bool)
    (s : State) : Option (Int × State) :=
  match oaepCheckUnmask mgf1md dblen mdlen (oaepCheckCopy dblen lzero flen s) with
  | none => none
  | some (false, s) => some (-1, freezero s ⟨.db, 0⟩ (sizeT dblen))
  | some (true, s) =>
    match evpDigest md ⟨.paramBuf, 0⟩ (sizeT plen) ⟨.phash, 0⟩ s with
    | (false, s) => some (-1, freezero s ⟨.db, 0⟩ (sizeT dblen))
    | (true, s) =>
      let r := oaepCheckDecode tlen dblen mdlen bad s
      some (r.1, freezero r.2 ⟨.db, 0⟩ (sizeT dblen))

/-- `RSA_padding_check_PKCS1_OAEP_mgf1(to, tlen, from, flen, num, param, plen, md, mgf1md)`
with `to`, `from` and `param` the regions `toBuf`, `fromBuf` and `paramBuf`:
the return value and the state it leaves, or `none` when it does not return.
The early return of line 141 frees `db` while it is still `NULL`, which does
nothing.  The size `dblen + num` handed to `malloc` is an `int` sum. -/
def rsaPaddingCheckPkcs1OaepMgf1 (lib : Libc) (md mgf1md : EvpMd) (tlen flen num plen : Int)
    (s : State) : Option (Int × State) :=
  let mdlen := md.mdSize
  let num := num - 1
  if num < 2 * mdlen + 1 then some (-1, s)
  else
    let bad := decide (num - flen < 0)
    let lzero := if bad then 0 else num - flen
    let flen := if bad then num else flen
    let dblen := num - mdlen
    if !lib.malloc (sizeT (intWrap (dblen + num))) then some (-1, s)
    else oaepCheckBody md mgf1md tlen plen dblen mdlen lzero flen bad s

/-- `RSA_padding_check_PKCS1_OAEP(to, tlen, from, flen, num, param, plen)`: the
decoder with `md = mgf1md = NULL`, which it replaces by `EVP_sha1()` for both. -/
def rsaPaddingCheckPkcs1Oaep (lib : Libc) (sha1 : EvpMd) (tlen flen num plen : Int) (s : State) :
    Option (Int × State) :=
  rsaPaddingCheckPkcs1OaepMgf1 lib sha1 sha1 tlen flen num plen s

/-- How far into each buffer the decoder may reach: `from[0..F)`, `param[0..P)`,
`db[0..D)`, `h` bytes of `seed` and of `phash`, `g` bytes of the `md` of
`PKCS1_MGF1`, and `to[0..m)`. -/
def checkBound (F P D h g m : Int) : Region → Int
  | .toBuf => m
  | .fromBuf => F
  | .paramBuf => P
  | .db => D
  | .seed => h
  | .phash => h
  | .md => g
  | .dbmask | .seedmask => 0

/-! ### The copy -/

@[simp] theorem oaepCheckCopy_mem (dblen lzero flen : Int) (s : State) :
    (oaepCheckCopy dblen lzero flen s).mem =
      (s.mem.write ⟨.db, dblen⟩ (List.replicate (sizeT lzero) 0)).write ⟨.db, dblen + lzero⟩
        (s.mem.read ⟨.fromBuf, 0⟩ (sizeT flen)) := by
  simp [oaepCheckCopy, Mem.read_write_ne]

@[simp] theorem oaepCheckCopy_trace (dblen lzero flen : Int) (s : State) :
    (oaepCheckCopy dblen lzero flen s).trace = s.trace ++
      [.write ⟨.db, dblen⟩ (sizeT lzero), .read ⟨.fromBuf, 0⟩ (sizeT flen),
        .write ⟨.db, dblen + lzero⟩ (sizeT flen)] := by
  simp [oaepCheckCopy]

theorem oaepCheckCopy_read (dblen Z F : Nat) (s : State) :
    (oaepCheckCopy dblen Z F s).mem.read ⟨.db, dblen⟩ (Z + F) =
      List.replicate Z 0 ++ s.mem.read ⟨.fromBuf, 0⟩ F := by
  rw [oaepCheckCopy_mem, sizeT_natCast, sizeT_natCast]
  refine Mem.read_append_eq ?_ ?_
  · rw [Mem.read_write_le (by simp)]
    exact Mem.read_write_eq rfl rfl (by simp)
  · exact Mem.read_write_eq rfl rfl (by simp)

theorem oaepCheckCopy_apply_of_ne {dblen lzero flen : Int} {s : State} {r : Region} {j : Int}
    (h : r ≠ .db) : (oaepCheckCopy dblen lzero flen s).mem r j = s.mem r j := by
  rw [oaepCheckCopy_mem, Mem.write_apply_of_ne h, Mem.write_apply_of_ne h]

/-! ### The unmasking and the digest -/

/-- A stretch of the decoder after the copy, from `s` to `s'`: it changes no
memory but `seed`, `phash`, the `md` of `PKCS1_MGF1` and `db[0..dblen)`, and
its accesses stay within `bound`. -/
structure CheckRun (bound : Region → Int) (dblen : Int) (s s' : State) : Prop where
  keep : ∀ r j, r ≠ .seed → r ≠ .phash → r ≠ .md → (r ≠ .db ∨ dblen ≤ j) → s'.mem r j = s.mem r j
  trace : ∃ t, s'.trace = s.trace ++ t ∧ ∀ a ∈ t, a.Bounded bound

section Run

variable {bound : Region → Int} {dblen : Int}

theorem CheckRun.refl (s : State) : CheckRun bound dblen s s :=
  ⟨fun _ _ _ _ _ _ => rfl, [], by simp, by simp⟩

theorem CheckRun.trans {s s' s'' : State} (h : CheckRun bound dblen s s')
    (h' : CheckRun bound dblen s' s'') : CheckRun bound dblen s s'' := by
  obtain ⟨t, ht, hb⟩ := h.trace
  obtain ⟨t', ht', hb'⟩ := h'.trace
  refine ⟨fun r j h1 h2 h3 h4 => (h'.keep r j h1 h2 h3 h4).trans (h.keep r j h1 h2 h3 h4),
    t ++ t', by rw [ht', ht, List.append_assoc], fun a ha => ?_⟩
  rcases List.mem_append.1 ha with ha | ha
  · exact hb a ha
  · exact hb' a ha

theorem Mgf1Safe.checkRun {mask seed : Ptr} {L S g : Nat} {s s' : State}
    (hs : Mgf1Safe mask seed L S g s s')
    (hmask : mask.region = .seed ∨ mask.region = .db ∧ mask.off + L ≤ dblen)
    (hm : 0 ≤ mask.off ∧ mask.off + L ≤ bound mask.region)
    (hsd : 0 ≤ seed.off ∧ seed.off + S ≤ bound seed.region) (hg : (g : Int) ≤ bound .md) :
    CheckRun bound dblen s s' := by
  refine ⟨fun r j h1 _ h3 h4 => hs.frame r j h3 ?_, ?_⟩
  · rcases hmask with hmask | ⟨hmask, hL⟩
    · exact .inl (hmask ▸ h1)
    · rcases h4 with h4 | h4
      · exact .inl (hmask ▸ h4)
      · exact .inr (.inr (by omega))
  obtain ⟨t, ht, hacc⟩ := hs.trace
  refine ⟨t, ht, fun a ha => ?_⟩
  rcases hacc a ha with rfl | ⟨k, n, hkn, rfl⟩ | ⟨n, hn, rfl | rfl⟩
  · exact Access.bounded_read hsd.1 hsd.2
  · exact Access.bounded_write (by simp; omega) (by simp; omega)
  · exact Access.bounded_read le_rfl (by simp; omega)
  · exact Access.bounded_write le_rfl (by simp; omega)

theorem checkRun_xorLoop (s : State) (dst src : Ptr) (n : Nat)
    (hdst : dst.region = .seed ∨ dst.region = .db ∧ dst.off + n ≤ dblen)
    (hd : 0 ≤ dst.off ∧ dst.off + n ≤ bound dst.region)
    (hs : 0 ≤ src.off ∧ src.off + n ≤ bound src.region) :
    CheckRun bound dblen s (xorLoop s dst src n) := by
  obtain ⟨t, ht, hb⟩ := xorLoop_bounded s hd hs
  refine ⟨fun r j h1 _ _ h4 => xorLoop_apply_outside ?_, t, ht, hb⟩
  rcases hdst with hdst | ⟨hdst, hn⟩
  · exact .inl (hdst ▸ h1)
  · rcases h4 with h4 | h4
    · exact .inl (hdst ▸ h4)
    · exact .inr (.inr (by omega))

theorem checkRun_evpDigest (md : EvpMd) (src dst : Ptr) (cnt : Nat) (s : State)
    (hdst : dst.region = .phash) (hs : 0 ≤ src.off ∧ src.off + cnt ≤ bound src.region)
    (hd : 0 ≤ dst.off ∧ dst.off + md.mdSize.toNat ≤ bound dst.region) :
    CheckRun bound dblen s (evpDigest md src cnt dst s).2 := by
  obtain ⟨t, ht, hall⟩ := evpDigest_trace md src cnt dst s
  refine ⟨fun r j _ h2 _ _ => ?_, _, ht, fun a ha => ?_⟩
  · rcases evpDigest_mem md src cnt dst s with h | h <;> rw [h]
    exact Mem.write_apply_of_ne (hdst ▸ h2)
  · rcases List.mem_cons.1 ha with rfl | ha
    · exact Access.bounded_read hs.1 hs.2
    · rw [hall a ha]
      exact Access.bounded_write hd.1 hd.2

theorem CheckRun.freezero {s s' : State} {n : Nat} (h : CheckRun bound dblen s s')
    (hn : (n : Int) ≤ dblen) (hb : (n : Int) ≤ bound .db) :
    CheckRun bound dblen s (freezero s' ⟨.db, 0⟩ n) := by
  refine h.trans ⟨fun r j _ _ _ h4 => Mem.write_apply_outside ?_, [.write ⟨.db, 0⟩ n], by simp,
    fun a ha => by rw [List.mem_singleton.1 ha]; exact Access.bounded_write le_rfl (by simpa)⟩
  rcases h4 with h4 | h4
  · exact .inl h4
  · exact .inr (.inr (by simp; omega))

end Run

section Unmask

variable {mgf1md : EvpMd} {dblen h : Nat}

theorem oaepCheckUnmask_safe (hmgf : 0 < mgf1md.mdSize) (s : State) {bound : Region → Int}
    (hdb : ((dblen + h + dblen : Nat) : Int) ≤ bound .db) (hseed : (h : Int) ≤ bound .seed)
    (hmd : mgf1md.mdSize ≤ bound .md) :
    ∃ r, oaepCheckUnmask mgf1md dblen h s = some r ∧ CheckRun bound dblen s r.2 := by
  have hg : ((mgf1md.mdSize.toNat : Nat) : Int) ≤ bound .md := by omega
  push_cast at hdb
  obtain ⟨rv1, s1, h1, p1⟩ := pkcs1Mgf1_safe ⟨.seed, 0⟩ ⟨.db, dblen + h⟩ h dblen hmgf (by simp) s
  have c1 : CheckRun bound dblen s s1 :=
    p1.checkRun (.inl rfl) ⟨le_rfl, by simpa⟩ ⟨by simp; omega, by simp; omega⟩ hg
  have c2 : CheckRun bound dblen s1 (xorLoop s1 ⟨.seed, 0⟩ ⟨.db, dblen⟩ h) :=
    checkRun_xorLoop s1 _ _ h (.inl rfl) ⟨le_rfl, by simpa⟩ ⟨by simp, by simp; omega⟩
  obtain ⟨rv3, s3, h3, p3⟩ := pkcs1Mgf1_safe ⟨.db, 0⟩ ⟨.seed, 0⟩ dblen h hmgf (by simp)
    (xorLoop s1 ⟨.seed, 0⟩ ⟨.db, dblen⟩ h)
  have c3 : CheckRun bound dblen _ s3 :=
    p3.checkRun (.inr ⟨rfl, by simp⟩) ⟨le_rfl, by simp; omega⟩ ⟨le_rfl, by simpa⟩ hg
  have c4 : CheckRun bound dblen s3 (xorLoop s3 ⟨.db, 0⟩ ⟨.db, dblen + h⟩ dblen) :=
    checkRun_xorLoop s3 _ _ dblen (.inr ⟨rfl, by simp⟩) ⟨le_rfl, by simp; omega⟩
      ⟨by simp; omega, by simp; omega⟩
  simp only [oaepCheckUnmask, Ptr.mk_add, h1, Int.toNat_natCast]
  by_cases e1 : rv1 = 0
  · simp only [e1, ne_eq, not_true_eq_false, if_false, h3]
    by_cases e3 : rv3 = 0
    · exact ⟨(true, _), by simp [e3], c1.trans (c2.trans (c3.trans c4))⟩
    · exact ⟨(false, s3), by simp [e3], c1.trans (c2.trans c3)⟩
  · exact ⟨(false, s1), by simp [e1], c1⟩

theorem oaepCheckUnmask_spec (hrel : mgf1md.Reliable) (hmgf : 0 < mgf1md.mdSize) (s : State) :
    let maskedSeed := s.mem.read ⟨.db, dblen⟩ h
    let maskedDB := s.mem.read ⟨.db, dblen + h⟩ dblen
    let seed := xorBytes maskedSeed (mgf1 mgf1md maskedDB h)
    ∃ s', oaepCheckUnmask mgf1md dblen h s = some (true, s') ∧
      s'.mem.read ⟨.db, 0⟩ dblen = xorBytes maskedDB (mgf1 mgf1md seed dblen) ∧
      s'.mem.read ⟨.seed, 0⟩ h = seed := by
  intro maskedSeed maskedDB seed
  have hpos : 0 < mgf1md.mdSize.toNat := by omega
  obtain ⟨s1, h1, p1⟩ := pkcs1Mgf1_spec ⟨.seed, 0⟩ ⟨.db, dblen + h⟩ h dblen hrel hmgf
    (by simp) (by simp) (by simp) (by omega) s
  have hA : s1.mem.read ⟨.seed, 0⟩ h = mgf1 mgf1md maskedDB h := by
    simpa using p1.read_mask hpos (le_ceil_mul hpos)
  have hdb1 : ∀ o n, s1.mem.read ⟨.db, o⟩ n = s.mem.read ⟨.db, o⟩ n :=
    fun _ _ => p1.read_of_ne (by simp) (by simp)
  set s2 := xorLoop s1 ⟨.seed, 0⟩ ⟨.db, dblen⟩ h
  have h2 : s2.mem = s1.mem.write ⟨.seed, 0⟩ (xorBytes (mgf1 mgf1md maskedDB h) maskedSeed) := by
    rw [xorLoop_mem (.inl (by simp)), hA, hdb1]
  have hseed2 : s2.mem.read ⟨.seed, 0⟩ h = seed := by
    rw [h2, Mem.read_write_eq rfl rfl (by simp [maskedSeed, length_mgf1 hpos]), xorBytes_comm]
  obtain ⟨s3, h3, p3⟩ := pkcs1Mgf1_spec ⟨.db, 0⟩ ⟨.seed, 0⟩ dblen h hrel hmgf
    (by simp) (by simp) (by simp) (by omega) s2
  have hB : s3.mem.read ⟨.db, 0⟩ dblen = mgf1 mgf1md seed dblen := by
    rw [← hseed2]
    simpa using p3.read_mask hpos (le_ceil_mul hpos)
  have hmdb3 : s3.mem.read ⟨.db, dblen + h⟩ dblen = maskedDB := by
    rw [Mem.read_congr (b := s2.mem) fun j hj _ => p3.frame _ _ (by simp) (.inr (.inr (by
      simp only [Int.toNat_natCast]; simp at hj; omega))), h2, Mem.read_write_ne (by simp), hdb1]
  have hseed3 : s3.mem.read ⟨.seed, 0⟩ h = seed := by
    rw [p3.read_of_ne (by simp) (by simp), hseed2]
  refine ⟨xorLoop s3 ⟨.db, 0⟩ ⟨.db, dblen + h⟩ dblen, ?_, ?_, ?_⟩
  · simp [oaepCheckUnmask, h1, h3, s2]
  · rw [xorLoop_mem (.inr (.inl (by simp))), Mem.read_write_eq rfl rfl (by simp [length_mgf1 hpos]),
      hB, hmdb3, xorBytes_comm]
  · rw [Mem.read_congr (b := s3.mem) fun j _ _ => xorLoop_apply_outside (.inl (by simp)), hseed3]

end Unmask

/-! ### The checks -/

theorem scanZeros_spec (s : State) (i : Int) (n : Nat) :
    ∃ k ≤ n, (scanZeros s i n).1 = i + k ∧ (scanZeros s i n).2.mem = s.mem ∧
      (s.mem.read ⟨.db, i⟩ n).dropWhile (· == 0) = s.mem.read ⟨.db, i + k⟩ (n - k) ∧
      (k < n → s.mem .db (i + k) ≠ 0) ∧
      ∃ t, (scanZeros s i n).2.trace = s.trace ++ t ∧
        ∀ a ∈ t, ∃ k' : Nat, k' < n ∧ a = .read ⟨.db, i + k'⟩ 1 := by
  induction n generalizing s i with
  | zero => exact ⟨0, le_rfl, by simp [scanZeros], rfl, by simp, by simp, [], by simp [scanZeros], by simp⟩
  | succ n ih =>
    by_cases hz : s.mem .db i = 0
    · obtain ⟨k, hk, h1, h2, h3, h4, t, ht, hall⟩ := ih (s.look ⟨.db, i⟩ 1) (i + 1)
      simp only [State.look_mem] at h2 h3 h4
      have hrun : scanZeros s i (n + 1) = scanZeros (s.look ⟨.db, i⟩ 1) (i + 1) n := by
        simp [scanZeros, hz]
      refine ⟨k + 1, by omega, ?_, ?_, ?_, ?_, .read ⟨.db, i⟩ 1 :: t, ?_, ?_⟩
      · rw [hrun, h1]; push_cast; ring
      · rw [hrun, h2]
      · rw [Mem.read_succ, List.dropWhile_cons]
        simp only [Ptr.mk_add, hz, beq_self_eq_true, if_true, h3]
        rw [show n + 1 - (k + 1) = n - k by omega,
          show i + ((k + 1 : Nat) : Int) = i + 1 + k by push_cast; ring]
      · intro hlt
        rw [show i + ((k + 1 : Nat) : Int) = i + 1 + k by push_cast; ring]
        exact h4 (by omega)
      · simp [hrun, ht]
      · intro a ha
        rcases List.mem_cons.1 ha with rfl | ha
        · exact ⟨0, by omega, by simp⟩
        · obtain ⟨k', hk', rfl⟩ := hall a ha
          exact ⟨k' + 1, by omega, by congr 2; push_cast; ring⟩
    · refine ⟨0, by omega, by simp [scanZeros, hz], by simp [scanZeros, hz], ?_, fun _ => by simpa using hz,
        [.read ⟨.db, i⟩ 1], by simp [scanZeros, hz], by simp⟩
      rw [Mem.read_succ, List.dropWhile_cons]
      simp [hz, Mem.read_succ]

/-- The checks of lines 183–206, with `DB` in `db[0..dblen)` and the label
digest in `phash`.  When `bad` is clear, `DB` starts with the label digest,
`oaepUnpad` finds a message after it and the message fits in `tlen` bytes, the
decoder copies the message to `to` and returns its length; otherwise it
returns -1 and changes nothing.  Its accesses stay in `db[0..dblen)`,
`phash[0..mdlen)` and `to[0..mlen)`. -/
theorem oaepCheckDecode_spec (tlen : Int) {dblen h : Nat} (hh : h ≤ dblen) (bad : Bool)
    (s : State) :
    let D := s.mem.read ⟨.db, 0⟩ dblen
    let r := oaepCheckDecode tlen dblen h bad s
    (∀ M, bad = false → D.take h = s.mem.read ⟨.phash, 0⟩ h → oaepUnpad (D.drop h) = some M →
      (M.length : Int) ≤ tlen → r.1 = M.length ∧ r.2.mem = s.mem.write ⟨.toBuf, 0⟩ M) ∧
    (r.1 = -1 ∨ ∃ M, bad = false ∧ D.take h = s.mem.read ⟨.phash, 0⟩ h ∧
      oaepUnpad (D.drop h) = some M ∧ (M.length : Int) ≤ tlen ∧ r.1 = M.length) ∧
    (r.1 = -1 → r.2.mem = s.mem) ∧
    ∃ t, r.2.trace = s.trace ++ t ∧ (0 ≤ r.1 → .write ⟨.toBuf, 0⟩ r.1.toNat ∈ t) ∧
      ∀ bound : Region → Int, (dblen : Int) ≤ bound .db → (h : Int) ≤ bound .phash →
        r.1 ≤ bound .toBuf → ∀ a ∈ t, a.Bounded bound := by
  have hsplit := Mem.read_add s.mem ⟨.db, 0⟩ h (dblen - h)
  rw [Nat.add_sub_cancel' hh, Ptr.mk_add, zero_add] at hsplit
  have htake : (s.mem.read ⟨.db, 0⟩ dblen).take h = s.mem.read ⟨.db, 0⟩ h := by
    rw [hsplit, List.take_left' (Mem.length_read _ _ _)]
  have hdrop : (s.mem.read ⟨.db, 0⟩ dblen).drop h = s.mem.read ⟨.db, h⟩ (dblen - h) := by
    rw [hsplit, List.drop_left' (Mem.length_read _ _ _)]
  have hn : ((dblen : Int) - h).toNat = dblen - h := by omega
  simp only [htake, hdrop]
  set c := timingsafeMemcmp s h ⟨.db, 0⟩ ⟨.phash, 0⟩ with hc
  have hcm : c.2.mem = s.mem := rfl
  have hct : c.2.trace = s.trace ++ [.read ⟨.db, 0⟩ h, .read ⟨.phash, 0⟩ h] := by simp [hc]
  have hrd : ∀ bound : Region → Int, (dblen : Int) ≤ bound .db → (h : Int) ≤ bound .phash →
      ∀ a ∈ [Access.read ⟨.db, 0⟩ h, .read ⟨.phash, 0⟩ h], a.Bounded bound := by
    intro bound hb hp a ha
    simp only [List.mem_cons, List.not_mem_nil, or_false] at ha
    rcases ha with rfl | rfl
    · exact Access.bounded_read le_rfl (by simp; omega)
    · exact Access.bounded_read le_rfl (by simpa)
  by_cases hacc : bad = false ∧ s.mem.read ⟨.db, 0⟩ h = s.mem.read ⟨.phash, 0⟩ h
  swap
  · -- the label digest does not match, or `bad` is set
    have hr : oaepCheckDecode tlen dblen h bad s = (-1, c.2) := by
      have : (c.1 || bad) = true := by
        rw [hc, timingsafeMemcmp_fst]
        cases bad
        · simpa using hacc
        · simp
      simp only [oaepCheckDecode, sizeT_natCast, ← hc, this, if_true]
    rw [hr]
    refine ⟨fun M hb ht _ _ => absurd ⟨hb, ht⟩ hacc, .inl rfl, fun _ => hcm, _, hct,
      fun h0 => absurd h0 (by omega), fun bound hb hp _ => hrd bound hb hp⟩
  obtain ⟨hbad, hmatch⟩ := hacc
  subst hbad
  obtain ⟨k, hk, e1, e2, e3, e4, t, ht, hall⟩ := scanZeros_spec c.2 h (dblen - h)
  rw [hcm] at e2 e3 e4
  set s5 := (scanZeros c.2 h (dblen - h)).2
  have hscan : ∀ bound : Region → Int, (dblen : Int) ≤ bound .db → ∀ a ∈ t, a.Bounded bound := by
    intro bound hb a ha
    obtain ⟨k', hk', rfl⟩ := hall a ha
    exact Access.bounded_read (by dsimp only; omega) (by simp; omega)
  have hc1 : c.1 = false := by simp [hc, hmatch]
  by_cases hkn : k = dblen - h
  · -- only zeros after the label digest: no separator
    have hr : oaepCheckDecode tlen dblen h false s = (-1, s5) := by
      simp only [oaepCheckDecode, sizeT_natCast, ← hc, hc1, Bool.or_false, Bool.false_eq_true,
        if_false, hn, e1, show (h : Int) + k = dblen by omega, if_true]
    have hnone : oaepUnpad (s.mem.read ⟨.db, h⟩ (dblen - h)) = none := by
      rw [oaepUnpad, e3, hkn, Nat.sub_self, Mem.read_zero]
    rw [hr]
    refine ⟨fun M _ _ hM _ => (nomatch hnone.symm.trans hM), .inl rfl, fun _ => e2,
      _, (by rw [ht, hct, List.append_assoc]), fun h0 => absurd h0 (by omega), ?_⟩
    intro bound hb hp _ a ha
    rcases List.mem_append.1 ha with ha | ha
    · exact hrd bound hb hp a ha
    · exact hscan bound hb a ha
  -- the scan stops at the byte `b` at `h + k`
  have hlt : k < dblen - h := by omega
  set b := s.mem .db (h + k)
  set M := s.mem.read ⟨.db, h + k + 1⟩ (dblen - h - k - 1)
  have hrest : (s.mem.read ⟨.db, h⟩ (dblen - h)).dropWhile (· == 0) = b :: M := by
    rw [e3, show dblen - h - k = (dblen - h - k - 1) + 1 by omega, Mem.read_succ]
    rfl
  have hMlen : ((dblen : Int) - (h + k + 1)) = (M.length : Int) := by
    simp only [M, Mem.length_read]; omega
  have hb5 : (s5.look ⟨.db, h + k⟩ 1).mem .db (h + k) = b := by simp [e2, b]
  have hne : ¬ ((h : Int) + k = dblen) := by omega
  have htr : ∀ bound : Region → Int, (dblen : Int) ≤ bound .db → (h : Int) ≤ bound .phash →
      ∀ a ∈ [Access.read ⟨.db, 0⟩ h, .read ⟨.phash, 0⟩ h] ++ t ++ [.read ⟨.db, h + k⟩ 1],
        a.Bounded bound := by
    intro bound hb hp a ha
    simp only [List.mem_append, List.mem_singleton] at ha
    rcases ha with (ha | ha) | rfl
    · exact hrd bound hb hp a ha
    · exact hscan bound hb a ha
    · exact Access.bounded_read (by dsimp only; omega) (by simp; omega)
  have ht5 : (s5.look ⟨.db, h + k⟩ 1).trace =
      s.trace ++ ([Access.read ⟨.db, 0⟩ h, .read ⟨.phash, 0⟩ h] ++ t ++ [.read ⟨.db, h + k⟩ 1]) := by
    simp [ht, hct]
  by_cases hb1 : b = 1
  swap
  · -- no `0x01` separator
    have hr : oaepCheckDecode tlen dblen h false s = (-1, s5.look ⟨.db, h + k⟩ 1) := by
      simp only [oaepCheckDecode, sizeT_natCast, ← hc, hc1, Bool.or_false, Bool.false_eq_true,
        if_false, hn, e1, hne, hb5, ne_eq, hb1, not_false_eq_true, if_true]
    have hnone : oaepUnpad (s.mem.read ⟨.db, h⟩ (dblen - h)) = none := by
      rw [oaepUnpad, hrest]
      simp [hb1]
    rw [hr]
    refine ⟨fun M _ _ hM _ => (nomatch hnone.symm.trans hM), .inl rfl, fun _ => (by simp [e2]),
      _, ht5, fun h0 => absurd h0 (by omega), fun bound hb hp _ => htr bound hb hp⟩
  have hsome : oaepUnpad (s.mem.read ⟨.db, h⟩ (dblen - h)) = some M := by
    rw [oaepUnpad, hrest]
    simp [hb1]
  by_cases htl : tlen < dblen - (h + k + 1)
  · -- the message does not fit in `to`
    have hr : oaepCheckDecode tlen dblen h false s = (-1, s5.look ⟨.db, h + k⟩ 1) := by
      simp only [oaepCheckDecode, sizeT_natCast, ← hc, hc1, Bool.or_false, Bool.false_eq_true,
        if_false, hn, e1, hne, hb5, hb1, ne_eq, not_true_eq_false, htl, if_true]
    rw [hr]
    refine ⟨fun M' _ _ hM' hfit => absurd (Option.some.inj (hsome.symm.trans hM')) (by
      rintro rfl; omega), .inl rfl, fun _ => (by simp [e2]), _, ht5, fun h0 => absurd h0 (by omega),
      fun bound hb hp _ => htr bound hb hp⟩
  -- the message is copied out
  have htl' : ¬ tlen < (M.length : Int) := by omega
  have hr : oaepCheckDecode tlen dblen h false s = ((M.length : Int),
      memcpy (s5.look ⟨.db, h + k⟩ 1) ⟨.toBuf, 0⟩ ⟨.db, h + k + 1⟩ M.length) := by
    simp only [oaepCheckDecode, sizeT_natCast, ← hc, hc1, Bool.or_false, Bool.false_eq_true,
      if_false, hn, e1, hne, hb5, hb1, ne_eq, not_true_eq_false, hMlen, htl']
  have hmem : (memcpy (s5.look ⟨.db, h + k⟩ 1) ⟨.toBuf, 0⟩ ⟨.db, h + k + 1⟩ M.length).mem =
      s.mem.write ⟨.toBuf, 0⟩ M := by
    simp [e2, M]
  rw [hr]
  refine ⟨fun M' _ _ hM' _ => by
      rw [← Option.some.inj (hsome.symm.trans hM')]; exact ⟨rfl, hmem⟩,
    .inr ⟨M, rfl, hmatch, hsome, by omega, rfl⟩, fun h0 => absurd h0 (by omega),
    [Access.read ⟨.db, 0⟩ h, .read ⟨.phash, 0⟩ h] ++ t ++ [.read ⟨.db, h + k⟩ 1] ++
      [.read ⟨.db, h + k + 1⟩ M.length, .write ⟨.toBuf, 0⟩ M.length],
    by simp [ht, hct], fun _ => by simp, ?_⟩
  intro bound hb hp hto a ha
  rcases List.mem_append.1 ha with ha | ha
  · exact htr bound hb hp a ha
  simp only [List.mem_cons, List.not_mem_nil, or_false] at ha
  rcases ha with rfl | rfl
  · exact Access.bounded_read (by dsimp only; omega) (by dsimp only; omega)
  · exact Access.bounded_write le_rfl (by simpa using hto)

/-! ### The body, on every path -/

section Body

variable (md mgf1md : EvpMd) (tlen plen : Int) {dblen h Z F : Nat}

theorem oaepCheckBody_safe (bad : Bool) (s : State) (hmd : md.mdSize = h)
    (hmgf : 0 < mgf1md.mdSize) (hh : h ≤ dblen) (hZF : Z + F = h + dblen) :
    ∃ m s', oaepCheckBody md mgf1md tlen plen dblen h Z F bad s = some (m, s') ∧
      (m = -1 ∨ 0 ≤ m ∧ m ≤ tlen ∧ bad = false) ∧
      (∀ j, (j < 0 ∨ m ≤ j) → s'.mem .toBuf j = s.mem .toBuf j) ∧
      s'.mem.read ⟨.db, dblen⟩ (Z + F) = List.replicate Z 0 ++ s.mem.read ⟨.fromBuf, 0⟩ F ∧
      ∃ t, s'.trace = s.trace ++ t ∧
        (∀ a ∈ t, a.Bounded (checkBound F (sizeT plen) (dblen + (Z + F)) h mgf1md.mdSize m)) ∧
        (0 ≤ m → Access.write ⟨.toBuf, 0⟩ m.toNat ∈ t) := by
  set bnd := fun m => checkBound F (sizeT plen) (dblen + (Z + F)) h mgf1md.mdSize m with hbnd
  set s1 := oaepCheckCopy dblen Z F s
  have hcopy : s1.mem.read ⟨.db, dblen⟩ (Z + F) =
      List.replicate Z 0 ++ s.mem.read ⟨.fromBuf, 0⟩ F := oaepCheckCopy_read dblen Z F s
  have hto1 : ∀ j, s1.mem .toBuf j = s.mem .toBuf j := fun _ => oaepCheckCopy_apply_of_ne (by decide)
  have ht1 : s1.trace = s.trace ++
      [.write ⟨.db, dblen⟩ Z, .read ⟨.fromBuf, 0⟩ F, .write ⟨.db, dblen + Z⟩ F] := by
    simp [s1]
  -- a return from the end of the copy that keeps `padded_from` and `to` outside `to[0..m)`
  have finish : ∀ (m : Int) (s' : State) (t : List Access), s'.trace = s1.trace ++ t →
      (∀ a ∈ t, a.Bounded (bnd m)) → (0 ≤ m → Access.write ⟨.toBuf, 0⟩ m.toNat ∈ t) →
      (∀ j, (j < 0 ∨ m ≤ j) → s'.mem .toBuf j = s1.mem .toBuf j) →
      (∀ j : Int, dblen ≤ j → s'.mem .db j = s1.mem .db j) →
      (∀ j, (j < 0 ∨ m ≤ j) → s'.mem .toBuf j = s.mem .toBuf j) ∧
      s'.mem.read ⟨.db, dblen⟩ (Z + F) = List.replicate Z 0 ++ s.mem.read ⟨.fromBuf, 0⟩ F ∧
      ∃ t, s'.trace = s.trace ++ t ∧ (∀ a ∈ t, a.Bounded (bnd m)) ∧
        (0 ≤ m → Access.write ⟨.toBuf, 0⟩ m.toNat ∈ t) := by
    intro m s' t ht hb hw hto hdb
    refine ⟨fun j hj => (hto j hj).trans (hto1 j), ?_,
      [.write ⟨.db, dblen⟩ Z, .read ⟨.fromBuf, 0⟩ F, .write ⟨.db, dblen + Z⟩ F] ++ t,
      by rw [ht, ht1, List.append_assoc], ?_, fun h0 => List.mem_append_right _ (hw h0)⟩
    · rw [← hcopy]
      exact Mem.read_congr fun j hj _ => hdb j hj
    · intro a ha
      rcases List.mem_append.1 ha with ha | ha
      · simp only [List.mem_cons, List.not_mem_nil, or_false] at ha
        rcases ha with rfl | rfl | rfl
        · exact Access.bounded_write (by dsimp only; omega) (by simp [hbnd, checkBound])
        · exact Access.bounded_read le_rfl (by simp [hbnd, checkBound])
        · exact Access.bounded_write (by dsimp only; omega) (by simp [hbnd, checkBound]; omega)
      · exact hb a ha
  -- the stretches of the run before the checks
  have hdbb : ((dblen + h + dblen : Nat) : Int) ≤ bnd (-1) .db := by simp [hbnd, checkBound]; omega
  have fail : ∀ sX, CheckRun (bnd (-1)) dblen s1 sX →
      ∃ m s', some (-1, freezero sX ⟨.db, 0⟩ (sizeT dblen)) = some (m, s') ∧
      (m = -1 ∨ 0 ≤ m ∧ m ≤ tlen ∧ bad = false) ∧
      (∀ j, (j < 0 ∨ m ≤ j) → s'.mem .toBuf j = s.mem .toBuf j) ∧
      s'.mem.read ⟨.db, dblen⟩ (Z + F) = List.replicate Z 0 ++ s.mem.read ⟨.fromBuf, 0⟩ F ∧
      ∃ t, s'.trace = s.trace ++ t ∧ (∀ a ∈ t, a.Bounded (bnd m)) ∧
        (0 ≤ m → Access.write ⟨.toBuf, 0⟩ m.toNat ∈ t) := by
    intro sX hX
    have hrun := hX.freezero (n := dblen) le_rfl (by simp [hbnd, checkBound]; omega)
    obtain ⟨t, ht, hb⟩ := hrun.trace
    rw [sizeT_natCast]
    exact ⟨-1, _, rfl, .inl rfl, finish (-1) _ t ht hb (fun h0 => absurd h0 (by omega))
      (fun j _ => hrun.keep _ j (by decide) (by decide) (by decide) (.inl (by decide)))
      (fun j hj => hrun.keep _ j (by decide) (by decide) (by decide) (.inr hj))⟩
  obtain ⟨⟨ok, s2⟩, hun, c2⟩ := @oaepCheckUnmask_safe mgf1md dblen h hmgf s1 (bnd (-1)) hdbb
    (by simp [hbnd, checkBound]) (by simp [hbnd, checkBound])
  cases ok
  · simp only [oaepCheckBody, hun]
    exact fail s2 c2
  simp only [oaepCheckBody, hun]
  have c3 : CheckRun (bnd (-1)) dblen s2 (evpDigest md ⟨.paramBuf, 0⟩ (sizeT plen) ⟨.phash, 0⟩ s2).2 :=
    checkRun_evpDigest md _ _ _ s2 rfl ⟨le_rfl, by simp [hbnd, checkBound]⟩
      ⟨le_rfl, by simp [hbnd, checkBound, hmd]⟩
  rcases hd : evpDigest md ⟨.paramBuf, 0⟩ (sizeT plen) ⟨.phash, 0⟩ s2 with ⟨_ | _, s3⟩ <;>
    simp only [hd] at c3 ⊢
  · exact fail s3 (c2.trans c3)
  -- the checks
  obtain ⟨hacc, hdec, hfail, t4, ht4, hw4, hb4⟩ := oaepCheckDecode_spec tlen hh bad s3
  set r := oaepCheckDecode tlen dblen h bad s3
  have hr : r.1 = -1 ∨ 0 ≤ r.1 ∧ r.1 ≤ tlen ∧ bad = false := by
    rcases hdec with h1 | ⟨M, hbad, -, -, hM, hr⟩
    · exact .inl h1
    · exact .inr ⟨by omega, by omega, hbad⟩
  -- the checks write nothing but `to[0..mlen)`
  have hkeep : ∀ q j, (q ≠ .toBuf ∨ j < 0 ∨ r.1 ≤ j) → r.2.mem q j = s3.mem q j := by
    intro q j hq
    rcases hdec with h1 | ⟨M, hbad, hm, hM, -, hr⟩
    · rw [hfail h1]
    · rw [(hacc M hbad hm hM (by omega)).2]
      exact Mem.write_apply_outside (by
        rcases hq with hq | hq | hq
        · exact .inl hq
        · exact .inr (.inl hq)
        · exact .inr (.inr (by simp; omega)))
  obtain ⟨t5, ht5, hb5⟩ := ((c2.trans c3)).trace
  refine ⟨r.1, freezero r.2 ⟨.db, 0⟩ dblen, by rw [sizeT_natCast], hr, finish r.1 _
    (t5 ++ t4 ++ [.write ⟨.db, 0⟩ dblen]) (by simp [ht4, ht5]) ?_ ?_ ?_ ?_⟩
  · intro a ha
    simp only [List.mem_append, List.mem_singleton] at ha
    rcases ha with (ha | ha) | rfl
    · refine (hb5 a ha).mono fun q => ?_
      cases q <;> simp [hbnd, checkBound]
      omega
    · exact hb4 (bnd r.1) (by simp [hbnd, checkBound]; omega) (by simp [hbnd, checkBound])
        (by simp [hbnd, checkBound]) a ha
    · exact Access.bounded_write le_rfl (by simp [hbnd, checkBound]; omega)
  · exact fun h0 => List.mem_append_left _ (List.mem_append_right _ (hw4 h0))
  · intro j hj
    rw [freezero_mem, Mem.write_apply_of_ne (by decide), hkeep _ _ (.inr hj)]
    exact (c2.trans c3).keep _ j (by decide) (by decide) (by decide) (.inl (by decide))
  · intro j hj
    rw [freezero_mem, Mem.write_apply_outside (.inr (.inr (by simpa using hj))),
      hkeep _ _ (.inl (by decide))]
    exact (c2.trans c3).keep _ j (by decide) (by decide) (by decide) (.inr hj)

theorem oaepCheckBody_spec (s : State) (hmd : md.mdSize = h) (hmgf : 0 < mgf1md.mdSize)
    (hrel : md.Reliable) (hrel' : mgf1md.Reliable) (hh : h ≤ dblen) (hZF : Z + F = h + dblen) :
    let B := List.replicate Z 0 ++ s.mem.read ⟨.fromBuf, 0⟩ F
    let lHash := md.hash (s.mem.read ⟨.paramBuf, 0⟩ (sizeT plen))
    ∃ m s', oaepCheckBody md mgf1md tlen plen dblen h Z F false s = some (m, s') ∧
      (∀ M, emeOaepDecode mgf1md lHash B = some M → (M.length : Int) ≤ tlen →
        m = M.length ∧ s'.mem.read ⟨.toBuf, 0⟩ M.length = M) ∧
      (m = -1 ∨ ∃ M, emeOaepDecode mgf1md lHash B = some M ∧ (M.length : Int) ≤ tlen) := by
  intro B lHash
  set s1 := oaepCheckCopy dblen Z F s
  have hB : s1.mem.read ⟨.db, dblen⟩ (h + dblen) = B := by
    rw [← hZF]
    exact oaepCheckCopy_read dblen Z F s
  have hBlen : B.length = h + dblen := by rw [← hB, Mem.length_read]
  -- the unmasking recovers `DB` from the two halves of `B`
  obtain ⟨s2, hun, hdb2, -⟩ := @oaepCheckUnmask_spec mgf1md dblen h hrel' hmgf s1
  have hsd : s1.mem.read ⟨.db, dblen⟩ h = B.take h := Mem.read_take hB
  have hmd' : s1.mem.read ⟨.db, dblen + h⟩ dblen = B.drop h := by
    rw [← Mem.read_drop hB, Ptr.mk_add]
  rw [hsd, hmd'] at hdb2
  obtain ⟨⟨ok, s2'⟩, hun', c2⟩ := @oaepCheckUnmask_safe mgf1md dblen h hmgf s1
    (checkBound 0 0 (dblen + h + dblen) h mgf1md.mdSize 0) (by simp [checkBound]) (by simp [checkBound])
    (by simp [checkBound])
  obtain ⟨rfl, rfl⟩ := Prod.mk.inj (Option.some.inj (hun.symm.trans hun'))
  have hparam : s2.mem.read ⟨.paramBuf, 0⟩ (sizeT plen) = s.mem.read ⟨.paramBuf, 0⟩ (sizeT plen) := by
    rw [Mem.read_congr fun j _ _ => c2.keep _ j (by decide) (by decide) (by decide) (.inl (by decide))]
    exact Mem.read_congr fun j _ _ => oaepCheckCopy_apply_of_ne (by decide)
  -- the label digest
  set s3 := (s2.look ⟨.paramBuf, 0⟩ (sizeT plen)).put ⟨.phash, 0⟩ lHash
  have hlen : lHash.length = h := by rw [md.hash_length, hmd, Int.toNat_natCast]
  have hph : s3.mem.read ⟨.phash, 0⟩ h = lHash := by
    simpa [s3, hlen] using Mem.read_write_same s2.mem ⟨.phash, 0⟩ lHash
  have hdb3 : s3.mem.read ⟨.db, 0⟩ dblen = s2.mem.read ⟨.db, 0⟩ dblen := by
    simp [s3, Mem.read_write_ne]
  -- the checks
  obtain ⟨hacc, hdec, -, -⟩ := oaepCheckDecode_spec tlen hh false s3
  rw [hdb3, hdb2, hph] at hacc hdec
  generalize hDB : xorBytes (B.drop h)
    (mgf1 mgf1md (xorBytes (B.take h) (mgf1 mgf1md (B.drop h) h)) dblen) = DB at hacc hdec
  have hdecode : emeOaepDecode mgf1md lHash B =
      if DB.take h = lHash then oaepUnpad (DB.drop h) else none := by
    simp only [emeOaepDecode, hlen, hBlen, Nat.add_sub_cancel_left, hDB]
  set r := oaepCheckDecode tlen dblen h false s3
  refine ⟨r.1, freezero r.2 ⟨.db, 0⟩ (sizeT dblen), ?_, ?_, ?_⟩
  · simp [oaepCheckBody, hun, evpDigest_reliable hrel, hparam, s3, r, lHash]
  · intro M hM hfit
    rw [hdecode] at hM
    split_ifs at hM with htake
    obtain ⟨h1, h2⟩ := hacc M rfl htake hM hfit
    refine ⟨h1, ?_⟩
    rw [freezero_mem, Mem.read_write_ne (by decide), h2]
    exact Mem.read_write_eq rfl rfl rfl
  · rcases hdec with h1 | ⟨M, -, htake, hM, hfit, -⟩
    · exact .inl h1
    · exact .inr ⟨M, by rw [hdecode]; simp [htake, hM], hfit⟩

end Body

/-! ### The decoder -/

section Decoder

variable {lib : Libc} {md mgf1md : EvpMd} {tlen flen num plen : Int}

theorem rsaPaddingCheckPkcs1OaepMgf1_of_short (s : State) (hg : num - 1 < 2 * md.mdSize + 1) :
    rsaPaddingCheckPkcs1OaepMgf1 lib md mgf1md tlen flen num plen s = some (-1, s) := by
  simp [rsaPaddingCheckPkcs1OaepMgf1, hg]

theorem rsaPaddingCheckPkcs1OaepMgf1_of_malloc (s : State) (hg : 2 * md.mdSize + 1 ≤ num - 1)
    (hm : lib.malloc (sizeT (intWrap (num - 1 - md.mdSize + (num - 1)))) = false) :
    rsaPaddingCheckPkcs1OaepMgf1 lib md mgf1md tlen flen num plen s = some (-1, s) := by
  simp [rsaPaddingCheckPkcs1OaepMgf1, not_lt.mpr hg, hm]

/-- Past the guards the decoder is its body, with `dblen = num - 1 - mdlen`,
`lzero = num - 1 - F` and the input cut to `F = min flen (num - 1)` bytes. -/
theorem rsaPaddingCheckPkcs1OaepMgf1_eq_body (s : State) {h N F : Nat} (hmd : md.mdSize = h)
    (hN : num - 1 = N) (hg : 2 * h + 1 ≤ N) (hF : min flen (num - 1) = F)
    (hm : lib.malloc (sizeT (intWrap (num - 1 - md.mdSize + (num - 1)))) = true) :
    rsaPaddingCheckPkcs1OaepMgf1 lib md mgf1md tlen flen num plen s =
      oaepCheckBody md mgf1md tlen plen (N - h : Nat) h (N - F : Nat) F (decide ((N : Int) < flen)) s := by
  have e1 : (N : Int) - h = ((N - h : Nat) : Int) := by omega
  have e2 : (if decide ((N : Int) < flen) = true then 0 else (N : Int) - flen) =
      ((N - F : Nat) : Int) := by
    split_ifs with hc <;> simp only [decide_eq_true_eq] at hc <;> omega
  have e3 : (if decide ((N : Int) < flen) = true then (N : Int) else flen) = (F : Int) := by
    split_ifs with hc <;> simp only [decide_eq_true_eq] at hc <;> omega
  have e4 : decide ((N : Int) - flen < 0) = decide ((N : Int) < flen) := by
    simp only [decide_eq_decide]; omega
  rw [hmd, hN, e1] at hm
  simp only [rsaPaddingCheckPkcs1OaepMgf1, hmd, hN, if_neg (show ¬ ((N : Int) < 2 * h + 1) by omega),
    hm, Bool.not_true, Bool.false_eq_true, if_false, e1, e2, e3, e4]

/-- Every run of the decoder with digests of positive size returns, whatever
the digest calls report; it leaves the zero-padded input in `padded_from`,
changes `to` only in `to[0..m)`, and stays within its buffers. -/
theorem rsaPaddingCheckPkcs1OaepMgf1_safe (lib : Libc) (md mgf1md : EvpMd)
    (tlen flen num plen : Int) (s : State) (hmd : 1 ≤ md.mdSize) (hmgf : 1 ≤ mgf1md.mdSize)
    (hflen : 0 ≤ flen) :
    ∃ m s', rsaPaddingCheckPkcs1OaepMgf1 lib md mgf1md tlen flen num plen s = some (m, s') ∧
      (m = -1 ∨ 0 ≤ m ∧ m ≤ tlen ∧ flen ≤ num - 1 ∧ 2 * md.mdSize + 2 ≤ num) ∧
      (∀ j, (j < 0 ∨ m ≤ j) → s'.mem .toBuf j = s.mem .toBuf j) ∧
      (2 * md.mdSize + 2 ≤ num →
        lib.malloc (sizeT (intWrap (num - 1 - md.mdSize + (num - 1)))) = true →
        s'.mem.read ⟨.db, num - 1 - md.mdSize⟩ (num - 1).toNat =
          List.replicate (num - 1 - flen).toNat 0 ++
            s.mem.read ⟨.fromBuf, 0⟩ (min flen (num - 1)).toNat) ∧
      ∃ t, s'.trace = s.trace ++ t ∧
        (∀ a ∈ t, a.Bounded (checkBound (min flen (num - 1)) (sizeT plen)
          (num - 1 - md.mdSize + (num - 1)) md.mdSize mgf1md.mdSize m)) ∧
        (0 ≤ m → Access.write ⟨.toBuf, 0⟩ m.toNat ∈ t) := by
  by_cases hg : num - 1 < 2 * md.mdSize + 1
  · exact ⟨-1, s, rsaPaddingCheckPkcs1OaepMgf1_of_short s hg, .inl rfl, fun _ _ => rfl,
      fun h' => absurd h' (by omega), [], by simp, by simp, by simp⟩
  by_cases hm : lib.malloc (sizeT (intWrap (num - 1 - md.mdSize + (num - 1)))) = true
  swap
  · exact ⟨-1, s, rsaPaddingCheckPkcs1OaepMgf1_of_malloc s (by omega) (by simpa using hm),
      .inl rfl, fun _ _ => rfl, fun _ h' => absurd h' hm, [], by simp, by simp, by simp⟩
  obtain ⟨h, hh⟩ : ∃ h : Nat, md.mdSize = h := ⟨md.mdSize.toNat, by omega⟩
  obtain ⟨N, hN⟩ : ∃ N : Nat, num - 1 = N := ⟨(num - 1).toNat, by omega⟩
  obtain ⟨F, hF⟩ : ∃ F : Nat, min flen (num - 1) = F := ⟨(min flen (num - 1)).toNat, by omega⟩
  have hNh : 2 * h + 1 ≤ N := by omega
  rw [rsaPaddingCheckPkcs1OaepMgf1_eq_body s hh hN hNh hF hm]
  obtain ⟨m, s', hrun, hr, hto, hpad, t, ht, hb, hw⟩ := @oaepCheckBody_safe md mgf1md tlen plen
    (N - h) h (N - F) F _ s hh (by omega) (by omega) (by omega)
  have hbnd : checkBound (min flen (num - 1)) (sizeT plen) (num - 1 - md.mdSize + (num - 1))
      md.mdSize mgf1md.mdSize m =
      checkBound F (sizeT plen) ((N - h : Nat) + ((N - F : Nat) + (F : Int))) h mgf1md.mdSize m := by
    rw [hF, hh, show num - 1 - (h : Int) + (num - 1) = ((N - h : Nat) : Int) + ((N - F : Nat) + (F : Int))
      by omega]
  refine ⟨m, s', hrun, ?_, hto, fun _ _ => ?_, t, ht, by rw [hbnd]; exact hb, hw⟩
  · rcases hr with hr | ⟨h0, h1, hbad⟩
    · exact .inl hr
    · exact .inr ⟨h0, h1, by simp at hbad; omega, by omega⟩
  · rw [show (num - 1 - md.mdSize : Int) = ((N - h : Nat) : Int) by omega,
      show (num - 1).toNat = N - F + F by omega, show (num - 1 - flen).toNat = N - F by omega,
      show (min flen (num - 1)).toNat = F by omega]
    exact hpad

/-- **Within its buffers.** For digests of positive size and every input length
`flen ≥ 0`, the decoder returns; it reads `from` only in
`from[0..min(flen, num - 1))`, touches `db` only within its
`dblen + (num - 1)` bytes, `seed` and `phash` only within `mdlen` bytes, and
`to` only when it returns `m ≥ 0`, when it writes exactly `to[0..m)`, with
`m ≤ tlen`. -/
theorem rsaPaddingCheckPkcs1OaepMgf1_within_buffers (lib : Libc) (md mgf1md : EvpMd)
    (tlen flen num plen : Int) (s : State) (hmd : 1 ≤ md.mdSize) (hmgf : 1 ≤ mgf1md.mdSize)
    (hflen : 0 ≤ flen) :
    ∃ m s', rsaPaddingCheckPkcs1OaepMgf1 lib md mgf1md tlen flen num plen s = some (m, s') ∧
      (m = -1 ∨ 0 ≤ m ∧ m ≤ tlen) ∧
      ∃ t, s'.trace = s.trace ++ t ∧
        (∀ a ∈ t, a.Within .fromBuf 0 (min flen (num - 1)) ∧
          a.Within .db 0 (num - 1 - md.mdSize + (num - 1)) ∧
          a.Within .seed 0 md.mdSize ∧ a.Within .phash 0 md.mdSize ∧
          a.Within .paramBuf 0 (sizeT plen) ∧ a.Within .md 0 mgf1md.mdSize ∧
          a.Within .toBuf 0 m) ∧
        ∀ j, 0 ≤ j → j < m → ∃ a ∈ t, a.Writes .toBuf j := by
  obtain ⟨m, s', hrun, hr, -, -, t, ht, hb, hw⟩ :=
    rsaPaddingCheckPkcs1OaepMgf1_safe lib md mgf1md tlen flen num plen s hmd hmgf hflen
  refine ⟨m, s', hrun, hr.imp id fun h => ⟨h.1, h.2.1⟩, t, ht, fun a ha =>
    ⟨hb a ha .fromBuf, hb a ha .db, hb a ha .seed, hb a ha .phash, hb a ha .paramBuf,
      hb a ha .md, hb a ha .toBuf⟩, fun j h0 h1 => ⟨_, hw (by omega), by simp; omega⟩⟩

theorem rsaPaddingCheckPkcs1OaepMgf1_within_buffers_byteSum :
    1 ≤ EvpMd.byteSum.mdSize ∧ 1 ≤ EvpMd.byteSum.mdSize ∧ (0 : Int) ≤ 3 ∧
      ∃ m s', rsaPaddingCheckPkcs1OaepMgf1 ⟨fun _ => true, fun _ => 0⟩ EvpMd.byteSum EvpMd.byteSum
          0 3 4 0 State.zero = some (m, s') ∧
        (m = -1 ∨ 0 ≤ m ∧ m ≤ 0) ∧
        ∃ t, s'.trace = State.zero.trace ++ t ∧
          (∀ a ∈ t, a.Within .fromBuf 0 (min 3 (4 - 1)) ∧
            a.Within .db 0 (4 - 1 - EvpMd.byteSum.mdSize + (4 - 1)) ∧
            a.Within .seed 0 EvpMd.byteSum.mdSize ∧ a.Within .phash 0 EvpMd.byteSum.mdSize ∧
            a.Within .paramBuf 0 (sizeT 0) ∧ a.Within .md 0 EvpMd.byteSum.mdSize ∧
            a.Within .toBuf 0 m) ∧
          ∀ j, 0 ≤ j → j < m → ∃ a ∈ t, a.Writes .toBuf j :=
  ⟨by decide, by decide, by decide,
    rsaPaddingCheckPkcs1OaepMgf1_within_buffers _ _ _ 0 3 4 0 State.zero (by decide) (by decide)
      (by decide)⟩

/-- **`freezero(db, dblen)` leaves `padded_from`.** A four-byte block of ones
under a one-byte digest: the decoder allocates `dblen + num = 5` bytes, returns,
and leaves the input block in bytes `2..5` of the buffer it freed. -/
theorem rsaPaddingCheckPkcs1OaepMgf1_keeps_paddedFrom :
    ∃ m s', rsaPaddingCheckPkcs1OaepMgf1 ⟨fun _ => true, fun _ => 0⟩ EvpMd.byteSum EvpMd.byteSum
        0 3 4 0 ⟨fun _ _ => 1, []⟩ = some (m, s') ∧ s'.mem.read ⟨.db, 2⟩ 3 = [1, 1, 1] := by
  obtain ⟨m, s', hrun, -, -, hpad, -⟩ := rsaPaddingCheckPkcs1OaepMgf1_safe ⟨fun _ => true, fun _ => 0⟩
    EvpMd.byteSum EvpMd.byteSum 0 3 4 0 ⟨fun _ _ => 1, []⟩ (by decide) (by decide) (by decide)
  exact ⟨m, s', hrun, hpad (by decide) rfl⟩

/-- With reliable digests, and the input no longer than the block, the decoder
computes EME-OAEP decoding of the input zero-padded to `num - 1` bytes: it
returns the length of the message and leaves the message in `to` when the block
decodes to a message of at most `tlen` bytes, and returns -1 otherwise. -/
theorem rsaPaddingCheckPkcs1OaepMgf1_spec (lib : Libc) (md mgf1md : EvpMd)
    (tlen flen num plen : Int) (s : State) (hmd : 1 ≤ md.mdSize) (hmgf : 1 ≤ mgf1md.mdSize)
    (hrel : md.Reliable) (hrel' : mgf1md.Reliable) (hflen : 0 ≤ flen) (hfit : flen ≤ num - 1)
    (hnum : 2 * md.mdSize + 2 ≤ num)
    (hm : lib.malloc (sizeT (intWrap (num - 1 - md.mdSize + (num - 1)))) = true) :
    let B := List.replicate (num - 1 - flen).toNat 0 ++ s.mem.read ⟨.fromBuf, 0⟩ flen.toNat
    let lHash := md.hash (s.mem.read ⟨.paramBuf, 0⟩ (sizeT plen))
    ∃ m s', rsaPaddingCheckPkcs1OaepMgf1 lib md mgf1md tlen flen num plen s = some (m, s') ∧
      (∀ M, emeOaepDecode mgf1md lHash B = some M → (M.length : Int) ≤ tlen →
        m = M.length ∧ s'.mem.read ⟨.toBuf, 0⟩ M.length = M) ∧
      (m = -1 ∨ ∃ M, emeOaepDecode mgf1md lHash B = some M ∧ (M.length : Int) ≤ tlen) := by
  intro B lHash
  obtain ⟨h, hh⟩ : ∃ h : Nat, md.mdSize = h := ⟨md.mdSize.toNat, by omega⟩
  obtain ⟨N, hN⟩ : ∃ N : Nat, num - 1 = N := ⟨(num - 1).toNat, by omega⟩
  obtain ⟨F, hF⟩ : ∃ F : Nat, flen = F := ⟨flen.toNat, by omega⟩
  subst hF
  rw [rsaPaddingCheckPkcs1OaepMgf1_eq_body (F := F) s hh hN (by omega) (by omega) hm,
    show decide ((N : Int) < F) = false by simp; omega]
  have hB : B = List.replicate (N - F) 0 ++ s.mem.read ⟨.fromBuf, 0⟩ F := by
    simp only [B, hN, Int.toNat_natCast]
    congr 2
    omega
  rw [hB]
  exact @oaepCheckBody_spec md mgf1md tlen plen (N - h) h (N - F) F s hh (by omega) hrel hrel'
    (by omega) (by omega)

theorem oaepCheckBody_wipes {tlen plen dblen mdlen lzero flen : Int} {bad : Bool} {s : State}
    {m : Int} {s' : State}
    (h : oaepCheckBody md mgf1md tlen plen dblen mdlen lzero flen bad s = some (m, s')) :
    s'.mem.read ⟨.db, 0⟩ (sizeT dblen) = List.replicate (sizeT dblen) 0 := by
  unfold oaepCheckBody at h
  split at h
  · cases h
  · cases h
    exact freezero_read _ _ _
  · split at h <;> cases h <;> exact freezero_read _ _ _

/-- **`freezero(db, dblen)` wipes `DB`.** Every run of the decoder that returns,
whatever the digest calls report, either leaves `db[0..dblen)` (the label
digest, the padding and the message) zero, or returns -1 before allocating
`db`, having touched nothing. -/
theorem rsaPaddingCheckPkcs1OaepMgf1_wipes_db (lib : Libc) (md mgf1md : EvpMd)
    (tlen flen num plen : Int) (s : State) {m : Int} {s' : State}
    (h : rsaPaddingCheckPkcs1OaepMgf1 lib md mgf1md tlen flen num plen s = some (m, s')) :
    s'.mem.read ⟨.db, 0⟩ (sizeT (num - 1 - md.mdSize)) =
        List.replicate (sizeT (num - 1 - md.mdSize)) 0 ∨ (m = -1 ∧ s' = s) := by
  unfold rsaPaddingCheckPkcs1OaepMgf1 at h
  dsimp only at h
  split_ifs at h
  · cases h
    exact .inr ⟨rfl, rfl⟩
  · cases h
    exact .inr ⟨rfl, rfl⟩
  all_goals exact .inl (oaepCheckBody_wipes h)

theorem rsaPaddingCheckPkcs1OaepMgf1_wipes_db_byteSum :
    ∃ m s', rsaPaddingCheckPkcs1OaepMgf1 ⟨fun _ => true, fun _ => 0⟩ EvpMd.byteSum EvpMd.byteSum
        0 3 4 0 ⟨fun _ _ => 1, []⟩ = some (m, s') ∧
      (s'.mem.read ⟨.db, 0⟩ (sizeT (4 - 1 - EvpMd.byteSum.mdSize)) =
        List.replicate (sizeT (4 - 1 - EvpMd.byteSum.mdSize)) 0 ∨
          (m = -1 ∧ s' = ⟨fun _ _ => 1, []⟩)) := by
  obtain ⟨m, s', hrun, -⟩ := rsaPaddingCheckPkcs1OaepMgf1_safe ⟨fun _ => true, fun _ => 0⟩
    EvpMd.byteSum EvpMd.byteSum 0 3 4 0 ⟨fun _ _ => 1, []⟩ (by decide) (by decide) (by decide)
  exact ⟨m, s', hrun, rsaPaddingCheckPkcs1OaepMgf1_wipes_db _ _ _ 0 3 4 0 _ hrun⟩

end Decoder

end Rsa
end Libcrypto
