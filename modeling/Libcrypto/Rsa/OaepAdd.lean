import Libcrypto.Rsa.EmeOaep

/-!
# `RSA_padding_add_PKCS1_OAEP_mgf1`

The encoder writes the EME-OAEP block straight into the caller's `to`:

    to = 0x00 ‖ seed ‖ DB,    DB = md(param) ‖ 0 ⋯ 0 ‖ 0x01 ‖ from

with `seed = to + 1` and `db = to + mdlen + 1`, then masks `DB` with
`MGF1(seed)` through the heap buffer `dbmask`, and `seed` with
`MGF1(maskedDB)` through the stack array `seedmask`.

The model follows the C in three stages: the two length guards, the layout of
lines 70–79 (`oaepAddLayout`) and the masking of lines 81–103 (`oaepAddMask`).
`rsaPaddingAddPkcs1OaepMgf1_spec` says the encoder computes `emeOaepEncode`.

The guards compare `flen` with the room left for it but never with zero, so a
negative `flen` goes through both; `rsaPaddingAddPkcs1OaepMgf1_of_neg_flen` shows
what the layout then writes.
-/

namespace Libcrypto
namespace Rsa

/-- Lines 70–79: `to[0] = 0`, the label digest, the zero padding, the `0x01`
separator, the message and the random seed; `false` when `EVP_Digest` fails. -/
def oaepAddLayout (lib : Libc) (md : EvpMd) (emlen flen plen mdlen : Int) (s : State) :
    Bool × State :=
  let s := storeByte s ⟨.toBuf, 0⟩ 0
  let seed : Ptr := ⟨.toBuf, 1⟩
  let db : Ptr := ⟨.toBuf, mdlen + 1⟩
  match evpDigest md ⟨.paramBuf, 0⟩ (sizeT plen) db s with
  | (false, s) => (false, s)
  | (true, s) =>
    let s := memset s (db.add mdlen) (sizeT (emlen - flen - 2 * mdlen - 1)) 0
    let s := storeByte s (db.add (emlen - flen - mdlen - 1)) 1
    let s := memcpy s (db.add (emlen - flen - mdlen)) ⟨.fromBuf, 0⟩ (unsignedInt flen)
    (true, arc4randomBuf lib seed (sizeT mdlen) s)

/-- Lines 81–103: mask `DB` with `MGF1(seed)` and the seed with
`MGF1(maskedDB)`, then clear and free `dbmask`. -/
def oaepAddMask (lib : Libc) (mgf1md : EvpMd) (emlen mdlen : Int) (s : State) :
    Option (Int × State) :=
  let seed : Ptr := ⟨.toBuf, 1⟩
  let db : Ptr := ⟨.toBuf, mdlen + 1⟩
  let dbmask : Ptr := ⟨.dbmask, 0⟩
  let dbmasklen := emlen - mdlen
  if !lib.malloc (sizeT dbmasklen) then some (0, s)
  else
    match pkcs1Mgf1 mgf1md dbmask dbmasklen seed mdlen s with
    | none => none
    | some (rv, s) =>
      if rv < 0 then some (0, freezero s dbmask (sizeT dbmasklen))
      else
        let s := xorLoop s db dbmask dbmasklen.toNat
        match pkcs1Mgf1 mgf1md ⟨.seedmask, 0⟩ mdlen db dbmasklen s with
        | none => none
        | some (rv, s) =>
          if rv < 0 then some (0, freezero s dbmask (sizeT dbmasklen))
          else some (1, freezero (xorLoop s seed ⟨.seedmask, 0⟩ mdlen.toNat) dbmask (sizeT dbmasklen))

/-- `RSA_padding_add_PKCS1_OAEP_mgf1(to, tlen, from, flen, param, plen, md, mgf1md)`
with `to`, `from` and `param` the regions `toBuf`, `fromBuf` and `paramBuf`:
the return value and the state it leaves, or `none` when it does not return. -/
def rsaPaddingAddPkcs1OaepMgf1 (lib : Libc) (md mgf1md : EvpMd) (tlen flen plen : Int)
    (s : State) : Option (Int × State) :=
  let emlen := tlen - 1
  let mdlen := md.mdSize
  if flen > emlen - 2 * mdlen - 1 then some (0, s)
  else if emlen < 2 * mdlen + 1 then some (0, s)
  else
    match oaepAddLayout lib md emlen flen plen mdlen s with
    | (false, s) => some (0, s)
    | (true, s) => oaepAddMask lib mgf1md emlen mdlen s

/-- `RSA_padding_add_PKCS1_OAEP(to, tlen, from, flen, param, plen)`: the
encoder with `md = mgf1md = NULL`, which it replaces by `EVP_sha1()` for both. -/
def rsaPaddingAddPkcs1Oaep (lib : Libc) (sha1 : EvpMd) (tlen flen plen : Int) (s : State) :
    Option (Int × State) :=
  rsaPaddingAddPkcs1OaepMgf1 lib sha1 sha1 tlen flen plen s

/-! ### The guards -/

theorem rsaPaddingAddPkcs1OaepMgf1_of_guard {lib : Libc} {md mgf1md : EvpMd}
    {tlen flen plen : Int} (s : State)
    (h : flen > tlen - 1 - 2 * md.mdSize - 1 ∨ tlen - 1 < 2 * md.mdSize + 1) :
    rsaPaddingAddPkcs1OaepMgf1 lib md mgf1md tlen flen plen s = some (0, s) := by
  unfold rsaPaddingAddPkcs1OaepMgf1
  dsimp only
  split_ifs <;> first | rfl | omega

/-! ### The layout -/

section Layout

variable (lib : Libc) {md : EvpMd}

theorem oaepAddLayout_reliable (hrel : md.Reliable) (emlen flen plen mdlen : Int) (s : State) :
    (oaepAddLayout lib md emlen flen plen mdlen s).1 = true ∧
    (oaepAddLayout lib md emlen flen plen mdlen s).2.trace = s.trace ++
      [.write ⟨.toBuf, 0⟩ 1, .read ⟨.paramBuf, 0⟩ (sizeT plen),
        .write ⟨.toBuf, mdlen + 1⟩ md.mdSize.toNat,
        .write ⟨.toBuf, mdlen + 1 + mdlen⟩ (sizeT (emlen - flen - 2 * mdlen - 1)),
        .write ⟨.toBuf, mdlen + 1 + (emlen - flen - mdlen - 1)⟩ 1,
        .read ⟨.fromBuf, 0⟩ (unsignedInt flen),
        .write ⟨.toBuf, mdlen + 1 + (emlen - flen - mdlen)⟩ (unsignedInt flen),
        .write ⟨.toBuf, 1⟩ (sizeT mdlen)] := by
  simp [oaepAddLayout, evpDigest_reliable hrel, md.hash_length]

theorem oaepAddLayout_frame (emlen flen plen mdlen : Int) (s : State) {r : Region} (j : Int)
    (hr : r ≠ .toBuf) : (oaepAddLayout lib md emlen flen plen mdlen s).2.mem r j = s.mem r j := by
  have h0 : (storeByte s ⟨.toBuf, 0⟩ 0).mem r j = s.mem r j := Mem.write_apply_outside (.inl hr)
  have h1 := evpDigest_mem md ⟨.paramBuf, 0⟩ (sizeT plen) ⟨.toBuf, mdlen + 1⟩ (storeByte s ⟨.toBuf, 0⟩ 0)
  unfold oaepAddLayout
  dsimp only
  rcases hd : evpDigest md ⟨.paramBuf, 0⟩ (sizeT plen) ⟨.toBuf, mdlen + 1⟩
    (storeByte s ⟨.toBuf, 0⟩ 0) with ⟨_ | _, s1⟩ <;>
  rw [hd] at h1 <;>
  rcases h1 with h1 | h1 <;>
  simp_all [Mem.write_apply_of_ne]

theorem oaepAddLayout_mem (hrel : md.Reliable) {mdlen E F : Nat} (hmd : md.mdSize = mdlen)
    (hE : F + 2 * mdlen + 1 ≤ E) (plen : Int) (s : State) :
    (oaepAddLayout lib md E F plen mdlen s).2.mem.read ⟨.toBuf, 0⟩ (E + 1) =
      0 :: ((List.range mdlen).map lib.arc4random ++
        (md.hash (s.mem.read ⟨.paramBuf, 0⟩ (sizeT plen)) ++ List.replicate (E - F - 2 * mdlen - 1) 0 ++
          [1] ++ s.mem.read ⟨.fromBuf, 0⟩ F)) := by
  have hP : sizeT ((E : Int) - F - 2 * mdlen - 1) = E - F - 2 * mdlen - 1 := by
    rw [sizeT_of_nonneg (by omega)]; omega
  have hH : ∀ x, (md.hash x).length = mdlen := fun x => by rw [md.hash_length, hmd, Int.toNat_natCast]
  simp only [oaepAddLayout, evpDigest_reliable hrel, storeByte_mem, memset_mem, memcpy_mem,
    arc4randomBuf_mem, State.put_mem, State.look_mem, hP, unsignedInt_of_nonneg (Int.natCast_nonneg F),
    Int.toNat_natCast, sizeT_natCast]
  rw [show E + 1 = 1 + (mdlen + (mdlen + ((E - F - 2 * mdlen - 1) + (1 + F)))) by omega,
    show ∀ (a : UInt8) (b c d e f : List UInt8), a :: (b ++ (c ++ d ++ e ++ f)) =
      [a] ++ (b ++ (c ++ (d ++ (e ++ f)))) by simp]
  refine Mem.read_append_eq ?_ (Mem.read_append_eq ?_ (Mem.read_append_eq ?_
    (Mem.read_append_eq ?_ (Mem.read_append_eq ?_ ?_)))) <;>
  simp (disch := first | decide | omega | (simp only [List.length_map, List.length_range,
      List.length_replicate, List.length_singleton, Mem.length_read, hH]; try omega)) only
    [Mem.read_write_mk_ne, Mem.read_write_le, Mem.read_write_ge, Mem.read_write_eq, Ptr.mk_add]

end Layout

/-! ### The masking -/

section Mask

variable (lib : Libc) {mgf1md : EvpMd}

theorem oaepAddMask_spec (hrel : mgf1md.Reliable) (hm : 0 < mgf1md.mdSize) {mdlen E : Nat}
    (hE : mdlen < E) (hmalloc : lib.malloc (E - mdlen) = true) (s : State) :
    let seed := s.mem.read ⟨.toBuf, 1⟩ mdlen
    let maskedDB := xorBytes (s.mem.read ⟨.toBuf, mdlen + 1⟩ (E - mdlen))
      (mgf1 mgf1md seed (E - mdlen))
    ∃ s', oaepAddMask lib mgf1md E mdlen s = some (1, s') ∧
      s'.mem.read ⟨.toBuf, 0⟩ (E + 1) = s.mem.read ⟨.toBuf, 0⟩ 1 ++
        (xorBytes seed (mgf1 mgf1md maskedDB mdlen) ++ maskedDB) ∧
      ∃ t, s'.trace = s.trace ++ t ∧ ∀ a ∈ t, ∀ r j, a.Writes r j →
        (r = .toBuf ∧ 1 ≤ j ∧ j < E + 1) ∨ r = .dbmask ∨ r = .seedmask ∨ r = .md := by
  intro seed maskedDB
  have hlen : sizeT ((E : Int) - mdlen) = E - mdlen := by rw [sizeT_of_nonneg (by omega)]; omega
  have hcast : ((E : Int) - mdlen) = ((E - mdlen : Nat) : Int) := by omega
  obtain ⟨s1, h1, p1⟩ := pkcs1Mgf1_spec ⟨.dbmask, 0⟩ ⟨.toBuf, 1⟩ (E - mdlen : Nat) mdlen hrel hm
    (by simp) (by simp) (by simp) (by omega) s
  set s2 := xorLoop s1 ⟨.toBuf, mdlen + 1⟩ ⟨.dbmask, 0⟩ (E - mdlen)
  obtain ⟨s3, h3, p3⟩ := pkcs1Mgf1_spec ⟨.seedmask, 0⟩ ⟨.toBuf, mdlen + 1⟩ mdlen (E - mdlen : Nat)
    hrel hm (by simp) (by simp) (by simp) (by omega) s2
  set s4 := xorLoop s3 ⟨.toBuf, 1⟩ ⟨.seedmask, 0⟩ mdlen
  refine ⟨freezero s4 ⟨.dbmask, 0⟩ (E - mdlen), ?_, ?_, ?_⟩
  · simp only [oaepAddMask, hcast, sizeT_natCast, Int.toNat_natCast, hmalloc, Bool.not_true,
      Bool.false_eq_true, if_false, h1, lt_irrefl, h3]
  · have hpos : 0 < mgf1md.mdSize.toNat := by omega
    have hA : s1.mem.read ⟨.dbmask, 0⟩ (E - mdlen) = mgf1 mgf1md seed (E - mdlen) := by
      simpa using p1.read_mask hpos (le_ceil_mul hpos)
    have h1s : s1.mem.read ⟨.toBuf, 1⟩ mdlen = seed := p1.read_of_ne (by simp) (by simp)
    have h1d : s1.mem.read ⟨.toBuf, mdlen + 1⟩ (E - mdlen) =
        s.mem.read ⟨.toBuf, mdlen + 1⟩ (E - mdlen) := p1.read_of_ne (by simp) (by simp)
    have h10 : s1.mem.read ⟨.toBuf, 0⟩ 1 = s.mem.read ⟨.toBuf, 0⟩ 1 := p1.read_of_ne (by simp) (by simp)
    have h2 : s2.mem = s1.mem.write ⟨.toBuf, mdlen + 1⟩ maskedDB := by
      rw [xorLoop_mem (.inl (by simp)), hA, h1d]
    have hmlen : maskedDB.length = E - mdlen := by
      simp only [maskedDB, length_xorBytes, Mem.length_read, length_mgf1 hpos, min_self]
    have hB : s3.mem.read ⟨.seedmask, 0⟩ mdlen = mgf1 mgf1md maskedDB mdlen := by
      rw [(by simpa using p3.read_mask hpos (le_ceil_mul hpos) :
        s3.mem.read ⟨.seedmask, 0⟩ mdlen = mgf1 mgf1md (s2.mem.read ⟨.toBuf, mdlen + 1⟩ (E - mdlen)) mdlen),
        h2, Mem.read_write_eq rfl rfl hmlen]
    have h3s : s3.mem.read ⟨.toBuf, 1⟩ mdlen = seed := by
      rw [p3.read_of_ne (by simp) (by simp), h2, Mem.read_write_le (by simp; omega), h1s]
    have h4 : s4.mem = s3.mem.write ⟨.toBuf, 1⟩ (xorBytes seed (mgf1 mgf1md maskedDB mdlen)) := by
      rw [xorLoop_mem (.inl (by simp)), h3s, hB]
    have hslen : (xorBytes seed (mgf1 mgf1md maskedDB mdlen)).length = mdlen := by
      simp only [seed, length_xorBytes, Mem.length_read, length_mgf1 hpos, min_self]
    rw [freezero_mem, show E + 1 = 1 + (mdlen + (E - mdlen)) by omega]
    refine Mem.read_append_eq ?_ (Mem.read_append_eq ?_ ?_)
    · rw [Mem.read_write_ne (by simp), h4, Mem.read_write_le (by simp), p3.read_of_ne (by simp) (by simp),
        h2, Mem.read_write_le (by simp), h10]
    · rw [Mem.read_write_ne (by simp), h4]
      exact Mem.read_write_eq rfl (by simp) hslen
    · rw [Mem.read_write_ne (by simp), h4, Mem.read_write_ge (by simp [hslen]),
        p3.read_of_ne (by simp) (by simp), h2]
      exact Mem.read_write_eq rfl (by simp; omega) hmlen
  · obtain ⟨t1, ht1, w1⟩ := p1.writes
    obtain ⟨t2, ht2, w2⟩ := xorLoop_trace s1 ⟨.toBuf, mdlen + 1⟩ ⟨.dbmask, 0⟩ (E - mdlen)
    obtain ⟨t3, ht3, w3⟩ := p3.writes
    obtain ⟨t4, ht4, w4⟩ := xorLoop_trace s3 ⟨.toBuf, 1⟩ ⟨.seedmask, 0⟩ mdlen
    refine ⟨t1 ++ t2 ++ t3 ++ t4 ++ [.write ⟨.dbmask, 0⟩ (E - mdlen)], ?_, ?_⟩
    · simp only [freezero_trace, s4, ht4, s2] at *
      rw [ht3, ht2, ht1]
      simp
    intro a ha r j hw
    simp only [List.mem_append, List.mem_singleton] at ha
    rcases ha with (((ha | ha) | ha) | ha) | rfl
    · rcases w1 a ha r j hw with h | h
      · exact .inr (.inr (.inr h))
      · exact .inr (.inl h.1)
    · obtain ⟨i, hi, rfl | rfl | rfl⟩ := w2 a ha
      all_goals simp only [Access.writes_read, Access.writes_write, Ptr.mk_add] at hw
      exact .inl ⟨hw.1.symm, by omega, by omega⟩
    · rcases w3 a ha r j hw with h | h
      · exact .inr (.inr (.inr h))
      · exact .inr (.inr (.inl h.1))
    · obtain ⟨i, hi, rfl | rfl | rfl⟩ := w4 a ha
      all_goals simp only [Access.writes_read, Access.writes_write, Ptr.mk_add] at hw
      exact .inl ⟨hw.1.symm, by omega, by omega⟩
    · simp only [Access.writes_write] at hw
      exact .inr (.inl hw.1.symm)

theorem oaepAddMask_wipes {emlen mdlen : Int} {s : State} {m : Int} {s' : State}
    (h : oaepAddMask lib mgf1md emlen mdlen s = some (m, s')) :
    s'.mem.read ⟨.dbmask, 0⟩ (sizeT (emlen - mdlen)) = List.replicate (sizeT (emlen - mdlen)) 0 ∨
      (m = 0 ∧ s' = s) := by
  unfold oaepAddMask at h
  dsimp only at h
  split_ifs at h
  · cases h
    exact .inr ⟨rfl, rfl⟩
  refine .inl ?_
  split at h
  · cases h
  split_ifs at h
  · cases h
    exact freezero_read _ _ _
  split at h
  · cases h
  split_ifs at h <;> cases h <;> exact freezero_read _ _ _

end Mask

/-! ### The encoder -/

/-- The encoder for every length the padding has room for, when its one
`malloc`, of `dbmask`, succeeds. -/
theorem rsaPaddingAddPkcs1OaepMgf1_spec (lib : Libc) (md mgf1md : EvpMd)
    (tlen flen plen : Int) (s : State) (hmd : 1 ≤ md.mdSize) (hmgf : 1 ≤ mgf1md.mdSize)
    (hrel : md.Reliable) (hrel' : mgf1md.Reliable)
    (hmalloc : lib.malloc (sizeT (tlen - 1 - md.mdSize)) = true)
    (hflen : 0 ≤ flen) (hfit : flen ≤ tlen - 2 * md.mdSize - 2) :
    ∃ s', rsaPaddingAddPkcs1OaepMgf1 lib md mgf1md tlen flen plen s = some (1, s') ∧
      s'.mem.read ⟨.toBuf, 0⟩ tlen.toNat =
        emeOaepEncode mgf1md (md.hash (s.mem.read ⟨.paramBuf, 0⟩ (sizeT plen)))
          (s.mem.read ⟨.fromBuf, 0⟩ flen.toNat)
          ((List.range md.mdSize.toNat).map lib.arc4random) tlen.toNat ∧
      ∃ t, s'.trace = s.trace ++ t ∧
        (∀ a ∈ t, ∀ r j, a.Writes r j →
          (r = .toBuf ∧ 0 ≤ j ∧ j < tlen) ∨ r = .dbmask ∨ r = .seedmask ∨ r = .md) ∧
        ∀ j, 0 ≤ j → j < tlen → ∃ a ∈ t, a.Writes .toBuf j := by
  obtain ⟨mdlen, hm⟩ : ∃ m : Nat, md.mdSize = m := ⟨md.mdSize.toNat, (Int.toNat_of_nonneg (by omega)).symm⟩
  obtain ⟨F, rfl⟩ : ∃ F : Nat, flen = F := ⟨flen.toNat, (Int.toNat_of_nonneg hflen).symm⟩
  obtain ⟨E, hE⟩ : ∃ E : Nat, tlen = E + 1 := ⟨(tlen - 1).toNat, by omega⟩
  subst hE
  rw [hm] at hfit
  have hFE : F + 2 * mdlen + 1 ≤ E := by omega
  have hmd' : md.mdSize.toNat = mdlen := by rw [hm, Int.toNat_natCast]
  have hH : ∀ x, (md.hash x).length = mdlen := fun x => by rw [md.hash_length, hmd']
  have hEm : ((E : Int) + 1 - 1) = (E : Int) := by omega
  obtain ⟨hl1, hl2⟩ := oaepAddLayout_reliable lib hrel E F plen mdlen s
  set sL := (oaepAddLayout lib md E F plen mdlen s).2
  have hlay := oaepAddLayout_mem lib hrel hm hFE plen s
  obtain ⟨s', hrun, hread, t, ht, hw⟩ := oaepAddMask_spec lib hrel' (by omega)
    (show mdlen < E by omega) (by rwa [hm, show (E : Int) + 1 - 1 - mdlen = ((E - mdlen : Nat) : Int) by
      omega, sizeT_natCast] at hmalloc) sL
  refine ⟨s', ?_, ?_, ?_⟩
  · simp only [rsaPaddingAddPkcs1OaepMgf1, hm, hEm, if_neg (show ¬ ((F : Int) > E - 2 * mdlen - 1) by omega),
      if_neg (show ¬ ((E : Int) < 2 * mdlen + 1) by omega)]
    rw [show oaepAddLayout lib md E F plen mdlen s = (true, sL) from Prod.ext hl1 rfl]
    exact hrun
  · -- split the layout into `0x00`, the seed and `DB`
    rw [show E + 1 = 1 + (mdlen + (E - mdlen)) by omega,
      show ∀ (a : UInt8) (b c : List UInt8), a :: (b ++ c) = [a] ++ (b ++ c) from fun _ _ _ => rfl]
      at hlay
    obtain ⟨h0, hrest⟩ := Mem.read_append_inj hlay rfl
    obtain ⟨hseed, hdb⟩ := Mem.read_append_inj hrest (by simp)
    rw [show ((⟨.toBuf, 0⟩ : Ptr).add ((1 : Nat) : Int)).add (mdlen : Int) = ⟨.toBuf, mdlen + 1⟩ by
      simp only [Ptr.mk_add]; congr 1; omega] at hdb
    rw [show (⟨.toBuf, 0⟩ : Ptr).add ((1 : Nat) : Int) = ⟨.toBuf, 1⟩ by simp] at hseed
    rw [show ((E : Int) + 1).toNat = E + 1 by omega, hread, h0, hseed, hdb]
    simp only [emeOaepEncode, hH, Int.toNat_natCast, hmd', Mem.length_read]
    rw [show E + 1 - F - 2 * mdlen - 2 = E - F - 2 * mdlen - 1 by omega,
      show E + 1 - mdlen - 1 = E - mdlen by omega]
    rfl
  · have hP : sizeT ((E : Int) - F - 2 * mdlen - 1) = E - F - 2 * mdlen - 1 := by
      rw [sizeT_of_nonneg (by omega)]; omega
    rw [hl2, hmd', hP, unsignedInt_of_nonneg (Int.natCast_nonneg F), sizeT_natCast,
      List.append_assoc] at ht
    refine ⟨_, ht, ?_, ?_⟩
    · intro a ha r j hwr
      rcases List.mem_append.1 ha with ha | ha
      · simp only [List.mem_cons, List.not_mem_nil, or_false] at ha
        rcases ha with rfl | rfl | rfl | rfl | rfl | rfl | rfl | rfl <;>
          simp only [Access.writes_write, Access.writes_read] at hwr <;>
          exact .inl ⟨hwr.1.symm, by omega, by omega⟩
      · rcases hw a ha r j hwr with h | h
        · exact .inl ⟨h.1, by omega, by omega⟩
        · exact .inr h
    · intro j hj0 hj1
      have cover : ∀ (o : Int) (n : Nat), o ≤ j → j < o + n →
          (Access.write ⟨.toBuf, o⟩ n).Writes .toBuf j := fun o n h1 h2 => by simp [h1, h2]
      rcases lt_or_le j 1 with h | h
      · exact ⟨_, List.mem_append_left _ (by simp only [List.mem_cons, Int.toNat_natCast, true_or,
          or_true]), cover 0 1 (by omega) (by omega)⟩
      rcases lt_or_le j (mdlen + 1) with h' | h'
      · exact ⟨_, List.mem_append_left _ (by simp only [List.mem_cons, Int.toNat_natCast, true_or,
          or_true]), cover 1 mdlen (by omega) (by omega)⟩
      rcases lt_or_le j (2 * mdlen + 1) with h'' | h''
      · exact ⟨_, List.mem_append_left _ (by simp only [List.mem_cons, Int.toNat_natCast, true_or,
          or_true]), cover (mdlen + 1) mdlen (by omega) (by omega)⟩
      rcases lt_or_le j (E - F) with h3 | h3
      · exact ⟨_, List.mem_append_left _ (by simp only [List.mem_cons, Int.toNat_natCast, true_or,
          or_true]),
          cover (mdlen + 1 + mdlen) (E - F - 2 * mdlen - 1) (by omega) (by omega)⟩
      rcases lt_or_le j (E - F + 1) with h4 | h4
      · exact ⟨_, List.mem_append_left _ (by simp only [List.mem_cons, Int.toNat_natCast, true_or,
          or_true]),
          cover (mdlen + 1 + (E - F - mdlen - 1)) 1 (by omega) (by omega)⟩
      · exact ⟨_, List.mem_append_left _ (by simp only [List.mem_cons, Int.toNat_natCast, true_or,
          or_true]),
          cover (mdlen + 1 + (E - F - mdlen)) F (by omega) (by omega)⟩

/-- **EME-OAEP.** For reliable digests of positive size, a successful `malloc`
and every length the padding has room for, the encoder returns 1 and leaves in
`to[0..tlen)` the EME-OAEP encoding of the message `from[0..flen)` under the
label `param[0..plen)` and the seed `arc4random_buf` drew; it writes every byte
of `to[0..tlen)`, no byte of `to` outside it, and nothing else but its own
`dbmask`, `seedmask` and the `md` of `PKCS1_MGF1`. -/
theorem rsaPaddingAddPkcs1OaepMgf1_eq_emeOaepEncode (lib : Libc) (md mgf1md : EvpMd)
    (tlen flen plen : Int) (s : State) (hmd : 1 ≤ md.mdSize) (hmgf : 1 ≤ mgf1md.mdSize)
    (hrel : md.Reliable) (hrel' : mgf1md.Reliable) (hmalloc : ∀ n, lib.malloc n = true)
    (hflen : 0 ≤ flen) (hfit : flen ≤ tlen - 2 * md.mdSize - 2) :
    ∃ s', rsaPaddingAddPkcs1OaepMgf1 lib md mgf1md tlen flen plen s = some (1, s') ∧
      s'.mem.read ⟨.toBuf, 0⟩ tlen.toNat =
        emeOaepEncode mgf1md (md.hash (s.mem.read ⟨.paramBuf, 0⟩ (sizeT plen)))
          (s.mem.read ⟨.fromBuf, 0⟩ flen.toNat)
          ((List.range md.mdSize.toNat).map lib.arc4random) tlen.toNat ∧
      ∃ t, s'.trace = s.trace ++ t ∧
        (∀ a ∈ t, ∀ r j, a.Writes r j →
          (r = .toBuf ∧ 0 ≤ j ∧ j < tlen) ∨ r = .dbmask ∨ r = .seedmask ∨ r = .md) ∧
        ∀ j, 0 ≤ j → j < tlen → ∃ a ∈ t, a.Writes .toBuf j :=
  rsaPaddingAddPkcs1OaepMgf1_spec lib md mgf1md tlen flen plen s hmd hmgf hrel hrel' (hmalloc _)
    hflen hfit

theorem rsaPaddingAddPkcs1OaepMgf1_eq_emeOaepEncode_byteSum :
    1 ≤ EvpMd.byteSum.mdSize ∧ EvpMd.byteSum.Reliable ∧ (∀ n, Libc.always.malloc n = true) ∧
      (0 : Int) ≤ 1 ∧ (1 : Int) ≤ 5 - 2 * EvpMd.byteSum.mdSize - 2 ∧
      ∃ s', rsaPaddingAddPkcs1OaepMgf1 Libc.always EvpMd.byteSum EvpMd.byteSum 5 1 1 State.sample =
          some (1, s') ∧
        s'.mem.read ⟨.toBuf, 0⟩ (5 : Int).toNat =
          emeOaepEncode EvpMd.byteSum (EvpMd.byteSum.hash (State.sample.mem.read ⟨.paramBuf, 0⟩ (sizeT 1)))
            (State.sample.mem.read ⟨.fromBuf, 0⟩ (1 : Int).toNat)
            ((List.range EvpMd.byteSum.mdSize.toNat).map Libc.always.arc4random) (5 : Int).toNat ∧
        ∃ t, s'.trace = State.sample.trace ++ t ∧
          (∀ a ∈ t, ∀ r j, a.Writes r j →
            (r = .toBuf ∧ 0 ≤ j ∧ j < 5) ∨ r = .dbmask ∨ r = .seedmask ∨ r = .md) ∧
          ∀ j, 0 ≤ j → j < 5 → ∃ a ∈ t, a.Writes .toBuf j :=
  ⟨by decide, EvpMd.byteSum_reliable, fun _ => rfl, by decide, by decide,
    rsaPaddingAddPkcs1OaepMgf1_eq_emeOaepEncode Libc.always _ _ 5 1 1 State.sample
      (by decide) (by decide) EvpMd.byteSum_reliable EvpMd.byteSum_reliable (fun _ => rfl)
      (by decide) (by decide)⟩

/-! ### Every run, whatever the digest calls report -/

/-- How far into each buffer the encoder may reach: `to[0..T)`, `from[0..F)`,
`param[0..P)`, `dbmask[0..D)`, `seedmask[0..h)` and `g` bytes of the `md` of
`PKCS1_MGF1`; none of the decoder's buffers. -/
def addBound (T F P D h g : Int) : Region → Int
  | .toBuf => T
  | .fromBuf => F
  | .paramBuf => P
  | .dbmask => D
  | .seedmask => h
  | .md => g
  | .db | .seed | .phash => 0

section Confined

variable (lib : Libc) {md mgf1md : EvpMd} {bound : Region → Int}

theorem oaepAddLayout_confined {emlen flen plen : Int} (s : State) (hmd : 0 ≤ md.mdSize)
    (hflen : 0 ≤ flen) (hfit : flen + 2 * md.mdSize + 1 ≤ emlen) (hto : emlen + 1 ≤ bound .toBuf)
    (hfrom : flen ≤ bound .fromBuf) (hparam : (sizeT plen : Int) ≤ bound .paramBuf) :
    Confined bound s (oaepAddLayout lib md emlen flen plen md.mdSize s).2 := by
  have hP : (sizeT (emlen - flen - 2 * md.mdSize - 1) : Int) = emlen - flen - 2 * md.mdSize - 1 := by
    rw [sizeT_of_nonneg (by omega)]; omega
  have hF : (unsignedInt flen : Int) = flen := by rw [unsignedInt_of_nonneg hflen]; omega
  have hM : (sizeT md.mdSize : Int) = md.mdSize := by rw [sizeT_of_nonneg hmd]; omega
  have c0 : Confined bound s (storeByte s ⟨.toBuf, 0⟩ 0) :=
    .of_trace (storeByte_trace _ _ _) (by simpa using Access.bounded_write le_rfl (by simp; omega))
  have c1 : Confined bound (storeByte s ⟨.toBuf, 0⟩ 0) _ := confined_evpDigest md ⟨.paramBuf, 0⟩
    (sizeT plen) ⟨.toBuf, md.mdSize + 1⟩ _ ⟨le_rfl, by simpa using hparam⟩ ⟨by simp; omega, by simp; omega⟩
  unfold oaepAddLayout
  dsimp only
  rcases hd : evpDigest md ⟨.paramBuf, 0⟩ (sizeT plen) ⟨.toBuf, md.mdSize + 1⟩
    (storeByte s ⟨.toBuf, 0⟩ 0) with ⟨_ | _, s1⟩ <;> simp only [hd] at c1 ⊢
  · exact c0.trans c1
  -- the padding, the separator, the message and the seed
  refine c0.trans (c1.trans (.of_trace (t := [
    .write ⟨.toBuf, md.mdSize + 1 + md.mdSize⟩ (sizeT (emlen - flen - 2 * md.mdSize - 1)),
    .write ⟨.toBuf, md.mdSize + 1 + (emlen - flen - md.mdSize - 1)⟩ 1,
    .read ⟨.fromBuf, 0⟩ (unsignedInt flen),
    .write ⟨.toBuf, md.mdSize + 1 + (emlen - flen - md.mdSize)⟩ (unsignedInt flen),
    .write ⟨.toBuf, 1⟩ (sizeT md.mdSize)]) (by simp) ?_))
  simp only [List.mem_cons, List.not_mem_nil, or_false]
  rintro a (rfl | rfl | rfl | rfl | rfl)
  · exact Access.bounded_write (by simp; omega) (by simp; omega)
  · exact Access.bounded_write (by simp; omega) (by simp; omega)
  · exact Access.bounded_read le_rfl (by simp; omega)
  · exact Access.bounded_write (by simp; omega) (by simp; omega)
  · exact Access.bounded_write (by simp) (by simp; omega)

theorem oaepAddMask_confined (hmgf : 0 < mgf1md.mdSize) {emlen mdlen : Int} (s : State)
    (hmd : 0 ≤ mdlen) (hE : mdlen ≤ emlen) (hto : emlen + 1 ≤ bound .toBuf)
    (hdbm : emlen - mdlen ≤ bound .dbmask) (hsm : mdlen ≤ bound .seedmask)
    (hg : mgf1md.mdSize ≤ bound .md) :
    ∃ r, oaepAddMask lib mgf1md emlen mdlen s = some r ∧ Confined bound s r.2 := by
  have hD : (sizeT (emlen - mdlen) : Int) = emlen - mdlen := by rw [sizeT_of_nonneg (by omega)]; omega
  have hM : (sizeT mdlen : Int) = mdlen := by rw [sizeT_of_nonneg hmd]; omega
  have hg' : ((mgf1md.mdSize.toNat : Nat) : Int) ≤ bound .md := by omega
  -- every exit after `malloc` clears `dbmask`
  have cz : ∀ t, Confined bound t (freezero t ⟨.dbmask, 0⟩ (sizeT (emlen - mdlen))) := fun t =>
    .of_trace (freezero_trace _ _ _) (by simpa using Access.bounded_write le_rfl (by simp; omega))
  unfold oaepAddMask
  dsimp only
  split_ifs
  · exact ⟨_, rfl, .refl s⟩
  obtain ⟨rv, s1, h1, p1⟩ := pkcs1Mgf1_safe ⟨.dbmask, 0⟩ ⟨.toBuf, 1⟩ (emlen - mdlen) mdlen hmgf
    (by omega) s
  have c1 : Confined bound s s1 := p1.confined ⟨le_rfl, by simp; omega⟩ ⟨by simp, by simp; omega⟩ hg'
  simp only [h1]
  split_ifs
  · exact ⟨_, rfl, c1.trans (cz _)⟩
  have c2 : Confined bound s1 (xorLoop s1 ⟨.toBuf, mdlen + 1⟩ ⟨.dbmask, 0⟩ (emlen - mdlen).toNat) :=
    xorLoop_bounded s1 ⟨by simp; omega, by simp; omega⟩ ⟨le_rfl, by simp; omega⟩
  obtain ⟨rv', s3, h3, p3⟩ := pkcs1Mgf1_safe ⟨.seedmask, 0⟩ ⟨.toBuf, mdlen + 1⟩ mdlen (emlen - mdlen)
    hmgf hmd (xorLoop s1 ⟨.toBuf, mdlen + 1⟩ ⟨.dbmask, 0⟩ (emlen - mdlen).toNat)
  have c3 := c2.trans (p3.confined ⟨le_rfl, by simp; omega⟩ ⟨by simp; omega, by simp; omega⟩ hg')
  simp only [h3]
  split_ifs
  · exact ⟨_, rfl, c1.trans (c3.trans (cz _))⟩
  · have c4 : Confined bound s3 (xorLoop s3 ⟨.toBuf, 1⟩ ⟨.seedmask, 0⟩ mdlen.toNat) :=
      xorLoop_bounded s3 ⟨by simp, by simp; omega⟩ ⟨le_rfl, by simp; omega⟩
    exact ⟨_, rfl, c1.trans (c3.trans (c4.trans (cz _)))⟩

end Confined

/-- **`dbmask` is wiped.** Every run of the encoder that returns, for every
length and whatever the digest calls and `PKCS1_MGF1` report, either leaves
`dbmask[0..dbmasklen)` zero, or returns 0 without having written `dbmask`. -/
theorem rsaPaddingAddPkcs1OaepMgf1_wipes_dbmask (lib : Libc) (md mgf1md : EvpMd)
    (tlen flen plen : Int) (s : State) {m : Int} {s' : State}
    (h : rsaPaddingAddPkcs1OaepMgf1 lib md mgf1md tlen flen plen s = some (m, s')) :
    s'.mem.read ⟨.dbmask, 0⟩ (sizeT (tlen - 1 - md.mdSize)) =
        List.replicate (sizeT (tlen - 1 - md.mdSize)) 0 ∨
      (m = 0 ∧ ∀ j, s'.mem .dbmask j = s.mem .dbmask j) := by
  have hframe := fun j =>
    @oaepAddLayout_frame lib md (tlen - 1) flen plen md.mdSize s .dbmask j (by decide)
  unfold rsaPaddingAddPkcs1OaepMgf1 at h
  dsimp only at h
  split_ifs at h
  · cases h
    exact .inr ⟨rfl, fun _ => rfl⟩
  · cases h
    exact .inr ⟨rfl, fun _ => rfl⟩
  rcases hL : oaepAddLayout lib md (tlen - 1) flen plen md.mdSize s with ⟨_ | _, sL⟩ <;>
    simp only [hL] at h hframe
  · cases h
    exact .inr ⟨rfl, hframe⟩
  · rcases oaepAddMask_wipes lib h with h' | ⟨rfl, rfl⟩
    · exact .inl h'
    · exact .inr ⟨rfl, hframe⟩

theorem rsaPaddingAddPkcs1OaepMgf1_wipes_dbmask_byteSum :
    ∃ m s', rsaPaddingAddPkcs1OaepMgf1 Libc.always EvpMd.byteSum EvpMd.byteSum 5 1 1
        State.sample = some (m, s') ∧
      (s'.mem.read ⟨.dbmask, 0⟩ (sizeT (5 - 1 - EvpMd.byteSum.mdSize)) =
          List.replicate (sizeT (5 - 1 - EvpMd.byteSum.mdSize)) 0 ∨
        (m = 0 ∧ ∀ j, s'.mem .dbmask j = State.sample.mem .dbmask j)) := by
  obtain ⟨s', hrun, -⟩ := rsaPaddingAddPkcs1OaepMgf1_spec Libc.always
    EvpMd.byteSum EvpMd.byteSum 5 1 1 State.sample (by decide) (by decide) EvpMd.byteSum_reliable
    EvpMd.byteSum_reliable rfl (by decide) (by decide)
  exact ⟨1, s', hrun, rsaPaddingAddPkcs1OaepMgf1_wipes_dbmask _ _ _ 5 1 1 _ hrun⟩

/-! ### A negative `flen` -/

/-- Both guards admit every negative `flen` once `tlen` has room for the two
digests: the encoder then stores the `0x01` separator at
`to[tlen - flen - 1]`, past the end of `to`, copies `(unsigned int)flen`
bytes from `from`, and returns 1. -/
theorem rsaPaddingAddPkcs1OaepMgf1_of_neg_flen (lib : Libc) (md mgf1md : EvpMd)
    (tlen flen plen : Int) (s : State) (hmgf : 1 ≤ mgf1md.mdSize) (hrel : md.Reliable)
    (hrel' : mgf1md.Reliable) (hmalloc : ∀ n, lib.malloc n = true) (hneg : flen < 0)
    (hroom : 2 * md.mdSize + 2 ≤ tlen) (hmd : 0 ≤ md.mdSize) :
    ∃ s', rsaPaddingAddPkcs1OaepMgf1 lib md mgf1md tlen flen plen s = some (1, s') ∧
      Access.write ⟨.toBuf, md.mdSize + 1 + (tlen - 1 - flen - md.mdSize - 1)⟩ 1 ∈ s'.trace ∧
      Access.read ⟨.fromBuf, 0⟩ (unsignedInt flen) ∈ s'.trace := by
  obtain ⟨mdlen, hm⟩ : ∃ m : Nat, md.mdSize = m := ⟨md.mdSize.toNat, (Int.toNat_of_nonneg hmd).symm⟩
  obtain ⟨E, hE⟩ : ∃ E : Nat, tlen - 1 = E := ⟨(tlen - 1).toNat, by omega⟩
  obtain ⟨hl1, hl2⟩ := oaepAddLayout_reliable lib hrel (tlen - 1) flen plen md.mdSize s
  set sL := (oaepAddLayout lib md (tlen - 1) flen plen md.mdSize s).2
  obtain ⟨s', hrun, -, t, ht, -⟩ := oaepAddMask_spec lib hrel' (by omega)
    (show mdlen < E by omega) (hmalloc _) sL
  refine ⟨s', ?_, ?_, ?_⟩
  · simp only [rsaPaddingAddPkcs1OaepMgf1, if_neg (show ¬ (flen > tlen - 1 - 2 * md.mdSize - 1) by omega),
      if_neg (show ¬ (tlen - 1 < 2 * md.mdSize + 1) by omega)]
    rw [show oaepAddLayout lib md (tlen - 1) flen plen md.mdSize s = (true, sL) from Prod.ext hl1 rfl,
      hE, hm]
    exact hrun
  all_goals rw [ht, hl2]; simp

/-- `flen = -1` with a one-byte digest and `tlen = 4`: the encoder returns 1,
writes `to[4]` of the four-byte `to` and copies `2 ^ 32 - 1` bytes from `from`. -/
theorem rsaPaddingAddPkcs1OaepMgf1_neg_flen :
    ∃ s', rsaPaddingAddPkcs1OaepMgf1 ⟨fun _ => true, fun _ => 0⟩ EvpMd.byteSum EvpMd.byteSum
        4 (-1) 0 State.zero = some (1, s') ∧
      Access.write ⟨.toBuf, 4⟩ 1 ∈ s'.trace ∧ Access.read ⟨.fromBuf, 0⟩ (2 ^ 32 - 1) ∈ s'.trace :=
  rsaPaddingAddPkcs1OaepMgf1_of_neg_flen _ _ _ 4 (-1) 0 State.zero (by decide)
    EvpMd.byteSum_reliable EvpMd.byteSum_reliable (fun _ => rfl) (by decide) (by decide) (by decide)

end Rsa
end Libcrypto
