import Libcrypto.Rsa.Mgf1

/-!
# EME-OAEP

The encoding of PKCS #1 that `rsa_oaep.c` implements, as functions on byte
strings.  For a `k`-byte block, a label digest `lHash` of `hLen` bytes, a message
`M` and a seed,

    DB = lHash ‖ PS ‖ 0x01 ‖ M,   maskedDB = DB ⊕ MGF1(seed, k - hLen - 1),
    maskedSeed = seed ⊕ MGF1(maskedDB, hLen),   EM = 0x00 ‖ maskedSeed ‖ maskedDB

with `PS` the zero bytes that fill `DB`.  Decoding runs the masks backwards and
looks for `lHash`, the zeros and the `0x01` separator.

The two laws below are what the C code is checked against: decoding undoes
encoding, and accepts the label digest it was encoded with and no other
(`emeOaepDecode_emeOaepEncode`); and every block decoding accepts is the
encoding of what it returns (`emeOaepEncode_of_emeOaepDecode`).
-/

namespace Libcrypto
namespace Rsa

/-- EME-OAEP encoding: `0x00 ‖ maskedSeed ‖ maskedDB` in `k` bytes, for the
message `M`, the label digest `lHash` and the seed. -/
def emeOaepEncode (mgf1md : EvpMd) (lHash M seed : List UInt8) (k : Nat) : List UInt8 :=
  let hLen := lHash.length
  let db := lHash ++ List.replicate (k - M.length - 2 * hLen - 2) 0 ++ [1] ++ M
  let maskedDB := xorBytes db (mgf1 mgf1md seed (k - hLen - 1))
  let maskedSeed := xorBytes seed (mgf1 mgf1md maskedDB hLen)
  0 :: (maskedSeed ++ maskedDB)

/-- The end of `DB` after the label digest must be `PS ‖ 0x01 ‖ M` with `PS`
all zero: the message `M`, or `none`. -/
def oaepUnpad (rest : List UInt8) : Option (List UInt8) :=
  match rest.dropWhile (· == 0) with
  | b :: M => if b = 1 then some M else none
  | [] => none

/-- EME-OAEP decoding of `EM[1..k)`, the block without its leading byte, under
the label digest `lHash`: the message, or `none` for a decoding error. -/
def emeOaepDecode (mgf1md : EvpMd) (lHash EM : List UInt8) : Option (List UInt8) :=
  let hLen := lHash.length
  let seed := xorBytes (EM.take hLen) (mgf1 mgf1md (EM.drop hLen) hLen)
  let db := xorBytes (EM.drop hLen) (mgf1 mgf1md seed (EM.length - hLen))
  if db.take hLen = lHash then oaepUnpad (db.drop hLen) else none

/-- `DB` as EME-OAEP decoding recovers it from `EM[1..k)` with label digests of
`hLen` bytes. -/
def emeOaepUnmask (mgf1md : EvpMd) (hLen : Nat) (EM : List UInt8) : List UInt8 :=
  let seed := xorBytes (EM.take hLen) (mgf1 mgf1md (EM.drop hLen) hLen)
  xorBytes (EM.drop hLen) (mgf1 mgf1md seed (EM.length - hLen))

/-- What the checks of decoding show by the order in which they read `DB`:
`none` when `DB` does not start with the label digest `lHash`, else the number
of zero bytes after the label digest and whether the separator follows them. -/
def oaepCheckView (lHash db : List UInt8) : Option (Nat × Bool) :=
  if db.take lHash.length = lHash then
    some (((db.drop lHash.length).takeWhile (· == 0)).length,
      (oaepUnpad (db.drop lHash.length)).isSome)
  else none

/-! ### The separator -/

theorem oaepUnpad_replicate (z : Nat) (M : List UInt8) :
    oaepUnpad (List.replicate z 0 ++ 1 :: M) = some M := by
  rw [oaepUnpad, List.dropWhile_append_of_pos (by simp)]
  rfl

theorem eq_of_oaepUnpad {rest M : List UInt8} (h : oaepUnpad rest = some M) :
    rest = List.replicate (rest.length - M.length - 1) 0 ++ 1 :: M := by
  have hsplit := List.takeWhile_append_dropWhile (· == (0 : UInt8)) rest
  have hz : rest.takeWhile (· == 0) = List.replicate (rest.takeWhile (· == 0)).length 0 :=
    List.eq_replicate_iff.2 ⟨rfl, fun b hb => by simpa using List.mem_takeWhile_imp hb⟩
  unfold oaepUnpad at h
  split at h
  · next b M' hd =>
    split_ifs at h with hb
    cases h
    rw [hd, hb] at hsplit
    have hlen := congrArg List.length hsplit
    simp only [List.length_append, List.length_cons] at hlen
    rw [show rest.length - M.length - 1 = (rest.takeWhile (· == 0)).length by omega, ← hz]
    exact hsplit.symm
  · cases h

/-! ### Decoding undoes encoding -/

section Laws

variable {mgf1md : EvpMd} (hpos : 0 < mgf1md.mdSize.toNat)
include hpos

/-- **Round trip with label binding.** Decoding an encoding under a label digest
of the same length gives the message back exactly when the two label digests
agree. -/
theorem emeOaepDecode_emeOaepEncode {lHash lHash' M seed : List UInt8} {k : Nat}
    (hs : seed.length = lHash.length) (hl : lHash'.length = lHash.length)
    (hk : M.length + 2 * lHash.length + 2 ≤ k) :
    emeOaepDecode mgf1md lHash' (emeOaepEncode mgf1md lHash M seed k).tail =
      if lHash' = lHash then some M else none := by
  obtain ⟨h, hh⟩ : ∃ h, lHash.length = h := ⟨_, rfl⟩
  rw [hh] at hs hl hk
  simp only [emeOaepDecode, emeOaepEncode, List.tail_cons, hh, hl]
  generalize hdb : lHash ++ List.replicate (k - M.length - 2 * h - 2) 0 ++ [1] ++ M = db
  have hdbl : db.length = k - h - 1 := by
    rw [← hdb]
    simp only [List.length_append, List.length_replicate, List.length_singleton, hh]
    omega
  generalize hmdb : xorBytes db (mgf1 mgf1md seed (k - h - 1)) = maskedDB
  have hmdbl : maskedDB.length = k - h - 1 := by
    rw [← hmdb, length_xorBytes, length_mgf1 hpos, hdbl, min_self]
  have hms : (xorBytes seed (mgf1 mgf1md maskedDB h)).length = h := by
    rw [length_xorBytes, length_mgf1 hpos, hs, min_self]
  -- both masks come off
  rw [List.take_left' hms, List.drop_left' hms,
    xorBytes_xorBytes_cancel (by rw [length_mgf1 hpos, hs]), List.length_append, hms, hmdbl,
    show h + (k - h - 1) - h = k - h - 1 by omega, ← hmdb,
    xorBytes_xorBytes_cancel (by rw [length_mgf1 hpos, hdbl])]
  have htake : db.take h = lHash := by
    rw [← hdb, List.append_assoc, List.append_assoc, List.take_left' hh]
  have hdrop : db.drop h = List.replicate (k - M.length - 2 * h - 2) 0 ++ 1 :: M := by
    rw [← hdb, List.append_assoc, List.append_assoc, List.drop_left' hh]
    simp
  rw [htake, hdrop, oaepUnpad_replicate]
  by_cases he : lHash' = lHash
  · simp [he]
  · simp [he, Ne.symm he]

theorem length_le_of_emeOaepDecode {lHash B M : List UInt8}
    (hd : emeOaepDecode mgf1md lHash B = some M) : M.length + 2 * lHash.length + 1 ≤ B.length := by
  simp only [emeOaepDecode] at hd
  split_ifs at hd
  have hlen := congrArg List.length (eq_of_oaepUnpad hd)
  simp only [List.length_drop, List.length_append, List.length_replicate, List.length_cons,
    length_xorBytes, length_mgf1 hpos, min_self] at hlen
  omega

/-- **Only encodings decode.** A block that decodes is the encoding of the
message it decodes to, under the seed its masks give back. -/
theorem emeOaepEncode_of_emeOaepDecode {lHash B M : List UInt8}
    (hB : 2 * lHash.length + 1 ≤ B.length) (hd : emeOaepDecode mgf1md lHash B = some M) :
    emeOaepEncode mgf1md lHash M
        (xorBytes (B.take lHash.length) (mgf1 mgf1md (B.drop lHash.length) lHash.length))
        (B.length + 1) = 0 :: B := by
  obtain ⟨h, hh⟩ : ∃ h, lHash.length = h := ⟨_, rfl⟩
  rw [hh] at hB ⊢
  simp only [emeOaepDecode, hh] at hd
  generalize hseed : xorBytes (B.take h) (mgf1 mgf1md (B.drop h) h) = seed at hd ⊢
  generalize hdb : xorBytes (B.drop h) (mgf1 mgf1md seed (B.length - h)) = db at hd
  split_ifs at hd with htake
  have hdbl : db.length = B.length - h := by
    rw [← hdb, length_xorBytes, List.length_drop, length_mgf1 hpos, min_self]
  have hrest := eq_of_oaepUnpad hd
  have hMlen := congrArg List.length hrest
  simp only [List.length_drop, List.length_append, List.length_replicate, List.length_cons,
    hdbl] at hMlen
  -- the encoder lays out `db` again
  have hDB : lHash ++ List.replicate (B.length + 1 - M.length - 2 * h - 2) 0 ++ [1] ++ M = db := by
    rw [← List.take_append_drop h db, htake, hrest, List.length_drop, hdbl,
      show B.length + 1 - M.length - 2 * h - 2 = B.length - h - h - M.length - 1 by omega]
    simp only [List.append_assoc, List.singleton_append]
  simp only [emeOaepEncode, hh]
  rw [hDB, show B.length + 1 - h - 1 = B.length - h by omega, ← hdb,
    xorBytes_xorBytes_cancel (by rw [length_mgf1 hpos, List.length_drop]), ← hseed,
    xorBytes_xorBytes_cancel (by rw [length_mgf1 hpos, List.length_take]; omega),
    List.take_append_drop]

end Laws

end Rsa
end Libcrypto
