import Libcrypto.Evp
import Libcrypto.Sm2.Verify

/-!
# `SM2_sig_gen`, `SM2_do_sign` and `SM2_do_verify`

The signer draws nonces until one gives a signature:

    k ← BN_rand_range(n),   (x1, _) = [k]G,   r = (e + x1) mod n,
    retry if r = 0 or r + k = n,
    s = (1 + dA)⁻¹ · (k - r·dA) mod n.

`sm2SigGenPass` is the loop body for one nonce, and the loop runs over the list
of values `BN_rand_range` returns, `none` for a failed call; it ends in `none`
when the list runs out before the loop does.  The nonces have type
`Fin n`, the range `BN_rand_range` draws from.

`Signs` collects what a signature emitted for the nonce `k` satisfies
(`sm2SigGenPass_signs`); the verification equation `[s]G + [t]PA = [k]G` follows
from it (`Signs.point_eq`).  Step A6 of SM2 also draws again when `s = 0`; the
code does not, and the verifier rejects such a signature in B2.  So the
verifier accepts what the signer emits exactly when `s ≠ 0`
(`sm2SigVerify_sm2SigGen`), and for every key and nonzero nonce some digest
value makes the signer emit `s = 0` (`sm2SigGen_zero_s`).

`SM2_do_sign` and `SM2_do_verify` digest `ZA ‖ M` into the value `e` both use
(`sm2DoVerify_sm2DoSign`).
-/

namespace Libcrypto
namespace Sm2

variable {P : Type} [AddCommGroup P]

/-- How one pass of the loop of `SM2_sig_gen` ends: `continue`, `goto done`
without a signature, or `break` with one. -/
inductive Pass
  | retry
  | fail
  | done (sig : EcdsaSig)
deriving DecidableEq, Repr

/-- The body of the loop of `SM2_sig_gen` once `BN_rand_range` has drawn `k`. -/
def sm2SigGenPass (key : EcKey P) (e : Int) (order : Nat) (k : Int) : Pass :=
  match key.group.affineX (ecPointMul key.group k 0 0) with
  | none => .fail
  | some x1 =>
    let r := bnModAdd e x1 order
    if r = 0 then .retry
    else
      let rk := r + k
      if rk = order then .retry
      else
        match bnModInverse (key.priv + 1) order with
        | none => .fail
        | some s =>
          let tmp := bnModMul key.priv r order
          let tmp := k - tmp
          .done ⟨r, bnModMul s tmp order⟩

/-- The `for (;;)` loop over the values `BN_rand_range` returns: `none` when the
draws run out first, else what `SM2_sig_gen` returns. -/
def sm2SigGenLoop (key : EcKey P) (e : Int) (order : Nat) :
    List (Option (Fin key.group.order)) → Option (Option EcdsaSig)
  | [] => none
  | none :: _ => some none
  | some k :: draws =>
    match sm2SigGenPass key e order k.val with
    | .retry => sm2SigGenLoop key e order draws
    | .fail => some none
    | .done sig => some (some sig)

/-- `SM2_sig_gen(key, e)`.  `alloc` says whether `BN_new`, `EC_POINT_new`,
`BN_CTX_new`, `BN_CTX_get` and `ECDSA_SIG_new` return memory; each failure
among them ends in `NULL`. -/
def sm2SigGen (alloc : Bool) (key : EcKey P) (e : Int)
    (draws : List (Option (Fin key.group.order))) : Option (Option EcdsaSig) :=
  if !alloc then some none
  else
    match ecGroupGetOrder key.group with
    | none => some none
    | some order => sm2SigGenLoop key e order draws

@[simp] theorem sm2SigGen_false (key : EcKey P) (e : Int)
    (draws : List (Option (Fin key.group.order))) : sm2SigGen false key e draws = some none :=
  rfl

theorem add_eq_order_iff_dvd {n r k : Int} (hr : 1 ≤ r) (hrn : r < n) (hk : 0 ≤ k) (hkn : k < n) :
    r + k = n ↔ n ∣ r + k := by
  refine ⟨fun h => h ▸ dvd_refl n, fun h => ?_⟩
  -- `r + k - n` is a multiple of `n` in `[0, n)`
  have hle := Int.le_of_dvd (by omega) h
  have := Int.eq_zero_of_dvd_of_nonneg_of_lt (by omega) (by omega) (dvd_sub h (dvd_refl n))
  omega

theorem sm2SigGenLoop_emod (key : EcKey P) (e : Int) (order : Nat)
    (draws : List (Option (Fin key.group.order))) :
    sm2SigGenLoop key (e % order) order draws = sm2SigGenLoop key e order draws := by
  have hpass : ∀ k, sm2SigGenPass key (e % order) order k = sm2SigGenPass key e order k := fun k => by
    simp only [sm2SigGenPass, bnModAdd_emod_left]
  induction draws with
  | nil => rfl
  | cons d draws ih =>
    rcases d with _ | k
    · rfl
    simp only [sm2SigGenLoop, hpass, ih]

theorem sm2SigGen_emod (alloc : Bool) (key : EcKey P) (e : Int)
    (draws : List (Option (Fin key.group.order))) :
    sm2SigGen alloc key (e % key.group.order) draws = sm2SigGen alloc key e draws := by
  unfold sm2SigGen
  rcases hg : ecGroupGetOrder key.group with _ | n
  · rfl
  obtain ⟨rfl, -⟩ := ecGroupGetOrder_eq_some hg
  simp only [sm2SigGenLoop_emod]

/-! ### One pass -/

/-- What a signature the signer emits for the nonce `k` satisfies. -/
structure Signs (key : EcKey P) (e k : Int) (sig : EcdsaSig) : Prop where
  one_le_r : 1 ≤ sig.r
  r_lt : sig.r < key.group.order
  s_nonneg : 0 ≤ sig.s
  s_lt : sig.s < key.group.order
  /-- `s·(1 + dA) ≡ k - r·dA (mod n)`. -/
  signing : (sig.s : ZMod key.group.order) * (1 + key.priv) = k - sig.r * key.priv
  not_dvd : ¬ (key.group.order : Int) ∣ sig.r + k
  x_eq : ∃ x, key.group.affineX (k • key.group.generator) = some x ∧
    (e + x) % key.group.order = sig.r

theorem sm2SigGenPass_signs {key : EcKey P} {e k : Int} {sig : EcdsaSig}
    (hn : 0 < key.group.order) (hk0 : 0 ≤ k) (hkn : k < key.group.order)
    (h : sm2SigGenPass key e key.group.order k = .done sig) : Signs key e k sig := by
  unfold sm2SigGenPass at h
  rw [ecPointMul_zero] at h
  rcases hx : key.group.affineX (k • key.group.generator) with _ | x1 <;> rw [hx] at h
  · cases h
  obtain ⟨r, hr⟩ : ∃ r, bnModAdd e x1 key.group.order = r := ⟨_, rfl⟩
  simp only [hr] at h
  split_ifs at h with hr0 hrk
  rcases hu : bnModInverse (key.priv + 1) key.group.order with _ | u <;> rw [hu] at h
  · cases h
  cases h
  have hr1 := bnModAdd_nonneg e x1 hn
  have hr2 := bnModAdd_lt e x1 hn
  rw [hr] at hr1 hr2
  have hinv := (bnModInverse_spec hu).2.2
  push_cast at hinv
  refine ⟨show 1 ≤ r by omega, hr2, bnModMul_nonneg _ _ hn, bnModMul_lt _ _ hn, ?_, ?_, x1, hx, hr⟩
  · simp only [cast_bnModMul, Int.cast_sub, Int.cast_mul]
    linear_combination ((k : ZMod key.group.order) - key.priv * r) * hinv
  · rwa [← add_eq_order_iff_dvd (by omega) hr2 hk0 hkn]

theorem sm2SigGenPass_retry_iff (key : EcKey P) (e : Int) {k : Int} {x1 : Nat}
    (hk0 : 0 ≤ k) (hkn : k < key.group.order)
    (hx : key.group.affineX (k • key.group.generator) = some x1) :
    sm2SigGenPass key e key.group.order k = .retry ↔
      (e + x1) % key.group.order = 0 ∨
        (key.group.order : Int) ∣ (e + x1) % key.group.order + k := by
  have hn : 0 < key.group.order := by omega
  have hr1 := bnModAdd_nonneg e x1 hn
  have hr2 := bnModAdd_lt e x1 hn
  simp only [bnModAdd] at hr1 hr2
  simp only [sm2SigGenPass, ecPointMul_zero, hx, bnModAdd]
  split_ifs with hr0 hrk
  · simp [hr0]
  · simp [hrk]
  · rw [add_eq_order_iff_dvd (by omega) hr2 hk0 hkn] at hrk
    refine iff_of_false (by split <;> simp) ?_
    rintro (h | h)
    · exact hr0 h
    · exact hrk h

theorem Signs.t_ne_zero {key : EcKey P} {e k : Int} {sig : EcdsaSig} (hs : Signs key e k sig) :
    (sig.r + sig.s) % (key.group.order : Int) ≠ 0 := fun ht => hs.not_dvd <| by
  have h1 := (ZMod.intCast_zmod_eq_zero_iff_dvd _ _).2 (Int.dvd_of_emod_eq_zero ht)
  rw [← ZMod.intCast_zmod_eq_zero_iff_dvd]
  push_cast at h1 ⊢
  linear_combination (1 + (key.priv : ZMod key.group.order)) * h1 - hs.signing

theorem Signs.point_eq {key : EcKey P} {e k : Int} {sig : EcdsaSig} (hs : Signs key e k sig)
    (hpub : key.pub = key.priv • key.group.generator) :
    sig.s • key.group.generator + ((sig.r + sig.s) % (key.group.order : Int)) • key.pub =
      k • key.group.generator := by
  rw [hpub, smul_smul, ← add_zsmul]
  apply key.group.zsmul_generator_eq
  push_cast [ZMod.intCast_mod]
  linear_combination hs.signing

theorem Signs.sm2SigVerify_eq {key : EcKey P} {e k : Int} {sig : EcdsaSig}
    (hs : Signs key e k sig) (hpub : key.pub = key.priv • key.group.generator) :
    sm2SigVerify true key sig e = if sig.s = 0 then 0 else 1 := by
  have := hs.s_nonneg
  split_ifs with h0
  · exact sm2SigVerify_of_s_lt_one true key e (by omega)
  obtain ⟨x, hx, hxr⟩ := hs.x_eq
  have := hs.r_lt
  have := hs.s_lt
  rw [sm2SigVerify_eq_one_iff]
  simp only [SigValid, hs.point_eq hpub]
  exact ⟨hs.one_le_r, by omega, by omega, by omega, hs.t_ne_zero,
    key.group.ne_zero_of_affineX hx, x, hx, hxr.symm⟩

/-! ### The loop -/

theorem sm2SigGenLoop_eq_some {key : EcKey P} {e : Int} {order : Nat} {sig : EcdsaSig}
    (draws : List (Option (Fin key.group.order)))
    (h : sm2SigGenLoop key e order draws = some (some sig)) :
    ∃ k, some k ∈ draws ∧ sm2SigGenPass key e order k.val = .done sig := by
  induction draws with
  | nil => cases h
  | cons d draws ih =>
    rcases d with _ | k
    · cases h
    rw [sm2SigGenLoop] at h
    rcases hp : sm2SigGenPass key e order k.val with _ | _ | sig' <;> rw [hp] at h
    · obtain ⟨k', hk', hp'⟩ := ih h
      exact ⟨k', List.mem_cons_of_mem _ hk', hp'⟩
    · cases h
    · cases h
      exact ⟨k, List.mem_cons_self _ _, hp⟩

theorem sm2SigGen_signs {alloc : Bool} {key : EcKey P} {e : Int}
    {draws : List (Option (Fin key.group.order))} {sig : EcdsaSig}
    (h : sm2SigGen alloc key e draws = some (some sig)) :
    alloc = true ∧ ∃ k : Fin key.group.order, some k ∈ draws ∧ Signs key e k.val sig := by
  cases alloc
  · cases h
  unfold sm2SigGen at h
  rcases hg : ecGroupGetOrder key.group with _ | n <;> rw [hg] at h
  · cases h
  obtain ⟨hn', hn⟩ := ecGroupGetOrder_eq_some hg
  subst hn'
  obtain ⟨k, hk, hp⟩ := sm2SigGenLoop_eq_some draws h
  exact ⟨rfl, k, hk, sm2SigGenPass_signs hn (by omega) (by omega) hp⟩

/-- **Round trip.** The verifier accepts a signature the signer returned for the
same key and digest value exactly when its `s` is not zero. -/
theorem sm2SigVerify_sm2SigGen {alloc : Bool} {key : EcKey P} {e : Int}
    {draws : List (Option (Fin key.group.order))} {sig : EcdsaSig}
    (hpub : key.pub = key.priv • key.group.generator)
    (h : sm2SigGen alloc key e draws = some (some sig)) :
    sm2SigVerify true key sig e = if sig.s = 0 then 0 else 1 :=
  let ⟨_, _, _, hs⟩ := sm2SigGen_signs h
  hs.sm2SigVerify_eq hpub

/-- Every signature `SM2_sig_gen` emits meets the SM2 signing and verification
equations for the nonce it was drawn with, and the loop's retry test `r + k = n`
is the congruence `r + k ≡ 0 (mod n)`. -/
theorem sm2SigGen_verification_equation (alloc : Bool) (key : EcKey P)
    (hpub : key.pub = key.priv • key.group.generator) (e : Int)
    (draws : List (Option (Fin key.group.order))) (sig : EcdsaSig)
    (h : sm2SigGen alloc key e draws = some (some sig)) :
    (∃ k : Fin key.group.order, some k ∈ draws ∧
      1 ≤ sig.r ∧ sig.r ≤ key.group.order - 1 ∧ 0 ≤ sig.s ∧ sig.s ≤ key.group.order - 1 ∧
      sig.s * (1 + key.priv) ≡ k.val - sig.r * key.priv [ZMOD key.group.order] ∧
      ¬ (key.group.order : Int) ∣ sig.r + k.val ∧
      (sig.r + sig.s) % key.group.order ≠ 0 ∧
      sig.s • key.group.generator + ((sig.r + sig.s) % key.group.order) • key.pub =
        (k.val : Int) • key.group.generator ∧
      ∃ x, key.group.affineX
          (sig.s • key.group.generator + ((sig.r + sig.s) % key.group.order) • key.pub) = some x ∧
        (e + x) % key.group.order = sig.r) ∧
    ∀ (k : Fin key.group.order) (x1 : Nat),
      key.group.affineX ((k.val : Int) • key.group.generator) = some x1 →
      (sm2SigGenPass key e key.group.order k.val = .retry ↔
        (e + x1) % key.group.order = 0 ∨
          (key.group.order : Int) ∣ (e + x1) % key.group.order + k.val) := by
  obtain ⟨-, k, hk, hs⟩ := sm2SigGen_signs h
  obtain ⟨x, hx, hxr⟩ := hs.x_eq
  have := hs.r_lt
  have := hs.s_lt
  have hpt := hs.point_eq hpub
  refine ⟨⟨k, hk, hs.one_le_r, by omega, hs.s_nonneg, by omega,
    (ZMod.intCast_eq_intCast_iff _ _ _).1 (by exact_mod_cast hs.signing), hs.not_dvd,
    hs.t_ne_zero, hpt, x, hpt ▸ hx, hxr⟩,
    fun k x1 hx1 => sm2SigGenPass_retry_iff key e (by omega) (by omega) hx1⟩

theorem sm2SigGen_verification_equation_curve17 :
    curve17Key.pub = curve17Key.priv • curve17Key.group.generator ∧
    sm2SigGen true curve17Key 3 [some ⟨9, by decide⟩, some ⟨1, by decide⟩] =
      some (some ⟨8, 5⟩) ∧
    (∃ k : Fin curve17Key.group.order, some k ∈ [some ⟨9, by decide⟩, some ⟨1, by decide⟩] ∧
      1 ≤ (8 : Int) ∧ (8 : Int) ≤ curve17Key.group.order - 1 ∧ 0 ≤ (5 : Int) ∧
      (5 : Int) ≤ curve17Key.group.order - 1 ∧
      5 * (1 + curve17Key.priv) ≡ k.val - 8 * curve17Key.priv [ZMOD curve17Key.group.order] ∧
      ¬ (curve17Key.group.order : Int) ∣ 8 + k.val ∧
      (8 + 5) % (curve17Key.group.order : Int) ≠ 0 ∧
      (5 : Int) • curve17Key.group.generator +
          ((8 + 5) % (curve17Key.group.order : Int)) • curve17Key.pub =
        (k.val : Int) • curve17Key.group.generator ∧
      ∃ x, curve17Key.group.affineX ((5 : Int) • curve17Key.group.generator +
          ((8 + 5) % (curve17Key.group.order : Int)) • curve17Key.pub) = some x ∧
        (3 + x) % (curve17Key.group.order : Int) = 8) ∧
    ∀ (k : Fin curve17Key.group.order) (x1 : Nat),
      curve17Key.group.affineX ((k.val : Int) • curve17Key.group.generator) = some x1 →
      (sm2SigGenPass curve17Key 3 curve17Key.group.order k.val = .retry ↔
        (3 + x1) % (curve17Key.group.order : Int) = 0 ∨
          (curve17Key.group.order : Int) ∣ (3 + x1) % curve17Key.group.order + k.val) :=
  have hpub : curve17Key.pub = curve17Key.priv • curve17Key.group.generator := by decide
  have h : sm2SigGen true curve17Key 3 [some ⟨9, by decide⟩, some ⟨1, by decide⟩] =
      some (some ⟨8, 5⟩) := by decide
  ⟨hpub, h, sm2SigGen_verification_equation true curve17Key hpub 3 _ _ h⟩

/-! ### Signatures with `s = 0` -/

theorem not_dvd_of_pos_of_lt {n a : Int} (h0 : 0 < a) (h1 : a < n) : ¬ n ∣ a := fun h => by
  have := Int.eq_zero_of_dvd_of_nonneg_of_lt h0.le h1 h
  omega

/-- **The signer emits signatures the verifier rejects.** For a group of prime
order, a key with `dA ≤ n - 2` and a nonzero nonce `k`, every digest value `e`
with `(e + x([k]G))·dA ≡ k (mod n)`, that is `e ≡ k·dA⁻¹ - x([k]G)`, makes the
first pass emit `r = (e + x([k]G)) mod n` with `s = 0`, which the verifier
rejects. -/
theorem sm2SigGen_zero_s (key : EcKey P) (hkey : key.Valid) (hn : key.group.order.Prime)
    (hdA : key.priv ≤ key.group.order - 2) (k : Fin key.group.order) (hk : k.val ≠ 0) (e : Int)
    (x1 : Nat) (hx : key.group.affineX ((k.val : Int) • key.group.generator) = some x1)
    (he : (((e + x1) * key.priv : Int) : ZMod key.group.order) = k.val) :
    sm2SigGen true key e [some k] = some (some ⟨(e + x1) % key.group.order, 0⟩) ∧
      sm2SigVerify true key ⟨(e + x1) % key.group.order, 0⟩ e = 0 := by
  haveI := Fact.mk hn
  have hn0 := hn.pos
  have hd1 := hkey.one_le_priv
  have hkn := k.isLt
  set r := (e + x1) % (key.group.order : Int) with hrdef
  have hrz : (r : ZMod key.group.order) * key.priv = k.val := by
    rw [hrdef, ZMod.intCast_mod, ← Int.cast_mul, he]
  -- the nonzero nonce is a unit modulo `n`, so `r` is one too
  have hk' : (k.val : ZMod key.group.order) ≠ 0 := fun h =>
    not_dvd_of_pos_of_lt (by omega) (by omega)
      ((ZMod.intCast_zmod_eq_zero_iff_dvd (k.val : Int) key.group.order).1
        (by rw [Int.cast_natCast]; exact h))
  have hr0 : r ≠ 0 := fun h => hk' (by rw [← hrz, h, Int.cast_zero, zero_mul])
  have hrk : r + k.val ≠ key.group.order := fun h => by
    have h1 : ((r + k.val : Int) : ZMod key.group.order) = 0 := by
      rw [h, Int.cast_natCast, ZMod.natCast_self]
    have h2 : (r : ZMod key.group.order) * ((key.priv + 1 : Int) : ZMod key.group.order) = 0 := by
      push_cast at h1 ⊢
      linear_combination h1 + hrz
    rcases mul_eq_zero.1 h2 with h3 | h3
    · exact hk' (by rw [← hrz, h3, zero_mul])
    · exact not_dvd_of_pos_of_lt (by omega) (by omega) ((ZMod.intCast_zmod_eq_zero_iff_dvd _ _).1 h3)
  obtain ⟨u, hu⟩ := bnModInverse_isSome hn
    (not_dvd_of_pos_of_lt (by omega) (by omega) : ¬ (key.group.order : Int) ∣ key.priv + 1)
  have hs : bnModMul u (k.val - bnModMul key.priv r key.group.order) key.group.order = 0 := by
    apply Int.eq_zero_of_dvd_of_nonneg_of_lt (bnModMul_nonneg _ _ hn0) (bnModMul_lt _ _ hn0)
    rw [← ZMod.intCast_zmod_eq_zero_iff_dvd]
    simp only [cast_bnModMul, Int.cast_sub, Int.cast_natCast]
    linear_combination (-(u : ZMod key.group.order)) * hrz
  refine ⟨?_, sm2SigVerify_of_s_lt_one true key _ zero_lt_one⟩
  simp only [sm2SigGen, Bool.not_true, Bool.false_eq_true, if_false,
    ecGroupGetOrder_of_ne_zero hn0.ne', sm2SigGenLoop, sm2SigGenPass, ecPointMul_zero, hx, bnModAdd,
    ← hrdef, if_neg hr0, if_neg hrk, hu, hs]

/-- On `curve17` with `dA = 7`, the nonce 10 and the digest value 8, the signer
emits `(15, 0)` and the verifier rejects it: `x([10]G) = 7` and
`(8 + 7)·7 ≡ 10 (mod 19)`. -/
theorem sm2SigVerify_rejects_sm2SigGen :
    curve17Key.Valid ∧
      sm2SigGen true curve17Key 8 [some ⟨10, by decide⟩] = some (some ⟨15, 0⟩) ∧
      sm2SigVerify true curve17Key ⟨15, 0⟩ 8 = 0 :=
  ⟨curve17Key_valid, sm2SigGen_zero_s curve17Key curve17Key_valid
    (by norm_num [curve17Key, curve17]) (by decide) ⟨10, by decide⟩ (by decide) 8 7
    (by decide) (by decide)⟩

/-! ### Draws that end in `NULL`

`BN_rand_range` draws from `[0, n)`.  The nonce 0 gives the point at infinity,
which has no affine coordinates, and the loop then gives up with `NULL` where
it could draw again.  For a group of prime order and `dA ≤ n - 2` no other
nonce makes it give up. -/

theorem sm2SigGenPass_zero (key : EcKey P) (e : Int) (order : Nat) :
    sm2SigGenPass key e order 0 = .fail := by
  simp [sm2SigGenPass, (key.group.affineX_eq_none 0).2 rfl]

theorem sm2SigGenPass_ne_fail {key : EcKey P} (hkey : key.Valid) (hn : key.group.order.Prime)
    (hdA : key.priv ≤ key.group.order - 2) (e : Int) {k : Int} (hk1 : 1 ≤ k)
    (hkn : k < key.group.order) : sm2SigGenPass key e key.group.order k ≠ .fail := by
  have hd1 := hkey.one_le_priv
  obtain ⟨x1, hx⟩ := key.group.exists_affineX
    (mt (key.group.zsmul_generator_eq_zero_iff k).1 (not_dvd_of_pos_of_lt (by omega) hkn))
  obtain ⟨u, hu⟩ := bnModInverse_isSome hn
    (not_dvd_of_pos_of_lt (by omega) (by omega) : ¬ (key.group.order : Int) ∣ key.priv + 1)
  simp only [sm2SigGenPass, ecPointMul_zero, hx, hu]
  split_ifs <;> simp

theorem sm2SigGenLoop_eq_some_none {key : EcKey P} (hkey : key.Valid)
    (hn : key.group.order.Prime) (hdA : key.priv ≤ key.group.order - 2) (e : Int)
    (draws : List (Option (Fin key.group.order)))
    (h : sm2SigGenLoop key e key.group.order draws = some none) :
    none ∈ draws ∨ ∃ k : Fin key.group.order, some k ∈ draws ∧ k.val = 0 := by
  induction draws with
  | nil => cases h
  | cons d draws ih =>
    rcases d with _ | k
    · exact .inl (List.mem_cons_self _ _)
    rcases Nat.eq_zero_or_pos k.val with hk | hk
    · exact .inr ⟨k, List.mem_cons_self _ _, hk⟩
    rw [sm2SigGenLoop] at h
    rcases hp : sm2SigGenPass key e key.group.order k.val with _ | _ | sig <;> rw [hp] at h
    · rcases ih h with h' | ⟨k', hk', h0⟩
      · exact .inl (List.mem_cons_of_mem _ h')
      · exact .inr ⟨k', List.mem_cons_of_mem _ hk', h0⟩
    · exact absurd hp (sm2SigGenPass_ne_fail hkey hn hdA e (by omega) (by exact_mod_cast k.isLt))
    · cases h

/-- With memory, `SM2_sig_gen` returns `NULL` for a group of prime order and
`dA ≤ n - 2` only after a failed draw or the nonce 0. -/
theorem sm2SigGen_eq_some_none {key : EcKey P} (hkey : key.Valid) (hn : key.group.order.Prime)
    (hdA : key.priv ≤ key.group.order - 2) (e : Int) (draws : List (Option (Fin key.group.order)))
    (h : sm2SigGen true key e draws = some none) :
    none ∈ draws ∨ ∃ k : Fin key.group.order, some k ∈ draws ∧ k.val = 0 := by
  simp only [sm2SigGen, Bool.not_true, Bool.false_eq_true, if_false,
    ecGroupGetOrder_of_ne_zero hn.ne_zero] at h
  exact sm2SigGenLoop_eq_some_none hkey hn hdA e draws h

theorem sm2SigGen_eq_some_none_curve17 :
    curve17Key.Valid ∧ curve17Key.group.order.Prime ∧
      curve17Key.priv ≤ curve17Key.group.order - 2 ∧
      sm2SigGen true curve17Key 14 [some ⟨1, by decide⟩, none] = some none ∧
      (none ∈ ([some ⟨1, by decide⟩, none] : List (Option (Fin curve17Key.group.order))) ∨
        ∃ k : Fin curve17Key.group.order, some k ∈ ([some ⟨1, by decide⟩, none] :
          List (Option (Fin curve17Key.group.order))) ∧ k.val = 0) :=
  have hn : curve17Key.group.order.Prime := by norm_num [curve17Key, curve17]
  have h : sm2SigGen true curve17Key 14 [some ⟨1, by decide⟩, none] = some none := by decide
  ⟨curve17Key_valid, hn, by decide, h, sm2SigGen_eq_some_none curve17Key_valid hn (by decide) 14 _ h⟩

theorem sm2SigGen_zero_nonce (key : EcKey P) (e : Int) (k : Fin key.group.order) (hk : k.val = 0)
    (draws : List (Option (Fin key.group.order))) :
    sm2SigGen true key e (some k :: draws) = some none := by
  simp [sm2SigGen, ecGroupGetOrder_of_ne_zero k.pos.ne', sm2SigGenLoop, hk, sm2SigGenPass_zero]

/-- On `curve17` with `dA = 7`, for every digest value and whatever comes after,
a first draw of 0 makes the signer return `NULL`, although the draw succeeded
and memory did not run out. -/
theorem sm2SigGen_fails_on_zero_nonce :
    curve17Key.Valid ∧ curve17Key.group.order.Prime ∧
      curve17Key.priv ≤ curve17Key.group.order - 2 ∧
      ∀ (e : Int) (draws : List (Option (Fin curve17Key.group.order))),
        sm2SigGen true curve17Key e (some ⟨0, by decide⟩ :: draws) = some none :=
  ⟨curve17Key_valid, by norm_num [curve17Key, curve17], by decide,
    fun e draws => sm2SigGen_zero_nonce curve17Key e _ rfl draws⟩

/-! ### What the verifier accepts

Every signature the verifier accepts is one the signer emits: the nonce
`k = (s + t·dA) mod n` has `[k]G = [s]G + [t]PA`, so the signer's `r` is the
verifier's, `r + k ≡ t·(1 + dA)` is not a multiple of `n`, and the signer's `s`
comes back.  With the round trip, the signatures with `s ≠ 0` that one pass of
the signer can emit are exactly those the verifier accepts. -/

theorem sm2SigGenPass_of_sigValid {key : EcKey P} (hkey : key.Valid) (hn : key.group.order.Prime)
    (hdA : key.priv ≤ key.group.order - 2) {sig : EcdsaSig} {e : Int} (hv : SigValid key sig e) :
    sm2SigGenPass key e key.group.order
      ((sig.s + (sig.r + sig.s) % key.group.order * key.priv) % key.group.order) = .done sig := by
  haveI := Fact.mk hn
  obtain ⟨hr1, hrn, hs1, hsn, ht, -, x, hx, hr⟩ := hv
  have hn0 := hn.pos
  have hd1 := hkey.one_le_priv
  set t := (sig.r + sig.s) % (key.group.order : Int) with htdef
  set k := (sig.s + t * key.priv) % (key.group.order : Int) with hkdef
  have hkz : (k : ZMod key.group.order) = sig.s + (sig.r + sig.s) * key.priv := by
    push_cast [hkdef, htdef, ZMod.intCast_mod]
    ring
  -- `[k]G` is the verifier's point
  have hpt : k • key.group.generator = sig.s • key.group.generator + t • key.pub := by
    rw [hkey.pub_eq, smul_smul, ← add_zsmul]
    apply key.group.zsmul_generator_eq
    push_cast [hkz, htdef, ZMod.intCast_mod]
    ring
  -- `r + k ≡ t·(1 + dA)`, a product of units
  have hrs : ((sig.r + sig.s : Int) : ZMod key.group.order) ≠ 0 := by
    rw [Ne, ZMod.intCast_zmod_eq_zero_iff_dvd]
    exact fun h => ht (Int.emod_eq_zero_of_dvd h)
  have hd : ((key.priv + 1 : Int) : ZMod key.group.order) ≠ 0 := by
    rw [Ne, ZMod.intCast_zmod_eq_zero_iff_dvd]
    exact not_dvd_of_pos_of_lt (by omega) (by omega)
  have hrk : sig.r + k ≠ key.group.order := fun h => by
    have h1 : ((sig.r + k : Int) : ZMod key.group.order) = 0 := by
      rw [h, Int.cast_natCast, ZMod.natCast_self]
    rw [Int.cast_add, hkz] at h1
    exact mul_ne_zero hrs hd (by push_cast; linear_combination h1)
  -- the signer's `s` is the verifier's
  obtain ⟨u, hu⟩ := bnModInverse_isSome hn
    (not_dvd_of_pos_of_lt (by omega) (by omega) : ¬ (key.group.order : Int) ∣ key.priv + 1)
  have hinv := (bnModInverse_spec hu).2.2
  push_cast at hinv
  have hs : bnModMul u (k - bnModMul key.priv sig.r key.group.order) key.group.order = sig.s := by
    have h1 : ((bnModMul u (k - bnModMul key.priv sig.r key.group.order) key.group.order : Int) :
        ZMod key.group.order) = sig.s := by
      simp only [cast_bnModMul, Int.cast_sub, Int.cast_mul, hkz]
      linear_combination (sig.s : ZMod key.group.order) * hinv
    exact eq_of_cast_eq ⟨bnModMul_nonneg _ _ hn0, bnModMul_lt _ _ hn0⟩ ⟨by omega, by omega⟩ h1
  simp only [sm2SigGenPass, ecPointMul_zero, hpt, hx, bnModAdd, ← hr,
    if_neg (show sig.r ≠ 0 by omega), if_neg hrk, hu, hs]

/-- **The verifier accepts exactly what the signer emits with `s ≠ 0`.** For a
group of prime order and a valid key with `dA ≤ n - 2`, a pair verifies for the
digest value `e` exactly when its `s` is not zero and the signer, given memory,
emits it for `e` when its first draw is the nonce `(s + ((r + s) mod n)·dA) mod n`. -/
theorem sm2SigVerify_eq_one_iff_sm2SigGen (key : EcKey P) (hkey : key.Valid)
    (hn : key.group.order.Prime) (hdA : key.priv ≤ key.group.order - 2) (sig : EcdsaSig)
    (e : Int) :
    sm2SigVerify true key sig e = 1 ↔
      sig.s ≠ 0 ∧ ∃ k : Fin key.group.order,
        (k : Int) = (sig.s + (sig.r + sig.s) % key.group.order * key.priv) % key.group.order ∧
          sm2SigGen true key e [some k] = some (some sig) := by
  constructor
  · intro h
    have hv := (sm2SigVerify_eq_one_iff key sig e).1 h
    have hn0 : (0 : Int) < key.group.order := by exact_mod_cast hn.pos
    obtain ⟨-, -, hs1, -⟩ := id hv
    set k := (sig.s + (sig.r + sig.s) % key.group.order * key.priv) % (key.group.order : Int)
    have hk0 : 0 ≤ k := Int.emod_nonneg _ hn0.ne'
    have hkn : k < key.group.order := Int.emod_lt_of_pos _ hn0
    refine ⟨by omega, ⟨k.toNat, by omega⟩, Int.toNat_of_nonneg hk0, ?_⟩
    simp only [sm2SigGen, Bool.not_true, Bool.false_eq_true, if_false,
      ecGroupGetOrder_of_ne_zero hn.ne_zero, sm2SigGenLoop, Int.toNat_of_nonneg hk0,
      sm2SigGenPass_of_sigValid hkey hn hdA hv]
  · rintro ⟨hs, k, -, hk⟩
    rw [sm2SigVerify_sm2SigGen hkey.pub_eq hk, if_neg hs]

theorem sm2SigVerify_eq_one_iff_sm2SigGen_curve17 :
    curve17Key.Valid ∧ curve17Key.group.order.Prime ∧
      curve17Key.priv ≤ curve17Key.group.order - 2 ∧
      (sm2SigVerify true curve17Key ⟨8, 5⟩ 3 = 1 ↔
        (⟨8, 5⟩ : EcdsaSig).s ≠ 0 ∧ ∃ k : Fin curve17Key.group.order,
          (k : Int) = ((⟨8, 5⟩ : EcdsaSig).s + ((⟨8, 5⟩ : EcdsaSig).r + (⟨8, 5⟩ : EcdsaSig).s) %
            curve17Key.group.order * curve17Key.priv) % curve17Key.group.order ∧
          sm2SigGen true curve17Key 3 [some k] = some (some ⟨8, 5⟩)) :=
  ⟨curve17Key_valid, by norm_num [curve17Key, curve17], by decide,
    sm2SigVerify_eq_one_iff_sm2SigGen curve17Key curve17Key_valid (by norm_num [curve17Key, curve17])
      (by decide) ⟨8, 5⟩ 3⟩

/-! ### A repeated nonce

Two different signatures made on one nonce give the private key away: their
signing equations `s·(1 + dA) ≡ k - r·dA` differ by
`(s₁ - s₂) + (s₁ - s₂ + r₁ - r₂)·dA ≡ 0`. -/

/-- **A repeated nonce reveals the key.** For a group of prime order, if the
signer emits two different signatures on one nonce `k`, for any two digest
values, then `s₁ - s₂ + r₁ - r₂` is not zero modulo `n` and
`dA ≡ (s₂ - s₁)·(s₁ - s₂ + r₁ - r₂)⁻¹`. -/
theorem sm2SigGen_repeated_nonce {alloc₁ alloc₂ : Bool} {key : EcKey P}
    (hn : key.group.order.Prime) {e₁ e₂ : Int} {k : Fin key.group.order} {sig₁ sig₂ : EcdsaSig}
    (h₁ : sm2SigGen alloc₁ key e₁ [some k] = some (some sig₁))
    (h₂ : sm2SigGen alloc₂ key e₂ [some k] = some (some sig₂)) (hne : sig₁ ≠ sig₂) :
    ((sig₁.s - sig₂.s + sig₁.r - sig₂.r : Int) : ZMod key.group.order) ≠ 0 ∧
      (key.priv : ZMod key.group.order) = ((sig₂.s - sig₁.s : Int) : ZMod key.group.order) *
        ((sig₁.s - sig₂.s + sig₁.r - sig₂.r : Int) : ZMod key.group.order)⁻¹ := by
  haveI := Fact.mk hn
  obtain ⟨-, k₁, hk₁, hs₁⟩ := sm2SigGen_signs h₁
  obtain ⟨-, k₂, hk₂, hs₂⟩ := sm2SigGen_signs h₂
  rw [List.mem_singleton, Option.some_inj] at hk₁ hk₂
  subst hk₁ hk₂
  have hsub : ((sig₁.s - sig₂.s : Int) : ZMod key.group.order) +
      ((sig₁.s - sig₂.s + sig₁.r - sig₂.r : Int) : ZMod key.group.order) * key.priv = 0 := by
    push_cast
    linear_combination hs₁.signing - hs₂.signing
  have hD : ((sig₁.s - sig₂.s + sig₁.r - sig₂.r : Int) : ZMod key.group.order) ≠ 0 := fun hD => by
    -- then `s₁ ≡ s₂` and `r₁ ≡ r₂`, and both are residues
    rw [hD, zero_mul, add_zero] at hsub
    have hs : sig₁.s = sig₂.s := eq_of_cast_eq ⟨hs₁.s_nonneg, hs₁.s_lt⟩ ⟨hs₂.s_nonneg, hs₂.s_lt⟩
      (by push_cast at hsub; linear_combination hsub)
    have hr : sig₁.r = sig₂.r := eq_of_cast_eq ⟨by linarith [hs₁.one_le_r], hs₁.r_lt⟩
      ⟨by linarith [hs₂.one_le_r], hs₂.r_lt⟩ (by push_cast at hD hsub; linear_combination hD - hsub)
    exact hne (by cases sig₁; cases sig₂; simp_all)
  refine ⟨hD, (eq_mul_inv_iff_mul_eq₀ hD).2 ?_⟩
  push_cast at hsub ⊢
  linear_combination hsub

theorem sm2SigGen_repeated_nonce_curve17 :
    curve17Key.group.order.Prime ∧
      sm2SigGen true curve17Key 3 [some ⟨1, by decide⟩] = some (some ⟨8, 5⟩) ∧
      sm2SigGen true curve17Key 4 [some ⟨1, by decide⟩] = some (some ⟨9, 16⟩) ∧
      (⟨8, 5⟩ : EcdsaSig) ≠ ⟨9, 16⟩ ∧
      ((5 - 16 + 8 - 9 : Int) : ZMod curve17Key.group.order) ≠ 0 ∧
      (curve17Key.priv : ZMod curve17Key.group.order) =
        ((16 - 5 : Int) : ZMod curve17Key.group.order) *
          ((5 - 16 + 8 - 9 : Int) : ZMod curve17Key.group.order)⁻¹ :=
  have hn : curve17Key.group.order.Prime := by norm_num [curve17Key, curve17]
  have h₁ : sm2SigGen true curve17Key 3 [some ⟨1, by decide⟩] = some (some ⟨8, 5⟩) := by decide
  have h₂ : sm2SigGen true curve17Key 4 [some ⟨1, by decide⟩] = some (some ⟨9, 16⟩) := by decide
  have hne : (⟨8, 5⟩ : EcdsaSig) ≠ ⟨9, 16⟩ := by decide
  ⟨hn, h₁, h₂, hne, sm2SigGen_repeated_nonce hn h₁ h₂ hne⟩

/-! ### Signing and verifying messages -/

section Message

variable (computeUseridDigest : EvpMd → List UInt8 → EcKey P → Option (List UInt8))

/-- `SM2_compute_msg_hash(digest, key, user_id, msg, msg_len)`: the digest of
`ZA ‖ M` read as a big-endian integer, `none` when it fails.  `za` is what
`SM2_compute_userid_digest` wrote at the start of the `md_size` zero bytes
`calloc` returned, `none` when it failed; the hash reads `md_size` bytes of that
buffer.  `alloc` covers `EVP_MD_CTX_new`, `calloc` and `BN_bin2bn`. -/
def sm2ComputeMsgHash (alloc : Bool) (digest : EvpMd) (za : Option (List UInt8))
    (msg : List UInt8) : Option Int :=
  if !alloc then none
  else
    match za with
    | none => none
    | some za =>
      let mdSize := digest.mdSize.toNat
      let x := (za ++ List.replicate mdSize 0).take mdSize ++ msg
      if digest.fails x then none else some (os2ip (digest.hash x))

/-- `SM2_do_sign(key, digest, user_id, msg, msg_len)`, with
`computeUseridDigest` for `SM2_compute_userid_digest`. -/
def sm2DoSign (alloc : Bool) (key : EcKey P) (digest : EvpMd) (userId msg : List UInt8)
    (draws : List (Option (Fin key.group.order))) : Option (Option EcdsaSig) :=
  match sm2ComputeMsgHash alloc digest (computeUseridDigest digest userId key) msg with
  | none => some none
  | some e => sm2SigGen alloc key e draws

/-- `SM2_do_verify(key, digest, sig, user_id, msg, msg_len)`: -1 when the
message digest cannot be computed. -/
def sm2DoVerify (alloc : Bool) (key : EcKey P) (digest : EvpMd) (sig : EcdsaSig)
    (userId msg : List UInt8) : Int :=
  match sm2ComputeMsgHash alloc digest (computeUseridDigest digest userId key) msg with
  | none => -1
  | some e => sm2SigVerify alloc key sig e

/-- The round trip on messages: `SM2_do_verify` accepts what `SM2_do_sign`
returned for the same key, digest, user id and message unless `s = 0`. -/
theorem sm2DoVerify_sm2DoSign {alloc : Bool} {key : EcKey P} {digest : EvpMd}
    {userId msg : List UInt8} {draws : List (Option (Fin key.group.order))} {sig : EcdsaSig}
    (hpub : key.pub = key.priv • key.group.generator)
    (h : sm2DoSign computeUseridDigest alloc key digest userId msg draws = some (some sig)) :
    sm2DoVerify computeUseridDigest alloc key digest sig userId msg =
      if sig.s = 0 then 0 else 1 := by
  unfold sm2DoSign at h
  unfold sm2DoVerify
  rcases he : sm2ComputeMsgHash alloc digest (computeUseridDigest digest userId key) msg
    with _ | e <;> rw [he] at h
  · cases h
  obtain ⟨rfl, -⟩ := sm2SigGen_signs h
  exact sm2SigVerify_sm2SigGen hpub h

theorem sm2DoVerify_sm2DoSign_curve17 :
    curve17Key.pub = curve17Key.priv • curve17Key.group.generator ∧
      sm2DoSign (fun _ _ _ => some []) true curve17Key EvpMd.byteSum [] [3] [some ⟨1, by decide⟩] =
        some (some ⟨8, 5⟩) ∧
      sm2DoVerify (fun _ _ _ => some []) true curve17Key EvpMd.byteSum ⟨8, 5⟩ [] [3] =
        if (⟨8, 5⟩ : EcdsaSig).s = 0 then 0 else 1 :=
  have hpub : curve17Key.pub = curve17Key.priv • curve17Key.group.generator := by decide
  have h : sm2DoSign (fun _ _ _ => some []) true curve17Key EvpMd.byteSum [] [3]
      [some ⟨1, by decide⟩] = some (some ⟨8, 5⟩) := by decide
  ⟨hpub, h, sm2DoVerify_sm2DoSign _ hpub h⟩

end Message

end Sm2
end Libcrypto
