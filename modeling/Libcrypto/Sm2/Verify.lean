import Libcrypto.Sm2.Ec

/-!
# `SM2_sig_verify`

Verification of a signature `(r, s)` on the digest value `e`, steps B1–B7 of
the comment in `SM2_sig_verify`:

    r, s ∈ [1, n-1],   t = (r + s) mod n ≠ 0,
    (x1, _) = [s]G + [t]PA,   accept iff r = (e + x1) mod n.

`SigValid` states these conditions as the standard does; the model follows the
C, whose range checks are `BN_cmp` against one and against the order and whose
point at infinity is caught by `EC_POINT_get_affine_coordinates_GFp`.
`sm2SigVerify_eq_one_iff` says the two agree for every integer pair.
-/

namespace Libcrypto
namespace Sm2

variable {P : Type} [AddCommGroup P]

/-- `SM2_sig_verify(key, sig, e)`: 1 when `sig` verifies for the digest value
`e`, 0 otherwise.  `alloc` says whether `BN_CTX_new`, `BN_CTX_get` and
`EC_POINT_new` return memory. -/
def sm2SigVerify (alloc : Bool) (key : EcKey P) (sig : EcdsaSig) (e : Int) : Int :=
  if !alloc then 0
  else
    match ecGroupGetOrder key.group with
    | none => 0
    | some order =>
      let r := sig.r
      let s := sig.s
      if r < 1 ∨ s < 1 then 0
      else if (order : Int) ≤ r ∨ (order : Int) ≤ s then 0
      else
        let t := bnModAdd r s order
        if t = 0 then 0
        else
          match key.group.affineX (ecPointMul key.group s key.pub t) with
          | none => 0
          | some x1 =>
            let t := bnModAdd e x1 order
            if r = t then 1 else 0

/-- SM2 verification as the standard states it: `r` and `s` in `[1, n-1]`,
`t = (r + s) mod n` nonzero, `[s]G + [t]PA` a finite point, and `r` the digest
value plus its x-coordinate, modulo `n`. -/
def SigValid (key : EcKey P) (sig : EcdsaSig) (e : Int) : Prop :=
  let n : Int := key.group.order
  let t := (sig.r + sig.s) % n
  let pt := sig.s • key.group.generator + t • key.pub
  1 ≤ sig.r ∧ sig.r ≤ n - 1 ∧ 1 ≤ sig.s ∧ sig.s ≤ n - 1 ∧ t ≠ 0 ∧ pt ≠ 0 ∧
    ∃ x, key.group.affineX pt = some x ∧ sig.r = (e + x) % n

@[simp] theorem sm2SigVerify_false (key : EcKey P) (sig : EcdsaSig) (e : Int) :
    sm2SigVerify false key sig e = 0 := rfl

theorem sm2SigVerify_eq_zero_or_one (alloc : Bool) (key : EcKey P) (sig : EcdsaSig) (e : Int) :
    sm2SigVerify alloc key sig e = 0 ∨ sm2SigVerify alloc key sig e = 1 := by
  unfold sm2SigVerify
  repeat' first | exact Or.inl rfl | exact Or.inr rfl | split | dsimp only

theorem sm2SigVerify_of_s_lt_one (alloc : Bool) (key : EcKey P) {sig : EcdsaSig} (e : Int)
    (hs : sig.s < 1) : sm2SigVerify alloc key sig e = 0 := by
  unfold sm2SigVerify
  split
  · rfl
  · split
    · rfl
    · rw [if_pos (Or.inr hs)]

theorem sm2SigVerify_emod (alloc : Bool) (key : EcKey P) (sig : EcdsaSig) (e : Int) :
    sm2SigVerify alloc key sig (e % key.group.order) = sm2SigVerify alloc key sig e := by
  unfold sm2SigVerify
  rcases hg : ecGroupGetOrder key.group with _ | n
  · rfl
  obtain ⟨rfl, -⟩ := ecGroupGetOrder_eq_some hg
  simp only [bnModAdd_emod_left]

/-- **The verifier accepts exactly the valid signatures**, every integer pair
included. -/
theorem sm2SigVerify_eq_one_iff (key : EcKey P) (sig : EcdsaSig) (e : Int) :
    sm2SigVerify true key sig e = 1 ↔ SigValid key sig e := by
  rcases Nat.eq_zero_or_pos key.group.order with h0 | h0
  · -- a group without an order: `EC_GROUP_get_order` fails and no `r` is in range
    have hg : ecGroupGetOrder key.group = none := if_pos h0
    simp only [sm2SigVerify, SigValid, hg, h0]
    exact iff_of_false (by decide) fun ⟨h1, h2, _⟩ => by omega
  · simp only [sm2SigVerify, SigValid, ecGroupGetOrder_of_ne_zero h0.ne', bnModAdd, ecPointMul,
      Bool.not_true, Bool.false_eq_true, if_false]
    split_ifs with h1 h2 h3
    · exact iff_of_false (by decide) fun ⟨_, _, _, _, _⟩ => by omega
    · exact iff_of_false (by decide) fun ⟨_, _, _, _, _⟩ => by omega
    · exact iff_of_false (by decide) fun ⟨_, _, _, _, ht, _⟩ => ht h3
    · rcases hx : key.group.affineX _ with _ | x
      · exact iff_of_false (fun h => by simp at h) fun ⟨_, _, _, _, _, _, x, hx', _⟩ => nomatch hx'
      · by_cases hr : sig.r = (e + x) % key.group.order
        · simp only [if_pos hr, true_iff]
          exact ⟨by omega, by omega, by omega, by omega, h3, key.group.ne_zero_of_affineX hx,
            x, rfl, hr⟩
        · refine iff_of_false (by simp [hr]) fun ⟨_, _, _, _, _, _, x', hx', hr'⟩ => hr ?_
          cases hx'
          exact hr'

/-- What the verifier answers for every key, digest value and integer pair when
memory does not run out: 1 on the signatures that pass B1–B7, 0 on all others. -/
theorem sm2SigVerify_accepts_exactly (key : EcKey P) (sig : EcdsaSig) (e : Int) :
    (sm2SigVerify true key sig e = 1 ↔
      1 ≤ sig.r ∧ sig.r ≤ key.group.order - 1 ∧ 1 ≤ sig.s ∧ sig.s ≤ key.group.order - 1 ∧
        (sig.r + sig.s) % key.group.order ≠ 0 ∧
        sig.s • key.group.generator + ((sig.r + sig.s) % key.group.order) • key.pub ≠ 0 ∧
        ∃ x, key.group.affineX
            (sig.s • key.group.generator + ((sig.r + sig.s) % key.group.order) • key.pub) = some x ∧
          sig.r = (e + x) % key.group.order) ∧
    (sm2SigVerify true key sig e ≠ 1 → sm2SigVerify true key sig e = 0) :=
  ⟨sm2SigVerify_eq_one_iff key sig e, (sm2SigVerify_eq_zero_or_one true key sig e).resolve_right⟩

end Sm2
end Libcrypto
