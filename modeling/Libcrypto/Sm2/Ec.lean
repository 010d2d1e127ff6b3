import Mathlib

/-!
# Curve groups, keys and BIGNUM arithmetic

What `sm2_sign.c` asks of the EC and BN libraries.  The points of an `EC_GROUP`
form an additive group, `EC_POINT_mul` is the action of the integers on it, and
`EC_POINT_get_affine_coordinates_GFp` reads the x-coordinate of a point, which
the point at infinity lacks.  The group order is the order of the generator.

BIGNUMs are integers.  `BN_mod_add` and `BN_mod_mul` return the non-negative
remainder, which is `Int.emod`; `BN_mod_inverse` returns the inverse in
`[0, n)` or fails when there is none.  The BN calls fail otherwise only when
memory runs out, which the signer and the verifier model as one flag.

The proofs move congruences into `ZMod n`, where the signing equation is ring
arithmetic, and move scalars of the generator modulo its order.
-/

namespace Libcrypto
namespace Sm2

/-- An `EC_GROUP` whose points form the additive group `P`. -/
structure EcGroup (P : Type) [AddCommGroup P] where
  /-- `EC_GROUP_get0_generator`. -/
  generator : P
  /-- The order `EC_GROUP_get_order` copies out. -/
  order : Nat
  /-- `EC_POINT_get_affine_coordinates_GFp`, the x-coordinate only. -/
  affineX : P → Option Nat
  addOrderOf_generator : addOrderOf generator = order
  /-- Only the point at infinity has no affine coordinates. -/
  affineX_eq_none : ∀ p, affineX p = none ↔ p = 0

/-- An `EC_KEY`: its group, private scalar and public point, as set; the library
does not tie the two together. -/
structure EcKey (P : Type) [AddCommGroup P] where
  group : EcGroup P
  /-- `EC_KEY_get0_private_key`. -/
  priv : Int
  /-- `EC_KEY_get0_public_key`. -/
  pub : P

/-- An `ECDSA_SIG`, the pair SM2 signs with. -/
structure EcdsaSig where
  r : Int
  s : Int
deriving DecidableEq, Repr

variable {P : Type} [AddCommGroup P]

/-- A key pair of its group: `dA ∈ [1, n-1]` and `PA = [dA]G`. -/
structure EcKey.Valid (key : EcKey P) : Prop where
  one_le_priv : 1 ≤ key.priv
  priv_lt : key.priv < key.group.order
  pub_eq : key.pub = key.priv • key.group.generator

/-- `EC_GROUP_get_order`, which fails on a group whose order is unset. -/
def ecGroupGetOrder (g : EcGroup P) : Option Nat := if g.order = 0 then none else some g.order

/-- `EC_POINT_mul(group, r, n, q, m)`: `[n]G + [m]q`.  The signer passes `NULL`
for `q` and `m`, which is `q = 0`, `m = 0` here. -/
def ecPointMul (g : EcGroup P) (n : Int) (q : P) (m : Int) : P := n • g.generator + m • q

/-- `BN_mod_add(r, a, b, m, ctx)`. -/
def bnModAdd (a b : Int) (m : Nat) : Int := (a + b) % m

/-- `BN_mod_mul(r, a, b, m, ctx)`. -/
def bnModMul (a b : Int) (m : Nat) : Int := a * b % m

/-- `BN_mod_inverse(r, a, n, ctx)`: the inverse of `a` modulo `n` in `[0, n)`,
or failure when `a` has none. -/
def bnModInverse (a : Int) (n : Nat) : Option Int :=
  Option.map (fun x : Nat => (x : Int))
    (List.find? (fun x : Nat => a * (x : Int) % (n : Int) = 1) (List.range n))

theorem ecGroupGetOrder_of_ne_zero {g : EcGroup P} (h : g.order ≠ 0) :
    ecGroupGetOrder g = some g.order := if_neg h

theorem ecGroupGetOrder_eq_some {g : EcGroup P} {n : Nat} (h : ecGroupGetOrder g = some n) :
    g.order = n ∧ 0 < n := by
  unfold ecGroupGetOrder at h
  split_ifs at h with h0
  cases h
  exact ⟨rfl, Nat.pos_of_ne_zero h0⟩

@[simp] theorem ecPointMul_zero (g : EcGroup P) (n : Int) :
    ecPointMul g n 0 0 = n • g.generator := by
  simp [ecPointMul]

/-! ### Points -/

namespace EcGroup

variable (g : EcGroup P)

theorem ne_zero_of_affineX {p : P} {x : Nat} (h : g.affineX p = some x) : p ≠ 0 := fun hp => by
  rw [(g.affineX_eq_none p).2 hp] at h
  cases h

theorem exists_affineX {p : P} (h : p ≠ 0) : ∃ x, g.affineX p = some x :=
  Option.ne_none_iff_exists'.1 (mt (g.affineX_eq_none p).1 h)

theorem zsmul_generator_eq {a b : Int} (h : (a : ZMod g.order) = b) :
    a • g.generator = b • g.generator := by
  rw [zsmul_eq_zsmul_iff_modEq, g.addOrderOf_generator]
  exact (ZMod.intCast_eq_intCast_iff a b g.order).1 h

theorem zsmul_generator_eq_zero_iff (a : Int) :
    a • g.generator = 0 ↔ (g.order : Int) ∣ a := by
  rw [← addOrderOf_dvd_iff_zsmul_eq_zero, g.addOrderOf_generator]

end EcGroup

/-! ### BIGNUM arithmetic -/

theorem bnModAdd_nonneg (a b : Int) {m : Nat} (hm : 0 < m) : 0 ≤ bnModAdd a b m :=
  Int.emod_nonneg _ (by omega)

theorem bnModAdd_lt (a b : Int) {m : Nat} (hm : 0 < m) : bnModAdd a b m < m :=
  Int.emod_lt_of_pos _ (by omega)

theorem bnModMul_nonneg (a b : Int) {m : Nat} (hm : 0 < m) : 0 ≤ bnModMul a b m :=
  Int.emod_nonneg _ (by omega)

theorem bnModMul_lt (a b : Int) {m : Nat} (hm : 0 < m) : bnModMul a b m < m :=
  Int.emod_lt_of_pos _ (by omega)

theorem bnModAdd_emod_left (a b : Int) (m : Nat) : bnModAdd (a % m) b m = bnModAdd a b m :=
  Int.emod_add_emod a m b

@[simp] theorem cast_bnModAdd (a b : Int) (m : Nat) :
    ((bnModAdd a b m : Int) : ZMod m) = a + b := by
  rw [bnModAdd, ZMod.intCast_mod, Int.cast_add]

@[simp] theorem cast_bnModMul (a b : Int) (m : Nat) :
    ((bnModMul a b m : Int) : ZMod m) = a * b := by
  rw [bnModMul, ZMod.intCast_mod, Int.cast_mul]

theorem eq_of_cast_eq {n : Nat} {a b : Int} (ha : 0 ≤ a ∧ a < n) (hb : 0 ≤ b ∧ b < n)
    (h : (a : ZMod n) = b) : a = b := by
  have h' := (ZMod.intCast_eq_intCast_iff' a b n).1 h
  rwa [Int.emod_eq_of_lt ha.1 ha.2, Int.emod_eq_of_lt hb.1 hb.2] at h'

/-- What `BN_mod_inverse` returns is an inverse in `[0, n)`. -/
theorem bnModInverse_spec {a x : Int} {n : Nat} (h : bnModInverse a n = some x) :
    0 ≤ x ∧ x < n ∧ (a : ZMod n) * x = 1 := by
  obtain ⟨y, hy, rfl⟩ := Option.map_eq_some'.1 h
  have hmem := List.mem_of_find?_eq_some hy
  have hone := List.find?_some hy
  simp only [decide_eq_true_eq] at hone
  refine ⟨Int.natCast_nonneg y, by simpa using hmem, ?_⟩
  rw [← Int.cast_mul, ← ZMod.intCast_mod, hone, Int.cast_one]

/-- Modulo a prime, every scalar the prime does not divide has an inverse. -/
theorem bnModInverse_isSome {a : Int} {n : Nat} (hn : n.Prime) (ha : ¬ (n : Int) ∣ a) :
    ∃ x, bnModInverse a n = some x := by
  haveI := Fact.mk hn
  have ha0 : (a : ZMod n) ≠ 0 := mt (ZMod.intCast_zmod_eq_zero_iff_dvd a n).1 ha
  -- the least residue of the field inverse is among the candidates
  have hfind : ((List.range n).find? fun x : Nat => a * (x : Int) % (n : Int) = 1).isSome := by
    rw [List.find?_isSome]
    refine ⟨((a : ZMod n)⁻¹).val, List.mem_range.2 (ZMod.val_lt _), decide_eq_true ?_⟩
    have h1 : ((a * (((a : ZMod n)⁻¹).val : Int) : Int) : ZMod n) = ((1 : Int) : ZMod n) := by
      push_cast
      rw [ZMod.natCast_zmod_val, mul_inv_cancel₀ ha0]
    rw [ZMod.intCast_eq_intCast_iff] at h1
    rw [h1, Int.emod_eq_of_lt (by norm_num) (by exact_mod_cast hn.one_lt)]
  obtain ⟨y, hy⟩ := Option.isSome_iff_exists.1 hfind
  exact ⟨y, by rw [bnModInverse, hy]; rfl⟩

/-! ### A small curve

`y² = x³ + 2x + 2` over `F₁₇` has 19 points and is generated by `(5, 1)`.  Its
group is `ZMod 19` through `k ↦ [k](5, 1)`; `curve17X` lists the x-coordinates
of `[k](5, 1)` for `k = 0, …, 18`.  Concrete runs of the signer use it. -/

def curve17X : List (Option Nat) :=
  [none, some 5, some 6, some 10, some 3, some 9, some 16, some 0, some 13, some 7,
    some 7, some 13, some 0, some 16, some 9, some 3, some 10, some 6, some 5]

def curve17 : EcGroup (ZMod 19) where
  generator := 1
  order := 19
  affineX p := (curve17X.get? p.val).join
  addOrderOf_generator := ZMod.addOrderOf_one 19
  affineX_eq_none := by decide

/-- The key `dA = 7`, `PA = [7]G` of `curve17`. -/
def curve17Key : EcKey (ZMod 19) where
  group := curve17
  priv := 7
  pub := 7

theorem curve17Key_valid : curve17Key.Valid :=
  ⟨by decide, by decide, by decide⟩

end Sm2
end Libcrypto
