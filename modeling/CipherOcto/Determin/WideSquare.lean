import CipherOcto.Determin.SquareRoot

/-!
# The wide products of the square root

`mul_u128_to_u256` loses the carry of its low half (`LostCarry`), and the comparison of a
square with the scaled radicand adds up three such products. The square it compares is short
by what these have lost, never too large, so that it may only take a candidate that it should
not take.

> `wide_square_iff`: the product is exact iff it loses no carry, and the comparison is right
> unless the radicand is in the gap between the stored square and the square.
-/

namespace CipherOcto.Determin

open Machine

theorem mulU128ToU256_exact_iff {a b : Nat} (ha : a < 2 ^ 128) (hb : b < 2 ^ 128) :
    (mulU128ToU256 a b).hi * 2 ^ 128 + (mulU128ToU256 a b).lo = a * b ↔ ¬LostCarry a b := by
  refine ⟨fun h hlost => ?_, mulU128ToU256_exact ha hb⟩
  have heq := mulU128ToU256_toNat ha hb
  rw [if_pos hlost, ← h, U256.toNat] at heq
  omega

/-- The scaled radicand is below the square by no more than the products of the square lose. -/
def InGap (c : U256) (sTop sMid : Nat) : Prop :=
  sTop * 2 ^ 256 + sMid * 2 ^ 128 < c.toNat * c.toNat ∧
    c.toNat * c.toNat ≤ sTop * 2 ^ 256 + sMid * 2 ^ 128 + squareShortfall c

/-- **The product is exact iff no carry is lost**, and the comparison of a square is right iff
the radicand is not in the gap that the carries leave. -/
theorem wide_square_iff (a b : Nat) (ha : a < 2 ^ 128) (hb : b < 2 ^ 128) (c : U256)
    (sTop sMid : Nat) (hlo : c.lo < 2 ^ 128) (hc : c.toNat < 2 ^ 226) (htop : sTop < 2 ^ 128)
    (hmid : sMid < 2 ^ 128) :
    ((mulU128ToU256 a b).hi * 2 ^ 128 + (mulU128ToU256 a b).lo = a * b ↔ ¬LostCarry a b) ∧
    ((u256SqLeU384 c.hi c.lo sTop sMid = true ↔
        c.toNat * c.toNat ≤ sTop * 2 ^ 256 + sMid * 2 ^ 128) ↔ ¬InGap c sTop sMid) := by
  have hhi : c.hi < 2 ^ 98 := by
    unfold U256.toNat at hc
    omega
  have hsquare : storedSquare c + squareShortfall c = _ :=
    storedSquare_add_shortfall (by omega) hlo
  refine ⟨mulU128ToU256_exact_iff ha hb, ?_⟩
  rw [u256SqLeU384_stored_iff hhi hlo htop hmid, InGap, ← hsquare]
  omega

/-- Two products without a lost carry. -/
theorem wide_square_iff_small :
    (mulU128ToU256 (2 ^ 127) 6).hi * 2 ^ 128 + (mulU128ToU256 (2 ^ 127) 6).lo = 2 ^ 127 * 6 ∧
    (u256SqLeU384 1 5 1 10 = true ↔
      (⟨1, 5⟩ : U256).toNat * (⟨1, 5⟩ : U256).toNat ≤ 1 * 2 ^ 256 + 10 * 2 ^ 128) := by
  have h := wide_square_iff (2 ^ 127) 6 (by decide) (by decide) ⟨1, 5⟩ 1 10 (by decide) (by decide)
    (by decide) (by decide)
  refine ⟨h.1.mpr (by decide), h.2.mpr ?_⟩
  rintro ⟨-, hgap⟩
  revert hgap
  decide

/-- The square of `2^65 - 1` is stored short by `2^128`, and taken for less than `3 * 2^128`. -/
theorem square_of_dense_low :
    let x := 2 ^ 65 - 1
    (mulU128ToU256 x x).hi * 2 ^ 128 + (mulU128ToU256 x x).lo = x * x - 2 ^ 128 ∧
      (mulU128ToU256 x x).hi * 2 ^ 128 + (mulU128ToU256 x x).lo ≠ x * x ∧
      u256SqLeU384 0 x 0 3 = true ∧
      ¬(⟨0, x⟩ : U256).toNat * (⟨0, x⟩ : U256).toNat ≤ 0 * 2 ^ 256 + 3 * 2 ^ 128 := by
  decide +kernel

end CipherOcto.Determin
