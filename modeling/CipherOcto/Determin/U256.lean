import CipherOcto.Lib.Machine

/-!
# 256-bit helpers

The two-limb integers behind `determin/src/arithmetic.rs`: the `U256` wrapper
with its shifts and subtraction, the `u128 * u128` product and the helpers of
the square-root loop.

Each operation gets one equation in terms of `toNat`, under the conditions its
callers meet; later files cite the equation and never unfold the operation.
Two of the operations are not what their names promise:

* `shl` by exactly 128 builds its mask with a shift by the full width, so the
  checked build stops and the wrapping build returns zero (`shl_128`);
* `mulU128ToU256` adds the low halves with `wrapping_add` and drops the carry,
  so the stored product can be `2^128` short (`mulU128ToU256_toNat`).
-/

namespace CipherOcto.Determin

open Machine

/-- Two `u128` limbs. -/
structure U256 where
  hi : Nat
  lo : Nat
deriving Repr, DecidableEq

namespace U256

def toNat (x : U256) : Nat := x.hi * 2 ^ 128 + x.lo

/-- Both limbs are `u128`. -/
def Fits (x : U256) : Prop := x.hi < 2 ^ 128 ∧ x.lo < 2 ^ 128

/-- The limbs of a number below `2^256`. -/
def ofNat (n : Nat) : U256 := ⟨n / 2 ^ 128, n % 2 ^ 128⟩

def leadingZeros (x : U256) : Nat :=
  if x.hi ≠ 0 then clz 128 x.hi
  else if x.lo ≠ 0 then 128 + clz 128 x.lo
  else 256

/-- `sub`: the caller ensures `self >= other`. -/
def sub (self other : U256) : Tracked U256 :=
  if self.lo < other.lo then do
    let h ← subU 128 self.hi other.hi
    let h ← subU 128 h 1
    pure ⟨h, wrappingSub 128 self.lo other.lo⟩
  else do
    let h ← subU 128 self.hi other.hi
    let l ← subU 128 self.lo other.lo
    pure ⟨h, l⟩

def shr (self : U256) (shift : Nat) : Tracked U256 :=
  if shift = 0 then pure self
  else if 256 ≤ shift then pure ⟨0, 0⟩
  else if 128 ≤ shift then do
    let l ← shrU 128 self.hi (shift - 128)
    pure ⟨0, l⟩
  else do
    let h ← shrU 128 self.hi shift
    let l ← shrU 128 self.lo shift
    let c ← shlU 128 self.hi (128 - shift)
    pure ⟨h, l ||| c⟩

def shl (self : U256) (n : Nat) : Tracked U256 :=
  if n = 0 then pure self
  else if 256 ≤ n then pure ⟨0, 0⟩
  else if 128 ≤ n then
    let survivingLoBits := 256 - n
    if survivingLoBits = 0 then pure ⟨0, 0⟩
    else do
      let one ← shlU 128 1 survivingLoBits
      let mask ← subU 128 one 1
      let survivingLo := self.lo &&& mask
      let h ← shlU 128 survivingLo (n - 128)
      pure ⟨h, 0⟩
  else do
    let h ← shlU 128 self.hi n
    let c ← shrU 128 self.lo (128 - n)
    let l ← shlU 128 self.lo n
    pure ⟨h ||| c, l⟩

/-! ### One equation per operation -/

theorem toNat_lt {x : U256} (h : x.Fits) : x.toNat < 2 ^ 256 := by
  obtain ⟨hhi, hlo⟩ := h
  unfold toNat
  omega

@[simp] theorem toNat_ofNat (n : Nat) : (ofNat n).toNat = n := by
  unfold toNat ofNat
  simp only
  omega

theorem ofNat_fits {n : Nat} (h : n < 2 ^ 256) : (ofNat n).Fits := by
  unfold Fits ofNat
  simp only
  omega

theorem ofNat_toNat {x : U256} (h : x.Fits) : ofNat x.toNat = x := by
  obtain ⟨-, hlo⟩ := h
  cases x
  simp only [ofNat, toNat, mk.injEq] at hlo ⊢
  omega

theorem eq_ofNat {x : U256} {n : Nat} (hlo : x.lo < 2 ^ 128) (h : x.toNat = n) : x = ofNat n := by
  subst h
  cases x
  simp only [ofNat, toNat, mk.injEq] at hlo ⊢
  omega

theorem leadingZeros_eq {x : U256} (h : x.Fits) : x.leadingZeros = 256 - bitLen x.toNat := by
  obtain ⟨hhi, hlo⟩ := h
  unfold leadingZeros toNat
  split
  · next hne =>
    have hdiv : (x.hi * 2 ^ 128 + x.lo) / 2 ^ 128 = x.hi := by omega
    have hlen := bitLen_eq_add (n := x.hi * 2 ^ 128 + x.lo) (k := 128) (by rw [hdiv]; exact hne)
    rw [hdiv] at hlen
    have hle := bitLen_le_iff.mpr hhi
    unfold clz
    omega
  · next hz =>
    rw [not_not.mp hz, Nat.zero_mul, Nat.zero_add]
    split
    · have hle := bitLen_le_iff.mpr hlo
      unfold clz
      omega
    · next hz' => rw [not_not.mp hz']; rfl

theorem sub_eq {x y : U256} (hx : x.Fits) (hy : y.Fits) (h : y.toNat ≤ x.toNat) :
    x.sub y = pure (ofNat (x.toNat - y.toNat)) := by
  obtain ⟨hxh, hxl⟩ := hx
  obtain ⟨hyh, hyl⟩ := hy
  unfold toNat at h
  unfold sub
  split
  · next hlt =>
    rw [subU_of_le (by omega) hxh, pure_bind, subU_of_le (by omega) (by omega), pure_bind]
    refine congrArg pure ?_
    apply eq_ofNat
    · exact Nat.mod_lt _ (Nat.two_pow_pos 128)
    · simp only [toNat, wrappingSub]
      omega
  · next hge =>
    rw [subU_of_le (by omega) hxh, pure_bind, subU_of_le (by omega) hxl, pure_bind]
    refine congrArg pure ?_
    apply eq_ofNat
    · simp only
      omega
    · simp only [toNat]
      omega

/-- Disjoint bit ranges: the low part fits below the shifted high part. -/
theorem or_eq_add {a b n : Nat} (h : b < 2 ^ n) : a * 2 ^ n ||| b = a * 2 ^ n + b := by
  rw [mul_comm, Nat.two_pow_add_eq_or_of_lt h]

theorem shr_eq {x : U256} (hx : x.Fits) {n : Nat} (hn : n < 256) :
    x.shr n = pure (ofNat (x.toNat / 2 ^ n)) := by
  obtain ⟨hxh, hxl⟩ := hx
  unfold shr
  split
  · next h0 => rw [h0, pow_zero, Nat.div_one, ofNat_toNat ⟨hxh, hxl⟩]
  rw [if_neg (by omega)]
  split
  · next hge =>
    rw [shrU_of_lt (by omega), pure_bind]
    refine congrArg pure ?_
    apply eq_ofNat
    · exact lt_of_le_of_lt (Nat.div_le_self _ _) hxh
    · obtain ⟨k, rfl⟩ : ∃ k, n = 128 + k := ⟨n - 128, by omega⟩
      rw [pow_add, ← Nat.div_div_eq_div_mul]
      simp only [toNat, Nat.add_sub_cancel_left]
      rw [show (x.hi * 2 ^ 128 + x.lo) / 2 ^ 128 = x.hi by omega]
      omega
  · next hlt =>
    rw [shrU_of_lt (by omega), pure_bind, shrU_of_lt (by omega), pure_bind,
      shlU_of_lt_width (by omega), pure_bind]
    refine congrArg pure ?_
    obtain ⟨k, hk⟩ : ∃ k, 128 = n + k := ⟨128 - n, by omega⟩
    have hpow : 2 ^ 128 = 2 ^ n * 2 ^ k := by rw [← pow_add, ← hk]
    have hl : x.lo / 2 ^ n < 2 ^ k := by
      rw [Nat.div_lt_iff_lt_mul (Nat.two_pow_pos n), mul_comm, ← hpow]
      exact hxl
    rw [show 128 - n = k by omega, hpow, Nat.mul_mod_mul_right, Nat.or_comm, or_eq_add hl]
    have hr : x.hi % 2 ^ n + 1 ≤ 2 ^ n := Nat.mod_lt _ (Nat.two_pow_pos n)
    apply eq_ofNat
    · show x.hi % 2 ^ n * 2 ^ k + x.lo / 2 ^ n < 2 ^ 128
      rw [hpow]
      calc x.hi % 2 ^ n * 2 ^ k + x.lo / 2 ^ n < (x.hi % 2 ^ n + 1) * 2 ^ k := by
            rw [Nat.add_mul, Nat.one_mul]; omega
        _ ≤ 2 ^ n * 2 ^ k := Nat.mul_le_mul_right _ hr
    · show x.hi / 2 ^ n * 2 ^ 128 + (x.hi % 2 ^ n * 2 ^ k + x.lo / 2 ^ n) =
        (x.hi * 2 ^ 128 + x.lo) / 2 ^ n
      rw [hpow, show x.hi * (2 ^ n * 2 ^ k) + x.lo = x.lo + 2 ^ n * (x.hi * 2 ^ k) by ring,
        Nat.add_mul_div_left _ _ (Nat.two_pow_pos n)]
      calc x.hi / 2 ^ n * (2 ^ n * 2 ^ k) + (x.hi % 2 ^ n * 2 ^ k + x.lo / 2 ^ n)
          = (2 ^ n * (x.hi / 2 ^ n) + x.hi % 2 ^ n) * 2 ^ k + x.lo / 2 ^ n := by ring
        _ = x.lo / 2 ^ n + x.hi * 2 ^ k := by rw [Nat.div_add_mod, Nat.add_comm]

/-- Shifting a single limb up, away from the full width. -/
theorem shl_eq {m : Nat} (hm : m < 2 ^ 128) {n : Nat} (hn : n < 256) (hne : n ≠ 128) :
    shl ⟨0, m⟩ n = pure (ofNat (m * 2 ^ n % 2 ^ 256)) := by
  unfold shl
  split
  · next h0 =>
    rw [h0, pow_zero, Nat.mul_one, Nat.mod_eq_of_lt (by omega)]
    refine congrArg pure ?_
    exact eq_ofNat hm (by simp [toNat])
  rw [if_neg (by omega)]
  split
  · next hge =>
    obtain ⟨k, hk⟩ : ∃ k, 256 = n + k := ⟨256 - n, by omega⟩
    have hk1 : 2 ^ k < 2 ^ 128 := Nat.pow_lt_pow_right Nat.one_lt_two (by omega)
    have hsplit : 2 ^ 128 = 2 ^ k * 2 ^ (n - 128) := by
      rw [← pow_add, show k + (n - 128) = 128 by omega]
    have hmod : m % 2 ^ k < 2 ^ k := Nat.mod_lt _ (Nat.two_pow_pos k)
    have hfit : m % 2 ^ k * 2 ^ (n - 128) < 2 ^ 128 := by
      rw [hsplit]
      exact Nat.mul_lt_mul_of_pos_right hmod (Nat.two_pow_pos _)
    have hone : 1 * 2 ^ k < 2 ^ 128 := lt_of_eq_of_lt (Nat.one_mul _) hk1
    rw [show 256 - n = k by omega, if_neg (by omega), shlU_of_lt (by omega) hone, pure_bind,
      Nat.one_mul, subU_of_le (Nat.two_pow_pos k) hk1, pure_bind]
    simp only [Nat.and_two_pow_sub_one_eq_mod]
    rw [shlU_of_lt (by omega) hfit, pure_bind]
    refine congrArg pure ?_
    have hval : m * 2 ^ n % 2 ^ 256 = m % 2 ^ k * 2 ^ (n - 128) * 2 ^ 128 := by
      rw [hk, Nat.add_comm n k, pow_add, Nat.mul_mod_mul_right, mul_assoc, ← pow_add,
        show n - 128 + 128 = n by omega]
    apply eq_ofNat
    · simp only
      omega
    · simp only [toNat]
      omega
  · next hlt =>
    obtain ⟨k, hk⟩ : ∃ k, 128 = n + k := ⟨128 - n, by omega⟩
    have hpow : 2 ^ 128 = 2 ^ n * 2 ^ k := by rw [← pow_add, ← hk]
    have hfit : m * 2 ^ n < 2 ^ 256 := by
      calc m * 2 ^ n < 2 ^ 128 * 2 ^ n := Nat.mul_lt_mul_of_pos_right hm (Nat.two_pow_pos n)
        _ ≤ 2 ^ 128 * 2 ^ 128 := Nat.mul_le_mul_left _ (Nat.pow_le_pow_right Nat.two_pos (by omega))
        _ = 2 ^ 256 := by norm_num
    rw [Nat.mod_eq_of_lt hfit, shlU_of_lt_width (by omega), pure_bind, shrU_of_lt (by omega),
      pure_bind, shlU_of_lt_width (by omega), pure_bind]
    refine congrArg pure ?_
    have hdiv : m * 2 ^ n / 2 ^ 128 = m / 2 ^ k := by
      rw [hpow, mul_comm m, Nat.mul_div_mul_left _ _ (Nat.two_pow_pos n)]
    rw [Nat.zero_mul, Nat.zero_mod, Nat.zero_or, show 128 - n = k by omega, ← hdiv]
    apply eq_ofNat
    · simp only
      omega
    · simp only [toNat]
      omega

/-- A shift by 128 overflows while building its mask, which then clears everything. -/
theorem shl_128 (m : Nat) : shl ⟨0, m⟩ 128 = ⟨⟨0, 0⟩, true⟩ := by
  unfold shl
  simp [shlU, subU, Bind.bind, Pure.pure]

end U256

/-! ## The 128-bit product -/

/-- `mul_u128_to_u256`. The partial products of two `u64` fit a `u128`, so the
only arithmetic that can wrap is the explicitly wrapping one. -/
def mulU128ToU256 (a b : Nat) : U256 :=
  let aLo := a % 2 ^ 64
  let aHi := a / 2 ^ 64
  let bLo := b % 2 ^ 64
  let bHi := b / 2 ^ 64
  let ppLoLo := aLo * bLo
  let ppLoHi := aLo * bHi
  let ppHiLo := aHi * bLo
  let ppHiHi := aHi * bHi
  let mid := wrappingAdd 128 ppHiLo ppLoHi
  let hasCarry := mid < ppHiLo
  let hi := wrappingAdd 128 (wrappingAdd 128 ppHiHi (if hasCarry then 2 ^ 64 else 0)) (mid / 2 ^ 64)
  let lo := wrappingAdd 128 (mid * 2 ^ 64 % 2 ^ 128) ppLoLo
  ⟨hi, lo⟩

/-- The low halves of the partial products sum past `2^128`: this carry is dropped. -/
def LostCarry (a b : Nat) : Prop :=
  2 ^ 128 ≤ (a / 2 ^ 64 * (b % 2 ^ 64) + a % 2 ^ 64 * (b / 2 ^ 64)) % 2 ^ 64 * 2 ^ 64
    + a % 2 ^ 64 * (b % 2 ^ 64)

instance (a b : Nat) : Decidable (LostCarry a b) := inferInstanceAs (Decidable (_ ≤ _))

/-- What the product stores: `a * b`, short by `2^128` when the carry is lost. -/
def storedProduct (a b : Nat) : Nat := a * b - if LostCarry a b then 2 ^ 128 else 0

theorem mul_u64_le {x y : Nat} (hx : x < 2 ^ 64) (hy : y < 2 ^ 64) :
    x * y ≤ (2 ^ 64 - 1) * (2 ^ 64 - 1) :=
  Nat.mul_le_mul (by omega) (by omega)

/-- The high limb collects the middle sum whether or not that sum wrapped. -/
theorem high_limb_eq {hh hl lh : Nat} (hhh : hh ≤ (2 ^ 64 - 1) * (2 ^ 64 - 1))
    (hhl : hl ≤ (2 ^ 64 - 1) * (2 ^ 64 - 1)) (hlh : lh ≤ (2 ^ 64 - 1) * (2 ^ 64 - 1)) :
    wrappingAdd 128 (wrappingAdd 128 hh (if wrappingAdd 128 hl lh < hl then 2 ^ 64 else 0))
      (wrappingAdd 128 hl lh / 2 ^ 64) = hh + (hl + lh) / 2 ^ 64 := by
  unfold wrappingAdd
  split <;> omega

theorem mulU128ToU256_fits (a b : Nat) : (mulU128ToU256 a b).Fits :=
  ⟨Nat.mod_lt _ (Nat.two_pow_pos 128), Nat.mod_lt _ (Nat.two_pow_pos 128)⟩

theorem mulU128ToU256_toNat {a b : Nat} (ha : a < 2 ^ 128) (hb : b < 2 ^ 128) :
    (mulU128ToU256 a b).toNat + (if LostCarry a b then 2 ^ 128 else 0) = a * b := by
  have hab : a * b = a / 2 ^ 64 * (b / 2 ^ 64) * 2 ^ 128
      + (a / 2 ^ 64 * (b % 2 ^ 64) + a % 2 ^ 64 * (b / 2 ^ 64)) * 2 ^ 64
      + a % 2 ^ 64 * (b % 2 ^ 64) := by
    calc a * b = (2 ^ 64 * (a / 2 ^ 64) + a % 2 ^ 64) * (2 ^ 64 * (b / 2 ^ 64) + b % 2 ^ 64) := by
          rw [Nat.div_add_mod, Nat.div_add_mod]
      _ = _ := by ring
  have haLo : a % 2 ^ 64 < 2 ^ 64 := Nat.mod_lt _ (by positivity)
  have hbLo : b % 2 ^ 64 < 2 ^ 64 := Nat.mod_lt _ (by positivity)
  have haHi : a / 2 ^ 64 < 2 ^ 64 := by omega
  have hbHi : b / 2 ^ 64 < 2 ^ 64 := by omega
  have hll := mul_u64_le haLo hbLo
  have hlh := mul_u64_le haLo hbHi
  have hhl := mul_u64_le haHi hbLo
  have hhh := mul_u64_le haHi hbHi
  rw [hab]
  simp only [mulU128ToU256, U256.toNat]
  rw [high_limb_eq hhh hhl hlh]
  by_cases hlost : LostCarry a b
  · rw [if_pos hlost]
    unfold LostCarry at hlost
    unfold wrappingAdd
    omega
  · rw [if_neg hlost]
    unfold LostCarry at hlost
    unfold wrappingAdd
    omega

theorem mulU128ToU256_toNat_eq {a b : Nat} (ha : a < 2 ^ 128) (hb : b < 2 ^ 128) :
    (mulU128ToU256 a b).toNat = storedProduct a b := by
  have h := mulU128ToU256_toNat ha hb
  unfold storedProduct
  omega

/-! ## Helpers of the square root -/

/-- `u128_shl_to_u256`. -/
def u128ShlToU256 (val n : Nat) : Tracked U256 :=
  if n = 0 then pure ⟨0, val⟩
  else if 256 ≤ n then pure ⟨0, 0⟩
  else if 128 ≤ n then pure ⟨val * 2 ^ ((n - 128) % 128) % 2 ^ 128, 0⟩
  else do
    let one ← shlU 128 1 (128 - n)
    let mask ← subU 128 one 1
    let lo ← shlU 128 (val &&& mask) n
    let hi ← shrU 128 val (128 - n)
    pure ⟨hi, lo⟩

/-- `set_bit_u256`. -/
def setBitU256 (hi lo bit : Nat) : Tracked U256 :=
  if 128 ≤ bit then do
    let b ← shlU 128 1 (bit - 128)
    pure ⟨hi ||| b, lo⟩
  else do
    let b ← shlU 128 1 bit
    pure ⟨hi, lo ||| b⟩

/-- `overflowing_add` on `u128`, with the carry as a bit. -/
def overflowingAdd (a b : Nat) : Nat × Nat :=
  (wrappingAdd 128 a b, if 2 ^ 128 ≤ a + b then 1 else 0)

/-- `u256_sq_le_u384`: compare the square of `(c_hi, c_lo)` with `(s_top, s_mid, 0)`. -/
def u256SqLeU384 (cHi cLo sTop sMid : Nat) : Bool :=
  let loSq := mulU128ToU256 cLo cLo
  let cross := mulU128ToU256 cHi cLo
  let crossD1 := cross.lo * 2 % 2 ^ 128
  let crossD2 := cross.hi * 2 % 2 ^ 128 ||| cross.lo / 2 ^ 127
  let crossDCarry := cross.hi / 2 ^ 127
  let hiSq := mulU128ToU256 cHi cHi
  let q0 := loSq.lo
  let (q1, q1Carry) := overflowingAdd loSq.hi crossD1
  let (q2a, c2a) := overflowingAdd crossD2 hiSq.lo
  let (q2b, c2b) := overflowingAdd q2a crossDCarry
  let (q2, c2c) := overflowingAdd q2b q1Carry
  let q3 := wrappingAdd 128 hiSq.hi (c2a + c2b + c2c)
  if q3 ≠ 0 then false
  else if q2 < sTop then true
  else if sTop < q2 then false
  else if q1 < sMid then true
  else if sMid < q1 then false
  else q0 == 0

theorem setBitU256_ovf (hi lo : Nat) {bit : Nat} (h : bit < 256) : (setBitU256 hi lo bit).ovf = false := by
  unfold setBitU256
  split
  · rw [shlU_of_lt_width (by omega)]
    rfl
  · rw [shlU_of_lt_width (by omega)]
    rfl

/-- The candidate of the square-root loop stays below `2^226`. -/
theorem setBitU256_val_lt {hi lo bit : Nat} (hhi : hi < 2 ^ 98) (hlo : lo < 2 ^ 128)
    (h : bit < 226) :
    (setBitU256 hi lo bit).val.hi < 2 ^ 98 ∧ (setBitU256 hi lo bit).val.lo < 2 ^ 128 := by
  unfold setBitU256
  split
  · have hb : 1 * 2 ^ (bit - 128) < 2 ^ 98 := by
      rw [Nat.one_mul]
      exact Nat.pow_lt_pow_right Nat.one_lt_two (by omega)
    rw [shlU_of_lt (by omega) (by omega)]
    exact ⟨Nat.or_lt_two_pow hhi hb, hlo⟩
  · have hb : 1 * 2 ^ bit < 2 ^ 128 := by
      rw [Nat.one_mul]
      exact Nat.pow_lt_pow_right Nat.one_lt_two (by omega)
    rw [shlU_of_lt (by omega) hb]
    exact ⟨hhi, Nat.or_lt_two_pow hlo hb⟩

end CipherOcto.Determin
