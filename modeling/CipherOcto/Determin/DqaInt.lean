import CipherOcto.Determin.Dqa

/-!
# Integers as `Dqa`

At scale 0 nothing is aligned and nothing is stripped: the operations are those of the
integers, with one range check, and the quotient is rounded half-even.
-/

namespace CipherOcto.Determin

open Machine

/-- An integer, at scale 0. -/
def Dqa.ofInt (value : Int) (h : InI 64 value) : Dqa := ⟨value, 0, h, zero_scale_lt⟩

theorem Dqa.canonicalize_of_scale_eq_zero {d : Dqa} (h : d.scale = 0) : d.canonicalize = d := by
  have hcanon : Scaled.canon d.value 0 = (d.value, 0) := by
    unfold Scaled.canon
    split
    next hzero => rw [hzero]
    next => rfl
  have hpair : Scaled.canon d.value d.scale = (d.value, d.scale) := by rw [h, hcanon]
  exact Dqa.ext (congrArg Prod.fst hpair) (congrArg Prod.snd hpair)

theorem finish_zero_of_inI {x : Int} (h : InI 64 x) : finish x 0 = .ok (Dqa.ofInt x h) := by
  rw [finish_of_inI h (by norm_num), Dqa.canonicalize_of_scale_eq_zero rfl]
  rfl

variable {a b : Dqa}

theorem dqaSub_of_integers (ha : a.scale = 0) (hb : b.scale = 0) :
    dqaSub a b = finish (a.value - b.value) 0 := by
  rw [dqaSub, alignScales, if_pos (ha.trans hb.symm), ha, hb]
  rfl

theorem dqaMul_of_integers (ha : a.scale = 0) (hb : b.scale = 0) :
    dqaMul a b = finish (a.value * b.value) 0 := by
  rw [dqaMul, ha, hb]
  rfl

theorem dqaDiv_of_integers (ha : a.scale = 0) (hb : b.scale = 0) (hpos : 0 < b.value) :
    dqaDiv a b = finish (Rounding.roundHalfEven ((a.value : ℚ) / b.value)) 0 := by
  have hin : InI 128 (a.value * 10 ^ 0) := by
    obtain ⟨hlo, hhi⟩ := a.value_inI
    rw [minI] at hlo
    rw [maxI] at hhi
    rw [pow_zero, mul_one, InI, minI, maxI]
    omega
  rw [dqaDiv, if_neg hpos.ne', ha, hb]
  show (index pow10 0 >>= fun factor => _) = _
  rw [index_pow10 (by omega)]
  show (if InI 128 (a.value * 10 ^ 0) then _ else _) = _
  rw [if_pos hin, pow_zero, mul_one, abs_of_pos hpos, sign_eq, sign_eq,
    roundHalfEvenWithRemainder_eq _ hpos.ne']
  rfl

theorem dqaCmp_of_integers (ha : a.scale = 0) (hb : b.scale = 0) :
    dqaCmp a b = .ok (threeWay a.value b.value) := by
  rw [dqaCmp, Dqa.canonicalize_of_scale_eq_zero ha, Dqa.canonicalize_of_scale_eq_zero hb,
    if_pos (ha.trans hb.symm)]

end CipherOcto.Determin
