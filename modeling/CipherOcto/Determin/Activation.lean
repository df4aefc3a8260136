import CipherOcto.Determin.DqaWire
import CipherOcto.Lib.Attempt

/-!
# Activation functions

`determin/src/dact.rs` computes the sigmoid and the hyperbolic tangent of a `Dqa` from
tables of 801 entries. The operand is brought to two decimals, rounding down, clamped to
-4.00 and 4.00, looked up, and the entry converted from Q8.8 to four decimals. The tables
ascend, so on the normalised operand both functions are monotone (`curve_mono`).

The normalisation multiplies or divides in `i64` and comes before the clamp. Where it
overflows, a checked build stops and a wrapping build clamps whatever is left:

> `activation_laws_iff`: on any set of operands that has all those which do not overflow, the
> functions return, are monotone and depend on the number only, iff every operand of the set
> is one that does not overflow, or wraps to the right side of the clamp.
-/

namespace CipherOcto.Determin

open Machine

inductive DactError where
  | trapInput
  | invalidScale
  | overflow
deriving Repr, DecidableEq

/-- `SIGMOID_LUT`, the sigmoid of -4.00 to 4.00 in Q8.8. -/
def sigmoidLut : List Int := [
  5, 5, 5, 5, 5, 5, 5, 5, 5, 5, 5, 5, 5, 5, 5, 5, 5, 5, 5, 6, 6, 6, 6, 6, 6, 6, 6, 6, 6, 6, 6, 6,
  6, 6, 6, 6, 7, 7, 7, 7, 7, 7, 7, 7, 7, 7, 7, 7, 7, 7, 8, 8, 8, 8, 8, 8, 8, 8, 8, 8, 8, 8, 8, 9,
  9, 9, 9, 9, 9, 9, 9, 9, 9, 9, 9, 10, 10, 10, 10, 10, 10, 10, 10, 10, 10, 11, 11, 11, 11, 11, 11,
  11, 11, 11, 11, 12, 12, 12, 12, 12, 12, 12, 12, 12, 13, 13, 13, 13, 13, 13, 13, 13, 14, 14, 14,
  14, 14, 14, 14, 15, 15, 15, 15, 15, 15, 15, 16, 16, 16, 16, 16, 16, 16, 17, 17, 17, 17, 17, 17,
  18, 18, 18, 18, 18, 18, 19, 19, 19, 19, 19, 19, 20, 20, 20, 20, 20, 21, 21, 21, 21, 21, 21, 22,
  22, 22, 22, 22, 23, 23, 23, 23, 24, 24, 24, 24, 24, 25, 25, 25, 25, 26, 26, 26, 26, 26, 27, 27,
  27, 27, 28, 28, 28, 28, 29, 29, 29, 29, 30, 30, 30, 31, 31, 31, 31, 32, 32, 32, 32, 33, 33, 33,
  34, 34, 34, 34, 35, 35, 35, 36, 36, 36, 37, 37, 37, 38, 38, 38, 39, 39, 39, 40, 40, 40, 41, 41,
  41, 42, 42, 42, 43, 43, 43, 44, 44, 44, 45, 45, 46, 46, 46, 47, 47, 47, 48, 48, 49, 49, 49, 50,
  50, 51, 51, 51, 52, 52, 53, 53, 54, 54, 54, 55, 55, 56, 56, 57, 57, 57, 58, 58, 59, 59, 60, 60,
  61, 61, 62, 62, 63, 63, 63, 64, 64, 65, 65, 66, 66, 67, 67, 68, 68, 69, 69, 70, 70, 71, 71, 72,
  72, 73, 73, 74, 75, 75, 76, 76, 77, 77, 78, 78, 79, 79, 80, 80, 81, 82, 82, 83, 83, 84, 84, 85,
  86, 86, 87, 87, 88, 88, 89, 90, 90, 91, 91, 92, 92, 93, 94, 94, 95, 95, 96, 97, 97, 98, 98, 99,
  100, 100, 101, 102, 102, 103, 103, 104, 105, 105, 106, 106, 107, 108, 108, 109, 110, 110, 111,
  111, 112, 113, 113, 114, 115, 115, 116, 117, 117, 118, 118, 119, 120, 120, 121, 122, 122, 123,
  124, 124, 125, 125, 126, 127, 127, 128, 129, 129, 130, 131, 131, 132, 132, 133, 134, 134, 135,
  136, 136, 137, 138, 138, 139, 139, 140, 141, 141, 142, 143, 143, 144, 145, 145, 146, 146, 147,
  148, 148, 149, 150, 150, 151, 151, 152, 153, 153, 154, 154, 155, 156, 156, 157, 158, 158, 159,
  159, 160, 161, 161, 162, 162, 163, 164, 164, 165, 165, 166, 166, 167, 168, 168, 169, 169, 170,
  170, 171, 172, 172, 173, 173, 174, 174, 175, 176, 176, 177, 177, 178, 178, 179, 179, 180, 180,
  181, 181, 182, 183, 183, 184, 184, 185, 185, 186, 186, 187, 187, 188, 188, 189, 189, 190, 190,
  191, 191, 192, 192, 193, 193, 193, 194, 194, 195, 195, 196, 196, 197, 197, 198, 198, 199, 199,
  199, 200, 200, 201, 201, 202, 202, 202, 203, 203, 204, 204, 205, 205, 205, 206, 206, 207, 207,
  207, 208, 208, 209, 209, 209, 210, 210, 210, 211, 211, 212, 212, 212, 213, 213, 213, 214, 214,
  214, 215, 215, 215, 216, 216, 216, 217, 217, 217, 218, 218, 218, 219, 219, 219, 220, 220, 220,
  221, 221, 221, 222, 222, 222, 222, 223, 223, 223, 224, 224, 224, 224, 225, 225, 225, 225, 226,
  226, 226, 227, 227, 227, 227, 228, 228, 228, 228, 229, 229, 229, 229, 230, 230, 230, 230, 230,
  231, 231, 231, 231, 232, 232, 232, 232, 232, 233, 233, 233, 233, 234, 234, 234, 234, 234, 235,
  235, 235, 235, 235, 235, 236, 236, 236, 236, 236, 237, 237, 237, 237, 237, 237, 238, 238, 238,
  238, 238, 238, 239, 239, 239, 239, 239, 239, 240, 240, 240, 240, 240, 240, 240, 241, 241, 241,
  241, 241, 241, 241, 242, 242, 242, 242, 242, 242, 242, 243, 243, 243, 243, 243, 243, 243, 243,
  244, 244, 244, 244, 244, 244, 244, 244, 244, 245, 245, 245, 245, 245, 245, 245, 245, 245, 245,
  246, 246, 246, 246, 246, 246, 246, 246, 246, 246, 247, 247, 247, 247, 247, 247, 247, 247, 247,
  247, 247, 247, 248, 248, 248, 248, 248, 248, 248, 248, 248, 248, 248, 248, 248, 249, 249, 249,
  249, 249, 249, 249, 249, 249, 249, 249, 249, 249, 249, 250, 250, 250, 250, 250, 250, 250, 250,
  250, 250, 250, 250, 250, 250, 250, 250, 250, 251, 251, 251, 251, 251, 251, 251, 251, 251, 251,
  251, 251, 251, 251, 251, 251, 251, 251, 251]

/-- The negative entries of `TANH_LUT`, without their sign. -/
def tanhLutBelow : List Int := [
  256, 256, 256, 256, 256, 256, 256, 256, 256, 256, 256, 256, 256, 256, 256, 256, 256, 256, 256,
  256, 256, 256, 256, 256, 256, 256, 256, 256, 256, 256, 256, 256, 256, 256, 256, 256, 256, 256,
  256, 256, 256, 256, 256, 256, 256, 256, 256, 256, 256, 256, 256, 256, 256, 256, 255, 255, 255,
  255, 255, 255, 255, 255, 255, 255, 255, 255, 255, 255, 255, 255, 255, 255, 255, 255, 255, 255,
  255, 255, 255, 255, 255, 255, 255, 255, 255, 255, 255, 255, 255, 255, 255, 255, 255, 255, 255,
  255, 255, 255, 255, 255, 255, 255, 255, 255, 255, 255, 255, 255, 255, 254, 254, 254, 254, 254,
  254, 254, 254, 254, 254, 254, 254, 254, 254, 254, 254, 254, 254, 254, 254, 254, 254, 254, 254,
  254, 254, 253, 253, 253, 253, 253, 253, 253, 253, 253, 253, 253, 253, 253, 253, 253, 253, 253,
  252, 252, 252, 252, 252, 252, 252, 252, 252, 252, 252, 252, 251, 251, 251, 251, 251, 251, 251,
  251, 251, 251, 250, 250, 250, 250, 250, 250, 250, 250, 250, 249, 249, 249, 249, 249, 249, 249,
  248, 248, 248, 248, 248, 248, 247, 247, 247, 247, 247, 247, 246, 246, 246, 246, 246, 245, 245,
  245, 245, 245, 244, 244, 244, 244, 243, 243, 243, 243, 242, 242, 242, 242, 241, 241, 241, 240,
  240, 240, 239, 239, 239, 238, 238, 238, 237, 237, 237, 236, 236, 236, 235, 235, 234, 234, 234,
  233, 233, 232, 232, 231, 231, 230, 230, 229, 229, 228, 228, 227, 227, 226, 226, 225, 224, 224,
  223, 223, 222, 221, 221, 220, 219, 219, 218, 217, 216, 216, 215, 214, 213, 213, 212, 211, 210,
  209, 208, 208, 207, 206, 205, 204, 203, 202, 201, 200, 199, 198, 197, 196, 195, 194, 193, 192,
  191, 189, 188, 187, 186, 185, 183, 182, 181, 180, 178, 177, 176, 174, 173, 171, 170, 169, 167,
  166, 164, 163, 161, 160, 158, 156, 155, 153, 151, 150, 148, 146, 145, 143, 141, 139, 137, 136,
  134, 132, 130, 128, 126, 124, 122, 120, 118, 116, 114, 112, 110, 108, 106, 104, 102, 99, 97, 95,
  93, 91, 88, 86, 84, 82, 79, 77, 75, 72, 70, 67, 65, 63, 60, 58, 55, 53, 51, 48, 46, 43, 41, 38,
  36, 33, 31, 28, 26, 23, 20, 18, 15, 13, 10, 8, 5, 3]

/-- The others. -/
def tanhLutAbove : List Int := [
  0, 3, 5, 8, 10, 13, 15, 18, 20, 23, 26, 28, 31, 33, 36, 38, 41, 43, 46, 48, 51, 53, 55, 58, 60,
  63, 65, 67, 70, 72, 75, 77, 79, 82, 84, 86, 88, 91, 93, 95, 97, 99, 102, 104, 106, 108, 110, 112,
  114, 116, 118, 120, 122, 124, 126, 128, 130, 132, 134, 136, 137, 139, 141, 143, 145, 146, 148,
  150, 151, 153, 155, 156, 158, 160, 161, 163, 164, 166, 167, 169, 170, 171, 173, 174, 176, 177,
  178, 180, 181, 182, 183, 185, 186, 187, 188, 189, 191, 192, 193, 194, 195, 196, 197, 198, 199,
  200, 201, 202, 203, 204, 205, 206, 207, 208, 208, 209, 210, 211, 212, 213, 213, 214, 215, 216,
  216, 217, 218, 219, 219, 220, 221, 221, 222, 223, 223, 224, 224, 225, 226, 226, 227, 227, 228,
  228, 229, 229, 230, 230, 231, 231, 232, 232, 233, 233, 234, 234, 234, 235, 235, 236, 236, 236,
  237, 237, 237, 238, 238, 238, 239, 239, 239, 240, 240, 240, 241, 241, 241, 242, 242, 242, 242,
  243, 243, 243, 243, 244, 244, 244, 244, 245, 245, 245, 245, 245, 246, 246, 246, 246, 246, 247,
  247, 247, 247, 247, 247, 248, 248, 248, 248, 248, 248, 249, 249, 249, 249, 249, 249, 249, 250,
  250, 250, 250, 250, 250, 250, 250, 250, 251, 251, 251, 251, 251, 251, 251, 251, 251, 251, 252,
  252, 252, 252, 252, 252, 252, 252, 252, 252, 252, 252, 253, 253, 253, 253, 253, 253, 253, 253,
  253, 253, 253, 253, 253, 253, 253, 253, 253, 254, 254, 254, 254, 254, 254, 254, 254, 254, 254,
  254, 254, 254, 254, 254, 254, 254, 254, 254, 254, 254, 254, 254, 254, 254, 254, 255, 255, 255,
  255, 255, 255, 255, 255, 255, 255, 255, 255, 255, 255, 255, 255, 255, 255, 255, 255, 255, 255,
  255, 255, 255, 255, 255, 255, 255, 255, 255, 255, 255, 255, 255, 255, 255, 255, 255, 255, 255,
  255, 255, 255, 255, 255, 255, 255, 255, 255, 255, 255, 255, 255, 255, 256, 256, 256, 256, 256,
  256, 256, 256, 256, 256, 256, 256, 256, 256, 256, 256, 256, 256, 256, 256, 256, 256, 256, 256,
  256, 256, 256, 256, 256, 256, 256, 256, 256, 256, 256, 256, 256, 256, 256, 256, 256, 256, 256,
  256, 256, 256, 256, 256, 256, 256, 256, 256, 256, 256]

/-- `TANH_LUT`. -/
def tanhLut : List Int := tanhLutBelow.map (- ·) ++ tanhLutAbove

/-- `is_trap`. -/
def Dqa.isTrap (d : Dqa) : Bool := d.value == minI 64 && d.scale == 255

/-- `Dqa::new(value, scale).unwrap()`, on an `i64` and a `u8`. -/
def newUnwrap (value : Int) (scale : Nat) : Run DactError Dqa :=
  if h : InI 64 value ∧ scale < 256 then
    (Dqa.new value scale h.1 h.2).mapError fun _ => .panic
  else .error .panic

/-- `q88_to_dqa`: `q / 256`, rounded down. -/
def q88ToDqa (q : Int) (targetScale : Nat) : Int × Nat :=
  let numerator := q * 10 ^ targetScale
  (if numerator ≥ 0 then wrapI 64 (numerator.tdiv 256)
    else -wrapI 64 ((-numerator + 255).tdiv 256), targetScale)

/-- `normalize_to_scale`, for scales of at most 18. The power of ten is then a word. -/
def normalizeToScale (checks : Bool) (x : Dqa) (targetScale : Nat) : Run DactError Dqa :=
  if x.scale = targetScale then .ok x
  else if targetScale > x.scale then do
    let value ← build checks (mulI 64 x.value (10 ^ (targetScale - x.scale)))
    newUnwrap value targetScale
  else if x.value ≥ 0 then newUnwrap (x.value.tdiv (10 ^ (x.scale - targetScale))) targetScale
  else do
    let neg ← build checks (subI 64 0 x.value)
    let sum ← build checks (addI 64 neg (10 ^ (x.scale - targetScale)))
    let sum ← build checks (subI 64 sum 1)
    let value ← build checks (subI 64 0 (sum.tdiv (10 ^ (x.scale - targetScale))))
    newUnwrap value targetScale

/-- What follows the normalisation; `low` is the value below the clamp. -/
def lookup (table : List Int) (low : Int) (value : Int) : Run DactError Dqa :=
  if value < -400 then (newUnwrap low 4).map Dqa.canonicalize
  else if value > 400 then (newUnwrap 10000 4).map Dqa.canonicalize
  else do
    let q ← index table (value + 400).toNat
    (newUnwrap (q88ToDqa q 4).1 (q88ToDqa q 4).2).map Dqa.canonicalize

/-- The body `sigmoid` and `tanh_dqa` have in common. -/
def activation (table : List Int) (low : Int) (checks : Bool) (x : Dqa) : Run DactError Dqa :=
  if x.isTrap then .error (.err .trapInput)
  else if x.scale > 18 then .error (.err .invalidScale)
  else do
    let xNorm ← normalizeToScale checks x 2
    lookup table low xNorm.value

/-- `sigmoid`. -/
def sigmoid (checks : Bool) (x : Dqa) : Run DactError Dqa := activation sigmoidLut 0 checks x

/-- `tanh_dqa`. -/
def tanhDqa (checks : Bool) (x : Dqa) : Run DactError Dqa := activation tanhLut (-10000) checks x

/-! ## The tables -/

/-- A table of the length the index needs, ascending, between the values of the clamps. -/
structure TableLaws (table : List Int) (low : Int) : Prop where
  length_eq : table.length = 801
  ascending : table.IsChain (· ≤ ·)
  low_ge : -10000 ≤ low
  between : ∀ q ∈ table, low ≤ q * 10000 / 256 ∧ q ≤ 256

theorem sigmoidLut_laws : TableLaws sigmoidLut 0 where
  length_eq := by decide +kernel
  ascending := by decide +kernel
  low_ge := by decide
  between := by decide +kernel

theorem tanhLut_laws : TableLaws tanhLut (-10000) where
  length_eq := by decide +kernel
  ascending := by decide +kernel
  low_ge := by decide
  between := by decide +kernel

/-- The function on hundredths, in ten-thousandths. -/
def curve (table : List Int) (low : Int) (n : Int) : Int :=
  if n < -400 then low
  else if n > 400 then 10000
  else table.getD (n + 400).toNat 0 * 10000 / 256

theorem newUnwrap_of_inI {v : Int} (h : InI 64 v) {s : Nat} (hs : s ≤ 18) :
    newUnwrap v s = .ok ⟨v, s, h, by omega⟩ := by
  unfold newUnwrap Dqa.new
  rw [dif_pos ⟨h, by omega⟩, if_neg (show ¬ s > maxScale from not_lt.mpr hs)]
  rfl

theorem q88ToDqa_eq {q : Int} (hlo : -10000 ≤ q * 10000 / 256) (hhi : q ≤ 256) :
    q88ToDqa q 4 = (q * 10000 / 256, 4) := by
  unfold q88ToDqa
  refine Prod.ext ?_ rfl
  show (if q * 10000 ≥ 0 then _ else _) = q * 10000 / 256
  split
  · rw [Int.tdiv_eq_ediv_of_nonneg ‹_›]
    exact wrapI_of_inI ⟨by unfold minI; omega, by unfold maxI; omega⟩
  · rw [Int.tdiv_eq_ediv_of_nonneg (by omega),
      wrapI_of_inI ⟨by unfold minI; omega, by unfold maxI; omega⟩]
    omega

section
variable {table : List Int} {low : Int} (laws : TableLaws table low)
include laws

theorem getD_mem {n : Int} (hlo : -400 ≤ n) (hhi : n ≤ 400) :
    table.getD (n + 400).toNat 0 ∈ table := by
  have hlen := laws.length_eq
  have hi : (n + 400).toNat < table.length := by omega
  rw [List.getD_eq_getElem _ _ hi]
  exact List.getElem_mem hi

theorem getD_between {n : Int} (hlo : -400 ≤ n) (hhi : n ≤ 400) :
    low ≤ table.getD (n + 400).toNat 0 * 10000 / 256 ∧ table.getD (n + 400).toNat 0 ≤ 256 :=
  laws.between _ (getD_mem laws hlo hhi)

/-- The function between the clamps ascends, and the clamps continue it. -/
theorem curve_mono {m n : Int} (h : m ≤ n) : curve table low m ≤ curve table low n := by
  have hlow := laws.low_ge
  unfold curve
  by_cases hm : m < -400
  · rw [if_pos hm]
    split
    · exact le_rfl
    · split
      · have hfirst := getD_between laws (n := 0) (by omega) (by omega)
        omega
      · exact (getD_between laws (by omega) (by omega)).1
  rw [if_neg hm, if_neg (show ¬ n < -400 by omega)]
  by_cases hn : n > 400
  · rw [if_pos hn]
    split
    · exact le_rfl
    · have hbound := (getD_between laws (n := m) (by omega) (by omega)).2
      omega
  rw [if_neg hn, if_neg (show ¬ m > 400 by omega)]
  have hlen := laws.length_eq
  have hi : (m + 400).toNat < table.length := by omega
  have hj : (n + 400).toNat < table.length := by omega
  rw [List.getD_eq_getElem _ _ hi, List.getD_eq_getElem _ _ hj]
  have hle : table[(m + 400).toNat] ≤ table[(n + 400).toNat] := by
    rcases h.eq_or_lt with rfl | hlt
    · exact le_rfl
    · exact List.pairwise_iff_getElem.mp (List.isChain_iff_pairwise.mp laws.ascending) _ _ hi hj
        (by omega)
  omega

/-- The lookup returns the point of the curve. -/
theorem lookup_eq_curve (n : Int) :
    ∃ d, lookup table low n = .ok d ∧ d.val = Scaled.val (curve table low n) 4 := by
  have hlow := laws.low_ge
  have hbetween := laws.between
  have hresult : ∀ v, -10000 ≤ v → v ≤ 10000 → ∃ d : Dqa,
      (newUnwrap v 4).map Dqa.canonicalize = .ok d ∧ d.val = Scaled.val v 4 := by
    intro v hlo hhi
    have hv : InI 64 v := ⟨by unfold minI; omega, by unfold maxI; omega⟩
    refine ⟨Dqa.canonicalize ⟨v, 4, hv, by decide⟩, ?_, Dqa.val_canonicalize _⟩
    rw [newUnwrap_of_inI hv (by decide)]
    rfl
  unfold lookup curve
  split
  · have hfirst := getD_between laws (n := 0) (by omega) (by omega)
    exact hresult low hlow (by omega)
  · split
    · exact hresult 10000 (by decide) le_rfl
    · have hlen := laws.length_eq
      have hi : (n + 400).toNat < table.length := by omega
      obtain ⟨hlo, hhi⟩ := getD_between laws (n := n) (by omega) (by omega)
      rw [List.getD_eq_getElem _ _ hi] at hlo hhi ⊢
      rw [index_eq_ok.mpr (List.getElem?_eq_getElem hi), ok_bind, q88ToDqa_eq (by omega) hhi]
      exact hresult _ (by omega) (by omega)

end

/-- Beyond a clamp the operand does not matter. -/
theorem lookup_above {table : List Int} {low m n : Int} (hm : 400 < m) (hn : 400 < n) :
    lookup table low m = lookup table low n := by
  unfold lookup
  rw [if_neg (by omega), if_pos hm, if_neg (by omega), if_pos hn]

theorem lookup_below {table : List Int} {low m n : Int} (hm : m < -400) (hn : n < -400) :
    lookup table low m = lookup table low n := by
  unfold lookup
  rw [if_pos hm, if_pos hn]

/-! ## The normalisation -/

/-- The hundredths of the number, rounded down. -/
def level (x : Dqa) : Int := ⌊x.val * 100⌋

theorem level_mono {x y : Dqa} (h : x.val ≤ y.val) : level x ≤ level y :=
  Int.floor_le_floor (mul_le_mul_of_nonneg_right h (by norm_num))

theorem level_of_le {x : Dqa} (h : x.scale ≤ 2) : level x = x.value * 10 ^ (2 - x.scale) := by
  have hval : x.val * 100 = ((x.value * 10 ^ (2 - x.scale) : Int) : ℚ) := by
    have hs : (10 : ℚ) ^ x.scale ≠ 0 := pow_ne_zero _ (by norm_num)
    have hpow : (100 : ℚ) = 10 ^ (2 - x.scale) * 10 ^ x.scale := by
      rw [← pow_add, Nat.sub_add_cancel h]
      norm_num
    unfold Dqa.val Scaled.val
    push_cast
    rw [hpow, div_mul_eq_mul_div, div_eq_iff hs, mul_assoc]
  unfold level
  rw [hval, Int.floor_intCast]

theorem level_of_ge {x : Dqa} (h : 2 ≤ x.scale) : level x = x.value / 10 ^ (x.scale - 2) := by
  have hval : x.val * 100 = (x.value : ℚ) / ((10 ^ (x.scale - 2) : Nat) : ℚ) := by
    have hs : (10 : ℚ) ^ x.scale ≠ 0 := pow_ne_zero _ (by norm_num)
    have ht : (10 : ℚ) ^ (x.scale - 2) ≠ 0 := pow_ne_zero _ (by norm_num)
    have hpow : (10 : ℚ) ^ x.scale = 10 ^ (x.scale - 2) * 100 := by
      rw [show (100 : ℚ) = 10 ^ 2 by norm_num, ← pow_add, Nat.sub_add_cancel h]
    unfold Dqa.val Scaled.val
    push_cast
    rw [div_mul_eq_mul_div, div_eq_div_iff hs ht, hpow]
    ring
  unfold level
  rw [hval, Rat.floor_intCast_div_natCast]
  norm_num

/-- The arithmetic of the normalisation stays in `i64`. -/
def NormalizeFits (x : Dqa) : Prop :=
  if x.scale ≤ 2 then InI 64 (x.value * 10 ^ (2 - x.scale))
  else -x.value + 10 ^ (x.scale - 2) ≤ maxI 64

/-- It overflows, and what is left is on the side of the clamp the operand is on. A
quotient's overflow is undone where it is the subtraction of one that undoes it. -/
def WrapsRight (x : Dqa) : Prop :=
  if x.scale ≤ 2 then
    (0 < x.value ∧ 400 < wrapI 64 (x.value * 10 ^ (2 - x.scale))) ∨
      (x.value < 0 ∧ wrapI 64 (x.value * 10 ^ (2 - x.scale)) < -400)
  else -x.value + 10 ^ (x.scale - 2) = maxI 64 + 1

/-- The operands a build gets right. -/
def Normalizes (checks : Bool) (x : Dqa) : Prop :=
  NormalizeFits x ∨ (checks = false ∧ WrapsRight x)

instance (x : Dqa) : Decidable (NormalizeFits x) := inferInstanceAs (Decidable (ite _ _ _))

instance (x : Dqa) : Decidable (WrapsRight x) := inferInstanceAs (Decidable (ite _ _ _))

instance (checks : Bool) (x : Dqa) : Decidable (Normalizes checks x) :=
  inferInstanceAs (Decidable (_ ∨ _))

theorem newUnwrap_two {v : Int} (h : InI 64 v) :
    newUnwrap v 2 = .ok ⟨v, 2, h, by decide⟩ := newUnwrap_of_inI h (by decide)

section
variable {checks : Bool} {x : Dqa}

/-- Up to two decimals: a product. -/
theorem normalize_of_le (hs : x.scale ≤ 2)
    (h : checks = true → InI 64 (x.value * 10 ^ (2 - x.scale))) :
    ∃ d, normalizeToScale checks x 2 = .ok d ∧ d.value = wrapI 64 (x.value * 10 ^ (2 - x.scale)) := by
  unfold normalizeToScale
  by_cases h2 : x.scale = 2
  · refine ⟨x, if_pos h2, ?_⟩
    rw [h2, Nat.sub_self, pow_zero, mul_one, wrapI_of_inI x.value_inI]
  · rw [if_neg h2, if_pos (by omega), build_mulI h, ok_bind, newUnwrap_two (inI_wrapI _)]
    exact ⟨_, rfl, rfl⟩

/-- More decimals: a quotient, rounded down by way of the negated value. -/
theorem normalize_of_gt_nonneg (hs : 2 < x.scale) (h0 : 0 ≤ x.value) :
    ∃ d, normalizeToScale checks x 2 = .ok d ∧ d.value = level x := by
  have hpos : (0 : Int) < 10 ^ (x.scale - 2) := Scaled.ten_pow_pos _
  have hq := Int.ediv_nonneg h0 hpos.le
  have hle := Int.ediv_le_self (10 ^ (x.scale - 2)) h0
  have hfit : InI 64 (x.value / 10 ^ (x.scale - 2)) :=
    ⟨le_trans (by decide) hq, hle.trans x.value_inI.2⟩
  unfold normalizeToScale
  rw [if_neg (by omega), if_neg (by omega), if_pos h0, Int.tdiv_eq_ediv_of_nonneg h0,
    newUnwrap_two hfit, level_of_ge hs.le]
  exact ⟨_, rfl, rfl⟩

/-- Rounding down is rounding the negated number up. -/
theorem ediv_eq_neg_ceil (v : Int) {f : Int} (hf : 0 < f) : v / f = -((-v + f - 1) / f) := by
  have hr := Int.emod_nonneg v hf.ne'
  have hlt := Int.emod_lt_of_pos v hf
  have hsplit : -v + f - 1 = (f - 1 - v % f) + f * -(v / f) := by
    have hv := Int.emod_add_mul_ediv v f
    rw [mul_neg]
    omega
  have hzero : (f - 1 - v % f) / f = 0 := Int.ediv_eq_zero_of_lt (by omega) (by omega)
  rw [hsplit, Int.add_mul_ediv_left _ _ hf.ne', hzero, zero_add, neg_neg]

/-- The power a quotient divides by. -/
theorem factor_bounds (hs : 2 < x.scale) (hs18 : x.scale ≤ 18) :
    (10 : Int) ≤ 10 ^ (x.scale - 2) ∧ (10 : Int) ^ (x.scale - 2) ≤ 10 ^ 16 :=
  ⟨le_self_pow₀ (by norm_num) (by omega), pow_le_pow_right₀ (by norm_num) (by omega)⟩

theorem normalize_of_gt_neg (hs : 2 < x.scale) (hs18 : x.scale ≤ 18) (h0 : x.value < 0)
    (hfit : -x.value + 10 ^ (x.scale - 2) ≤ maxI 64 + 1)
    (hchecks : checks = true → -x.value + 10 ^ (x.scale - 2) ≤ maxI 64) :
    ∃ d, normalizeToScale checks x 2 = .ok d ∧ d.value = level x := by
  obtain ⟨hlo, hhi⟩ := factor_bounds hs hs18
  obtain ⟨hmin, hmax⟩ := x.value_inI
  rw [level_of_ge hs.le, ediv_eq_neg_ceil x.value (by omega)]
  unfold normalizeToScale
  rw [if_neg (by omega), if_neg (by omega), if_neg (by omega)]
  generalize (10 : Int) ^ (x.scale - 2) = f at *
  have hsum : -x.value + f - 1 ≤ maxI 64 := by omega
  have hfits : ∀ y, 0 ≤ y → y ≤ maxI 64 → InI 64 y := fun y h h' => ⟨le_trans (by decide) h, h'⟩
  have hle := Int.ediv_le_self f (show 0 ≤ -x.value + f - 1 by omega)
  have hnonneg := Int.ediv_nonneg (show 0 ≤ -x.value + f - 1 by omega) (show 0 ≤ f by omega)
  have hneg : InI 64 (-((-x.value + f - 1) / f)) := by
    unfold InI minI maxI at *
    omega
  have hback : wrapI 64 (wrapI 64 (-x.value + f) - 1) = -x.value + f - 1 := by
    unfold wrapI
    rw [Int.bmod_sub_bmod]
    exact wrapI_of_inI (hfits _ (by omega) hsum)
  rw [build_subI fun _ => hfits _ (by omega) (by omega), ok_bind, zero_sub,
    wrapI_of_inI (hfits _ (by omega) (by omega)),
    build_addI fun h => hfits _ (by omega) (hchecks h), ok_bind, build_subI, ok_bind, hback,
    Int.tdiv_eq_ediv_of_nonneg (by omega), build_subI fun _ => by rwa [zero_sub], ok_bind,
    zero_sub, wrapI_of_inI hneg, newUnwrap_two hneg]
  · exact ⟨_, rfl, rfl⟩
  · intro h
    rw [wrapI_of_inI (hfits _ (by omega) (hchecks h))]
    exact hfits _ (by omega) hsum

/-- Where it overflows and does not wrap back, a large negative number is not negative any more. -/
theorem normalize_of_gt_lost (hs : 2 < x.scale) (hs18 : x.scale ≤ 18)
    (hfit : maxI 64 + 1 < -x.value + 10 ^ (x.scale - 2)) :
    ∃ d, normalizeToScale false x 2 = .ok d ∧ 0 ≤ d.value := by
  obtain ⟨hlo, hhi⟩ := factor_bounds hs hs18
  obtain ⟨hmin, hmax⟩ := x.value_inI
  unfold normalizeToScale
  rw [if_neg (by omega), if_neg (by omega), if_neg (by unfold maxI at hfit; omega)]
  generalize (10 : Int) ^ (x.scale - 2) = f at *
  -- the sum wraps to the negative of `m`
  obtain ⟨m, hm⟩ : ∃ m, m = 2 ^ 64 - (-x.value + f - 1) := ⟨_, rfl⟩
  have hm0 : 0 ≤ m ∧ m ≤ 2 ^ 63 := by
    unfold minI at hmin
    unfold maxI at hfit
    omega
  have hsum : wrapI 64 (wrapI 64 (wrapI 64 (0 - x.value) + f) - 1) = -m := by
    have hword : InI 64 (-m) := by
      unfold InI minI maxI
      omega
    rw [← wrapI_of_inI hword]
    unfold wrapI
    rw [Int.bmod_add_bmod, Int.bmod_sub_bmod, ← Int.sub_bmod_right]
    congr 1
    omega
  have hquot := Int.ediv_nonneg hm0.1 (show 0 ≤ f by omega)
  have hlt : m / f < 2 ^ 63 := Int.ediv_lt_of_lt_mul (by omega) (by omega)
  have hword : InI 64 (m / f) := by
    unfold InI minI maxI
    omega
  rw [build_subI unchecked, ok_bind, build_addI unchecked, ok_bind, build_subI unchecked, ok_bind,
    hsum, build_subI unchecked, ok_bind, Int.neg_tdiv, Int.tdiv_eq_ediv_of_nonneg hm0.1, zero_sub,
    neg_neg, wrapI_of_inI hword, newUnwrap_two hword]
  exact ⟨_, rfl, hquot⟩

/-- An overflow is the end of a checked build. -/
theorem normalize_overflows (hs18 : x.scale ≤ 18) (h : ¬ NormalizeFits x) :
    normalizeToScale true x 2 = .error .panic := by
  unfold NormalizeFits at h
  unfold normalizeToScale
  by_cases hs : x.scale ≤ 2
  · rw [if_pos hs] at h
    have hne : x.scale ≠ 2 := by
      intro heq
      rw [heq, Nat.sub_self, pow_zero, mul_one] at h
      exact h x.value_inI
    rw [if_neg hne, if_pos (by omega), build_of_overflow (decide_eq_true h)]
    rfl
  · rw [if_neg hs] at h
    obtain ⟨-, hhi⟩ := factor_bounds (not_le.mp hs) hs18
    have hneg : ¬ x.value ≥ 0 := by
      unfold maxI at h
      omega
    rw [if_neg (by omega), if_neg (by omega), if_neg hneg]
    generalize (10 : Int) ^ (x.scale - 2) = f at *
    by_cases hmin : InI 64 (0 - x.value)
    · have hsum : ¬ InI 64 (-x.value + f) := fun hsum => h hsum.2
      rw [build_subI fun _ => hmin, ok_bind, wrapI_of_inI hmin, zero_sub,
        build_of_overflow (decide_eq_true hsum)]
      rfl
    · rw [build_of_overflow (decide_eq_true hmin)]
      rfl

theorem activation_eq {table : List Int} {low : Int} (hs18 : x.scale ≤ 18) :
    activation table low checks x =
      normalizeToScale checks x 2 >>= fun d => lookup table low d.value := by
  have htrap : x.isTrap = false := by
    unfold Dqa.isTrap
    rw [Bool.and_eq_false_iff]
    exact .inr (beq_eq_false_iff_ne.mpr (by omega))
  unfold activation
  rw [htrap, if_neg Bool.false_ne_true, if_neg (by omega)]

theorem activation_eq_lookup {table : List Int} {low : Int} (hs18 : x.scale ≤ 18) {d : Dqa}
    (h : normalizeToScale checks x 2 = .ok d) :
    activation table low checks x = lookup table low d.value := by
  rw [activation_eq hs18, h, ok_bind]

/-- A product outside the word has the sign of the operand. -/
theorem product_side (h : ¬ InI 64 (x.value * 10 ^ (2 - x.scale))) :
    (0 < x.value ∧ maxI 64 < x.value * 10 ^ (2 - x.scale)) ∨
      (x.value < 0 ∧ x.value * 10 ^ (2 - x.scale) < minI 64) := by
  have hpos : (0 : Int) < 10 ^ (2 - x.scale) := Scaled.ten_pow_pos _
  rcases lt_trichotomy x.value 0 with hneg | h0 | hpos'
  · have hprod := mul_neg_of_neg_of_pos hneg hpos
    refine .inr ⟨hneg, ?_⟩
    unfold InI at h
    have hmax : (0 : Int) ≤ maxI 64 := by decide
    omega
  · rw [h0, zero_mul] at h
    exact absurd (show InI 64 0 by decide) h
  · have hprod := mul_pos hpos' hpos
    refine .inl ⟨hpos', ?_⟩
    unfold InI at h
    have hmin : minI 64 ≤ 0 := by decide
    omega

/-- Where the normalisation is right, the operand is looked up at its level. -/
theorem activation_of_normalizes {table : List Int} {low : Int} (hs18 : x.scale ≤ 18)
    (h : Normalizes checks x) : activation table low checks x = lookup table low (level x) := by
  unfold Normalizes NormalizeFits WrapsRight at h
  by_cases hs : x.scale ≤ 2
  · rw [if_pos hs, if_pos hs] at h
    rw [level_of_le hs]
    by_cases hfit : InI 64 (x.value * 10 ^ (2 - x.scale))
    · obtain ⟨d, hd, hval⟩ := normalize_of_le hs fun _ => hfit
      rw [activation_eq_lookup hs18 hd, hval, wrapI_of_inI hfit]
    · obtain ⟨hchecks, hside⟩ := h.resolve_left hfit
      subst hchecks
      obtain ⟨d, hd, hval⟩ := normalize_of_le hs (unchecked (p := InI 64 _))
      rw [activation_eq_lookup hs18 hd, hval]
      have hmax : (400 : Int) < maxI 64 := by decide
      have hmin : minI 64 < -400 := by decide
      rcases product_side hfit with ⟨hpos, hbig⟩ | ⟨hneg, hbig⟩
      · exact lookup_above (hside.resolve_right fun h => absurd h.1 hpos.not_gt).2
          (hmax.trans hbig)
      · exact lookup_below (hside.resolve_left fun h => absurd h.1 hneg.not_gt).2
          (hbig.trans hmin)
  · rw [if_neg hs, if_neg hs] at h
    have hs : 2 < x.scale := not_le.mp hs
    obtain ⟨d, hd, hval⟩ : ∃ d, normalizeToScale checks x 2 = .ok d ∧ d.value = level x := by
      rcases le_or_gt 0 x.value with h0 | h0
      · exact normalize_of_gt_nonneg hs h0
      · refine normalize_of_gt_neg hs hs18 h0 ?_ fun hchecks => ?_
        · rcases h with h | h
          · exact h.trans (by decide)
          · exact h.2.le
        · exact h.resolve_right fun h => absurd (hchecks.symm.trans h.1) (by decide)
    rw [activation_eq_lookup hs18 hd, hval]

/-- Where it is not, a checked build stops, and a wrapping one looks the operand up on the
wrong side of a clamp. -/
theorem activation_of_not_normalizes (hs18 : x.scale ≤ 18) (h : ¬ Normalizes checks x)
    (table : List Int) (low : Int) :
    activation table low checks x = .error .panic ∨
      ∃ m, activation table low checks x = lookup table low m ∧
        ((400 < level x ∧ m ≤ 400) ∨ (level x < -401 ∧ -400 ≤ m)) := by
  unfold Normalizes NormalizeFits WrapsRight at h
  obtain ⟨hfit, hwraps⟩ := not_or.mp h
  cases checks with
  | true =>
    left
    rw [activation_eq hs18, normalize_overflows hs18 hfit]
    rfl
  | false =>
    right
    have hwraps := fun hw => hwraps ⟨rfl, hw⟩
    by_cases hs : x.scale ≤ 2
    · rw [if_pos hs] at hfit hwraps
      obtain ⟨d, hd, hval⟩ := normalize_of_le hs (unchecked (p := InI 64 _))
      refine ⟨d.value, activation_eq_lookup hs18 hd, ?_⟩
      rw [hval, level_of_le hs]
      have hmax : (400 : Int) < maxI 64 := by decide
      have hmin : minI 64 < -401 := by decide
      rcases product_side hfit with ⟨hpos, hbig⟩ | ⟨hneg, hbig⟩
      · exact .inl ⟨hmax.trans hbig, not_lt.mp fun hw => hwraps (.inl ⟨hpos, hw⟩)⟩
      · exact .inr ⟨hbig.trans hmin, not_lt.mp fun hw => hwraps (.inr ⟨hneg, hw⟩)⟩
    · rw [if_neg hs] at hfit hwraps
      have hs : 2 < x.scale := not_le.mp hs
      have hlost : maxI 64 + 1 < -x.value + 10 ^ (x.scale - 2) :=
        lt_of_le_of_ne (Int.add_one_le_of_lt (not_le.mp hfit)) fun heq => hwraps heq.symm
      obtain ⟨d, hd, h0⟩ := normalize_of_gt_lost hs hs18 hlost
      refine ⟨d.value, activation_eq_lookup hs18 hd, .inr ⟨?_, by omega⟩⟩
      obtain ⟨hlo, hhi⟩ := factor_bounds hs hs18
      unfold maxI at hlost
      rw [level_of_ge hs.le]
      exact Int.ediv_lt_of_lt_mul (by omega) (by omega)

end

/-! ## The laws -/

/-- On `D` the function returns, is monotone in the number, and depends on nothing else. -/
structure ActivationLaws (f : Dqa → Run DactError Dqa) (D : Set Dqa) : Prop where
  returns : ∀ x ∈ D, ∃ r, f x = .ok r
  monotone : ∀ x ∈ D, ∀ y ∈ D, x.val ≤ y.val →
    ∀ r s, f x = .ok r → f y = .ok s → r.val ≤ s.val
  determined : ∀ x ∈ D, ∀ y ∈ D, x.val = y.val → f x = f y

section
variable {checks : Bool} {D : Set Dqa} {table : List Int} {low : Int}

theorem activation_laws (laws : TableLaws table low) (hD : ∀ x ∈ D, x.scale ≤ 18)
    (h : ∀ x ∈ D, Normalizes checks x) : ActivationLaws (activation table low checks) D where
  returns x hx := by
    obtain ⟨d, hd, -⟩ := lookup_eq_curve laws (level x)
    exact ⟨d, (activation_of_normalizes (hD x hx) (h x hx)).trans hd⟩
  monotone x hx y hy hle r s hr hs := by
    obtain ⟨d, hd, hdval⟩ := lookup_eq_curve laws (level x)
    obtain ⟨e, he, heval⟩ := lookup_eq_curve laws (level y)
    rw [activation_of_normalizes (hD x hx) (h x hx), hd] at hr
    rw [activation_of_normalizes (hD y hy) (h y hy), he] at hs
    injection hr with hr
    injection hs with hs
    rw [← hr, ← hs, hdval, heval, Scaled.val_le_iff]
    exact mul_le_mul_of_nonneg_right (curve_mono laws (level_mono hle))
      (Scaled.ten_pow_pos 4).le
  determined x hx y hy heq := by
    rw [activation_of_normalizes (hD x hx) (h x hx), activation_of_normalizes (hD y hy) (h y hy)]
    unfold level
    rw [heq]

/-- The sigmoid's table stays away from the values of its clamps. -/
theorem sigmoidLut_inside : ∀ q ∈ sigmoidLut, 5 ≤ q ∧ q ≤ 251 := by decide +kernel

theorem curve_lt_one {m : Int} (h : m ≤ 400) : curve sigmoidLut 0 m < 10000 := by
  unfold curve
  split
  · decide
  · rw [if_neg (not_lt.mpr h)]
    have hq := sigmoidLut_inside _ (getD_mem sigmoidLut_laws (n := m) (by omega) h)
    omega

theorem curve_pos {m : Int} (h : -400 ≤ m) : 0 < curve sigmoidLut 0 m := by
  unfold curve
  rw [if_neg (not_lt.mpr h)]
  split
  · decide
  · have hq := sigmoidLut_inside _ (getD_mem sigmoidLut_laws (n := m) h (by omega))
    omega

/-- Four and a hundredth, on either side of the table. -/
def justAbove : Dqa := ⟨401, 2, by decide, by decide⟩
def justBelow : Dqa := ⟨-401, 2, by decide, by decide⟩

theorem sigmoid_justAbove : ∃ e, sigmoid checks justAbove = .ok e ∧ e.val = Scaled.val 10000 4 := by
  have hlevel : level justAbove = 401 := level_of_le (x := justAbove) (by decide)
  obtain ⟨e, he, hval⟩ := lookup_eq_curve sigmoidLut_laws 401
  refine ⟨e, ?_, hval⟩
  rw [sigmoid, activation_of_normalizes (by decide) (.inl (by decide)), hlevel, he]

theorem sigmoid_justBelow : ∃ e, sigmoid checks justBelow = .ok e ∧ e.val = Scaled.val 0 4 := by
  have hlevel : level justBelow = -401 := level_of_le (x := justBelow) (by decide)
  obtain ⟨e, he, hval⟩ := lookup_eq_curve sigmoidLut_laws (-401)
  refine ⟨e, ?_, hval⟩
  rw [sigmoid, activation_of_normalizes (by decide) (.inl (by decide)), hlevel, he]

/-- The level bounds the number. -/
theorem val_le_of_level_lt {x : Dqa} {n : Int} (h : level x < n) : x.val ≤ Scaled.val n 2 := by
  have hlt : x.val * 100 < n := Int.floor_lt.mp h
  unfold Scaled.val
  linarith

theorem le_val_of_le_level {x : Dqa} {n : Int} (h : n ≤ level x) : Scaled.val n 2 ≤ x.val := by
  have hle : (n : ℚ) ≤ x.val * 100 := Int.le_floor.mp h
  unfold Scaled.val
  linarith

/-- The wrong side of a clamp shows, next to the nearest operand beyond it. -/
theorem normalizes_of_laws (hD : ∀ x ∈ D, x.scale ≤ 18)
    (hfits : ∀ x : Dqa, x.scale ≤ 18 → NormalizeFits x → x ∈ D)
    (h : ActivationLaws (sigmoid checks) D) : ∀ x ∈ D, Normalizes checks x := by
  intro x hx
  by_contra hnot
  obtain ⟨r, hr⟩ := h.returns x hx
  rcases activation_of_not_normalizes (hD x hx) hnot sigmoidLut 0 with hpanic | ⟨m, hm, hside⟩
  · exact nomatch hpanic.symm.trans hr
  obtain ⟨d, hd, hval⟩ := lookup_eq_curve sigmoidLut_laws m
  have hxd : sigmoid checks x = .ok d := hm.trans hd
  rcases hside with ⟨hlevel, hle⟩ | ⟨hlevel, hle⟩
  · obtain ⟨e, he, heval⟩ := sigmoid_justAbove
    have hmono := h.monotone justAbove (hfits _ (by decide) (by decide)) x hx
      (le_val_of_le_level hlevel) e d he hxd
    rw [heval, hval, Scaled.val_le_iff] at hmono
    exact absurd (le_of_mul_le_mul_right hmono (Scaled.ten_pow_pos 4))
      (not_le.mpr (curve_lt_one hle))
  · obtain ⟨e, he, heval⟩ := sigmoid_justBelow
    have hmono := h.monotone x hx justBelow (hfits _ (by decide) (by decide))
      (val_le_of_level_lt hlevel) d e hxd he
    rw [heval, hval, Scaled.val_le_iff] at hmono
    exact absurd (le_of_mul_le_mul_right hmono (Scaled.ten_pow_pos 4))
      (not_le.mpr (curve_pos hle))

end

/-- **When the activation functions are monotone functions of the number.** -/
theorem activation_laws_iff (checks : Bool) (D : Set Dqa) (hD : ∀ x ∈ D, x.scale ≤ 18)
    (hfits : ∀ x : Dqa, x.scale ≤ 18 → NormalizeFits x → x ∈ D) :
    (ActivationLaws (sigmoid checks) D ∧ ActivationLaws (tanhDqa checks) D) ↔
      ∀ x ∈ D, Normalizes checks x :=
  ⟨fun h => normalizes_of_laws hD hfits h.1, fun h =>
    ⟨activation_laws sigmoidLut_laws hD h, activation_laws tanhLut_laws hD h⟩⟩

/-- On the operands that do not overflow, in a checked build. -/
theorem activation_laws_fitting :
    ActivationLaws (sigmoid true) {x | x.scale ≤ 18 ∧ NormalizeFits x} ∧
      ActivationLaws (tanhDqa true) {x | x.scale ≤ 18 ∧ NormalizeFits x} :=
  (activation_laws_iff true {x | x.scale ≤ 18 ∧ NormalizeFits x} (fun _ hx => hx.1)
    fun _ hs hfits => ⟨hs, hfits⟩).mpr fun _ hx => .inl hx.2

/-- The smallest operand with 18 decimals, about -9.22, has sigmoid and tangent one in a
wrapping build, above -4.01 with zero and minus one; a checked build stops. -/
theorem smallest_operand_wraps :
    let x : Dqa := ⟨-9223372036854775808, 18, by decide, by decide⟩
    let y : Dqa := ⟨-401, 2, by decide, by decide⟩
    x.val ≤ y.val ∧
      sigmoid false x = .ok ⟨1, 0, by decide, by decide⟩ ∧
      sigmoid false y = .ok ⟨0, 0, by decide, by decide⟩ ∧
      tanhDqa false x = .ok ⟨1, 0, by decide, by decide⟩ ∧
      tanhDqa false y = .ok ⟨-1, 0, by decide, by decide⟩ ∧
      sigmoid true x = .error .panic ∧
      ∀ checks, ¬ (ActivationLaws (sigmoid checks) {x | x.scale ≤ 18} ∧
        ActivationLaws (tanhDqa checks) {x | x.scale ≤ 18}) := by
  intro x y
  refine ⟨?_, by decide +kernel, by decide +kernel, by decide +kernel, by decide +kernel,
    by decide +kernel, fun checks hlaws => ?_⟩
  · exact (Scaled.val_le_iff _ _ _ _).mpr (by decide +kernel)
  · have hnot : ¬ Normalizes checks x := by
      cases checks <;> decide +kernel
    exact hnot (normalizes_of_laws (fun _ hx => hx) (fun _ hs _ => hs) hlaws.1 x
      (show x.scale ≤ 18 by decide))

end CipherOcto.Determin
