import CipherOcto.Determin.DecimalExact
import CipherOcto.Determin.DqaWire
import CipherOcto.Lib.Loop

/-!
# Products of matrices

`determin/src/dmat.rs` multiplies matrices of `Dqa` or `Decimal` elements, and
`determin/src/dvec.rs` takes the dot product of two vectors. `dot_product` adds up the
products of the mantissas. `mat_mul` and `mat_vec_mul` multiply with the scalar type's own
multiplication, which returns its product canonicalised, and add up the mantissas of what
comes back, at the scale the products had before.

> `dotProduct_exact`: a dot product that is returned is the exact one.
> `matrix_products_exact_iff`: a product of matrices that is returned is the exact one iff
> what the canonicalisation took off the mantissas adds up to zero in every entry.

`NumericScalar` and `DvecScalar` are the source's two traits; `LawfulScalar` says what the
proofs need of an implementation of both.
-/

namespace CipherOcto.Determin

open Machine Finset

inductive DmatError where
  | dqa (e : DqaError)
  | decimal (e : DecimalError)
  | dimensionMismatch
  | dimensionError
  | scaleMismatch
  | invalidScale
  | overflow
  | trapInput
deriving Repr, DecidableEq

inductive DvecError where
  | dqa (e : DqaError)
  | decimal (e : DecimalError)
  | dimensionMismatch
  | dimensionExceeded
  | scaleMismatch
  | inputScaleExceeded
  | overflow
deriving Repr, DecidableEq

/-- What a matrix needs of its elements. -/
class NumericScalar (T : Type) where
  Error : Type
  into : Error → DmatError
  maxMantissa : Int
  maxScale : Nat
  new : Int → Nat → Run Error T
  isTrap : T → Bool
  scale : T → Nat
  rawMantissa : T → Int
  mul : T → T → Run Error T

/-- What a vector needs of its elements, `MaxScale` with it. -/
class DvecScalar (T : Type) where
  Error : Type
  into : Error → DvecError
  maxScale : Nat
  scale : T → Nat
  rawMantissa : T → Int
  fromParts : Int → Nat → Run Error T

/-- A mantissa that must be an `i64`. -/
def dqaFromParts (mantissa : Int) (scale : Nat) : Run DqaError Dqa :=
  if h : InI 64 mantissa then
    Dqa.new mantissa (scale % 256) h (wrapped_scale_lt scale)
  else .error (.err .overflow)

instance : NumericScalar Dqa where
  Error := DqaError
  into := .dqa
  maxMantissa := maxI 64
  maxScale := 18
  new := dqaFromParts
  isTrap d := d.value == minI 64 && d.scale == 255
  scale := Dqa.scale
  rawMantissa := Dqa.value
  mul := dqaMul

instance : NumericScalar Decimal where
  Error := DecimalError
  into := .decimal
  maxMantissa := maxDecimalMantissa
  maxScale := 36
  new := Decimal.new
  isTrap d := d.mantissa == minI 64 && d.scale == 255
  scale := Decimal.scale
  rawMantissa := Decimal.mantissa
  mul := decimalMul

instance : DvecScalar Dqa where
  Error := DqaError
  into := .dqa
  maxScale := 18
  scale := Dqa.scale
  rawMantissa := Dqa.value
  fromParts := dqaFromParts

instance : DvecScalar Decimal where
  Error := DecimalError
  into := .decimal
  maxScale := 36
  scale := Decimal.scale
  rawMantissa := Decimal.mantissa
  fromParts := Decimal.new

/-- The element at `(i, j)` is at `i * cols + j`. -/
structure DMat (T : Type) where
  rows : Nat
  cols : Nat
  data : List T
deriving DecidableEq

namespace DMat

variable {T : Type}

structure WellFormed (a : DMat T) : Prop where
  length_eq : a.data.length = a.rows * a.cols

/-- `DMat::new`; the product is a `usize`. -/
def new (rows cols : Nat) (data : List T) : Run DmatError (DMat T) :=
  if rows * cols % 2 ^ 64 ≠ data.length then .error (.err .dimensionError)
  else .ok ⟨rows, cols, data⟩

def get (a : DMat T) (i j : Nat) : Option T :=
  if i ≥ a.rows ∨ j ≥ a.cols then none else a.data[i * a.cols + j]?

theorem get_eq {a : DMat T} {i j : Nat} (hi : i < a.rows) (hj : j < a.cols) :
    a.get i j = a.data[i * a.cols + j]? :=
  if_neg fun h => h.elim (not_le.mpr hi) (not_le.mpr hj)

/-- The elements are looked at in row-major order, up to the first one rejected. -/
def scan (a : DMat T) (reject : T → Bool) (e : DmatError) : Run DmatError Unit :=
  (List.range a.rows).forM fun i => (List.range a.cols).forM fun j => do
    let x ← index a.data (i * a.cols + j)
    if reject x then .error (.err e) else .ok ()

theorem scan_eq_ok {a : DMat T} {reject : T → Bool} {e : DmatError}
    (h : a.scan reject e = .ok ()) {i j : Nat} (hi : i < a.rows) (hj : j < a.cols) :
    ∃ x, a.get i j = some x ∧ reject x = false := by
  obtain ⟨x, hx, hcheck⟩ := run_bind_eq_ok.mp
    (Loop.forM_range_eq_ok.mp (Loop.forM_range_eq_ok.mp h i hi) j hj)
  refine ⟨x, (get_eq hi hj).trans (index_eq_ok.mp hx), ?_⟩
  exact Bool.eq_false_iff.mpr (ite_error_eq_ok.mp hcheck).1

variable [NumericScalar T]

/-- Every element has the scale of the first. -/
def uniformScale (a : DMat T) : Run DmatError Nat := do
  let first ← index a.data 0
  a.scan (fun x => NumericScalar.scale x != NumericScalar.scale first) .scaleMismatch
  .ok (NumericScalar.scale first)

end DMat

/-! ## `mat_mul` and `mat_vec_mul` -/

/-- The dimensions of a result. A product that wraps in a `usize` has a side above eight. -/
def checkDims (rows cols : Nat) : Run DmatError Unit :=
  if rows = 0 ∨ cols = 0 then .error (.err .dimensionError)
  else if rows * cols % 2 ^ 64 > 64 then .error (.err .dimensionError)
  else if rows > 8 ∨ cols > 8 then .error (.err .dimensionError)
  else .ok ()

section
variable (T : Type) [NumericScalar T]

/-- `checked_add` on `u8`, and the limit of the type. -/
def resultScale (scaleA scaleB : Nat) : Run DmatError Nat :=
  if 256 ≤ scaleA + scaleB then .error (.err .invalidScale)
  else if scaleA + scaleB > NumericScalar.maxScale T then .error (.err .invalidScale)
  else .ok (scaleA + scaleB)

end

section
variable {T : Type} [NumericScalar T]

/-- The mantissa of the scalar product, as the scalar type returns it. -/
def productMantissa (a b : T) : Run DmatError Int := do
  let product ← mapErr NumericScalar.into (NumericScalar.mul a b)
  .ok (NumericScalar.rawMantissa product)

/-- The inner loop. -/
def accumulateProducts (k : Nat) (left right : Nat → Run DmatError T) : Run DmatError Int :=
  (List.range k).foldlM (fun accumulator x => do
    let aVal ← left x
    let bVal ← right x
    let mantissa ← productMantissa aVal bVal
    .ok (accumulator + mantissa)) 0

/-- The element of a sum: overflow check, `to_i128`, `T::new`. -/
def resultElem (accumulator : Int) (scale : Nat) : Run DmatError T :=
  if |accumulator| > NumericScalar.maxMantissa T then .error (.err .overflow)
  else if ¬ InI 128 accumulator then .error (.err .overflow)
  else mapErr (fun _ => .overflow) (NumericScalar.new accumulator scale)

def matMul (a b : DMat T) : Run DmatError (DMat T) := do
  a.scan NumericScalar.isTrap .trapInput
  b.scan NumericScalar.isTrap .trapInput
  if a.cols ≠ b.rows then .error (.err .dimensionMismatch)
  else do
    checkDims a.rows b.cols
    let scaleA ← a.uniformScale
    let scaleB ← b.uniformScale
    let scale ← resultScale T scaleA scaleB
    let data ← (List.range a.rows).mapM fun i => (List.range b.cols).mapM fun j => do
      let accumulator ← accumulateProducts a.cols (fun x => index a.data (i * a.cols + x))
        (fun x => index b.data (x * b.cols + j))
      resultElem accumulator scale
    mapErr (fun _ => .dimensionError) (DMat.new a.rows b.cols data.flatten)

def matVecMul (a : DMat T) (v : List T) : Run DmatError (List T) := do
  a.scan NumericScalar.isTrap .trapInput
  v.forM fun x => if NumericScalar.isTrap x then .error (.err .trapInput) else .ok ()
  if a.cols ≠ v.length then .error (.err .dimensionMismatch)
  else do
    checkDims a.rows a.cols
    let scaleA ← a.uniformScale
    let first ← index v 0
    v.forM fun x => if NumericScalar.scale x != NumericScalar.scale first then
      .error (.err .scaleMismatch) else .ok ()
    let scale ← resultScale T scaleA (NumericScalar.scale first)
    (List.range a.rows).mapM fun i => do
      let accumulator ← accumulateProducts v.length (fun j => index a.data (i * a.cols + j))
        (index v)
      resultElem accumulator scale

end

/-! ## `dot_product` -/

section
variable {T : Type} [DvecScalar T]

/-- `validate_uniform_scale`. -/
def validateUniformScale (a b : List T) (common : Nat) : Run DvecError Unit := do
  (a.drop 1).forM fun x => if DvecScalar.scale x ≠ common then .error (.err .scaleMismatch)
    else .ok ()
  b.forM fun x => if DvecScalar.scale x ≠ common then .error (.err .scaleMismatch) else .ok ()

/-- `checked_mul(..)` and `checked_add(..)`, with the caller's `ok_or`. -/
def checkedI128 (x : Int) : Run DvecError Int :=
  if InI 128 x then .ok x else .error (.err .overflow)

def dotProduct (a b : List T) : Run DvecError T :=
  if a.length ≠ b.length then .error (.err .dimensionMismatch)
  else if a.length > 64 then .error (.err .dimensionExceeded)
  else if a.length = 0 then .error (.err .dimensionMismatch)
  else do
    let first ← index a 0
    if DvecScalar.scale first > (if DvecScalar.maxScale T = 18 then 9 else 18) then
      .error (.err .inputScaleExceeded)
    else do
      validateUniformScale a b (DvecScalar.scale first)
      let acc ← (List.range a.length).foldlM (fun acc i => do
        let aElem ← index a i
        let bElem ← index b i
        let prod ← checkedI128 (DvecScalar.rawMantissa aElem * DvecScalar.rawMantissa bElem)
        checkedI128 (acc + prod)) 0
      mapErr DvecScalar.into (DvecScalar.fromParts acc (DvecScalar.scale first * 2))

end

/-! ## What the operations of a scalar type mean -/

/-- The number an element stands for. -/
def elemVal {T : Type} [NumericScalar T] (x : T) : ℚ :=
  Scaled.val (NumericScalar.rawMantissa x) (NumericScalar.scale x)

/-- Both constructors keep the number. A product within the scale limit is canonicalised. -/
class LawfulScalar (T : Type) [NumericScalar T] [DvecScalar T] : Prop where
  mul_mantissa {a b p : T} :
    NumericScalar.scale a + NumericScalar.scale b ≤ NumericScalar.maxScale T →
    NumericScalar.mul a b = .ok p →
    NumericScalar.rawMantissa p =
      (Scaled.canon (NumericScalar.rawMantissa a * NumericScalar.rawMantissa b)
        (NumericScalar.scale a + NumericScalar.scale b)).1
  val_new {m : Int} {s : Nat} {r : T} : s < 256 → NumericScalar.new m s = .ok r →
    elemVal r = Scaled.val m s
  val_fromParts {m : Int} {s : Nat} {r : T} : s < 256 → DvecScalar.fromParts m s = .ok r →
    elemVal r = Scaled.val m s
  dvec_scale (x : T) : DvecScalar.scale x = NumericScalar.scale x
  dvec_rawMantissa (x : T) : DvecScalar.rawMantissa x = NumericScalar.rawMantissa x

theorem dqaFromParts_val {m : Int} {s : Nat} {r : Dqa} (hs : s < 256)
    (h : dqaFromParts m s = .ok r) : elemVal r = Scaled.val m s := by
  unfold dqaFromParts at h
  split at h
  next hm =>
    obtain ⟨-, h⟩ := ite_error_eq_ok.mp h
    injection h with h
    rw [← h]
    show Scaled.val m (s % 256) = _
    rw [Nat.mod_eq_of_lt hs]
  next => cases h

theorem decimalNew_val {m : Int} {s : Nat} {r : Decimal} (h : Decimal.new m s = .ok r) :
    elemVal r = Scaled.val m s := by
  obtain ⟨-, h⟩ := ite_error_eq_ok.mp h
  obtain ⟨-, h⟩ := ite_error_eq_ok.mp h
  injection h with h
  rw [← h]
  exact Decimal.val_canonicalize m s

theorem dqaMul_mantissa {a b p : Dqa} (hs : a.scale + b.scale ≤ 18) (h : dqaMul a b = .ok p) :
    p.value = (Scaled.canon (a.value * b.value) (a.scale + b.scale)).1 := by
  have hprod : a.val * b.val = Scaled.val (a.value * b.value) (a.scale + b.scale) :=
    Scaled.val_mul_val _ _ _ _
  rw [dqaMul_eq (by omega) (by omega), min_eq_right hs, hprod,
    Scaled.mantissaAt_val_of_le _ le_rfl, Nat.sub_self, pow_zero, mul_one] at h
  by_cases hfit : InI 64 (a.value * b.value)
  · rw [finish_of_inI hfit (by omega)] at h
    injection h with h
    rw [← h]
    rfl
  · rw [finish_of_not_inI hfit] at h
    cases h

theorem decimalMul_mantissa {a b p : Decimal} (hs : a.scale + b.scale ≤ 36)
    (h : decimalMul a b = .ok p) :
    p.mantissa = (Scaled.canon (a.mantissa * b.mantissa) (a.scale + b.scale)).1 := by
  unfold decimalMul maxDecimalScale at h
  rw [Nat.mod_eq_of_lt (by omega), if_neg (by omega)] at h
  obtain ⟨hfit, h⟩ := ite_error_eq_ok.mp h
  rw [bigToI128_of_inI (inI128_of_le (not_lt.mp hfit)), ok_bind,
    new_of_stripped_le hs (canonicalize_mantissa_le (not_lt.mp hfit) _)] at h
  injection h with h
  rw [← h]
  rfl

instance : LawfulScalar Dqa where
  mul_mantissa := dqaMul_mantissa
  val_new := dqaFromParts_val
  val_fromParts := dqaFromParts_val
  dvec_scale _ := rfl
  dvec_rawMantissa _ := rfl

instance : LawfulScalar Decimal where
  mul_mantissa := decimalMul_mantissa
  val_new _ := decimalNew_val
  val_fromParts _ := decimalNew_val
  dvec_scale _ := rfl
  dvec_rawMantissa _ := rfl

/-! ## The elements of a result -/

section
variable {T : Type} [NumericScalar T]

/-- The number, the mantissa and the scale of an element that may be out of range. -/
def valOf (x : Option T) : ℚ := x.elim 0 elemVal
def rawOf (x : Option T) : Int := x.elim 0 NumericScalar.rawMantissa
def scaleOf (x : Option T) : Nat := x.elim 0 NumericScalar.scale

theorem valOf_eq (x : Option T) : valOf x = Scaled.val (rawOf x) (scaleOf x) := by
  cases x with
  | none => exact (Scaled.val_zero 0).symm
  | some x => rfl

/-- What canonicalising a product takes off its mantissa. -/
def lost (x y : Option T) : Int :=
  rawOf x * rawOf y - (Scaled.canon (rawOf x * rawOf y) (scaleOf x + scaleOf y)).1

/-- A matrix of one scale has it everywhere. -/
theorem DMat.uniformScale_eq_ok {a : DMat T} {s : Nat} (h : a.uniformScale = .ok s) {i j : Nat}
    (hi : i < a.rows) (hj : j < a.cols) : scaleOf (a.get i j) = s := by
  obtain ⟨first, -, h⟩ := run_bind_eq_ok.mp h
  obtain ⟨⟨⟩, hscan, h⟩ := run_bind_eq_ok.mp h
  injection h with h
  obtain ⟨x, hx, heq⟩ := DMat.scan_eq_ok hscan hi hj
  rw [hx, ← h]
  exact bne_eq_false_iff_eq.mp heq

/-- Nothing is taken off an integer, or a mantissa without a final zero. -/
theorem lost_eq_zero_iff (x y : Option T) : lost x y = 0 ↔
    rawOf x * rawOf y = 0 ∨ scaleOf x + scaleOf y = 0 ∨ ¬ (10 : Int) ∣ rawOf x * rawOf y := by
  unfold lost
  generalize rawOf x * rawOf y = m
  generalize scaleOf x + scaleOf y = s
  obtain ⟨k, hs, hm⟩ := Scaled.canon_spec m s
  have hcanon := Scaled.canon_canonical m s
  constructor
  · intro hlost
    by_cases h0 : m = 0
    · exact .inl h0
    by_cases hs0 : s = 0
    · exact .inr (.inl hs0)
    refine .inr (.inr ?_)
    have hfix : (Scaled.canon m s).1 = m := (sub_eq_zero.mp hlost).symm
    have hval := Scaled.val_canon m s
    rw [hfix] at hcanon hval
    -- the same number with the same mantissa has the same scale
    have hscale : (Scaled.canon m s).2 = s := by
      rw [Scaled.val_eq_iff] at hval
      exact (Nat.pow_right_injective (show 2 ≤ 10 by norm_num)
        (by exact_mod_cast mul_left_cancel₀ h0 hval)).symm
    rw [hscale] at hcanon
    exact hcanon.reduced (Nat.pos_of_ne_zero hs0)
  · rintro (h0 | hs0 | hdvd)
    · rw [h0]
      rfl
    · have hk : k = 0 := by omega
      rw [hk, pow_zero, mul_one] at hm
      exact sub_eq_zero.mpr hm
    · have hk : k = 0 := by
        by_contra hk
        exact hdvd (hm ▸ dvd_mul_of_dvd_right (dvd_pow_self 10 hk) _)
      rw [hk, pow_zero, mul_one] at hm
      exact sub_eq_zero.mpr hm

theorem resultScale_eq_ok {sa sb s : Nat} (h : resultScale T sa sb = .ok s) :
    s = sa + sb ∧ sa + sb < 256 ∧ sa + sb ≤ NumericScalar.maxScale T := by
  obtain ⟨hfit, h⟩ := ite_error_eq_ok.mp h
  obtain ⟨hmax, h⟩ := ite_error_eq_ok.mp h
  injection h with h
  exact ⟨h.symm, not_le.mp hfit, not_lt.mp hmax⟩

/-- The entry is exact iff what the canonicalisation took off adds up to zero. -/
theorem entry_exact_iff {k sa sb : Nat} {x y : Nat → Option T}
    (hx : ∀ j < k, scaleOf (x j) = sa) (hy : ∀ j < k, scaleOf (y j) = sb) {e : T}
    (he : elemVal e = Scaled.val
      (∑ j ∈ range k, (Scaled.canon (rawOf (x j) * rawOf (y j)) (sa + sb)).1) (sa + sb)) :
    elemVal e = ∑ j ∈ range k, valOf (x j) * valOf (y j) ↔
      ∑ j ∈ range k, lost (x j) (y j) = 0 := by
  have hsum : ∑ j ∈ range k, valOf (x j) * valOf (y j) =
      Scaled.val (∑ j ∈ range k, rawOf (x j) * rawOf (y j)) (sa + sb) := by
    rw [Scaled.val_sum]
    refine sum_congr rfl fun j hj => ?_
    have hj := mem_range.mp hj
    rw [valOf_eq, valOf_eq, Scaled.val_mul_val, hx j hj, hy j hj]
  have hlost : ∑ j ∈ range k, lost (x j) (y j) =
      ∑ j ∈ range k, rawOf (x j) * rawOf (y j) -
        ∑ j ∈ range k, (Scaled.canon (rawOf (x j) * rawOf (y j)) (sa + sb)).1 := by
    rw [← sum_sub_distrib]
    refine sum_congr rfl fun j hj => ?_
    have hj := mem_range.mp hj
    unfold lost
    rw [hx j hj, hy j hj]
  rw [he, hsum, hlost, Scaled.val_right_inj, sub_eq_zero]
  exact eq_comm

variable [DvecScalar T] [LawfulScalar T]

/-- The accumulator of an entry: the canonical mantissas of the products. -/
theorem accumulateProducts_eq_ok {k s : Nat} {left right : Nat → Run DmatError T}
    {x y : Nat → Option T} (hx : ∀ j < k, ∀ v, left j = .ok v → x j = some v)
    (hy : ∀ j < k, ∀ v, right j = .ok v → y j = some v)
    (hs : ∀ j < k, scaleOf (x j) + scaleOf (y j) = s) (hmax : s ≤ NumericScalar.maxScale T)
    {acc : Int} (h : accumulateProducts k left right = .ok acc) :
    acc = ∑ j ∈ range k, (Scaled.canon (rawOf (x j) * rawOf (y j)) s).1 := by
  refine Loop.foldlM_range_sum (fun j hj acc r hstep => ?_) h
  obtain ⟨u, hu, hstep⟩ := run_bind_eq_ok.mp hstep
  obtain ⟨v, hv, hstep⟩ := run_bind_eq_ok.mp hstep
  obtain ⟨m, hm, hstep⟩ := run_bind_eq_ok.mp hstep
  obtain ⟨p, hp, hm⟩ := run_bind_eq_ok.mp hm
  injection hstep with hstep
  injection hm with hm
  have hscale := hs j hj
  rw [hx j hj u hu, hy j hj v hv] at hscale ⊢
  rw [← hstep, ← hm, ← hscale, LawfulScalar.mul_mantissa (by rwa [← hscale] at hmax)
    (mapErr_eq_ok.mp hp)]
  rfl

theorem resultElem_eq_ok {acc : Int} {s : Nat} (hs : s < 256) {e : T}
    (h : resultElem acc s = .ok e) : elemVal e = Scaled.val acc s := by
  obtain ⟨-, h⟩ := ite_error_eq_ok.mp h
  obtain ⟨-, h⟩ := ite_error_eq_ok.mp h
  exact LawfulScalar.val_new hs (mapErr_eq_ok.mp h)

/-- The entries of a product of matrices. -/
theorem matMul_entries {a b c : DMat T} (h : matMul a b = .ok c) :
    (c.WellFormed ∧ c.rows = a.rows ∧ c.cols = b.cols) ∧
      ∀ i < a.rows, ∀ j < b.cols, ∃ e, c.get i j = some e ∧
        (elemVal e = ∑ x ∈ range a.cols, valOf (a.get i x) * valOf (b.get x j) ↔
          ∑ x ∈ range a.cols, lost (a.get i x) (b.get x j) = 0) := by
  obtain ⟨⟨⟩, -, h⟩ := run_bind_eq_ok.mp h
  obtain ⟨⟨⟩, -, h⟩ := run_bind_eq_ok.mp h
  obtain ⟨hcols, h⟩ := ite_error_eq_ok.mp h
  obtain ⟨⟨⟩, hdims, h⟩ := run_bind_eq_ok.mp h
  obtain ⟨sa, hsa, h⟩ := run_bind_eq_ok.mp h
  obtain ⟨sb, hsb, h⟩ := run_bind_eq_ok.mp h
  obtain ⟨s, hs, h⟩ := run_bind_eq_ok.mp h
  obtain ⟨rows, hrows, h⟩ := run_bind_eq_ok.mp h
  obtain ⟨-, h⟩ := ite_error_eq_ok.mp (mapErr_eq_ok.mp h)
  injection h with h
  subst h
  obtain ⟨rfl, hlt, hmax⟩ := resultScale_eq_ok hs
  obtain ⟨hlen, hcells⟩ := Loop.grid_eq_ok hrows
  have hinner : a.cols = b.rows := not_not.mp hcols
  refine ⟨⟨⟨hlen⟩, rfl, rfl⟩, fun i hi j hj => ?_⟩
  obtain ⟨e, he, hcell⟩ := hcells i hi j hj
  obtain ⟨acc, hacc, helem⟩ := run_bind_eq_ok.mp hcell
  have hx : ∀ x < a.cols, scaleOf (a.get i x) = sa := fun x hx => DMat.uniformScale_eq_ok hsa hi hx
  have hy : ∀ x < a.cols, scaleOf (b.get x j) = sb := fun x hx =>
    DMat.uniformScale_eq_ok hsb (hinner ▸ hx) hj
  have hsum := accumulateProducts_eq_ok (x := fun x => a.get i x) (y := fun x => b.get x j)
    (fun x hx v hv => (DMat.get_eq hi hx).trans (index_eq_ok.mp hv))
    (fun x hx v hv => (DMat.get_eq (hinner ▸ hx) hj).trans (index_eq_ok.mp hv))
    (fun x hxk => by rw [hx x hxk, hy x hxk]) hmax hacc
  refine ⟨e, (DMat.get_eq (a := ⟨a.rows, b.cols, rows.flatten⟩) hi hj).trans he,
    entry_exact_iff hx hy ?_⟩
  rw [resultElem_eq_ok hlt helem, hsum]

/-- The entries of a product of a matrix and a vector. -/
theorem matVecMul_entries {a : DMat T} {v y : List T} (h : matVecMul a v = .ok y) :
    (a.cols = v.length ∧ y.length = a.rows) ∧ ∀ i < a.rows, ∃ e, y[i]? = some e ∧
      (elemVal e = ∑ j ∈ range a.cols, valOf (a.get i j) * valOf v[j]? ↔
        ∑ j ∈ range a.cols, lost (a.get i j) v[j]? = 0) := by
  obtain ⟨⟨⟩, -, h⟩ := run_bind_eq_ok.mp h
  obtain ⟨⟨⟩, -, h⟩ := run_bind_eq_ok.mp h
  obtain ⟨hcols, h⟩ := ite_error_eq_ok.mp h
  obtain ⟨⟨⟩, -, h⟩ := run_bind_eq_ok.mp h
  obtain ⟨sa, hsa, h⟩ := run_bind_eq_ok.mp h
  obtain ⟨first, -, h⟩ := run_bind_eq_ok.mp h
  obtain ⟨⟨⟩, hsv, h⟩ := run_bind_eq_ok.mp h
  obtain ⟨s, hs, h⟩ := run_bind_eq_ok.mp h
  obtain ⟨rfl, hlt, hmax⟩ := resultScale_eq_ok hs
  obtain ⟨hlen, hrows⟩ := Loop.mapM_range_eq_ok h
  have hinner : a.cols = v.length := not_not.mp hcols
  refine ⟨⟨hinner, hlen⟩, fun i hi => ?_⟩
  obtain ⟨e, he, hrow⟩ := hrows i hi
  obtain ⟨acc, hacc, helem⟩ := run_bind_eq_ok.mp hrow
  rw [← hinner] at hacc
  have hx : ∀ j < a.cols, scaleOf (a.get i j) = sa := fun j hj => DMat.uniformScale_eq_ok hsa hi hj
  have hy : ∀ j < a.cols, scaleOf v[j]? = NumericScalar.scale first := by
    intro j hj
    have hjv : j < v.length := by omega
    have hcheck := (ite_error_eq_ok.mp (Loop.forM_eq_ok.mp hsv _ (List.getElem_mem hjv))).1
    rw [List.getElem?_eq_getElem hjv]
    exact bne_eq_false_iff_eq.mp (Bool.eq_false_iff.mpr hcheck)
  have hsum := accumulateProducts_eq_ok (x := fun j => a.get i j) (y := fun j => v[j]?)
    (fun j hj u hu => (DMat.get_eq hi hj).trans (index_eq_ok.mp hu))
    (fun j hj u hu => index_eq_ok.mp hu)
    (fun j hj => by rw [hx j hj, hy j hj]) hmax hacc
  refine ⟨e, he, entry_exact_iff hx hy ?_⟩
  rw [resultElem_eq_ok hlt helem, hsum]

/-! ## The dot product -/

theorem validateUniformScale_eq_ok {a b : List T} {s : Nat}
    (h : validateUniformScale a b s = .ok ()) :
    (∀ x ∈ a.drop 1, NumericScalar.scale x = s) ∧ ∀ y ∈ b, NumericScalar.scale y = s := by
  obtain ⟨⟨⟩, ha, hb⟩ := run_bind_eq_ok.mp h
  constructor
  · intro x hx
    rw [← LawfulScalar.dvec_scale]
    exact not_not.mp (ite_error_eq_ok.mp (Loop.forM_eq_ok.mp ha x hx)).1
  · intro y hy
    rw [← LawfulScalar.dvec_scale]
    exact not_not.mp (ite_error_eq_ok.mp (Loop.forM_eq_ok.mp hb y hy)).1

/-- A dot product that is returned is the exact one. -/
theorem dotProduct_exact {a b : List T} {z : T} (h : dotProduct a b = .ok z) :
    a.length = b.length ∧ elemVal z = ∑ i ∈ range a.length, valOf a[i]? * valOf b[i]? := by
  obtain ⟨hlen, h⟩ := ite_error_eq_ok.mp h
  obtain ⟨-, h⟩ := ite_error_eq_ok.mp h
  obtain ⟨-, h⟩ := ite_error_eq_ok.mp h
  obtain ⟨first, hfirst, h⟩ := run_bind_eq_ok.mp h
  obtain ⟨hscale, h⟩ := ite_error_eq_ok.mp h
  obtain ⟨⟨⟩, huniform, h⟩ := run_bind_eq_ok.mp h
  obtain ⟨acc, hacc, h⟩ := run_bind_eq_ok.mp h
  have hlen : a.length = b.length := not_not.mp hlen
  have hlt : DvecScalar.scale first * 2 < 256 := by
    split at hscale <;> omega
  obtain ⟨ha, hb⟩ := validateUniformScale_eq_ok huniform
  have hx : ∀ x ∈ a, NumericScalar.scale x = DvecScalar.scale first := by
    intro x hmem
    obtain ⟨tail, rfl⟩ : ∃ tail, a = first :: tail := by
      cases a with
      | nil => cases hmem
      | cons u tail => exact ⟨tail, by rw [Option.some.inj (index_eq_ok.mp hfirst)]⟩
    rcases List.mem_cons.mp hmem with rfl | hmem
    · exact (LawfulScalar.dvec_scale x).symm
    · exact ha x hmem
  -- the loop adds up the products of the mantissas
  have hsum : acc = ∑ i ∈ range a.length, rawOf a[i]? * rawOf b[i]? := by
    refine Loop.foldlM_range_sum (fun i hi acc r hstep => ?_) hacc
    obtain ⟨u, hu, hstep⟩ := run_bind_eq_ok.mp hstep
    obtain ⟨v, hv, hstep⟩ := run_bind_eq_ok.mp hstep
    obtain ⟨m, hm, hstep⟩ := run_bind_eq_ok.mp hstep
    rw [index_eq_ok.mp hu, index_eq_ok.mp hv]
    unfold checkedI128 at hm hstep
    split at hm
    · split at hstep
      · injection hm with hm
        injection hstep with hstep
        rw [← hstep, ← hm, LawfulScalar.dvec_rawMantissa, LawfulScalar.dvec_rawMantissa]
        rfl
      · cases hstep
    · cases hm
  refine ⟨hlen, ?_⟩
  rw [LawfulScalar.val_fromParts hlt (mapErr_eq_ok.mp h), hsum, Scaled.val_sum]
  refine sum_congr rfl fun i hi => ?_
  have hia := mem_range.mp hi
  have hib : i < b.length := by omega
  rw [List.getElem?_eq_getElem hia, List.getElem?_eq_getElem hib, mul_two,
    ← Scaled.val_mul_val]
  show Scaled.val _ _ * Scaled.val _ _ = Scaled.val _ _ * Scaled.val _ _
  rw [hx _ (List.getElem_mem hia), hb _ (List.getElem_mem hib)]
  rfl

/-! ## When products are exact -/

/-- A row, as the vector `dot_product` takes. -/
def DMat.row (a : DMat T) (i : Nat) : List T := (a.data.drop (i * a.cols)).take a.cols

/-- `c` is the product of `a` and `b`. -/
structure IsProduct (a b c : DMat T) : Prop where
  wellFormed : c.WellFormed
  rows : c.rows = a.rows
  cols : c.cols = b.cols
  entries : ∀ i < a.rows, ∀ j < b.cols,
    valOf (c.get i j) = ∑ x ∈ range a.cols, valOf (a.get i x) * valOf (b.get x j)

/-- `y` is the product of `a` and `v`, and `dot_product` does not say otherwise. -/
structure IsVecProduct (a : DMat T) (v y : List T) : Prop where
  length : y.length = a.rows
  entries : ∀ i < a.rows, valOf y[i]? = ∑ j ∈ range a.cols, valOf (a.get i j) * valOf v[j]?
  agrees : ∀ i < a.rows, ∀ z, dotProduct (a.row i) v = .ok z → valOf y[i]? = elemVal z

theorem matMul_isProduct_iff {a b c : DMat T} (h : matMul a b = .ok c) :
    IsProduct a b c ↔
      ∀ i < a.rows, ∀ j < b.cols, ∑ x ∈ range a.cols, lost (a.get i x) (b.get x j) = 0 := by
  obtain ⟨⟨hwf, hrows, hcols⟩, hentries⟩ := matMul_entries h
  constructor
  · intro hprod i hi j hj
    obtain ⟨e, he, hiff⟩ := hentries i hi j hj
    have hval := hprod.entries i hi j hj
    rw [he] at hval
    exact hiff.mp hval
  · refine fun hlost => ⟨hwf, hrows, hcols, fun i hi j hj => ?_⟩
    obtain ⟨e, he, hiff⟩ := hentries i hi j hj
    rw [he]
    exact hiff.mpr (hlost i hi j hj)

/-- Row `i` of the data against a vector of its length. -/
theorem dotProduct_row {a : DMat T} {v : List T} {i : Nat} (hi : i < a.rows)
    (hlen : a.cols = v.length) {z : T} (h : dotProduct (a.row i) v = .ok z) :
    elemVal z = ∑ j ∈ range a.cols, valOf (a.get i j) * valOf v[j]? := by
  obtain ⟨hrow, hz⟩ := dotProduct_exact h
  rw [hz, hrow, hlen]
  refine sum_congr rfl fun j hj => ?_
  have hj : j < a.cols := by rw [hlen]; exact mem_range.mp hj
  unfold DMat.row
  rw [List.getElem?_take_of_lt hj, List.getElem?_drop, DMat.get_eq hi hj]

theorem matVecMul_isVecProduct_iff {a : DMat T} {v y : List T} (h : matVecMul a v = .ok y) :
    IsVecProduct a v y ↔ ∀ i < a.rows, ∑ j ∈ range a.cols, lost (a.get i j) v[j]? = 0 := by
  obtain ⟨⟨hcols, hlen⟩, hentries⟩ := matVecMul_entries h
  constructor
  · intro hprod i hi
    obtain ⟨e, he, hiff⟩ := hentries i hi
    have hval := hprod.entries i hi
    rw [he] at hval
    exact hiff.mp hval
  · intro hlost
    have hexact : ∀ i < a.rows,
        valOf y[i]? = ∑ j ∈ range a.cols, valOf (a.get i j) * valOf v[j]? := by
      intro i hi
      obtain ⟨e, he, hiff⟩ := hentries i hi
      rw [he]
      exact hiff.mpr (hlost i hi)
    refine ⟨hlen, hexact, fun i hi z hz => ?_⟩
    rw [hexact i hi, dotProduct_row hi hcols hz]

end

/-- **When a product of matrices is the exact one.** -/
theorem matrix_products_exact_iff (a b c : DMat Dqa) (v y : List Dqa) (p q r : DMat Decimal)
    (w z : List Decimal) :
    (matMul a b = .ok c → (IsProduct a b c ↔
      ∀ i < a.rows, ∀ j < b.cols, ∑ x ∈ range a.cols, lost (a.get i x) (b.get x j) = 0)) ∧
    (matMul p q = .ok r → (IsProduct p q r ↔
      ∀ i < p.rows, ∀ j < q.cols, ∑ x ∈ range p.cols, lost (p.get i x) (q.get x j) = 0)) ∧
    (matVecMul a v = .ok y → (IsVecProduct a v y ↔
      ∀ i < a.rows, ∑ j ∈ range a.cols, lost (a.get i j) v[j]? = 0)) ∧
    (matVecMul p w = .ok z → (IsVecProduct p w z ↔
      ∀ i < p.rows, ∑ j ∈ range p.cols, lost (p.get i j) w[j]? = 0)) :=
  ⟨matMul_isProduct_iff, matMul_isProduct_iff, matVecMul_isVecProduct_iff,
    matVecMul_isVecProduct_iff⟩

/-- One and a half, two and a half times three tenths: nothing to strip. -/
theorem matrix_products_exact_sample :
    let a : DMat Decimal := ⟨2, 1, [⟨15, 1⟩, ⟨25, 1⟩]⟩
    let b : DMat Decimal := ⟨1, 1, [⟨3, 1⟩]⟩
    IsProduct a b ⟨2, 1, [⟨45, 2⟩, ⟨75, 2⟩]⟩ ∧ IsVecProduct a b.data [⟨45, 2⟩, ⟨75, 2⟩] := by
  intro a b
  obtain ⟨-, hmul, -, hvec⟩ := matrix_products_exact_iff ⟨0, 0, []⟩ ⟨0, 0, []⟩ ⟨0, 0, []⟩ [] []
    a b ⟨2, 1, [⟨45, 2⟩, ⟨75, 2⟩]⟩ b.data [⟨45, 2⟩, ⟨75, 2⟩]
  exact ⟨(hmul (by decide +kernel)).mpr (by decide +kernel),
    (hvec (by decide +kernel)).mpr (by decide +kernel)⟩

/-- Two tenths times five tenths come out as one hundredth; the dot product is a tenth. -/
theorem product_digit_lost :
    let a : DMat Dqa := ⟨1, 1, [⟨2, 1, by decide, by decide⟩]⟩
    let b : DMat Dqa := ⟨1, 1, [⟨5, 1, by decide, by decide⟩]⟩
    let c : DMat Dqa := ⟨1, 1, [⟨1, 2, by decide, by decide⟩]⟩
    a.WellFormed ∧ b.WellFormed ∧ matMul a b = .ok c ∧ ¬ IsProduct a b c ∧
      matVecMul a b.data = .ok c.data ∧
      dotProduct (a.row 0) b.data = .ok ⟨10, 2, by decide, by decide⟩ ∧
      ¬ IsVecProduct a b.data c.data := by
  intro a b c
  have hmul : matMul a b = .ok c := by decide +kernel
  have hvec : matVecMul a b.data = .ok c.data := by decide +kernel
  refine ⟨⟨rfl⟩, ⟨rfl⟩, hmul, fun h => ?_, hvec, by decide +kernel, fun h => ?_⟩
  · have hlost := (matMul_isProduct_iff hmul).mp h 0 (by decide) 0 (by decide)
    exact absurd hlost (by decide +kernel)
  · have hlost := (matVecMul_isVecProduct_iff hvec).mp h 0 (by decide)
    exact absurd hlost (by decide +kernel)

end CipherOcto.Determin
