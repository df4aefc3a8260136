import Mathlib.Data.List.DropRight
import CipherOcto.Determin.BigIntText
import CipherOcto.Determin.DecimalExact

/-!
# A `Decimal` as text

The printer has three layouts: the digits alone, the digits with a point in
them, and zeros in front of the digits after a point. Each is a numeral of the
parser's grammar (`DecimalNumeral`), with as many fractional digits as the scale
and the mantissa as its digits, so that one fact about the parser is enough:

> `decimalFromStr_eq_ok`: what is accepted is a numeral of the grammar with at
> most 36 fractional digits, and its number is what is returned.
> `decimalText_numeral`: what is printed is such a numeral.
> `decimal_string_laws`: printing and parsing are inverse, and the printed form
> is canonical.
-/

namespace CipherOcto.Determin

open Machine

/-! ## Printing -/

/-- The text `decimal_to_string` formats. -/
def decimalText (d : Decimal) : List Char :=
  let sign := if d.mantissa < 0 then ['-'] else []
  let mantissaStr := (numeral (absI128 d.mantissa)).toList
  if d.scale = 0 then sign ++ mantissaStr
  else if mantissaStr.length > d.scale then
    let intPart := mantissaStr.take (mantissaStr.length - d.scale)
    let fracTrimmed := (mantissaStr.drop (mantissaStr.length - d.scale)).rdropWhile (· == '0')
    if fracTrimmed.isEmpty then sign ++ intPart else sign ++ intPart ++ '.' :: fracTrimmed
  else
    let fracPart := List.replicate (d.scale - mantissaStr.length) '0' ++ mantissaStr
    sign ++ ['0'] ++ '.' :: fracPart.rdropWhile (· == '0')

/-- `MAX_STRING_LEN`, in bytes. -/
def maxStringLen : Nat := 256

/-- `decimal_to_string`. -/
def decimalToString (d : Decimal) : Run DecimalError String :=
  if d.mantissa = 0 then .ok "0"
  else if (String.ofList (decimalText d)).utf8ByteSize > maxStringLen then
    .error (.err .conversionLoss)
  else .ok (String.ofList (decimalText d))

/-! ## The grammar -/

/-- The factor a sign stands for. -/
def Sign.factor : Sign → Int
  | .none => 1
  | .plus => 1
  | .minus => -1

/-- A text `[+-]?[0-9]+(\.[0-9]*)?`. -/
structure DecimalNumeral where
  sign : Sign
  int : List Char
  frac : Option (List Char)
  int_ne_nil : int ≠ []
  int_isDigit : ∀ c ∈ int, c.isDigit = true
  frac_isDigit : ∀ ds ∈ frac, ∀ c ∈ ds, c.isDigit = true

namespace DecimalNumeral

/-- The digits after the point. -/
def fracDigits (t : DecimalNumeral) : List Char := t.frac.getD []

/-- What follows the sign. -/
def body (t : DecimalNumeral) : List Char :=
  match t.frac with
  | none => t.int
  | some ds => t.int ++ '.' :: ds

def text (t : DecimalNumeral) : List Char := t.sign.text ++ t.body

/-- The number the text denotes. -/
def denotes (t : DecimalNumeral) : ℚ :=
  t.sign.factor * (digitsVal t.int + digitsVal t.fracDigits / 10 ^ t.fracDigits.length)

end DecimalNumeral

/-! ## Digits -/

theorem digitsVal_append (xs ys : List Char) :
    digitsVal (xs ++ ys) = digitsVal xs * 10 ^ ys.length + digitsVal ys := by
  induction ys using List.reverseRecOn with
  | nil =>
    rw [List.append_nil]
    exact (Nat.mul_one _).symm
  | append_singleton ys c ih =>
    have hsnoc : ∀ zs : List Char, digitsVal (zs ++ [c]) = 10 * digitsVal zs + (c.toNat - 48) := by
      intro zs
      unfold digitsVal
      rw [List.foldl_append]
      rfl
    rw [← List.append_assoc, hsnoc, hsnoc, ih, List.length_append, List.length_singleton, pow_succ]
    ring

theorem digitsVal_zeros (k : Nat) (ds : List Char) :
    digitsVal (List.replicate k '0' ++ ds) = digitsVal ds := by
  induction k with
  | zero => rfl
  | succ k ih =>
    rw [← ih]
    rfl

namespace DecimalNumeral
variable (t : DecimalNumeral)

theorem fracDigits_isDigit {c : Char} (hc : c ∈ t.fracDigits) : c.isDigit = true := by
  unfold fracDigits at hc
  cases hf : t.frac with
  | none =>
    rw [hf] at hc
    cases hc
  | some ds =>
    rw [hf] at hc
    exact t.frac_isDigit ds hf c hc

/-- The digits as one mantissa, at the scale of the fraction. -/
theorem denotes_eq :
    t.denotes = Scaled.val (t.sign.factor * digitsVal (t.int ++ t.fracDigits))
      t.fracDigits.length := by
  have hten : (10 : ℚ) ^ t.fracDigits.length ≠ 0 := pow_ne_zero _ (by norm_num)
  unfold denotes Scaled.val
  rw [digitsVal_append, eq_div_iff hten]
  push_cast
  rw [mul_assoc, add_mul, div_mul_cancel₀ _ hten]

end DecimalNumeral

/-! ## Parsing -/

theorem parseI128_of_le {ds : List Char} (h : (digitsVal ds : Int) ≤ maxI 128) :
    parseI128 ds = .ok (digitsVal ds) := if_pos h

/-- What the parts have to be, and what is made of them. -/
structure Parses (sign : Int) (intPart fracPart : List Char) (d : Decimal) : Prop where
  int_ne_nil : intPart ≠ []
  int_isDigit : ∀ c ∈ intPart, c.isDigit = true
  frac_isDigit : ∀ c ∈ fracPart, c.isDigit = true
  frac_length : fracPart.length ≤ 36
  fits : (digitsVal (intPart ++ fracPart) : Int) ≤ maxI 128
  new : Decimal.new (sign * digitsVal (intPart ++ fracPart)) fracPart.length = .ok d

theorem parseParts_eq_ok {sign : Int} (hs : sign = 1 ∨ sign = -1) {intPart fracPart : List Char}
    {d : Decimal} : parseParts sign intPart fracPart = .ok d ↔ Parses sign intPart fracPart d := by
  have hdigits : (!intPart.all Char.isDigit || !fracPart.all Char.isDigit) = true ↔
      ¬ ((∀ c ∈ intPart, c.isDigit = true) ∧ ∀ c ∈ fracPart, c.isDigit = true) := by
    rw [Bool.or_eq_true, Bool.not_eq_true', Bool.not_eq_true', ← Bool.not_eq_true, ← Bool.not_eq_true,
      List.all_eq_true, List.all_eq_true, not_and_or]
  have hsigned : ∀ {n : Nat}, (n : Int) ≤ maxI 128 → InI 128 (sign * n) := by
    intro n hn
    rw [maxI128_eq] at hn
    rw [inI128_iff]
    rcases hs with rfl | rfl <;> omega
  unfold parseParts
  rw [ite_error_eq_ok, ite_error_eq_ok, ite_error_eq_ok, ite_error_eq_ok, ite_error_eq_ok, hdigits,
    not_not, not_lt]
  constructor
  · intro h
    obtain ⟨hint, -, ⟨hintDigit, hfracDigit⟩, -, hlen, h⟩ := h
    obtain ⟨m, hm, h⟩ := run_bind_eq_ok.mp h
    obtain ⟨v, hv, h⟩ := run_bind_eq_ok.mp h
    unfold parseI128 at hm
    split at hm
    · next hfits =>
      injection hm with hm
      rw [bigToI128_eq_ok hv, ← hm] at h
      exact ⟨fun h0 => hint (by rw [h0]; rfl), hintDigit, hfracDigit, hlen, hfits, h⟩
    · cases hm
  · intro h
    have hnoexp : ∀ c : Char, c.isDigit = false → ∀ {ds : List Char},
        (∀ c ∈ ds, c.isDigit = true) → ds.contains c = false := by
      intro c hc ds hds
      rw [← Bool.not_eq_true, List.contains_iff_mem]
      intro hmem
      rw [hds c hmem] at hc
      cases hc
    rw [hnoexp 'e' (by decide) h.int_isDigit, hnoexp 'E' (by decide) h.int_isDigit,
      hnoexp 'e' (by decide) h.frac_isDigit, hnoexp 'E' (by decide) h.frac_isDigit,
      parseI128_of_le h.fits, ok_bind, bigToI128_of_inI (hsigned h.fits), ok_bind]
    refine ⟨?_, by decide, ⟨h.int_isDigit, h.frac_isDigit⟩, ?_, h.frac_length, h.new⟩
    · simpa using h.int_ne_nil
    · simpa using fun h0 => absurd h0 h.int_ne_nil

theorem splitSign_text (s : List Char) :
    ∃ sign : Sign, s = sign.text ++ (splitSign s).2 ∧ (splitSign s).1 = sign.factor := by
  unfold splitSign
  split
  · exact ⟨.plus, rfl, rfl⟩
  · exact ⟨.minus, rfl, rfl⟩
  · exact ⟨.none, rfl, rfl⟩

theorem text_splitSign (sign : Sign) {c : Char} (hc : c.isDigit = true) (rest : List Char) :
    splitSign (sign.text ++ c :: rest) = (sign.factor, c :: rest) := by
  cases sign with
  | plus => rfl
  | minus => rfl
  | none =>
    show splitSign (c :: rest) = _
    unfold splitSign
    split
    · next heq =>
      obtain ⟨rfl, -⟩ := List.cons.inj heq
      exact absurd hc (by decide)
    · next heq =>
      obtain ⟨rfl, -⟩ := List.cons.inj heq
      exact absurd hc (by decide)
    · rfl

namespace DecimalNumeral
variable (t : DecimalNumeral)

theorem dot_not_mem {ds : List Char} (h : ∀ c ∈ ds, c.isDigit = true) : '.' ∉ ds :=
  fun hmem => absurd (h '.' hmem) (by decide)

theorem body_splitOn : t.body.splitOn '.' = t.int :: t.frac.toList := by
  unfold body
  cases hf : t.frac with
  | none => exact List.splitOn_eq_singleton (dot_not_mem t.int_isDigit)
  | some ds =>
    show (t.int ++ '.' :: ds).splitOn '.' = [t.int, ds]
    rw [List.splitOn_append_cons_self_of_not_mem (dot_not_mem t.int_isDigit),
      List.splitOn_eq_singleton (dot_not_mem (t.frac_isDigit ds hf))]

theorem isWhitespace_text {c : Char} (hc : c ∈ t.text) : isWhitespace c = false := by
  unfold text body at hc
  rcases List.mem_append.mp hc with hsign | hbody
  · cases hs : t.sign <;> rw [hs] at hsign <;> simp [Sign.text] at hsign <;> rw [hsign] <;> decide
  · cases hf : t.frac with
    | none =>
      rw [hf] at hbody
      exact isWhitespace_digit (t.int_isDigit c hbody)
    | some ds =>
      rw [hf] at hbody
      rcases List.mem_append.mp hbody with hint | hfrac
      · exact isWhitespace_digit (t.int_isDigit c hint)
      · rcases List.mem_cons.mp hfrac with rfl | hfrac
        · decide
        · exact isWhitespace_digit (t.frac_isDigit ds hf c hfrac)

theorem splitSign_numeral : splitSign t.text = (t.sign.factor, t.body) := by
  unfold text body
  match hi : t.int, t.int_ne_nil with
  | c :: rest, _ =>
    have hc := t.int_isDigit c (by rw [hi]; exact List.mem_cons_self)
    cases t.frac with
    | none => exact text_splitSign t.sign hc rest
    | some ds => exact text_splitSign t.sign hc _

theorem body_ne_nil : t.body ≠ [] := by
  unfold body
  cases t.frac with
  | none => exact t.int_ne_nil
  | some ds => exact fun h => t.int_ne_nil (List.append_eq_nil_iff.mp h).1

theorem text_ne_nil : t.text ≠ [] := fun h => t.body_ne_nil (List.append_eq_nil_iff.mp h).2

end DecimalNumeral

/-- The parser on the parts its split gives. -/
theorem match_parts (t : DecimalNumeral) :
    (match t.int :: t.frac.toList with
      | [intPart] => parseParts t.sign.factor intPart []
      | [intPart, fracPart] => parseParts t.sign.factor intPart fracPart
      | _ => .error (.err .parseError)) = parseParts t.sign.factor t.int t.fracDigits := by
  unfold DecimalNumeral.fracDigits
  cases t.frac <;> rfl

/-- **What the parser accepts, and what it makes of it.** -/
theorem decimalFromStr_eq_ok {s : String} {d : Decimal} :
    decimalFromStr s = .ok d ↔
      ∃ t : DecimalNumeral, trimWhitespace s.toList = t.text ∧
        Parses t.sign.factor t.int t.fracDigits d := by
  unfold decimalFromStr
  generalize trimWhitespace s.toList = trimmed
  dsimp only
  rw [ite_error_eq_ok, ite_error_eq_ok, ite_error_eq_ok]
  constructor
  · intro h
    obtain ⟨-, -, -, h⟩ := h
    obtain ⟨sign, htext, hfactor⟩ := splitSign_text trimmed
    have hjoin : List.intercalate ['.'] ((splitSign trimmed).2.splitOn '.') =
        (splitSign trimmed).2 := List.intercalate_splitOn '.'
    split at h
    · next intPart heq =>
      rw [heq] at hjoin
      have hbody : intPart = (splitSign trimmed).2 := by simpa using hjoin
      have hparses := (parseParts_eq_ok (splitSign_sign trimmed)).mp h
      rw [hfactor] at hparses
      refine ⟨⟨sign, intPart, none, hparses.int_ne_nil, hparses.int_isDigit, ?_⟩, ?_, hparses⟩
      · intro ds hds
        cases hds
      · rw [htext, ← hbody]
        rfl
    · next intPart fracPart heq =>
      rw [heq] at hjoin
      have hbody : intPart ++ '.' :: fracPart = (splitSign trimmed).2 := by
        simpa [List.intercalate] using hjoin
      have hparses := (parseParts_eq_ok (splitSign_sign trimmed)).mp h
      rw [hfactor] at hparses
      refine ⟨⟨sign, intPart, some fracPart, hparses.int_ne_nil, hparses.int_isDigit, ?_⟩, ?_,
        hparses⟩
      · intro ds hds
        obtain rfl := Option.mem_some.mp hds
        exact hparses.frac_isDigit
      · rw [htext, ← hbody]
        rfl
    · cases h
  · intro h
    obtain ⟨t, rfl, hparses⟩ := h
    have hnows : ¬ t.text.any isWhitespace = true := by
      rw [List.any_eq_true]
      rintro ⟨c, hc, hws⟩
      rw [t.isWhitespace_text hc] at hws
      cases hws
    rw [t.splitSign_numeral, t.body_splitOn]
    refine ⟨?_, hnows, ?_, ?_⟩
    · simpa using t.text_ne_nil
    · simpa using t.body_ne_nil
    · exact (match_parts t).trans ((parseParts_eq_ok (by cases t.sign <;> decide)).mpr hparses)

/-! ## The printed numeral -/

/-- A numeral with the decimal's mantissa as its digits and its scale as their
number after the point. -/
structure Writes (t : DecimalNumeral) (d : Decimal) : Prop where
  scale : t.fracDigits.length = d.scale
  mantissa : t.sign.factor * digitsVal (t.int ++ t.fracDigits) = d.mantissa
  length : t.int.length + t.fracDigits.length ≤ 37

theorem rdropWhile_of_getLast? {l : List Char} {c : Char} (h : l.getLast? = some c) (hc : c ≠ '0') :
    l.rdropWhile (· == '0') = l := by
  rw [List.rdropWhile_eq_self_iff]
  intro hne
  rw [List.getLast?_eq_some_getLast hne, Option.some.injEq] at h
  rw [h, beq_iff_eq]
  exact hc

/-- The digits of a valid mantissa. -/
structure MantissaDigits (d : Decimal) (ds : List Char) : Prop where
  printed : (numeral (absI128 d.mantissa)).toList = ds
  isDigit : ∀ c ∈ ds, c.isDigit = true
  value : digitsVal ds = d.mantissa.natAbs
  length_le : ds.length ≤ 36
  last : d.scale ≠ 0 → ∃ c, ds.getLast? = some c ∧ c ≠ '0'

theorem mantissaDigits {d : Decimal} (h : d.Valid) :
    MantissaDigits d (Nat.toDigits 10 d.mantissa.natAbs) where
  printed := by
    unfold numeral
    rw [absI128_of_le h.mantissa_le, if_neg (not_lt.mpr (abs_nonneg _)), Int.natAbs_abs,
      String.toList_ofList]
  isDigit c hc := Nat.isDigit_of_mem_toDigits (by norm_num) (by norm_num) hc
  value := digitsVal_toDigits _
  length_le := by
    have hle := h.mantissa_le
    rw [maxDecimalMantissa_eq, Int.abs_eq_natAbs] at hle
    rw [Nat.length_toDigits_le_iff (by norm_num) (by norm_num)]
    omega
  last hscale := by
    refine ⟨_, Numeral.getLast?_toDigits _, ?_⟩
    have hdvd := h.canonical.reduced (Nat.pos_of_ne_zero hscale)
    rw [Ne, Nat.digitChar_eq_zero]
    omega

/-- The sign in front of a printed mantissa. -/
def printedSign (d : Decimal) : Sign := if d.mantissa < 0 then .minus else .none

theorem printedSign_text (d : Decimal) :
    (if d.mantissa < 0 then ['-'] else []) = (printedSign d).text := by
  unfold printedSign
  split <;> rfl

theorem printedSign_factor (d : Decimal) :
    (printedSign d).factor * (d.mantissa.natAbs : Int) = d.mantissa := by
  unfold printedSign
  split
  · show -1 * _ = _
    omega
  · show 1 * _ = _
    omega

/-- **What is printed is a numeral with the same mantissa and scale.** -/
theorem decimalText_numeral {d : Decimal} (h : d.Valid) :
    ∃ t : DecimalNumeral, decimalText d = t.text ∧ Writes t d := by
  obtain ⟨hprinted, hdigit, hvalue, hlength, hlast⟩ := mantissaDigits h
  have hne : Nat.toDigits 10 d.mantissa.natAbs ≠ [] := Nat.toDigits_ne_nil
  have hscale : d.scale ≤ 36 := h.scale_le
  unfold decimalText
  rw [hprinted, printedSign_text]
  generalize Nat.toDigits 10 d.mantissa.natAbs = ds at hdigit hvalue hlength hlast hne
  dsimp only
  by_cases h0 : d.scale = 0
  · -- the digits alone
    rw [if_pos h0]
    refine ⟨⟨printedSign d, ds, none, hne, hdigit, fun _ hds => nomatch hds⟩, rfl, h0.symm, ?_,
      by simpa [DecimalNumeral.fracDigits] using hlength.trans (by norm_num)⟩
    show _ * ((digitsVal (ds ++ []) : Nat) : Int) = _
    rw [List.append_nil, hvalue, printedSign_factor]
  rw [if_neg h0]
  obtain ⟨c, hc, hcne⟩ := hlast h0
  by_cases hlong : ds.length > d.scale
  · -- a point in the digits
    have hdrop : (ds.drop (ds.length - d.scale)).getLast? = some c := by
      rw [List.getLast?_drop, if_neg (by omega), hc]
    have hdropne : ds.drop (ds.length - d.scale) ≠ [] := by
      intro hnil
      rw [hnil] at hdrop
      cases hdrop
    rw [if_pos hlong, rdropWhile_of_getLast? hdrop hcne,
      if_neg (by simpa using hdropne)]
    refine ⟨⟨printedSign d, ds.take (ds.length - d.scale), some (ds.drop (ds.length - d.scale)),
      ?_, fun c hc => hdigit c (List.mem_of_mem_take hc), ?_⟩, ?_, ?_, ?_, ?_⟩
    · intro hnil
      rcases List.take_eq_nil_iff.mp hnil with hzero | hnil
      · omega
      · exact hne hnil
    · intro ds' hds' c hc
      obtain rfl := Option.mem_some.mp hds'
      exact hdigit c (List.mem_of_mem_drop hc)
    · exact List.append_assoc _ _ _
    · show (ds.drop (ds.length - d.scale)).length = _
      rw [List.length_drop]
      omega
    · show _ * ((digitsVal (ds.take _ ++ ds.drop _) : Nat) : Int) = _
      rw [List.take_append_drop, hvalue, printedSign_factor]
    · show (ds.take (ds.length - d.scale)).length + (ds.drop (ds.length - d.scale)).length ≤ 37
      rw [List.length_take, List.length_drop]
      omega
  · -- zeros between the point and the digits
    have hpadded : (List.replicate (d.scale - ds.length) '0' ++ ds).getLast? = some c := by
      rw [List.getLast?_append, hc, Option.some_or]
    rw [if_neg hlong, rdropWhile_of_getLast? hpadded hcne]
    refine ⟨⟨printedSign d, ['0'], some (List.replicate (d.scale - ds.length) '0' ++ ds),
      List.cons_ne_nil _ _, fun c hc => ?_, ?_⟩, ?_, ?_, ?_, ?_⟩
    · obtain rfl := List.mem_singleton.mp hc
      decide
    · intro ds' hds' c hc
      obtain rfl := Option.mem_some.mp hds'
      rcases List.mem_append.mp hc with hzero | hc
      · rw [List.eq_of_mem_replicate hzero]
        decide
      · exact hdigit c hc
    · exact List.append_assoc _ _ _
    · show (List.replicate (d.scale - ds.length) '0' ++ ds).length = _
      rw [List.length_append, List.length_replicate]
      omega
    · show _ * ((digitsVal (List.replicate 1 '0' ++
        (List.replicate (d.scale - ds.length) '0' ++ ds)) : Nat) : Int) = _
      rw [digitsVal_zeros, digitsVal_zeros, hvalue, printedSign_factor]
    · show 1 + (List.replicate (d.scale - ds.length) '0' ++ ds).length ≤ 37
      rw [List.length_append, List.length_replicate]
      omega

/-! ## Both directions -/

/-- A character takes at most four bytes. -/
theorem utf8ByteSize_ofList_le (cs : List Char) :
    (String.ofList cs).utf8ByteSize ≤ 4 * cs.length := by
  induction cs with
  | nil => exact Nat.zero_le _
  | cons c cs ih =>
    have hc : c.utf8Size ≤ 4 := Char.utf8Size_le_four c
    rw [← List.singleton_append, String.ofList_append, String.utf8ByteSize_append,
      ← String.singleton_eq_ofList, String.utf8ByteSize_singleton, List.length_append,
      List.length_singleton]
    omega

theorem Writes.length_text {t : DecimalNumeral} {d : Decimal} (h : Writes t d) :
    t.text.length ≤ 39 := by
  have hsign : t.sign.text.length ≤ 1 := by cases t.sign <;> decide
  have hbody : t.body.length ≤ t.int.length + t.fracDigits.length + 1 := by
    unfold DecimalNumeral.body DecimalNumeral.fracDigits
    cases t.frac with
    | none => exact Nat.le_succ _
    | some ds =>
      show (t.int ++ '.' :: ds).length ≤ t.int.length + ds.length + 1
      rw [List.length_append, List.length_cons, Nat.add_assoc]
  have hlength := h.length
  unfold DecimalNumeral.text
  rw [List.length_append]
  omega

/-- No printed text reaches the length limit. -/
theorem decimalToString_eq {d : Decimal} (h : d.Valid) :
    ∃ t : DecimalNumeral, decimalToString d = .ok (String.ofList t.text) ∧ Writes t d := by
  unfold decimalToString
  by_cases h0 : d.mantissa = 0
  · rw [if_pos h0]
    refine ⟨⟨.none, ['0'], none, List.cons_ne_nil _ _, fun c hc => ?_, fun _ hds => nomatch hds⟩,
      rfl, (h.canonical.zero h0).symm, h0.symm, show 1 + 0 ≤ 37 by norm_num⟩
    obtain rfl := List.mem_singleton.mp hc
    decide
  · obtain ⟨t, htext, hwrites⟩ := decimalText_numeral h
    have hsize := utf8ByteSize_ofList_le t.text
    have hlength := hwrites.length_text
    rw [if_neg h0, htext, if_neg (by unfold maxStringLen; omega)]
    exact ⟨t, rfl, hwrites⟩

/-- A printed text is read back. -/
theorem decimalFromStr_of_writes {t : DecimalNumeral} {d : Decimal} (h : d.Valid)
    (ht : Writes t d) : decimalFromStr (String.ofList t.text) = .ok d := by
  have hscale : d.scale ≤ 36 := h.scale_le
  have hmantissa := h.mantissa_le
  rw [maxDecimalMantissa_eq] at hmantissa
  refine decimalFromStr_eq_ok.mpr ⟨t, ?_, ?_⟩
  · rw [String.toList_ofList, trimWhitespace_eq_self fun c hc => t.isWhitespace_text hc]
  · refine ⟨t.int_ne_nil, t.int_isDigit, fun c hc => t.fracDigits_isDigit hc, ?_, ?_, ?_⟩
    · rw [ht.scale]
      exact hscale
    · have habs : ((digitsVal (t.int ++ t.fracDigits) : Nat) : Int) = |d.mantissa| := by
        rw [← ht.mantissa]
        cases t.sign <;> simp [Sign.factor]
      rw [habs, maxI128_eq]
      omega
    · rw [ht.mantissa, ht.scale]
      exact new_of_valid h

/-- What printing and parsing owe each other. -/
structure StringLaws : Prop where
  round_trip : ∀ d : Decimal, d.Valid →
    ∃ text, decimalToString d = .ok text ∧ decimalFromStr text = .ok d
  canonical : ∀ d e : Decimal, d.Valid → e.Valid →
    (decimalToString d = decimalToString e ↔ d = e)
  grammar : ∀ (s : String) (d : Decimal), decimalFromStr s = .ok d →
    ∃ t : DecimalNumeral, trimWhitespace s.toList = t.text ∧ t.fracDigits.length ≤ 36 ∧
      d.val = t.denotes

/-- **Printing and parsing are inverse, the printed form is canonical, and what
is accepted is a numeral of the grammar.** -/
theorem decimal_string_laws : StringLaws where
  round_trip d h := by
    obtain ⟨t, htext, hwrites⟩ := decimalToString_eq h
    exact ⟨_, htext, decimalFromStr_of_writes h hwrites⟩
  canonical d e hd he := by
    refine ⟨fun heq => ?_, fun heq => by rw [heq]⟩
    obtain ⟨t, htext, hwrites⟩ := decimalToString_eq hd
    obtain ⟨u, hutext, huwrites⟩ := decimalToString_eq he
    rw [htext, hutext] at heq
    injection heq with heq
    have hback := decimalFromStr_of_writes hd hwrites
    rw [heq, decimalFromStr_of_writes he huwrites] at hback
    injection hback with hback
    exact hback.symm
  grammar s d h := by
    obtain ⟨t, htext, hparses⟩ := decimalFromStr_eq_ok.mp h
    refine ⟨t, htext, hparses.frac_length, ?_⟩
    obtain ⟨-, -, rfl⟩ := new_eq_ok hparses.new
    rw [Decimal.val_canonicalize, t.denotes_eq]

/-- The three layouts, and zero. -/
example : decimalToString ⟨-12345, 3⟩ = .ok "-12.345" ∧ decimalToString ⟨123, 5⟩ = .ok "0.00123" ∧
    decimalToString ⟨100, 0⟩ = .ok "100" ∧ decimalToString ⟨0, 0⟩ = .ok "0" := by
  decide +kernel

end CipherOcto.Determin
