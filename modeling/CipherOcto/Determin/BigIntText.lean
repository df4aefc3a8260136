import CipherOcto.Lib.Hex
import CipherOcto.Lib.Numeral
import CipherOcto.Determin.BigIntExact
import CipherOcto.Determin.Decimal

/-!
# A `BigInt` as text

Decimal text is written and read in groups of nineteen digits, the most that
fit a `u64`. The printer divides by `10^19` until nothing is left, writes the
leading group plain and pads the others. The parser walks the text from the
right, least significant group first, but accumulates as if it came from the
left: it multiplies what it has by `10^19` before it adds the next group, and
the leading group it adds without multiplying. With one group that is right.
With more it is right only by accident (`OrderFree`).

A minus sign is applied to the finished number, whatever it is, so `-0` is read
as a negative zero. Hexadecimal text is cut into limbs and never checked
against the bound of 4096 bits.

> `fromDecimalStr_eq`: what the parser makes of a decimal text, group by group.
> `fromHexStr_eq`: hexadecimal text of any length is read exactly.
> `toDecimalString_eq`: the printer writes the standard numeral.
> `bigint_text_iff`: the texts that are read as the numbers they denote.
-/

namespace CipherOcto.Determin

open Machine Limbs BigInt

/-! ## Parsing -/

/-- `map_err(|_| BigIntError::Overflow)`. -/
def toOverflow {α : Type} (x : Run BigIntError α) : Run BigIntError α :=
  x.mapError fun stop => match stop with
    | .err _ => .err .overflow
    | .panic => .panic

/-- `10u64.pow(19)`. -/
def chunkBase : UInt64 := 10000000000000000000

/-- `parse::<u64>()` of a digit string. -/
def parseU64 (ds : List Char) : Run BigIntError UInt64 :=
  if digitsVal ds < 2 ^ 64 then .ok (UInt64.ofNat (digitsVal ds)) else .error (.err .invalidString)

/-- The loop of `from_decimal_str`: nineteen digits at a time, from the right. -/
def decimalLoop (chars : List Char) (pos : Nat) (result : BigInt) : Run BigIntError BigInt :=
  if pos > 0 then do
    let start := pos - 19
    let chunkVal ← parseU64 ((chars.take pos).drop start)
    let scaled ←
      (if pos > 19 then toOverflow (bigintMul result ⟨[chunkBase], false⟩) else .ok result)
    let sum ← toOverflow (bigintAdd scaled ⟨[chunkVal], false⟩)
    decimalLoop chars start sum
  else .ok result
termination_by pos

/-- `strip_prefix('-')`, else `strip_prefix('+')`. -/
def stripSign : List Char → List Char × Bool
  | '-' :: rest => (rest, true)
  | '+' :: rest => (rest, false)
  | s => (s, false)

/-- `from_decimal_str`. -/
def fromDecimalStr (text : List Char) : Run BigIntError BigInt :=
  let s := trimWhitespace text
  if s.isEmpty then .error (.err .invalidString)
  else
    let digits := (stripSign s).1
    if digits.isEmpty then .error (.err .invalidString)
    else if !digits.all Char.isDigit then .error (.err .invalidString)
    else do
      let result ← decimalLoop digits digits.length BigInt.zero
      .ok (if (stripSign s).2 then ⟨result.limbs, true⟩ else result)

/-- The number a string of hexadecimal digits denotes. -/
def hexDigitsVal (ds : List Char) : Nat :=
  ds.foldl (fun acc c => 16 * acc + (Hex.value c).getD 0) 0

/-- `u64::from_str_radix(.., 16)` of a digit string. -/
def fromStrRadix16 (ds : List Char) : Run BigIntError UInt64 :=
  if hexDigitsVal ds < 2 ^ 64 then .ok (UInt64.ofNat (hexDigitsVal ds))
  else .error (.err .invalidString)

/-- `from_hex_str`. -/
def fromHexStr (text : List Char) : Run BigIntError BigInt :=
  let s := trimWhitespace text
  if s.isEmpty then .error (.err .invalidString)
  else if !s.all fun c => (Hex.value c).isSome then .error (.err .invalidString)
  else do
    let limbs ← (Numeral.chunks 16 s.reverse).mapM fun chunk => fromStrRadix16 chunk.reverse
    .ok ⟨trim limbs, false⟩

/-- `FromStr for BigInt`. -/
def BigInt.fromStr (text : String) : Run BigIntError BigInt :=
  let s := trimWhitespace text.toList
  if s.isEmpty then .error (.err .invalidString)
  else
    match s with
    | '0' :: 'x' :: rest => fromHexStr rest
    | '0' :: 'X' :: rest => fromHexStr rest
    | _ => fromDecimalStr s

/-! ## Printing -/

/-- `unwrap()`. -/
def unwrap {α : Type} (x : Run BigIntError α) : Run BigIntError α := x.mapError fun _ => .panic

/-- The loop of `to_decimal_string`, least significant group first. The fuel
bounds the number of rounds; `decimalChunks_eq` has it suffice. -/
def decimalChunks : Nat → BigInt → Run BigIntError (List UInt64)
  | 0, _ => .error .panic
  | fuel + 1, absVal =>
    if absVal.isZero then .ok []
    else do
      let r ← unwrap (bigintDivmod absVal ⟨[chunkBase], false⟩)
      let chunk ← (if r.2.isZero then .ok 0 else index r.2.limbs 0)
      let rest ← decimalChunks fuel r.1
      .ok (chunk :: rest)

/-- The text of the groups, most significant first. -/
def chunksText : List UInt64 → List Char
  | [] => []
  | lead :: rest => Nat.toDigits 10 lead.toNat ++ rest.flatMap fun c => Numeral.padded 19 c.toNat

/-- `to_decimal_string`. -/
def toDecimalString (b : BigInt) : Run BigIntError (List Char) :=
  if b.isZero then .ok ['0']
  else do
    let chunks ← decimalChunks (2 * b.limbs.length + 1) ⟨b.limbs, false⟩
    .ok (chunksText chunks.reverse)

/-- `to_string`, by `Display`. -/
def BigInt.toString (b : BigInt) : Run BigIntError String :=
  if b.isZero then .ok "0"
  else do
    let s ← toDecimalString b
    .ok (String.ofList (if b.sign then '-' :: s else s))

/-! ## Groups of nineteen digits -/

/-- The groups of a decimal text, least significant first. -/
def decimalGroups (digits : List Char) : List Nat :=
  (Numeral.chunks 19 digits.reverse).map fun g => digitsVal g.reverse

theorem digitsVal_reverse (ds : List Char) :
    digitsVal ds.reverse = Nat.ofDigits 10 (ds.map fun c => c.toNat - 48) := by
  unfold digitsVal
  rw [Numeral.foldl_eq_ofDigits 10 fun c : Char => c.toNat - 48, List.map_reverse,
    List.reverse_reverse]

theorem digit_lt_ten {c : Char} (h : c.isDigit = true) : c.toNat - 48 < 10 := by
  have hrange : 48 ≤ c.toNat ∧ c.toNat ≤ 57 := Char.isDigit_iff_toNat.mp h
  omega

theorem digitsVal_lt {ds : List Char} (h : ∀ c ∈ ds, c.isDigit = true) :
    digitsVal ds < 10 ^ ds.length := by
  have hlt := Nat.ofDigits_lt_base_pow_length (b := 10)
    (l := ds.reverse.map fun c => c.toNat - 48) (by norm_num) (by
      intro d hd
      obtain ⟨c, hc, rfl⟩ := List.mem_map.mp hd
      exact digit_lt_ten (h c (List.mem_reverse.mp hc)))
  rwa [← digitsVal_reverse, List.reverse_reverse, List.length_map, List.length_reverse] at hlt

/-- The groups are the number's digits in base `10^19`. -/
theorem ofDigits_decimalGroups (ds : List Char) :
    Nat.ofDigits (10 ^ 19) (decimalGroups ds) = digitsVal ds := by
  have hvalue := digitsVal_reverse ds.reverse
  rw [List.reverse_reverse] at hvalue
  rw [hvalue, ← Numeral.ofDigits_chunks 10 (w := 19) (by norm_num), Numeral.chunks_map,
    List.map_map]
  unfold decimalGroups
  congr 1
  exact List.map_congr_left fun g _ => digitsVal_reverse g

theorem decimalGroups_lt {ds : List Char} (h : ∀ c ∈ ds, c.isDigit = true) :
    ∀ g ∈ decimalGroups ds, g < 10 ^ 19 := by
  intro g hg
  obtain ⟨cs, hcs, rfl⟩ := List.mem_map.mp hg
  obtain ⟨hlen, hmem⟩ := Numeral.mem_chunks hcs
  have hlt : digitsVal cs.reverse < 10 ^ cs.reverse.length :=
    digitsVal_lt fun c hc => h c (List.mem_reverse.mp (hmem c (List.mem_reverse.mp hc)))
  rw [List.length_reverse] at hlt
  exact lt_of_lt_of_le hlt (Nat.pow_le_pow_right (by norm_num) hlen)

theorem decimalGroups_nil : decimalGroups [] = [] := by
  unfold decimalGroups
  rw [List.reverse_nil, Numeral.chunks_nil, List.map_nil]

theorem length_decimalGroups_le_one_iff {ds : List Char} :
    (decimalGroups ds).length ≤ 1 ↔ ds.length ≤ 19 := by
  unfold decimalGroups
  rw [List.length_map, Numeral.length_chunks_le_one_iff (by norm_num), List.length_reverse]

/-- The groups of the text up to `pos`: the nineteen digits before it, and the
groups of what is left. -/
theorem decimalGroups_take {chars : List Char} {pos : Nat} (h0 : 0 < pos)
    (hle : pos ≤ chars.length) :
    decimalGroups (chars.take pos) =
      digitsVal ((chars.take pos).drop (pos - 19)) :: decimalGroups (chars.take (pos - 19)) := by
  have hlen : (chars.take pos).length = pos := by rw [List.length_take, min_eq_left hle]
  have hne : (chars.take pos).reverse ≠ [] := by
    rw [Ne, List.reverse_eq_nil_iff, ← List.length_eq_zero_iff, hlen]
    omega
  unfold decimalGroups
  rw [Numeral.chunks_of_ne_nil (by norm_num) hne, List.map_cons, List.take_reverse,
    List.drop_reverse, List.reverse_reverse, hlen, List.take_take, min_eq_left (Nat.sub_le _ _)]

/-! ## The loop -/

/-- The number the loop ends with: what it has is multiplied for each group
except the last, which is only added. -/
def accumulate (acc : Nat) : List Nat → Nat
  | [] => acc
  | [lead] => acc + lead
  | g :: gs => accumulate (acc * 10 ^ 19 + g) gs

theorem accumulate_cons (acc g : Nat) {gs : List Nat} (h : gs ≠ []) :
    accumulate acc (g :: gs) = accumulate (acc * 10 ^ 19 + g) gs := by
  cases gs with
  | nil => exact absurd rfl h
  | cons g' gs => rfl

theorem le_accumulate (gs : List Nat) : ∀ acc, acc ≤ accumulate acc gs := by
  induction gs with
  | nil => exact fun acc => le_rfl
  | cons g gs ih =>
    intro acc
    by_cases h : gs = []
    · rw [h]
      exact Nat.le_add_right _ _
    · rw [accumulate_cons acc g h]
      have hstep : acc ≤ acc * 10 ^ 19 + g := by omega
      exact hstep.trans (ih _)

theorem accumulate_append (lead : Nat) (gs : List Nat) : ∀ acc,
    accumulate acc (gs ++ [lead]) =
      acc * (10 ^ 19) ^ gs.length + Nat.ofDigits (10 ^ 19) gs.reverse + lead := by
  induction gs with
  | nil => intro acc; simp [accumulate]
  | cons g gs ih =>
    intro acc
    rw [List.cons_append, accumulate_cons acc g (by simp), ih, List.reverse_cons,
      Nat.ofDigits_append, Nat.ofDigits_singleton, List.length_reverse, List.length_cons,
      pow_succ (10 ^ 19) gs.length]
    ring

/-- A single limb. -/
theorem ofInt_word {n : Nat} (h : n < 2 ^ 64) :
    (⟨[UInt64.ofNat n], false⟩ : BigInt) = ofInt n := by
  have hcanon : (⟨[UInt64.ofNat n], false⟩ : BigInt).Canonical :=
    ⟨⟨List.cons_ne_nil _ _, fun hlen => absurd hlen (by simp)⟩, fun _ => rfl⟩
  have hval : (⟨[UInt64.ofNat n], false⟩ : BigInt).toInt = n := by
    show ((val [UInt64.ofNat n] : Nat) : Int) = n
    rw [val_cons, val_nil, toNat_ofNat_of_lt h]
    rfl
  rw [hcanon.eq_ofInt, hval]

theorem chunkBase_eq : (⟨[chunkBase], false⟩ : BigInt) = ofInt ((10 ^ 19 : Nat) : Int) :=
  ofInt_word (by norm_num)

theorem toOverflow_bounded (z : Int) : toOverflow (bounded z) = bounded z := by
  unfold bounded
  split <;> rfl

theorem bounded_natCast_of_lt {n : Nat} (h : n < 2 ^ 4096) : bounded n = .ok (ofInt n) :=
  bounded_of_lt (by rwa [Int.natAbs_natCast])

theorem bounded_natCast_of_not_lt {n : Nat} (h : ¬ n < 2 ^ 4096) :
    bounded n = .error (.err .overflow) :=
  if_neg (by rwa [Int.natAbs_natCast])

theorem zero_lt_maxBits : 0 < 2 ^ 4096 := lt_maxBits (k := 1) (by norm_num) (by norm_num)

theorem chunkBase_lt_maxBits : ((10 ^ 19 : Nat) : Int).natAbs < 2 ^ 4096 :=
  lt_maxBits (k := 64) (by norm_num) (by norm_num)

/-- A group of nineteen digits is within the bound. -/
theorem natAbs_lt_maxBits {g : Nat} (h : g < 10 ^ 19) : (g : Int).natAbs < 2 ^ 4096 :=
  lt_trans h chunkBase_lt_maxBits

/-- A step that fails only where its result is too large fails no earlier than
the larger result it leads to. -/
theorem bounded_bind {x y : Nat} {f : BigInt → Run BigIntError BigInt} (hle : x ≤ y)
    (h : x < 2 ^ 4096 → f (ofInt x) = bounded y) : bounded x >>= f = bounded y := by
  by_cases hx : x < 2 ^ 4096
  · rw [bounded_natCast_of_lt hx, ok_bind, h hx]
  · rw [bounded_natCast_of_not_lt hx,
      bounded_natCast_of_not_lt fun hy => hx (lt_of_le_of_lt hle hy)]
    rfl

theorem parseU64_eq {ds : List Char} (h : ∀ c ∈ ds, c.isDigit = true) (hlen : ds.length ≤ 19) :
    parseU64 ds = .ok (UInt64.ofNat (digitsVal ds)) ∧ digitsVal ds < 10 ^ 19 := by
  have hlt : digitsVal ds < 10 ^ 19 :=
    lt_of_lt_of_le (digitsVal_lt h) (Nat.pow_le_pow_right (by norm_num) hlen)
  exact ⟨if_pos (lt_trans hlt (by norm_num)), hlt⟩

/-- One round of the loop: the group before `pos` is read, and what follows is
the loop on the rest. -/
theorem decimalLoop_round {chars : List Char} (hdigits : ∀ c ∈ chars, c.isDigit = true) {pos : Nat}
    (h0 : 0 < pos) (hle : pos ≤ chars.length) (result : BigInt) :
    ∃ g, g < 10 ^ 19 ∧
      decimalGroups (chars.take pos) = g :: decimalGroups (chars.take (pos - 19)) ∧
      decimalLoop chars pos result =
        ((if pos > 19 then toOverflow (bigintMul result (ofInt ((10 ^ 19 : Nat) : Int)))
          else .ok result) >>= fun scaled =>
            toOverflow (bigintAdd scaled (ofInt g)) >>= decimalLoop chars (pos - 19)) := by
  have hgroup : ∀ c ∈ (chars.take pos).drop (pos - 19), c.isDigit = true :=
    fun c hc => hdigits c (List.mem_of_mem_take (List.mem_of_mem_drop hc))
  obtain ⟨hparse, hlt⟩ := parseU64_eq hgroup (by
    rw [List.length_drop, List.length_take]
    omega)
  refine ⟨_, hlt, decimalGroups_take h0 hle, ?_⟩
  conv_lhs => unfold decimalLoop
  rw [if_pos h0]
  dsimp only
  rw [hparse, ok_bind, ofInt_word (lt_trans hlt (by norm_num)), chunkBase_eq]

/-- **The loop accumulates the groups before `pos`.** -/
theorem decimalLoop_eq {chars : List Char} (hdigits : ∀ c ∈ chars, c.isDigit = true) (pos : Nat) :
    pos ≤ chars.length → ∀ {acc : Nat}, acc < 2 ^ 4096 →
      decimalLoop chars pos (ofInt acc) =
        bounded (accumulate acc (decimalGroups (chars.take pos)) : Nat) := by
  induction pos using Nat.strong_induction_on with
  | _ pos ih =>
    intro hle acc hacc
    rcases Nat.eq_zero_or_pos pos with rfl | h0
    · unfold decimalLoop
      rw [if_neg (lt_irrefl 0), List.take_zero, decimalGroups_nil, accumulate,
        bounded_natCast_of_lt hacc]
    obtain ⟨g, hlt, hgroups, hround⟩ := decimalLoop_round hdigits h0 hle (ofInt acc)
    -- what is added to a number that fits, and what follows
    have hadd : ∀ x : Nat, x < 2 ^ 4096 →
        (toOverflow (bigintAdd (ofInt x) (ofInt g)) >>= decimalLoop chars (pos - 19)) =
          bounded (accumulate (x + g) (decimalGroups (chars.take (pos - 19))) : Nat) := by
      intro x hx
      rw [bigintAdd_ofInt (by rwa [Int.natAbs_natCast]) (natAbs_lt_maxBits hlt),
        toOverflow_bounded, ← Nat.cast_add]
      exact bounded_bind (le_accumulate _ _) fun hsum =>
        ih (pos - 19) (by omega) (by omega) hsum
    rw [hround, hgroups]
    by_cases hmany : pos > 19
    · have hne : decimalGroups (chars.take (pos - 19)) ≠ [] := by
        rw [decimalGroups_take (by omega) (by omega)]
        exact List.cons_ne_nil _ _
      rw [if_pos hmany, bigintMul_ofInt (by rwa [Int.natAbs_natCast]) chunkBase_lt_maxBits,
        toOverflow_bounded, ← Nat.cast_mul, accumulate_cons acc g hne]
      exact bounded_bind ((Nat.le_add_right _ g).trans (le_accumulate _ _)) (hadd _)
    · have hnil : decimalGroups (chars.take (pos - 19)) = [] := by
        rw [Nat.sub_eq_zero_of_le (not_lt.mp hmany), List.take_zero, decimalGroups_nil]
      have hlast := hadd acc hacc
      rw [hnil] at hlast ⊢
      rw [if_neg hmany, ok_bind, hlast]
      rfl

/-! ## The texts -/

inductive Sign where
  | none
  | plus
  | minus
deriving Repr, DecidableEq

def Sign.text : Sign → List Char
  | .none => []
  | .plus => ['+']
  | .minus => ['-']

/-- A text `[+-]?[0-9]+`. -/
structure DecimalText where
  sign : Sign
  digits : List Char
  digits_ne_nil : digits ≠ []
  isDigit : ∀ c ∈ digits, c.isDigit = true

/-- A text `0x[0-9a-fA-F]+`. -/
structure HexText where
  digits : List Char
  digits_ne_nil : digits ≠ []
  isHexdigit : ∀ c ∈ digits, (Hex.value c).isSome = true

namespace DecimalText

def text (s : DecimalText) : String := String.ofList (s.sign.text ++ s.digits)

/-- The integer a decimal text denotes. -/
def denotes (s : DecimalText) : Int :=
  if s.sign = .minus then -(digitsVal s.digits : Int) else digitsVal s.digits

end DecimalText

namespace HexText

def text (s : HexText) : String := String.ofList ('0' :: 'x' :: s.digits)

/-- The integer a hexadecimal text denotes. -/
def denotes (s : HexText) : Int := hexDigitsVal s.digits

end HexText

theorem isWhitespace_of_graphic {c : Char} (hlo : 33 ≤ c.toNat) (hhi : c.toNat < 128) :
    isWhitespace c = false := by
  unfold isWhitespace
  simp
  omega

theorem trimWhitespace_eq_self {s : List Char} (h : ∀ c ∈ s, isWhitespace c = false) :
    trimWhitespace s = s := by
  have hdrop : ∀ {l : List Char}, (∀ c ∈ l, isWhitespace c = false) →
      l.dropWhile isWhitespace = l := by
    intro l hl
    cases l with
    | nil => rfl
    | cons c l => rw [List.dropWhile_cons, hl c List.mem_cons_self, if_neg Bool.false_ne_true]
  unfold trimWhitespace
  rw [hdrop h, hdrop fun c hc => h c (List.mem_reverse.mp hc), List.reverse_reverse]

theorem isWhitespace_digit {c : Char} (h : c.isDigit = true) : isWhitespace c = false := by
  have hrange : 48 ≤ c.toNat ∧ c.toNat ≤ 57 := Char.isDigit_iff_toNat.mp h
  exact isWhitespace_of_graphic (by omega) (by omega)

namespace DecimalText
variable (s : DecimalText)

theorem isWhitespace_text {c : Char} (hc : c ∈ s.sign.text ++ s.digits) :
    isWhitespace c = false := by
  rcases List.mem_append.mp hc with hsign | hdigit
  · cases hs : s.sign <;> rw [hs] at hsign <;> simp [Sign.text] at hsign <;> rw [hsign] <;> decide
  · exact isWhitespace_digit (s.isDigit c hdigit)

theorem stripSign_text :
    stripSign (s.sign.text ++ s.digits) = (s.digits, decide (s.sign = .minus)) := by
  cases hs : s.sign with
  | none =>
    match hd : s.digits, s.digits_ne_nil with
    | c :: rest, _ =>
      have hdigit := s.isDigit c (by rw [hd]; exact List.mem_cons_self)
      show stripSign (c :: rest) = _
      unfold stripSign
      split
      · next heq =>
        obtain ⟨rfl, -⟩ := List.cons.inj heq
        exact absurd hdigit (by decide)
      · next heq =>
        obtain ⟨rfl, -⟩ := List.cons.inj heq
        exact absurd hdigit (by decide)
      · rfl
  | plus => rfl
  | minus => rfl

theorem text_ne_nil : s.sign.text ++ s.digits ≠ [] :=
  fun h => s.digits_ne_nil (List.append_eq_nil_iff.mp h).2

/-- A decimal text has no hexadecimal prefix. -/
theorem ne_hex_prefix {c : Char} (hc : c = 'x' ∨ c = 'X') {rest : List Char} :
    s.sign.text ++ s.digits ≠ '0' :: c :: rest := by
  intro h
  have hmem : c ∈ s.sign.text ++ s.digits := by
    rw [h]
    exact List.mem_cons_of_mem _ List.mem_cons_self
  rcases List.mem_append.mp hmem with hsign | hdigit
  · cases hs : s.sign <;> rw [hs] at hsign <;> simp [Sign.text] at hsign <;>
      rw [hsign] at hc <;> exact absurd hc (by decide)
  · have hisDigit := s.isDigit c hdigit
    rcases hc with rfl | rfl <;> exact absurd hisDigit (by decide)

theorem fromDecimalStr_eq :
    fromDecimalStr (s.sign.text ++ s.digits) =
      (bounded (accumulate 0 (decimalGroups s.digits) : Nat) >>= fun r =>
        .ok (if decide (s.sign = .minus) then ⟨r.limbs, true⟩ else r)) := by
  have hloop := decimalLoop_eq s.isDigit s.digits.length le_rfl zero_lt_maxBits
  rw [List.take_length] at hloop
  have hall : s.digits.all Char.isDigit = true := List.all_eq_true.mpr s.isDigit
  unfold fromDecimalStr
  rw [trimWhitespace_eq_self fun c hc => s.isWhitespace_text hc]
  dsimp only
  rw [if_neg (by simpa using s.text_ne_nil), stripSign_text,
    if_neg (by simpa using s.digits_ne_nil), hall, if_neg (by decide), ← hloop]
  rfl

/-- **What the parser makes of a decimal text.** -/
theorem fromStr_text :
    BigInt.fromStr s.text =
      (bounded (accumulate 0 (decimalGroups s.digits) : Nat) >>= fun r =>
        .ok (if decide (s.sign = .minus) then ⟨r.limbs, true⟩ else r)) := by
  rw [← fromDecimalStr_eq]
  unfold BigInt.fromStr text
  rw [String.toList_ofList, trimWhitespace_eq_self fun c hc => s.isWhitespace_text hc]
  dsimp only
  rw [if_neg (by simpa using s.text_ne_nil)]
  split
  · next heq => exact absurd heq (s.ne_hex_prefix (Or.inl rfl))
  · next heq => exact absurd heq (s.ne_hex_prefix (Or.inr rfl))
  · rfl

end DecimalText

/-! ## Hexadecimal texts -/

theorem mapM_eq_ok {α β : Type} {f : α → Run BigIntError β} {g : α → β} :
    ∀ {l : List α}, (∀ a ∈ l, f a = .ok (g a)) → l.mapM f = .ok (l.map g)
  | [], _ => rfl
  | a :: l, h => by
    rw [List.mapM_cons, h a List.mem_cons_self, ok_bind,
      mapM_eq_ok fun b hb => h b (List.mem_cons_of_mem a hb)]
    rfl

theorem hexDigitsVal_reverse (ds : List Char) :
    hexDigitsVal ds.reverse = Nat.ofDigits 16 (ds.map fun c => (Hex.value c).getD 0) := by
  unfold hexDigitsVal
  rw [Numeral.foldl_eq_ofDigits 16 fun c : Char => (Hex.value c).getD 0, List.map_reverse,
    List.reverse_reverse]

theorem value_lt_sixteen (c : Char) : (Hex.value c).getD 0 < 16 := by
  unfold Hex.value
  split
  · simp; omega
  split
  · simp; omega
  split
  · simp; omega
  · simp

theorem hexDigitsVal_lt {ds : List Char} (h : ds.length ≤ 16) : hexDigitsVal ds < 2 ^ 64 := by
  have hlt := Nat.ofDigits_lt_base_pow_length (b := 16)
    (l := ds.reverse.map fun c => (Hex.value c).getD 0) (by norm_num) (by
      intro d hd
      obtain ⟨c, -, rfl⟩ := List.mem_map.mp hd
      exact value_lt_sixteen c)
  rw [← hexDigitsVal_reverse, List.reverse_reverse, List.length_map, List.length_reverse] at hlt
  calc hexDigitsVal ds < 16 ^ ds.length := hlt
    _ ≤ 16 ^ 16 := Nat.pow_le_pow_right (by norm_num) h
    _ = 2 ^ 64 := by norm_num

theorem isWhitespace_hexdigit {c : Char} (h : (Hex.value c).isSome = true) :
    isWhitespace c = false := by
  unfold Hex.value at h
  split at h
  · exact isWhitespace_of_graphic (by omega) (by omega)
  split at h
  · exact isWhitespace_of_graphic (by omega) (by omega)
  split at h
  · exact isWhitespace_of_graphic (by omega) (by omega)
  · cases h

/-- The limbs of a hexadecimal text have its value. -/
theorem val_hexLimbs (ds : List Char) :
    val ((Numeral.chunks 16 ds.reverse).map fun g => UInt64.ofNat (hexDigitsVal g.reverse)) =
      hexDigitsVal ds := by
  have hvalue := hexDigitsVal_reverse ds.reverse
  rw [List.reverse_reverse] at hvalue
  have hword : ∀ d ∈ (Numeral.chunks 16 ds.reverse).map fun g => hexDigitsVal g.reverse,
      d < 2 ^ 64 := by
    intro d hd
    obtain ⟨g, hg, rfl⟩ := List.mem_map.mp hd
    refine hexDigitsVal_lt ?_
    rw [List.length_reverse]
    exact (Numeral.mem_chunks hg).1
  have hmap := val_map_ofNat hword
  rw [List.map_map] at hmap
  rw [hvalue, ← Numeral.ofDigits_chunks 16 (w := 16) (by norm_num), Numeral.chunks_map,
    List.map_map]
  refine hmap.trans ?_
  congr 1
  exact List.map_congr_left fun g _ => hexDigitsVal_reverse g

namespace HexText
variable (s : HexText)

/-- **Hexadecimal texts of every length are read exactly.** -/
theorem fromHexStr_eq : fromHexStr s.digits = .ok (ofInt s.denotes) := by
  have hall : (s.digits.all fun c => (Hex.value c).isSome) = true :=
    List.all_eq_true.mpr s.isHexdigit
  have hchunks : (Numeral.chunks 16 s.digits.reverse).mapM
      (fun chunk => fromStrRadix16 chunk.reverse) =
      .ok ((Numeral.chunks 16 s.digits.reverse).map
        fun chunk => UInt64.ofNat (hexDigitsVal chunk.reverse)) := by
    refine mapM_eq_ok fun chunk hchunk => if_pos (hexDigitsVal_lt ?_)
    rw [List.length_reverse]
    exact (Numeral.mem_chunks hchunk).1
  have hne : (Numeral.chunks 16 s.digits.reverse).map
      (fun chunk => UInt64.ofNat (hexDigitsVal chunk.reverse)) ≠ [] := by
    rw [Ne, List.map_eq_nil_iff, Numeral.chunks_eq_nil_iff (by norm_num), List.reverse_eq_nil_iff]
    exact s.digits_ne_nil
  have hcanon : (⟨trim ((Numeral.chunks 16 s.digits.reverse).map
      fun chunk => UInt64.ofNat (hexDigitsVal chunk.reverse)), false⟩ : BigInt).Canonical :=
    ⟨trim_trimmed hne, fun _ => rfl⟩
  unfold fromHexStr
  rw [trimWhitespace_eq_self fun c hc => isWhitespace_hexdigit (s.isHexdigit c hc)]
  dsimp only
  rw [if_neg (by simpa using s.digits_ne_nil), hall, if_neg (by decide), hchunks, ok_bind,
    hcanon.eq_ofInt]
  refine congrArg (fun z => Except.ok (ofInt z)) ?_
  show ((val _ : Nat) : Int) = _
  rw [val_trim, val_hexLimbs]
  rfl

theorem fromStr_text : BigInt.fromStr s.text = .ok (ofInt s.denotes) := by
  have hspace : ∀ c ∈ '0' :: 'x' :: s.digits, isWhitespace c = false := by
    rw [List.forall_mem_cons, List.forall_mem_cons]
    exact ⟨by decide, by decide, fun c hc => isWhitespace_hexdigit (s.isHexdigit c hc)⟩
  rw [← fromHexStr_eq]
  unfold BigInt.fromStr text
  rw [String.toList_ofList, trimWhitespace_eq_self hspace]
  rfl

end HexText

/-! ## The printer -/

theorem unwrap_ok {α : Type} (a : α) : unwrap (.ok a) = .ok a := rfl

/-- The groups the printer divides off are the number's digits in base `10^19`. -/
theorem decimalChunks_eq (n : Nat) : ∀ {v : Nat}, v < (10 ^ 19) ^ n → v < 2 ^ 4096 →
    decimalChunks (n + 1) (ofInt v) = .ok ((Nat.digits (10 ^ 19) v).map UInt64.ofNat) := by
  induction n with
  | zero =>
    intro v hv _
    obtain rfl : v = 0 := by simpa using hv
    rfl
  | succ n ih =>
    intro v hv hmax
    rcases Nat.eq_zero_or_pos v with rfl | hpos
    · rfl
    have hdiv : bigintDivmod (ofInt v) ⟨[chunkBase], false⟩ =
        .ok (ofInt ((v / 10 ^ 19 : Nat) : Int), ofInt ((v % 10 ^ 19 : Nat) : Int)) := by
      rw [chunkBase_eq, bigintDivmod_ofInt (by rwa [Int.natAbs_natCast]) chunkBase_lt_maxBits
        (by norm_num)]
      rfl
    have hrem : v % 10 ^ 19 < 10 ^ 19 := Nat.mod_lt _ (by norm_num)
    have hchunk : (if (ofInt ((v % 10 ^ 19 : Nat) : Int)).isZero then .ok 0
        else index (ofInt ((v % 10 ^ 19 : Nat) : Int)).limbs 0 : Run BigIntError UInt64) =
        .ok (UInt64.ofNat (v % 10 ^ 19)) := by
      by_cases h0 : v % 10 ^ 19 = 0
      · rw [h0]
        rfl
      · rw [isZero_ofInt_of_ne (Nat.cast_ne_zero.mpr h0), if_neg Bool.false_ne_true,
          ← ofInt_word (lt_trans hrem (by norm_num))]
        rfl
    have hlt : v / 10 ^ 19 < (10 ^ 19) ^ n := by
      rw [Nat.div_lt_iff_lt_mul (by norm_num), ← pow_succ]
      exact hv
    have hrest := ih hlt (lt_of_le_of_lt (Nat.div_le_self _ _) hmax)
    rw [decimalChunks, isZero_ofInt_of_ne (Nat.cast_ne_zero.mpr hpos.ne'),
      if_neg Bool.false_ne_true, hdiv, unwrap_ok, ok_bind]
    dsimp only
    rw [hchunk, ok_bind, hrest, ok_bind, Nat.digits_def' (by norm_num) hpos]
    rfl

theorem chunksText_append {chunks : List UInt64} (h : chunks ≠ []) (c : UInt64) :
    chunksText (chunks ++ [c]) = chunksText chunks ++ Numeral.padded 19 c.toNat := by
  cases chunks with
  | nil => exact absurd rfl h
  | cons lead rest =>
    show _ ++ (rest ++ [c]).flatMap _ = (_ ++ rest.flatMap _) ++ _
    rw [List.flatMap_append, List.flatMap_singleton, List.append_assoc]

/-- **Groups, padded, are the standard numeral.** -/
theorem chunksText_digits {v : Nat} (h : 0 < v) :
    chunksText ((Nat.digits (10 ^ 19) v).map UInt64.ofNat).reverse = Nat.toDigits 10 v := by
  induction v using Nat.strong_induction_on with
  | _ v ih =>
    have hrem : v % 10 ^ 19 < 10 ^ 19 := Nat.mod_lt _ (by norm_num)
    have hword : (UInt64.ofNat (v % 10 ^ 19)).toNat = v % 10 ^ 19 :=
      toNat_ofNat_of_lt (lt_trans hrem (by norm_num))
    rw [Nat.digits_def' (by norm_num) h, List.map_cons, List.reverse_cons]
    rcases Nat.eq_zero_or_pos (v / 10 ^ 19) with hzero | hpos
    · have hsmall : v % 10 ^ 19 = v := Nat.mod_eq_of_lt (Nat.lt_of_div_eq_zero (by norm_num) hzero)
      rw [hzero, Nat.digits_zero]
      show Nat.toDigits 10 (UInt64.ofNat (v % 10 ^ 19)).toNat ++ [] = _
      rw [hword, hsmall, List.append_nil]
    · have hne : ((Nat.digits (10 ^ 19) (v / 10 ^ 19)).map UInt64.ofNat).reverse ≠ [] := by
        rw [Ne, List.reverse_eq_nil_iff, List.map_eq_nil_iff, Nat.digits_eq_nil_iff_eq_zero]
        exact hpos.ne'
      rw [chunksText_append hne, ih (v / 10 ^ 19) (Nat.div_lt_self h (by norm_num)) hpos, hword,
        ← Numeral.toDigits_mul_pow_add hpos (by norm_num) hrem, Nat.div_add_mod']

/-- The numeral of `z`, under its sign. -/
def numeral (z : Int) : String :=
  String.ofList (if z < 0 then '-' :: Nat.toDigits 10 z.natAbs else Nat.toDigits 10 z.natAbs)

/-- A positive magnitude without its sign. -/
theorem unsigned_ofInt (z : Int) : (⟨(ofInt z).limbs, false⟩ : BigInt) = ofInt z.natAbs := by
  have hcanon : (⟨(ofInt z).limbs, false⟩ : BigInt).Canonical :=
    ⟨ofInt_limbs_trimmed z, fun _ => rfl⟩
  rw [hcanon.eq_ofInt]
  show ofInt ((val (ofInt z).limbs : Nat) : Int) = _
  rw [val_ofInt_limbs]

/-- **The printer writes the standard numeral.** -/
theorem toString_ofInt {z : Int} (h : z.natAbs < 2 ^ 4096) :
    (ofInt z).toString = .ok (numeral z) := by
  by_cases h0 : z = 0
  · rw [h0]
    rfl
  have hrounds : z.natAbs < (10 ^ 19) ^ (2 * (ofInt z).limbs.length) := by
    have hval := val_lt (ofInt z).limbs
    rw [val_ofInt_limbs] at hval
    calc z.natAbs < (2 ^ 64) ^ (ofInt z).limbs.length := hval
      _ ≤ ((10 ^ 19) ^ 2) ^ (ofInt z).limbs.length := Nat.pow_le_pow_left (by norm_num) _
      _ = (10 ^ 19) ^ (2 * (ofInt z).limbs.length) := (pow_mul _ _ _).symm
  have hdecimal : toDecimalString (ofInt z) = .ok (Nat.toDigits 10 z.natAbs) := by
    unfold toDecimalString
    rw [isZero_ofInt_of_ne h0, if_neg Bool.false_ne_true, unsigned_ofInt,
      decimalChunks_eq _ hrounds h, ok_bind, chunksText_digits (Int.natAbs_pos.mpr h0)]
  unfold BigInt.toString numeral
  rw [isZero_ofInt_of_ne h0, if_neg Bool.false_ne_true, hdecimal, ok_bind, ofInt_sign]
  simp only [decide_eq_true_eq]

theorem bigintDivmod_ofInt_of_not_lt {x y : Int} (hx : ¬ x.natAbs < 2 ^ 4096) (h0 : y ≠ 0) :
    bigintDivmod (ofInt x) (ofInt y) = .error (.err .overflow) := by
  have hbits : max 1 (bitLen x.natAbs) > maxBigintBits := by
    rw [← bitLen_le_iff] at hx
    unfold maxBigintBits
    omega
  unfold bigintDivmod
  rw [isCanonical_ofInt, isCanonical_ofInt, if_neg (by decide), isZero_ofInt_of_ne h0,
    if_neg Bool.false_ne_true, bitLength_ofInt, ok_bind, bitLength_ofInt, ok_bind,
    if_pos (Or.inl hbits)]

/-- A number of more than 4096 bits has no text: the first division fails. -/
theorem toString_ofInt_of_not_lt {z : Int} (h : ¬ z.natAbs < 2 ^ 4096) :
    (ofInt z).toString = .error .panic := by
  have h0 : z ≠ 0 := by
    intro hz
    rw [hz] at h
    exact h zero_lt_maxBits
  have hpos : ((z.natAbs : Nat) : Int) ≠ 0 := Nat.cast_ne_zero.mpr (Int.natAbs_ne_zero.mpr h0)
  have hdiv : bigintDivmod (ofInt z.natAbs) ⟨[chunkBase], false⟩ = .error (.err .overflow) := by
    rw [chunkBase_eq]
    exact bigintDivmod_ofInt_of_not_lt (by rwa [Int.natAbs_natCast]) (by norm_num)
  unfold BigInt.toString toDecimalString
  rw [isZero_ofInt_of_ne h0, if_neg Bool.false_ne_true, if_neg Bool.false_ne_true,
    unsigned_ofInt, decimalChunks, isZero_ofInt_of_ne hpos, if_neg Bool.false_ne_true, hdiv]
  rfl

/-! ## What goes wrong -/

/-- The text is read as `z`, or refused if `z` has more than 4096 bits. -/
structure ReadsAs (text : String) (z : Int) : Prop where
  fits : z.natAbs < 2 ^ 4096 → ∃ b, BigInt.fromStr text = .ok b ∧ b.Canonical ∧ b.toInt = z
  overflows : ¬ z.natAbs < 2 ^ 4096 → ∃ e, BigInt.fromStr text = .error (.err e)

/-- Groups that can be taken in the parser's order: at most one, or a leading
zero over groups that read the same in both orders. -/
def OrderFree (groups : List Nat) : Prop :=
  groups.length ≤ 1 ∨ groups.getLast? = some 0 ∧ groups.dropLast.reverse = groups.dropLast

/-- The groups below the leading one in the opposite order, plus the leading one. -/
def misread (groups : List Nat) : Nat :=
  Nat.ofDigits (10 ^ 19) groups.dropLast.reverse + groups.getLastD 0

/-- A decimal text whose groups and sign the parser does not disturb. -/
structure DecimalText.Undisturbed (s : DecimalText) : Prop where
  order : digitsVal s.digits < 2 ^ 4096 → OrderFree (decimalGroups s.digits)
  sign : ¬ (s.sign = .minus ∧ digitsVal s.digits = 0)
  overflows : ¬ digitsVal s.digits < 2 ^ 4096 → ¬ misread (decimalGroups s.digits) < 2 ^ 4096

theorem accumulate_eq_misread (groups : List Nat) : accumulate 0 groups = misread groups := by
  rcases List.eq_nil_or_concat groups with rfl | ⟨gs, lead, rfl⟩
  · rfl
  · rw [List.concat_eq_append, accumulate_append]
    unfold misread
    rw [List.dropLast_concat, List.getLastD_concat, Nat.zero_mul, Nat.zero_add]

theorem misread_eq_iff {groups : List Nat} (h : ∀ g ∈ groups, g < 10 ^ 19) :
    misread groups = Nat.ofDigits (10 ^ 19) groups ↔ OrderFree groups := by
  rcases List.eq_nil_or_concat groups with rfl | ⟨gs, lead, rfl⟩
  · exact iff_of_true rfl (Or.inl (by simp))
  · rw [List.concat_eq_append] at h ⊢
    unfold misread OrderFree
    rw [List.dropLast_concat, List.getLastD_concat, List.getLast?_concat,
      Numeral.ofDigits_reverse_add_eq_iff (by norm_num)
        fun d hd => h d (List.mem_append_left _ hd)]
    simp

namespace DecimalText
variable (s : DecimalText)

theorem natAbs_denotes : s.denotes.natAbs = digitsVal s.digits := by
  unfold denotes
  split <;> simp

/-- The number the parser returns: its magnitude under the sign. -/
theorem fromStr_of_lt (h : misread (decimalGroups s.digits) < 2 ^ 4096) :
    BigInt.fromStr s.text =
      .ok ⟨(ofInt (misread (decimalGroups s.digits) : Nat)).limbs, decide (s.sign = .minus)⟩ := by
  rw [fromStr_text, accumulate_eq_misread, bounded_natCast_of_lt h, ok_bind]
  split
  · next hminus => rw [hminus]
  · next hplus =>
    rw [Bool.eq_false_of_not_eq_true hplus, unsigned_ofInt, Int.natAbs_natCast]

theorem fromStr_of_not_lt (h : ¬ misread (decimalGroups s.digits) < 2 ^ 4096) :
    BigInt.fromStr s.text = .error (.err .overflow) := by
  rw [fromStr_text, accumulate_eq_misread, bounded_natCast_of_not_lt h]
  rfl

theorem misread_eq_value_iff :
    misread (decimalGroups s.digits) = digitsVal s.digits ↔ OrderFree (decimalGroups s.digits) := by
  rw [← misread_eq_iff (decimalGroups_lt s.isDigit), ofDigits_decimalGroups]

/-- What is returned stands for the number its groups were taken for. -/
theorem natAbs_toInt_of_ok {b : BigInt} (h : BigInt.fromStr s.text = .ok b) :
    b.toInt.natAbs = misread (decimalGroups s.digits) ∧ b.sign = decide (s.sign = .minus) := by
  by_cases hlt : misread (decimalGroups s.digits) < 2 ^ 4096
  · rw [s.fromStr_of_lt hlt] at h
    cases h
    refine ⟨?_, rfl⟩
    unfold BigInt.toInt
    rw [val_ofInt_limbs, Int.natAbs_natCast]
    split <;> simp
  · rw [s.fromStr_of_not_lt hlt] at h
    cases h

/-- **The decimal texts that are read as the numbers they denote.** -/
theorem readsAs_iff : ReadsAs s.text s.denotes ↔ s.Undisturbed := by
  have hdenotes := s.natAbs_denotes
  constructor
  · intro h
    refine ⟨fun hlt => ?_, fun hzero => ?_, fun hge hlt => ?_⟩
    · obtain ⟨b, hb, -, hvalue⟩ := h.fits (by rwa [hdenotes])
      rw [← misread_eq_value_iff, ← (s.natAbs_toInt_of_ok hb).1, hvalue, hdenotes]
    · obtain ⟨b, hb, hcanon, hvalue⟩ := h.fits (by rw [hdenotes, hzero.2]; exact zero_lt_maxBits)
      have hsign := (s.natAbs_toInt_of_ok hb).2
      -- a negative zero is not canonical
      have hzero' : b.toInt = 0 := by
        rw [hvalue, ← Int.natAbs_eq_zero, hdenotes]
        exact hzero.2
      have hval : val b.limbs = 0 := by
        unfold BigInt.toInt at hzero'
        split at hzero' <;> omega
      rw [hcanon.2 hval, hzero.1] at hsign
      cases hsign
    · obtain ⟨e, he⟩ := h.overflows (by rwa [hdenotes])
      rw [s.fromStr_of_lt hlt] at he
      cases he
  · intro h
    refine ⟨fun hlt => ?_, fun hge => ?_⟩
    · rw [hdenotes] at hlt
      have hsame := s.misread_eq_value_iff.mpr (h.order hlt)
      have hrun := s.fromStr_of_lt (by rwa [hsame])
      rw [hsame] at hrun
      refine ⟨_, hrun, ⟨ofInt_limbs_trimmed _, fun hzero => ?_⟩, ?_⟩
      · rw [val_ofInt_limbs, Int.natAbs_natCast] at hzero
        exact decide_eq_false fun hminus => h.sign ⟨hminus, hzero⟩
      · unfold BigInt.toInt denotes
        simp only [val_ofInt_limbs, Int.natAbs_natCast, decide_eq_true_eq]
    · rw [hdenotes] at hge
      exact ⟨_, s.fromStr_of_not_lt (h.overflows hge)⟩

end DecimalText

/-! ## Round trips -/

/-- The numeral of `z` as a decimal text. -/
def numeralText (z : Int) : DecimalText where
  sign := if z < 0 then .minus else .none
  digits := Nat.toDigits 10 z.natAbs
  digits_ne_nil := Nat.toDigits_ne_nil
  isDigit c hc := Nat.isDigit_of_mem_toDigits (by norm_num) (by norm_num) hc

theorem numeralText_text (z : Int) : (numeralText z).text = numeral z := by
  unfold DecimalText.text numeral numeralText
  split <;> rfl

theorem digitsVal_toDigits (n : Nat) : digitsVal (Nat.toDigits 10 n) = n :=
  Nat.ofDigitChars_toDigits (by norm_num) (by norm_num)

theorem numeralText_denotes (z : Int) : (numeralText z).denotes = z := by
  unfold DecimalText.denotes numeralText
  by_cases h : z < 0
  · rw [if_pos h, if_pos rfl, digitsVal_toDigits]
    omega
  · rw [if_neg h, if_neg (fun hsign => nomatch hsign), digitsVal_toDigits]
    omega

/-- A leading group of zeros starts with a zero. -/
theorem head_of_leading_zero {ds : List Char} (h : ∀ c ∈ ds, c.isDigit = true)
    (hlead : (decimalGroups ds).getLast? = some 0) : ds.head? = some '0' := by
  unfold decimalGroups at hlead
  rw [List.getLast?_map, Option.map_eq_some_iff] at hlead
  obtain ⟨g, hg, hzero⟩ := hlead
  have hlast := Numeral.getLast?_chunks hg
  rw [List.getLast?_reverse] at hlast
  have hmem := (Numeral.mem_chunks (List.mem_of_getLast? hg)).2
  have hne : g ≠ [] := by
    rintro rfl
    rw [List.getLast?_nil, eq_comm, List.head?_eq_none_iff] at hlast
    rw [hlast] at hg
    simp at hg
  rw [← hlast, List.getLast?_eq_some_getLast hne, Option.some.injEq]
  have hc := List.getLast_mem hne
  have hdigit := Char.isDigit_iff_toNat.mp (h _ (List.mem_reverse.mp (hmem _ hc)))
  rw [digitsVal_reverse] at hzero
  have hval := Nat.digits_zero_of_eq_zero (by norm_num) hzero _ (List.mem_map_of_mem hc)
  refine Char.toNat_inj.mp ?_
  have hlo : 48 ≤ (g.getLast hne).toNat := hdigit.1
  show (g.getLast hne).toNat = 48
  omega

theorem orderFree_toDigits_iff (n : Nat) :
    OrderFree (decimalGroups (Nat.toDigits 10 n)) ↔ n < 10 ^ 19 := by
  have hisDigit : ∀ c ∈ Nat.toDigits 10 n, c.isDigit = true :=
    fun c hc => Nat.isDigit_of_mem_toDigits (by norm_num) (by norm_num) hc
  have hlen : (decimalGroups (Nat.toDigits 10 n)).length ≤ 1 ↔ n < 10 ^ 19 := by
    rw [length_decimalGroups_le_one_iff, Nat.length_toDigits_le_iff (by norm_num) (by norm_num)]
  constructor
  · intro h
    rcases h with hone | hlead
    · exact hlen.mp hone
    · have hhead := head_of_leading_zero hisDigit hlead.1
      rcases Nat.eq_zero_or_pos n with rfl | hpos
      · norm_num
      · exact absurd hhead (Numeral.head_toDigits_ne_zero hpos)
  · intro h
    exact Or.inl (hlen.mpr h)

/-- The numerals that are read back. -/
theorem readsAs_numeral_iff {z : Int} (h : z.natAbs < 2 ^ 4096) :
    ReadsAs (numeral z) z ↔ z.natAbs < 10 ^ 19 := by
  have hread := (numeralText z).readsAs_iff
  rw [numeralText_text, numeralText_denotes] at hread
  have hdigits : digitsVal (numeralText z).digits = z.natAbs := digitsVal_toDigits z.natAbs
  rw [hread, ← orderFree_toDigits_iff]
  constructor
  · intro hu
    exact hu.order (by rwa [hdigits])
  · intro hfree
    refine ⟨fun _ => hfree, fun hzero => ?_, fun hge => absurd (by rwa [hdigits]) hge⟩
    rw [hdigits, Int.natAbs_eq_zero] at hzero
    obtain ⟨hsign, rfl⟩ := hzero
    cases hsign

/-- The text of `b` is read back as `b`. -/
def RoundTrips (b : BigInt) : Prop := ∃ text, b.toString = .ok text ∧ BigInt.fromStr text = .ok b

theorem roundTrips_iff {b : BigInt} (hb : b.Canonical) :
    RoundTrips b ↔ b.toInt.natAbs < 10 ^ 19 := by
  generalize hz : b.toInt = z
  obtain rfl : b = ofInt z := hz ▸ hb.eq_ofInt
  by_cases hmax : z.natAbs < 2 ^ 4096
  · rw [← readsAs_numeral_iff hmax]
    constructor
    · intro h
      obtain ⟨text, htext, hread⟩ := h
      rw [toString_ofInt hmax] at htext
      cases htext
      exact ⟨fun _ => ⟨_, hread, ofInt_canonical z, toInt_ofInt z⟩, fun hge => absurd hmax hge⟩
    · intro h
      obtain ⟨b, hread, hcanon, hvalue⟩ := h.fits hmax
      rw [hcanon.eq_ofInt, hvalue] at hread
      exact ⟨_, toString_ofInt hmax, hread⟩
  · refine iff_of_false (fun h => ?_) fun hsmall => hmax ?_
    · obtain ⟨text, htext, -⟩ := h
      rw [toString_ofInt_of_not_lt hmax] at htext
      cases htext
    · exact lt_maxBits (k := 64) (lt_trans hsmall (by norm_num)) (by norm_num)

/-- **Which texts and numbers survive.** -/
theorem bigint_text_iff (s : DecimalText) (x : HexText) {b : BigInt} (hb : b.Canonical) :
    (ReadsAs s.text s.denotes ↔ s.Undisturbed) ∧
      (ReadsAs x.text x.denotes ↔ x.denotes.natAbs < 2 ^ 4096) ∧
      (RoundTrips b ↔ b.toInt.natAbs < 10 ^ 19) := by
  refine ⟨s.readsAs_iff, ?_, roundTrips_iff hb⟩
  constructor
  · intro h
    by_contra hge
    obtain ⟨e, he⟩ := h.overflows hge
    rw [x.fromStr_text] at he
    cases he
  · intro h
    exact ⟨fun _ => ⟨_, x.fromStr_text, ofInt_canonical _, toInt_ofInt _⟩,
      fun hge => absurd h hge⟩

/-- A short text of each kind, and a number of one limb. -/
theorem bigint_text_samples :
    ReadsAs "-42" (-42) ∧ ReadsAs "0x1F" 31 ∧ RoundTrips ⟨[1], false⟩ := by
  have hb : (⟨[1], false⟩ : BigInt).Canonical :=
    ⟨⟨List.cons_ne_nil _ _, by decide⟩, by decide⟩
  obtain ⟨hdecimal, hhex, hround⟩ := bigint_text_iff
    ⟨.minus, ['4', '2'], List.cons_ne_nil _ _, List.all_eq_true.mp rfl⟩
    ⟨['1', 'F'], List.cons_ne_nil _ _, List.all_eq_true.mp rfl⟩ hb
  have h42 : digitsVal ['4', '2'] < 2 ^ 4096 := lt_maxBits (k := 6) (by decide) (by norm_num)
  have h31 : Int.natAbs (hexDigitsVal ['1', 'F']) < 2 ^ 4096 :=
    lt_maxBits (k := 5) (by decide) (by norm_num)
  refine ⟨hdecimal.mpr ⟨fun _ => Or.inl ?_, by decide, fun hge => absurd h42 hge⟩,
    hhex.mpr h31, hround.mpr (by decide)⟩
  exact length_decimalGroups_le_one_iff.mpr (by decide)

/-- One and nineteen zeros. -/
def tenPowNineteen : DecimalText where
  sign := .none
  digits := '1' :: List.replicate 19 '0'
  digits_ne_nil := List.cons_ne_nil _ _
  isDigit := List.all_eq_true.mp rfl

theorem tenPowNineteen_groups : decimalGroups tenPowNineteen.digits = [0, 1] := by
  have hend : (tenPowNineteen.digits.reverse.drop 19).drop 19 = [] := by decide
  unfold decimalGroups
  rw [Numeral.chunks_of_ne_nil (by norm_num) (by decide),
    Numeral.chunks_of_ne_nil (by norm_num) (by decide), hend, Numeral.chunks_nil]
  decide

/-- `10^19` is read as one. -/
theorem ten_pow_nineteen_reads_one :
    BigInt.fromStr "10000000000000000000" = .ok ⟨[1], false⟩ ∧
      ¬ ReadsAs "10000000000000000000" (10 ^ 19) ∧ ¬ RoundTrips (ofInt (10 ^ 19)) := by
  have hread : BigInt.fromStr "10000000000000000000" = .ok ⟨[1], false⟩ := by
    have hlt : accumulate 0 [0, 1] < 2 ^ 4096 := lt_maxBits (k := 1) (by decide) (by norm_num)
    have hrun := tenPowNineteen.fromStr_text
    rw [tenPowNineteen_groups, bounded_natCast_of_lt hlt, ok_bind] at hrun
    exact hrun.trans (congrArg Except.ok (by decide))
  refine ⟨hread, fun h => ?_, fun h => ?_⟩
  · obtain ⟨b, hb, -, hvalue⟩ := h.fits (lt_maxBits (k := 64) (by norm_num) (by norm_num))
    rw [hread] at hb
    cases hb
    exact absurd hvalue (by decide)
  · have hsmall := (roundTrips_iff (ofInt_canonical _)).mp h
    rw [toInt_ofInt] at hsmall
    exact absurd hsmall (by decide)

end CipherOcto.Determin
