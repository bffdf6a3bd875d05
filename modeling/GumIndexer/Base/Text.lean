import Mathlib.Data.List.Induction
import Mathlib.Data.Nat.Digits.Defs

/-!
# Base.Text

Texts and the numbers in them: trimming and splitting, decimal `i64`s and
hexadecimal bytes.  Each format comes with its inverse (`parseI64_decimal`,
`hexDecode_hexEncode`) and with the characters it is made of, so that a text
composed of parts can be taken apart again (`splitOnce_part`).
-/

namespace Base

/-- A string, as its characters. -/
abbrev Str := List Char

abbrev Bytes := List UInt8

/-- `char::is_whitespace`: the characters with the property `White_Space`. -/
def isWhitespace (c : Char) : Bool :=
  let n := c.toNat
  (9 ≤ n ∧ n ≤ 13) ∨ n = 0x20 ∨ n = 0x85 ∨ n = 0xA0 ∨ n = 0x1680 ∨ (0x2000 ≤ n ∧ n ≤ 0x200A) ∨
    n = 0x2028 ∨ n = 0x2029 ∨ n = 0x202F ∨ n = 0x205F ∨ n = 0x3000

/-- `str::trim`. -/
def trim (s : Str) : Str :=
  ((s.dropWhile isWhitespace).reverse.dropWhile isWhitespace).reverse

/-- `str::split_once`. -/
def splitOnce (sep : Char) : Str → Option (Str × Str)
  | [] => none
  | c :: s => if c = sep then some ([], s) else (splitOnce sep s).map fun (a, b) => (c :: a, b)

/-- A text of digits, and nothing else. -/
def digits? (s : Str) : Option Nat :=
  if s ≠ [] ∧ s.all Char.isDigit then some (Nat.ofDigitChars 10 s 0) else none

/-- The integer, if it is an `i64`. -/
def toI64? (n : Int) : Option Int64 :=
  if -2 ^ 63 ≤ n ∧ n < 2 ^ 63 then some (.ofInt n) else none

/-- `str::parse::<i64>`: an optional sign and decimal digits. -/
def parseI64 : Str → Option Int64
  | '-' :: s => (digits? s).bind fun n => toI64? (-n)
  | '+' :: s => (digits? s).bind fun n => toI64? n
  | s => (digits? s).bind fun n => toI64? n

/-- `i64::to_string`. -/
def decimal (t : Int64) : Str :=
  if t.toInt < 0 then '-' :: Nat.toDigits 10 t.toInt.natAbs else Nat.toDigits 10 t.toInt.natAbs

/-- The lower-case digit of a value below 16. -/
def hexDigit (n : Nat) : Char := Nat.digitChar n

/-- The value of a hexadecimal digit of either case. -/
def hexValue (c : Char) : Option Nat :=
  let n := c.toNat
  if 48 ≤ n ∧ n ≤ 57 then some (n - 48)
  else if 97 ≤ n ∧ n ≤ 102 then some (n - 87)
  else if 65 ≤ n ∧ n ≤ 70 then some (n - 55)
  else none

/-- `hex::encode`. -/
def hexEncode (bs : Bytes) : Str :=
  bs.flatMap fun b => [hexDigit (b.toNat / 16), hexDigit (b.toNat % 16)]

/-- `hex::decode`. -/
def hexDecode : Str → Option Bytes
  | [] => some []
  | [_] => none
  | a :: b :: s => do
      let hi ← hexValue a
      let lo ← hexValue b
      let rest ← hexDecode s
      return UInt8.ofNat (16 * hi + lo) :: rest

/-! ## Round trips -/

theorem hexValue_hexDigit {n : Nat} (h : n < 16) : hexValue (hexDigit n) = some n := by
  revert n
  decide

theorem hexDecode_hexEncode (bs : Bytes) : hexDecode (hexEncode bs) = some bs := by
  induction bs with
  | nil => rfl
  | cons b bs ih =>
      have hb := b.toNat_lt
      have hbyte : UInt8.ofNat (16 * (b.toNat / 16) + b.toNat % 16) = b := by
        rw [Nat.div_add_mod, UInt8.ofNat_toNat]
      rw [hexEncode, List.flatMap_cons, ← hexEncode]
      simp only [List.cons_append, List.nil_append, hexDecode,
        hexValue_hexDigit (show b.toNat / 16 < 16 by omega),
        hexValue_hexDigit (show b.toNat % 16 < 16 by omega), ih]
      change some (UInt8.ofNat (16 * (b.toNat / 16) + b.toNat % 16) :: bs) = _
      rw [hbyte]

theorem digits?_toDigits (n : Nat) : digits? (Nat.toDigits 10 n) = some n := by
  have hdigits : (Nat.toDigits 10 n).all Char.isDigit = true :=
    List.all_eq_true.mpr fun c hc => Nat.isDigit_of_mem_toDigits (by decide) (by decide) hc
  rw [digits?, if_pos ⟨Nat.toDigits_ne_nil, hdigits⟩, Nat.ofDigitChars_toDigits (by decide) (by decide)]

theorem toI64?_toInt (t : Int64) : toI64? t.toInt = some t := by
  rw [toI64?, if_pos ⟨t.le_toInt, t.toInt_lt⟩, Int64.ofInt_toInt]

/-- The characters of timestamps. -/
theorem mem_decimal {t : Int64} {c : Char} (h : c ∈ decimal t) : c = '-' ∨ c.isDigit = true := by
  have hdigit : ∀ n, c ∈ Nat.toDigits 10 n → c.isDigit = true := fun n hc =>
    Nat.isDigit_of_mem_toDigits (by decide) (by decide) hc
  unfold decimal at h
  split at h
  · exact (List.mem_cons.mp h).imp_right (hdigit _)
  · exact .inr (hdigit _ h)

/-- **Timestamps are read as they are written.** -/
theorem parseI64_decimal (t : Int64) : parseI64 (decimal t) = some t := by
  unfold decimal
  split
  · next hneg =>
      have hint : (-(t.toInt.natAbs : Int)) = t.toInt := by omega
      rw [parseI64, digits?_toDigits, Option.bind_some, hint, toI64?_toInt]
  · next hneg =>
      have hint : (t.toInt.natAbs : Int) = t.toInt := by omega
      -- the text starts with a digit, so it has no sign
      have hplain : parseI64 (Nat.toDigits 10 t.toInt.natAbs) =
          (digits? (Nat.toDigits 10 t.toInt.natAbs)).bind fun n => toI64? n := by
        cases hd : Nat.toDigits 10 t.toInt.natAbs with
        | nil => exact absurd hd Nat.toDigits_ne_nil
        | cons c s =>
            have hc : c.isDigit = true :=
              Nat.isDigit_of_mem_toDigits (b := 10) (n := t.toInt.natAbs) (by decide) (by decide)
                (by rw [hd]; simp)
            unfold parseI64
            split
            · next heq =>
                obtain ⟨rfl, -⟩ := List.cons.inj heq
                exact absurd hc (by decide)
            · next heq =>
                obtain ⟨rfl, -⟩ := List.cons.inj heq
                exact absurd hc (by decide)
            · rfl
      rw [hplain, digits?_toDigits, Option.bind_some, hint, toI64?_toInt]

theorem mem_hexEncode {bs : Bytes} {c : Char} (h : c ∈ hexEncode bs) : ∃ n < 16, c = hexDigit n := by
  obtain ⟨b, -, hc⟩ := List.mem_flatMap.mp h
  have hb := b.toNat_lt
  simp only [List.mem_cons, List.not_mem_nil, or_false] at hc
  rcases hc with rfl | rfl
  · exact ⟨_, by omega, rfl⟩
  · exact ⟨_, by omega, rfl⟩

/-- A character that is neither a separator nor white space. -/
def Plain (c : Char) : Prop := c ≠ ',' ∧ c ≠ '=' ∧ isWhitespace c = false

instance (c : Char) : Decidable (Plain c) := inferInstanceAs (Decidable (_ ∧ _))

theorem plain_hexDigit {n : Nat} (h : n < 16) : Plain (hexDigit n) := by
  revert n
  decide

theorem plain_of_mem_decimal {t : Int64} {c : Char} (h : c ∈ decimal t) : Plain c := by
  rcases mem_decimal h with rfl | hdigit
  · decide
  · obtain ⟨hlow, hhigh⟩ := Char.isDigit_iff_toNat.mp hdigit
    have hlow' : 48 ≤ c.toNat := hlow
    have hhigh' : c.toNat ≤ 57 := hhigh
    refine ⟨?_, ?_, ?_⟩
    · rintro rfl
      exact absurd hlow' (by decide)
    · rintro rfl
      exact absurd hhigh' (by decide)
    · unfold isWhitespace
      rw [decide_eq_false_iff_not]
      omega

theorem dropWhile_of_plain {s : Str} (h : ∀ c ∈ s, isWhitespace c = false) :
    s.dropWhile isWhitespace = s := by
  cases s with
  | nil => rfl
  | cons c s => rw [List.dropWhile_cons_of_neg (by rw [h c List.mem_cons_self]; decide)]

theorem trim_of_plain {s : Str} (h : ∀ c ∈ s, isWhitespace c = false) : trim s = s := by
  unfold trim
  rw [dropWhile_of_plain h, dropWhile_of_plain fun c hc => h c (List.mem_reverse.mp hc),
    List.reverse_reverse]

theorem splitOnce_append {sep : Char} {key v : Str} (h : sep ∉ key) :
    splitOnce sep (key ++ sep :: v) = some (key, v) := by
  induction key with
  | nil => simp [splitOnce]
  | cons c key ih =>
      have hc : c ≠ sep := fun heq => h (by rw [heq]; exact List.mem_cons_self)
      have hkey : sep ∉ key := fun hmem => h (List.mem_cons_of_mem c hmem)
      rw [List.cons_append, splitOnce, if_neg hc, ih hkey]
      rfl

/-- A part made of a name and a plain value. -/
theorem splitOnce_part (key : Str) {v : Str} (hkey : ∀ c ∈ key, Plain c) (hv : ∀ c ∈ v, Plain c) :
    splitOnce '=' (trim (key ++ '=' :: v)) = some (key, v) := by
  rw [trim_of_plain, splitOnce_append fun hmem => (hkey _ hmem).2.1 rfl]
  intro c hc
  rcases List.mem_append.mp hc with hc | hc
  · exact (hkey c hc).2.2
  · rcases List.mem_cons.mp hc with rfl | hc
    · decide
    · exact (hv c hc).2.2

theorem plain_of_mem_hexEncode {bs : Bytes} {c : Char} (h : c ∈ hexEncode bs) : Plain c := by
  obtain ⟨n, hn, rfl⟩ := mem_hexEncode h
  exact plain_hexDigit hn

theorem toNat_le_of_mem_decimal {t : Int64} {c : Char} (h : c ∈ decimal t) :
    c.toNat ≠ 46 ∧ c.toNat < 256 := by
  rcases mem_decimal h with rfl | hdigit
  · decide
  · obtain ⟨hlow, hhigh⟩ := Char.isDigit_iff_toNat.mp hdigit
    have hlow' : 48 ≤ c.toNat := hlow
    have hhigh' : c.toNat ≤ 57 := hhigh
    omega

/-- The bytes of a timestamp. -/
def decimalBytes (t : Int64) : Bytes := (decimal t).map fun c => UInt8.ofNat c.toNat

theorem dot_not_mem_decimalBytes (t : Int64) : UInt8.ofNat 46 ∉ decimalBytes t := by
  intro h
  obtain ⟨c, hc, heq⟩ := List.mem_map.mp h
  obtain ⟨hne, hlt⟩ := toNat_le_of_mem_decimal hc
  have hnat := congrArg UInt8.toNat heq
  rw [UInt8.toNat_ofNat_of_lt' hlt] at hnat
  exact hne hnat

theorem decimalBytes_injective {t t' : Int64} (h : decimalBytes t = decimalBytes t') : t = t' := by
  have hback : ∀ t, (decimalBytes t).map (fun b => Char.ofNat b.toNat) = decimal t := by
    intro t
    rw [decimalBytes, List.map_map]
    refine (List.map_congr_left fun c hc => ?_).trans (List.map_id _)
    obtain ⟨-, hlt⟩ := toNat_le_of_mem_decimal hc
    rw [Function.comp_apply, UInt8.toNat_ofNat_of_lt' hlt, Char.ofNat_toNat, id]
  have heq : decimal t = decimal t' := by rw [← hback, h, hback]
  exact Option.some.inj (by rw [← parseI64_decimal t, heq, parseI64_decimal])

end Base
