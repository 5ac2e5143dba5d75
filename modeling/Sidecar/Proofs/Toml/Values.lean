import Mathlib
import Sidecar.Toml.Document

/-!
# Values that are read as they were written

A value at the end of a line is read as an item whatever stands on the lines below (`Reads`). This holds
of the words for switches, of names between quotes, and of numbers.

A number is the hard one. Before it is tried as an integer it is tried as a date, as a time of day and as
a float, and none of these may take it. They do not, because each of them wants some other character
before the line ends: a `-` or a `:` where the digits of a date or of a time are used up, whatever they
count (`expect_of_fixedNumber`), and a point or an exponent after those of a float. As an integer it is
read back because it has no zero in front unless it is zero (`head_toDigits`).
-/

set_option autoImplicit false

namespace Sidecar.Toml

open Scan

/-! ## Digits -/

theorem digitValue_of_isDigit {c : Char} (h : c.isDigit = true) :
    digitValue c = c.toNat - '0'.toNat := by
  rw [digitValue, if_pos h]

theorem isDigitOf_ten {c : Char} (h : c.isDigit = true) : isDigitOf 10 c = true := by
  have hbounds : 48 ≤ c.toNat ∧ c.toNat ≤ 57 := by
    simpa [Char.isDigit, UInt32.le_iff_toNat_le] using h
  have hzero : '0'.toNat = 48 := rfl
  rw [isDigitOf, digitValue_of_isDigit h, decide_eq_true_eq]
  omega

/-- Characters that a class tells apart. -/
theorem ne_of_class {p : Char → Bool} {c d : Char} (h : p c = true) (hd : p d = false) : c ≠ d := by
  rintro rfl
  rw [h] at hd
  cases hd

theorem numberOf_toDigits (n : Nat) : numberOf 10 (Nat.toDigits 10 n) = n := by
  have hsame : ∀ (cs : List Char) (init : Nat), (∀ c ∈ cs, c.isDigit = true) →
      cs.foldl (fun n c => n * 10 + digitValue c) init = Nat.ofDigitChars 10 cs init := by
    intro cs
    induction cs with
    | nil => exact fun _ _ => rfl
    | cons c rest ih =>
      intro init h
      rw [List.foldl_cons, Nat.ofDigitChars_cons, ih _ fun d hd => h d (List.mem_cons_of_mem c hd),
        digitValue_of_isDigit (h c List.mem_cons_self), Nat.mul_comm]
  rw [numberOf, hsame _ _ fun c hc => Nat.isDigit_of_mem_toDigits (by decide) (by decide) hc,
    Nat.ofDigitChars_ten_toDigits]

/-- Only zero is written with a zero in front. -/
theorem head_toDigits {n : Nat} {c : Char} {cs : List Char} (hn : n ≠ 0)
    (h : Nat.toDigits 10 n = c :: cs) : c ≠ '0' := by
  induction n using Nat.strongRecOn generalizing c cs with
  | ind n ih =>
    by_cases hsmall : n < 10
    · rw [Nat.toDigits_of_lt_base hsmall] at h
      obtain ⟨rfl, -⟩ := List.cons.inj h
      intro hzero
      have hvalue := Nat.toNat_digitChar_of_lt_ten hsmall
      rw [hzero] at hvalue
      exact hn (Nat.add_left_cancel hvalue).symm
    · rw [Nat.toDigits_of_base_le (by decide) (Nat.not_lt.mp hsmall)] at h
      rcases hfront : Nat.toDigits 10 (n / 10) with _ | ⟨d, ds⟩
      · exact absurd hfront Nat.toDigits_ne_nil
      · rw [hfront, List.cons_append] at h
        obtain ⟨rfl, -⟩ := List.cons.inj h
        exact ih (n / 10) (by omega) (by omega) hfront

theorem moreDigits_of_digits {ds rest : List Char} (hds : ∀ c ∈ ds, c.isDigit = true) :
    moreDigits 10 (ds ++ '\n' :: rest) = (ds, '\n' :: rest) := by
  induction ds with
  | nil =>
    have hend : isDigitOf 10 '\n' = false := by decide
    cases rest <;> simp [moreDigits, hend]
  | cons c tail ih =>
    have hc := hds c List.mem_cons_self
    have hunderscore : c ≠ '_' := ne_of_class hc (by decide)
    have htail := ih fun d hd => hds d (List.mem_cons_of_mem c hd)
    rw [List.cons_append, moreDigits.eq_def]
    split
    · next heq => exact absurd (List.cons.inj heq).1 hunderscore
    · next heq =>
      obtain ⟨rfl, rfl⟩ := List.cons.inj heq
      simp [isDigitOf_ten hc, htail]
    · next heq => cases heq

/-! ## Numbers -/

section Number

variable (n : Nat) (rest : List Char)

theorem isDigit_of_mem {c : Char} (h : c ∈ Nat.toDigits 10 n) : c.isDigit = true :=
  Nat.isDigit_of_mem_toDigits (by decide) (by decide) h

theorem exists_toDigits : ∃ c cs, Nat.toDigits 10 n = c :: cs ∧ c.isDigit = true := by
  rcases hdigits : Nat.toDigits 10 n with _ | ⟨c, cs⟩
  · exact absurd hdigits Nat.toDigits_ne_nil
  · exact ⟨c, cs, rfl, isDigit_of_mem n (hdigits ▸ List.mem_cons_self)⟩

theorem digits_toDigits :
    digits 10 (Nat.toDigits 10 n ++ '\n' :: rest) = some (Nat.toDigits 10 n, '\n' :: rest) := by
  have hall := fun c => isDigit_of_mem n (c := c)
  obtain ⟨c, cs, hdigits, hc⟩ := exists_toDigits n
  rw [hdigits] at hall ⊢
  have hmore : moreDigits 10 (cs ++ '\n' :: rest) = (cs, '\n' :: rest) :=
    moreDigits_of_digits fun d hd => hall d (List.mem_cons_of_mem c hd)
  rw [List.cons_append, digits, if_pos (isDigitOf_ten hc), hmore]

theorem integerPart_toDigits :
    Number.integerPart (Nat.toDigits 10 n ++ '\n' :: rest)
      = some (Nat.toDigits 10 n, '\n' :: rest) := by
  by_cases hn : n = 0
  · subst hn
    rfl
  · have hdigits := digits_toDigits n rest
    rcases hcs : Nat.toDigits 10 n with _ | ⟨c, cs⟩
    · exact absurd hcs Nat.toDigits_ne_nil
    · rw [hcs] at hdigits
      rw [List.cons_append] at hdigits ⊢
      unfold Number.integerPart
      split
      · next heq => exact absurd (List.cons.inj heq).1 (head_toDigits hn hcs)
      · exact hdigits

theorem sign_of_isDigit {c : Char} {cs : List Char} (h : c.isDigit = true) :
    Number.sign (c :: cs) = (false, c :: cs) := by
  unfold Number.sign
  split
  · next heq => exact absurd (List.cons.inj heq).1 (ne_of_class h (by decide))
  · next heq => exact absurd (List.cons.inj heq).1 (ne_of_class h (by decide))
  · rfl

theorem sign_toDigits : Number.sign (Nat.toDigits 10 n ++ '\n' :: rest)
    = (false, Nat.toDigits 10 n ++ '\n' :: rest) := by
  obtain ⟨c, cs, hdigits, hc⟩ := exists_toDigits n
  rw [hdigits, List.cons_append, sign_of_isDigit hc]

theorem float_toDigits : Number.float (Nat.toDigits 10 n ++ '\n' :: rest) = none := by
  have hspecial : Number.special (Nat.toDigits 10 n ++ '\n' :: rest) = none := by
    rw [Number.special, sign_toDigits]
    obtain ⟨c, cs, hdigits, hc⟩ := exists_toDigits n
    have hi : 'i' ≠ c := (ne_of_class hc (by decide)).symm
    have hn : 'n' ≠ c := (ne_of_class hc (by decide)).symm
    simp [hdigits, expect, hi, hn]
  have hscaled : Number.scaled (Nat.toDigits 10 n ++ '\n' :: rest) = none := by
    simp [Number.scaled, sign_toDigits, integerPart_toDigits, Number.fraction, Number.exponent]
  rw [Number.float, hspecial, hscaled]
  rfl

/-- After a number of fixed width comes another digit or the end of the line. -/
theorem expect_of_fixedNumber {ds : List Char} (hds : ∀ c ∈ ds, c.isDigit = true)
    {width low high value : Nat} {left : List Char}
    (h : fixedNumber width low high (ds ++ '\n' :: rest) = some (value, left)) {c : Char}
    (hc : c.isDigit = false) (hnewline : c ≠ '\n') : expect [c] left = none := by
  rw [fixedNumber] at h
  split at h
  · next hfront =>
    dsimp only at h
    split at h
    · obtain ⟨-, rfl⟩ := Prod.mk.inj (Option.some.inj h)
      rw [Bool.and_eq_true, List.all_eq_true] at hfront
      have hwidth : width ≤ ds.length := by
        -- A longer front would take in the end of the line, which is no digit.
        by_contra hlong
        have hmem : '\n' ∈ (ds ++ '\n' :: rest).take width := by
          obtain ⟨k, hk⟩ : ∃ k, width = ds.length + (k + 1) := ⟨width - ds.length - 1, by omega⟩
          rw [hk, List.take_length_add_append]
          simp
        have hdigit := hfront.2 _ hmem
        revert hdigit
        decide
      rw [List.drop_append_of_le_length hwidth]
      rcases hdrop : ds.drop width with _ | ⟨d, more⟩
      · simp [expect, hnewline]
      · have hd : c ≠ d := by
          have hmem : d ∈ ds := List.mem_of_mem_drop (hdrop ▸ List.mem_cons_self)
          exact (ne_of_class (hds d hmem) hc).symm
        simp [expect, hd]
    · cases h
  · cases h

theorem dateTime_toDigits : DateTime.read (Nat.toDigits 10 n ++ '\n' :: rest) = none := by
  have hds := fun c => isDigit_of_mem n (c := c)
  have hdate : DateTime.date (Nat.toDigits 10 n ++ '\n' :: rest) = none := by
    rw [DateTime.date]
    rcases hyear : fixedNumber 4 0 9999 (Nat.toDigits 10 n ++ '\n' :: rest) with _ | ⟨year, left⟩
    · rfl
    · simp [expect_of_fixedNumber rest hds hyear (c := '-') (by decide) (by decide)]
  have htime : DateTime.time (Nat.toDigits 10 n ++ '\n' :: rest) = none := by
    rw [DateTime.time]
    rcases hhour : fixedNumber 2 0 23 (Nat.toDigits 10 n ++ '\n' :: rest) with _ | ⟨hour, left⟩
    · rfl
    · simp [expect_of_fixedNumber rest hds hhour (c := ':') (by decide) (by decide)]
  simp [DateTime.read, hdate, htime]

theorem integer_toDigits (hn : n < 2 ^ 63) :
    Number.integer (Nat.toDigits 10 n ++ '\n' :: rest) = some (.integer n, '\n' :: rest) := by
  have hrange : Number.inRange n = true := by
    simp only [Number.inRange, Bool.and_eq_true, decide_eq_true_eq]
    omega
  -- The letters of the other bases come second, where there is a digit or the end of the line.
  have hplain : ∀ (letter : Char) (more : List Char), letter.isDigit = false → letter ≠ '\n' →
      Nat.toDigits 10 n ++ '\n' :: rest ≠ '0' :: letter :: more := by
    intro letter more hletter hnewline heq
    rcases hdigits : Nat.toDigits 10 n with _ | ⟨c, _ | ⟨d, ds⟩⟩
    · exact Nat.toDigits_ne_nil hdigits
    · rw [hdigits] at heq
      exact hnewline (List.cons.inj (List.cons.inj heq).2).1.symm
    · have hd : d.isDigit = true := isDigit_of_mem n (by simp [hdigits])
      rw [hdigits] at heq
      exact ne_of_class hd hletter (List.cons.inj (List.cons.inj heq).2).1
  unfold Number.integer
  split
  · next heq => exact absurd heq (hplain 'x' _ (by decide) (by decide))
  · next heq => exact absurd heq (hplain 'o' _ (by decide) (by decide))
  · next heq => exact absurd heq (hplain 'b' _ (by decide) (by decide))
  · simp [sign_toDigits, integerPart_toDigits, numberOf_toDigits, Number.checked, hrange]

end Number

/-! ## Values -/

/-- At the end of a line, the characters are read as the item. -/
structure Reads (chars : List Char) (item : Item) : Prop where
  head : ∃ c cs, chars = c :: cs ∧ isBlank c = false
  read : ∀ rest, Value.read Value.maxDepth (chars ++ '\n' :: rest) = some (item, '\n' :: rest)

theorem read_eq_simple {c : Char} (harray : c ≠ '[') (htable : c ≠ '\x7b') (rest : List Char)
    (allowance : Nat) : Value.read allowance (c :: rest) = Value.simple (c :: rest) := by
  cases allowance with
  | zero =>
    unfold Value.read
    split
    · next heq => exact absurd (List.cons.inj heq).1 harray
    · next heq => exact absurd (List.cons.inj heq).1 htable
    · rfl
  | succ allowance =>
    unfold Value.read
    split
    · next heq => exact absurd (List.cons.inj heq).1 harray
    · next heq => exact absurd (List.cons.inj heq).1 htable
    · rfl

theorem simple_of_isDigit {c : Char} (hc : c.isDigit = true) (rest : List Char) :
    Value.simple (c :: rest)
      = (DateTime.read (c :: rest) <|> Number.float (c :: rest) <|> Number.integer (c :: rest)) := by
  have hne : ∀ d : Char, d.isDigit = false → c ≠ d := fun d hd => ne_of_class hc hd
  simp [Value.simple, hne '"' rfl, hne '\'' rfl, hne 't' rfl, hne 'f' rfl, hne 'i' rfl, hne 'n' rfl, hc]

theorem reads_count {n : Nat} (hn : n < 2 ^ 63) : Reads (toString n).toList (.integer n) := by
  obtain ⟨c, cs, hdigits, hc⟩ := exists_toDigits n
  have htext : (toString n).toList = c :: cs := by
    rw [Nat.toString_eq_ofList_toDigits, String.toList_ofList, hdigits]
  refine ⟨⟨c, cs, htext, ?_⟩, fun rest => ?_⟩
  · have hspace : c ≠ ' ' := ne_of_class hc rfl
    have htab : c ≠ '\t' := ne_of_class hc rfl
    simp [isBlank, hspace, htab]
  · have hdate := dateTime_toDigits n rest
    have hfloat := float_toDigits n rest
    have hinteger := integer_toDigits n rest hn
    rw [hdigits, List.cons_append] at hdate hfloat hinteger
    rw [htext, List.cons_append, read_eq_simple (ne_of_class hc rfl) (ne_of_class hc rfl),
      simple_of_isDigit hc, hdate, hfloat, hinteger]
    rfl

theorem reads_true : Reads "true".toList (.boolean true) := by
  refine ⟨⟨'t', ['r', 'u', 'e'], rfl, rfl⟩, fun rest => ?_⟩
  rw [show "true".toList = ['t', 'r', 'u', 'e'] from rfl, List.cons_append,
    read_eq_simple (by decide) (by decide)]
  rfl

theorem reads_false : Reads "false".toList (.boolean false) := by
  refine ⟨⟨'f', ['a', 'l', 's', 'e'], rfl, rfl⟩, fun rest => ?_⟩
  rw [show "false".toList = ['f', 'a', 'l', 's', 'e'] from rfl, List.cons_append,
    read_eq_simple (by decide) (by decide)]
  rfl

/-! ## Names -/

theorem isPrintable_of_isBare {c : Char} (h : Key.isBare c = true) : isPrintable c = true := by
  have hspace : ' ' ≤ c := by
    rw [Char.le_def, UInt32.le_iff_toNat_le]
    simp only [Key.isBare, Char.isAlphanum, Char.isAlpha, Char.isUpper, Char.isLower, Char.isDigit,
      Bool.or_eq_true, Bool.and_eq_true, decide_eq_true_eq, beq_iff_eq, ge_iff_le,
      UInt32.le_iff_toNat_le] at h
    rcases h with (h | rfl) | rfl
    · have hvalues : ' '.val.toNat = 32 ∧ 'A'.val.toNat = 65 ∧ 'a'.val.toNat = 97 ∧
          '0'.val.toNat = 48 := by decide
      omega
    · decide
    · decide
  have hdelete : c ≠ '\x7f' := ne_of_class h rfl
  simp [isPrintable, hspace, hdelete]

theorem basicBody_of_isBare {cs rest : List Char} (hcs : ∀ c ∈ cs, Key.isBare c = true) {fuel : Nat}
    (hfuel : cs.length < fuel) : Text.basicBody fuel (cs ++ '"' :: rest) = some (cs, rest) := by
  induction cs generalizing fuel with
  | nil =>
    obtain ⟨fuel, rfl⟩ := Nat.exists_eq_succ_of_ne_zero (Nat.ne_zero_of_lt hfuel)
    rfl
  | cons c tail ih =>
    obtain ⟨fuel, rfl⟩ := Nat.exists_eq_succ_of_ne_zero (Nat.ne_zero_of_lt hfuel)
    have hc := hcs c List.mem_cons_self
    have htail := ih (fun d hd => hcs d (List.mem_cons_of_mem c hd)) (Nat.lt_of_succ_lt_succ hfuel)
    rw [List.cons_append, Text.basicBody]
    · simp [isPrintable_of_isBare hc, htail]
    · exact ne_of_class hc rfl
    · exact ne_of_class hc rfl

theorem reads_quoted {name : String} (hname : ∀ c ∈ name.toList, Key.isBare c = true) :
    Reads ("\"" ++ name ++ "\"").toList (.text name) := by
  have htext : ("\"" ++ name ++ "\"").toList = '"' :: (name.toList ++ ['"']) := by
    simp
  refine ⟨⟨'"', _, htext, rfl⟩, fun rest => ?_⟩
  -- An empty name makes two quotes, and the third that a long text needs is missing.
  have hlong : ∀ more, '"' :: (name.toList ++ '"' :: '\n' :: rest) ≠ '"' :: '"' :: '"' :: more := by
    intro more heq
    rcases hchars : name.toList with _ | ⟨c, cs⟩
    · rw [hchars] at heq
      cases heq
    · have hc : Key.isBare c = true := hname c (hchars ▸ List.mem_cons_self)
      rw [hchars] at heq
      exact ne_of_class hc rfl (List.cons.inj (List.cons.inj heq).2).1
  have hbody : Text.basicBody ((name.toList ++ '"' :: '\n' :: rest).length + 1)
      (name.toList ++ '"' :: '\n' :: rest) = some (name.toList, '\n' :: rest) := by
    apply basicBody_of_isBare hname
    rw [List.length_append]
    omega
  have hread : Text.read ('"' :: (name.toList ++ '"' :: '\n' :: rest))
      = some (name, '\n' :: rest) := by
    unfold Text.read
    split
    · next heq => exact absurd heq (hlong _)
    · next heq => exact absurd (List.cons.inj heq).1 (by decide)
    · rw [Text.short, hbody, Option.map_some]
      simp only [String.ofList_toList]
  rw [htext, List.cons_append, List.append_assoc, List.singleton_append,
    read_eq_simple (by decide) (by decide)]
  simp [Value.simple, hread]

end Sidecar.Toml
