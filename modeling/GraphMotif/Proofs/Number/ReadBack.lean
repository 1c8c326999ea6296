import GraphMotif.Proofs.Number.Shortest
import Mathlib.Data.List.TakeWhile

/-!
# Numbers are read back from their texts

A decimal numeral is digits, then a point with more digits or an exponent or both. The text of a
finite number is such a numeral, of the shortest digits of the number, perhaps with zeros around
them; so the number is read back from it.
-/

namespace GraphMotif

/-! ## Digits -/

theorem isDigit_of_mem_toDigits {n : Nat} : ∀ d ∈ Nat.toDigits 10 n, isDigit d = true :=
  fun _ h => Nat.isDigit_of_mem_toDigits (by decide) (by decide) h

theorem digitsValue_toDigits (n : Nat) : digitsValue (Nat.toDigits 10 n) = n :=
  Nat.ofDigitChars_toDigits (by decide) (by decide)

/-- Zeros at the end multiply by ten. -/
theorem digitsValue_append_zeros (cs : List Char) (n : Nat) :
    digitsValue (cs ++ List.replicate n '0') = digitsValue cs * 10 ^ n := by
  induction n with
  | zero => rw [List.replicate_zero, List.append_nil, Nat.pow_zero, Nat.mul_one]
  | succ n ih =>
    have hlast : digitsValue (cs ++ List.replicate n '0' ++ ['0']) =
        10 * digitsValue (cs ++ List.replicate n '0') := by
      rw [digitsValue, List.foldl_append]
      rfl
    rw [List.replicate_succ', ← List.append_assoc, hlast, ih, Nat.pow_succ]
    ring

/-- Zeros at the start do not count. -/
theorem digitsValue_zeros_append (cs : List Char) (n : Nat) :
    digitsValue (List.replicate n '0' ++ cs) = digitsValue cs := by
  have hzeros : (List.replicate n '0').foldl (fun n c => 10 * n + (c.toNat - '0'.toNat)) 0 = 0 := by
    have h := digitsValue_append_zeros [] n
    rwa [List.nil_append, digitsValue, digitsValue, List.foldl_nil, Nat.zero_mul] at h
  rw [digitsValue, List.foldl_append, hzeros, digitsValue]

/-! ## Numerals -/

/-- A text after a minus, if there is one. -/
def signed (negative : Bool) (cs : List Char) : List Char := if negative then '-' :: cs else cs

/-- One or more digits. -/
structure Digits (cs : List Char) : Prop where
  ne_nil : cs ≠ []
  digit : ∀ c ∈ cs, isDigit c = true

theorem Digits.toDigits (n : Nat) : Digits (Nat.toDigits 10 n) :=
  ⟨Nat.toDigits_ne_nil, isDigit_of_mem_toDigits⟩

theorem readSign_signed {whole : List Char} (negative : Bool) (h : Digits whole)
    (rest : List Char) :
    readSign (signed negative (whole ++ rest)) = (negative, whole ++ rest) := by
  cases negative with
  | true => rfl
  | false =>
    obtain ⟨d, ds, rfl⟩ := List.exists_cons_of_ne_nil h.ne_nil
    have hdigit := h.digit d List.mem_cons_self
    show readSign (d :: (ds ++ rest)) = _
    unfold readSign
    split
    · next heq =>
      rw [(List.cons.inj heq).1] at hdigit
      exact absurd hdigit (by decide)
    · next heq =>
      rw [(List.cons.inj heq).1] at hdigit
      exact absurd hdigit (by decide)
    · rfl

/-- An integer is read back from its digits. -/
theorem readInteger?_signed (negative : Bool) (n : Nat) :
    readInteger? (signed negative (Nat.toDigits 10 n)) =
      some (if negative then -(n : Int) else n) := by
  have hdigits := Digits.toDigits n
  have hsign := readSign_signed negative hdigits []
  rw [List.append_nil] at hsign
  rw [readInteger?, hsign]
  simp only [List.isEmpty_eq_false_iff.2 hdigits.ne_nil, List.all_eq_true.2 hdigits.digit,
    digitsValue_toDigits, Bool.not_true, Bool.or_false, Bool.false_eq_true, if_false]

namespace Decimal

/-- An exponent is written, or zero is not. -/
inductive WritesExponent : List Char → Int → Prop
  | none : WritesExponent [] 0
  | plus {power : List Char} (h : Digits power) :
    WritesExponent ('e' :: '+' :: power) (digitsValue power)
  | minus {power : List Char} (h : Digits power) :
    WritesExponent ('e' :: '-' :: power) (-digitsValue power)

/-- A numeral with a point or an exponent writes digits and their exponent. -/
inductive Writes : List Char → Nat → Int → Prop
  | point {whole fraction tail : List Char} {exponent : Int} (hwhole : Digits whole)
    (hfraction : Digits fraction) (htail : WritesExponent tail exponent) :
    Writes (whole ++ '.' :: (fraction ++ tail)) (digitsValue (whole ++ fraction))
      (exponent - fraction.length)
  | whole {whole tail : List Char} {exponent : Int} (hwhole : Digits whole) (hne : tail ≠ [])
    (htail : WritesExponent tail exponent) :
    Writes (whole ++ tail) (digitsValue whole) exponent

variable {cs whole tail : List Char} {n : Nat} {exponent : Int}

theorem WritesExponent.readExponent? (h : WritesExponent tail exponent) :
    readExponent? tail = some exponent := by
  have hpower {power : List Char} (h : Digits power) :
      (power.isEmpty || !power.all isDigit) = false := by
    rw [List.isEmpty_eq_false_iff.2 h.ne_nil, List.all_eq_true.2 h.digit]
    rfl
  cases h with
  | none => rfl
  | plus h =>
    show readInteger? ('+' :: _) = _
    rw [readInteger?]
    simp only [readSign, hpower h, Bool.false_eq_true, if_false]
  | minus h =>
    show readInteger? ('-' :: _) = _
    rw [readInteger?]
    simp only [readSign, hpower h, Bool.false_eq_true, if_false, if_true]

/-- Digits end before an exponent or a point. -/
theorem span_digits {rest : List Char} (hwhole : ∀ c ∈ whole, isDigit c = true)
    (hrest : ∀ c ∈ rest.head?, isDigit c = false) :
    (whole ++ rest).takeWhile isDigit = whole ∧ (whole ++ rest).dropWhile isDigit = rest := by
  rw [List.takeWhile_append_of_pos hwhole, List.dropWhile_append_of_pos hwhole]
  cases rest with
  | nil => exact ⟨List.append_nil _, rfl⟩
  | cons c rest =>
    have hc := Bool.eq_false_iff.1 (hrest c rfl)
    rw [List.takeWhile_cons_of_neg hc, List.dropWhile_cons_of_neg hc, List.append_nil]
    exact ⟨rfl, rfl⟩

theorem WritesExponent.head? (h : WritesExponent tail exponent) :
    ∀ c ∈ tail.head?, c = 'e' := by
  cases h with
  | none => nofun
  | plus | minus => exact fun c hc => (Option.some.inj hc).symm

theorem WritesExponent.head?_isDigit (h : WritesExponent tail exponent) :
    ∀ c ∈ tail.head?, isDigit c = false := by
  intro c hc
  rw [h.head? c hc]
  rfl

namespace Writes

/-- A numeral is read as the decimal that it writes. -/
theorem read? (negative : Bool) (h : Writes cs n exponent) :
    Decimal.read? (signed negative cs) = some ⟨negative, n, exponent⟩ := by
  cases h with
  | @point whole fraction tail exponent hwhole hfraction htail =>
    have hpoint : ∀ c ∈ ('.' :: (fraction ++ tail)).head?, isDigit c = false :=
      fun c hc => Option.some.inj hc ▸ rfl
    obtain ⟨htake, hdrop⟩ := span_digits hwhole.digit hpoint
    obtain ⟨htake', hdrop'⟩ := span_digits hfraction.digit htail.head?_isDigit
    simp only [Decimal.read?, readSign_signed negative hwhole, htake, hdrop, htake', hdrop',
      List.isEmpty_eq_false_iff.2 hwhole.ne_nil, htail.readExponent?, Bool.false_and,
      Bool.false_eq_true, if_false]
    rfl
  | @whole whole tail exponent hwhole hne htail =>
    obtain ⟨htake, hdrop⟩ := span_digits hwhole.digit htail.head?_isDigit
    obtain ⟨c, rest, rfl⟩ := List.exists_cons_of_ne_nil hne
    obtain rfl := htail.head? c rfl
    simp only [Decimal.read?, readSign_signed negative hwhole, htake, hdrop,
      List.isEmpty_eq_false_iff.2 hwhole.ne_nil, Bool.false_and, Bool.false_eq_true, if_false]
    show (readExponent? ('e' :: rest)).bind (fun exponent =>
      some (Decimal.mk negative (digitsValue (whole ++ [])) (exponent - (0 : Nat)))) = _
    rw [htail.readExponent?, List.append_nil]
    exact congrArg (fun exponent => some (Decimal.mk negative (digitsValue whole) exponent))
      (Int.sub_zero exponent)

/-- A numeral with a point or an exponent is no integer. -/
theorem readInteger? (negative : Bool) (h : Writes cs n exponent) :
    GraphMotif.readInteger? (signed negative cs) = none := by
  have hmarked {whole rest : List Char} {c : Char} (hwhole : Digits whole)
      (hc : isDigit c = false) :
      GraphMotif.readInteger? (signed negative (whole ++ c :: rest)) = none := by
    have hall : (whole ++ c :: rest).all isDigit = false := by
      rw [List.all_append, List.all_cons, hc, Bool.false_and, Bool.and_false]
    rw [GraphMotif.readInteger?, readSign_signed negative hwhole]
    simp only [hall, Bool.not_false, Bool.or_true, if_true]
  cases h with
  | point hwhole => exact hmarked hwhole rfl
  | whole hwhole hne htail =>
    obtain ⟨c, rest, rfl⟩ := List.exists_cons_of_ne_nil hne
    exact hmarked hwhole (htail.head?_isDigit c rfl)

theorem exists_digits (h : Writes cs n exponent) :
    ∃ whole rest, cs = whole ++ rest ∧ Digits whole := by
  cases h with
  | point hwhole | whole hwhole => exact ⟨_, _, rfl, hwhole⟩

/-- Of what a numeral is written. -/
theorem forall_mem (h : Writes cs n exponent) :
    ∀ c ∈ cs, isDigit c = true ∨ c ∈ ['.', 'e', '+', '-'] := by
  have hdigits {ds : List Char} (h : Digits ds) :
      ∀ c ∈ ds, isDigit c = true ∨ c ∈ ['.', 'e', '+', '-'] := fun c hc => .inl (h.digit c hc)
  have htail {tail : List Char} {exponent : Int} (h : WritesExponent tail exponent) :
      ∀ c ∈ tail, isDigit c = true ∨ c ∈ ['.', 'e', '+', '-'] := by
    cases h with
    | none => nofun
    | plus h | minus h =>
      exact List.forall_mem_cons.2 ⟨by decide, List.forall_mem_cons.2 ⟨by decide, hdigits h⟩⟩
  cases h with
  | point hwhole hfraction h =>
    exact List.forall_mem_append.2 ⟨hdigits hwhole, List.forall_mem_cons.2
      ⟨by decide, List.forall_mem_append.2 ⟨hdigits hfraction, htail h⟩⟩⟩
  | whole hwhole _ h => exact List.forall_mem_append.2 ⟨hdigits hwhole, htail h⟩

end Writes

end Decimal

/-! ## Texts of numbers -/

namespace Binary64

open Decimal (Writes WritesExponent)

theorem digits_zero : Digits ['0'] := ⟨nofun, List.forall_mem_singleton.2 rfl⟩

theorem digits_zeros_append {ds : List Char} (h : Digits ds) (n : Nat) :
    Digits (List.replicate n '0' ++ ds) :=
  ⟨List.append_ne_nil_of_right_ne_nil _ h.ne_nil, List.forall_mem_append.2
    ⟨fun _ hc => List.eq_of_mem_replicate hc ▸ rfl, h.digit⟩⟩

theorem digits_append_zeros {ds : List Char} (h : Digits ds) (n : Nat) :
    Digits (ds ++ List.replicate n '0') :=
  ⟨List.append_ne_nil_of_left_ne_nil h.ne_nil _, List.forall_mem_append.2
    ⟨h.digit, fun _ hc => List.eq_of_mem_replicate hc ▸ rfl⟩⟩

/-- Positional notation writes the digits, perhaps with zeros behind them. -/
theorem positional_writes {ds : List Char} (h : Digits ds) (exponent : Int) :
    ∃ n : Nat, Writes (positional ds exponent) (digitsValue ds * 10 ^ n)
      (exponent + 1 - ds.length - n) := by
  have hzero := digits_zero
  simp only [positional]
  split
  · next hneg =>
    refine ⟨0, ?_⟩
    convert Writes.point hzero (digits_zeros_append h (-exponent - 1).toNat) .none using 1
    · rw [List.append_nil]
      rfl
    · have hzeros : ['0'] ++ (List.replicate (-exponent - 1).toNat '0' ++ ds) =
          List.replicate ((-exponent - 1).toNat + 1) '0' ++ ds := rfl
      rw [hzeros, digitsValue_zeros_append, Nat.pow_zero, Nat.mul_one]
    · rw [List.length_append, List.length_replicate]
      omega
  · next hpos =>
    split
    · next hlength =>
      refine ⟨exponent.toNat + 1 - ds.length + 1, ?_⟩
      convert Writes.point (digits_append_zeros h (exponent.toNat + 1 - ds.length)) hzero .none
        using 1
      · rw [List.append_nil]
      · have hzeros : ['0'] = List.replicate 1 '0' := rfl
        rw [hzeros, digitsValue_append_zeros, digitsValue_append_zeros, Nat.pow_succ, Nat.mul_assoc]
      · rw [List.length_singleton]
        omega
    · next hlength =>
      have htake : Digits (ds.take (exponent.toNat + 1)) :=
        ⟨by simp [h.ne_nil], fun c hc => h.digit c (List.mem_of_mem_take hc)⟩
      have hdrop : Digits (ds.drop (exponent.toNat + 1)) :=
        ⟨by simpa using hlength, fun c hc => h.digit c (List.mem_of_mem_drop hc)⟩
      refine ⟨0, ?_⟩
      convert Writes.point htake hdrop .none using 1
      · rw [List.append_nil]
      · rw [List.take_append_drop, Nat.pow_zero, Nat.mul_one]
      · rw [List.length_drop]
        omega

/-- The exponent of scientific notation. -/
def exponentText (exponent : Int) : List Char :=
  'e' :: (if exponent < 0 then '-' else '+') ::
    (if (Nat.toDigits 10 exponent.natAbs).length < 2 then '0' :: Nat.toDigits 10 exponent.natAbs
      else Nat.toDigits 10 exponent.natAbs)

theorem exponentText_writes (exponent : Int) : WritesExponent (exponentText exponent) exponent := by
  rw [exponentText]
  generalize hpower : (if (Nat.toDigits 10 exponent.natAbs).length < 2 then
    '0' :: Nat.toDigits 10 exponent.natAbs else Nat.toDigits 10 exponent.natAbs) = power
  have hdigits : Digits power := by
    rw [← hpower]
    split
    · exact digits_zeros_append (Digits.toDigits _) 1
    · exact Digits.toDigits _
  have hvalue : digitsValue power = exponent.natAbs := by
    rw [← hpower]
    split
    · exact (digitsValue_zeros_append _ 1).trans (digitsValue_toDigits _)
    · exact digitsValue_toDigits _
  split
  · next hneg =>
    have hexponent : exponent = -(digitsValue power : Int) := by omega
    rw [hexponent]
    exact .minus hdigits
  · next hpos =>
    have hexponent : exponent = (digitsValue power : Int) := by omega
    rw [hexponent]
    exact .plus hdigits

/-- Scientific notation writes the digits. -/
theorem scientific_writes {ds : List Char} (h : Digits ds) (exponent : Int) :
    Writes (scientific ds exponent) (digitsValue ds) (exponent + 1 - ds.length) := by
  obtain ⟨d, ds, rfl⟩ := List.exists_cons_of_ne_nil h.ne_nil
  have hexponent := exponentText_writes exponent
  cases ds with
  | nil =>
    convert Writes.whole h (by simp [exponentText]) hexponent using 1
    · rfl
    · rw [List.length_singleton]
      omega
  | cons d' ds =>
    obtain ⟨hd, hds⟩ := List.forall_mem_cons.1 h.digit
    have hfirst : Digits [d] := ⟨nofun, List.forall_mem_singleton.2 hd⟩
    have hothers : Digits (d' :: ds) := ⟨nofun, hds⟩
    convert Writes.point hfirst hothers hexponent using 1
    · rfl
    · rfl
    · rw [List.length_cons]
      omega

/-- The exponent of a number in scientific notation. -/
def decimalExponent (units : Nat) : Int :=
  (shortest units).2 + (Nat.toDigits 10 (shortest units).1).length - 1

theorem magnitudeText_eq {units : Nat} (hpos : units ≠ 0) :
    magnitudeText units =
        positional (Nat.toDigits 10 (shortest units).1) (decimalExponent units) ∨
      magnitudeText units =
        scientific (Nat.toDigits 10 (shortest units).1) (decimalExponent units) := by
  rw [magnitudeText, if_neg hpos]
  exact ite_eq_or_eq ..

/-- The text of the magnitude of a number writes a decimal that rounds to it. -/
theorem magnitudeText_writes {units : Nat} (hunits : Representable units) :
    ∃ n k, Writes (magnitudeText units) n k ∧
      ∀ negative, (Decimal.mk negative n k).toBinary64 = .finite negative units hunits := by
  by_cases hpos : units = 0
  · subst hpos
    have hdigits := digits_zero
    refine ⟨_, _, .point hdigits hdigits .none, fun negative => ?_⟩
    cases negative <;> decide +revert +kernel
  · have hreads := shortest_readsBack hunits hpos
    have hdigits := Digits.toDigits (shortest units).1
    have hexponent : decimalExponent units + 1 - (Nat.toDigits 10 (shortest units).1).length =
        (shortest units).2 := by
      rw [decimalExponent]
      omega
    -- the shortest digits read back, and zeros behind them change nothing
    obtain ⟨n, hwrites⟩ : ∃ n : Nat, Writes (magnitudeText units)
        ((shortest units).1 * 10 ^ n) ((shortest units).2 - n) := by
      rcases magnitudeText_eq hpos with heq | heq
      · obtain ⟨n, hwrites⟩ := positional_writes hdigits (decimalExponent units)
        rw [digitsValue_toDigits, hexponent] at hwrites
        exact ⟨n, heq ▸ hwrites⟩
      · have hwrites := scientific_writes hdigits (decimalExponent units)
        rw [digitsValue_toDigits, hexponent] at hwrites
        refine ⟨0, ?_⟩
        rw [heq, Nat.pow_zero, Nat.mul_one, Int.natCast_zero, Int.sub_zero]
        exact hwrites
    refine ⟨_, _, hwrites, fun negative => toBinary64_of_readsBack hunits hpos ?_⟩
    refine ReadsBack.append_zeros ?_
    rwa [Int.sub_add_cancel]

theorem toList_toText_finite (negative : Bool) {units : Nat} (hunits : Representable units) :
    (toText (.finite negative units hunits)).toList = signed negative (magnitudeText units) :=
  String.toList_ofList

/-- Every number is read back from its text. -/
theorem read?_toText (x : Binary64) : read? x.toText.toList = some x := by
  cases x with
  | nan => decide
  | infinity negative => cases negative <;> decide
  | finite negative units hunits =>
    obtain ⟨n, k, hwrites, hround⟩ := magnitudeText_writes hunits
    have hread := hwrites.read? negative
    have hne {cs : List Char} (hcs : Decimal.read? cs = none) :
        signed negative (magnitudeText units) ≠ cs := by
      rintro rfl
      exact absurd (hcs.symm.trans hread) nofun
    rw [toList_toText_finite, read?, if_neg (hne (by decide)), if_neg (hne (by decide)),
      if_neg (hne (by decide)), hread]
    exact congrArg some (hround negative)

end Binary64

end GraphMotif
