import GraphMotif.Number.Decimal
import GraphMotif.Predicate

/-!
# Tokens of predicates

What may come next in a predicate decides how its text is read: a word is a keyword only where that
keyword could stand, and a column elsewhere. Keywords are read in any case, and a number or a
string is read as the value that it writes.
-/

namespace GraphMotif.Predicate

/-- A token of a predicate. -/
inductive Token where
  | openParen
  | closeParen
  | comparison (op : Comparison)
  | or
  | and
  | not
  | is
  | null
  | column (name : String)
  /-- Any constant but the null. -/
  | constant (v : Value)
  deriving DecidableEq

/-- What a reader awaits. -/
inductive Awaited where
  /-- An operand, or a negation. -/
  | operand
  /-- The right operand of a comparison. -/
  | comparand
  /-- Anything that can follow an operand. -/
  | connective
  /-- What follows IS. -/
  | nullTest
  /-- What follows IS NOT. -/
  | null
  deriving DecidableEq

/-- A letter in lower case. The dotted capital i, the dotless i and the long s count as an i and as
an s. -/
def foldCase (c : Char) : Char :=
  if 'A' ≤ c ∧ c ≤ 'Z' then Char.ofNat (c.toNat + 32)
  else if c.toNat = 0x130 ∨ c.toNat = 0x131 then 'i'
  else if c.toNat = 0x17f then 's'
  else c

/-- The rest of a text after a keyword given in lower case, which must not go on as a word. -/
def readKeyword? : List Char → List Char → Option (List Char)
  | [], [] => some []
  | [], c :: cs => if isIdentifierPart c then none else some (c :: cs)
  | _ :: _, [] => none
  | k :: ks, c :: cs => if foldCase c = k then readKeyword? ks cs else none

theorem length_le_of_readKeyword? {word cs rest : List Char} (h : readKeyword? word cs = some rest) :
    rest.length + word.length = cs.length := by
  induction word generalizing cs with
  | nil =>
    cases cs with
    | nil => simp_all [readKeyword?]
    | cons c cs =>
      simp only [readKeyword?] at h
      split at h <;> simp_all
  | cons k ks ih =>
    cases cs with
    | nil => simp [readKeyword?] at h
    | cons c cs =>
      simp only [readKeyword?] at h
      split at h
      · have := ih h
        simp only [List.length_cons]
        omega
      · simp at h

/-- The first keyword of a list that starts a text, with its token, and the rest. -/
def readKeywords? (cs : List Char) : List (String × Token) → Option (Token × List Char)
  | [] => none
  | (word, token) :: keywords =>
    match readKeyword? word.toList cs with
    | some rest => some (token, rest)
    | none => readKeywords? cs keywords

theorem length_lt_of_readKeywords? {cs rest : List Char} {token : Token}
    {keywords : List (String × Token)} (hwords : ∀ k ∈ keywords, k.1.toList ≠ [])
    (h : readKeywords? cs keywords = some (token, rest)) : rest.length < cs.length := by
  induction keywords with
  | nil => simp [readKeywords?] at h
  | cons keyword keywords ih =>
    obtain ⟨word, token'⟩ := keyword
    simp only [readKeywords?] at h
    split at h
    · next rest' hread =>
      obtain ⟨-, rfl⟩ := Prod.mk.inj (Option.some.inj h)
      have hlen := length_le_of_readKeyword? hread
      have hpos := List.length_pos_iff.2 (hwords (word, token') (by simp))
      simp only at hpos
      omega
    · exact ih (fun k hk => hwords k (List.mem_cons_of_mem _ hk)) h

/-- The keywords that can start an operand. -/
def constantKeywords : List (String × Token) :=
  [("null", .null), ("true", .constant (.bool true)), ("false", .constant (.bool false))]

/-- The keywords that are read where something is awaited. -/
def Awaited.keywords : Awaited → List (String × Token)
  | operand => ("not", .not) :: constantKeywords
  | comparand => constantKeywords
  | connective => [("or", .or), ("and", .and), ("is", .is)]
  | nullTest => [("not", .not), ("null", .null)]
  | null => [("null", .null)]

theorem Awaited.keywords_ne_nil (a : Awaited) : ∀ k ∈ a.keywords, k.1.toList ≠ [] := by
  cases a <;> decide

/-- A column between back quotes, the first of which has been read. -/
def readQuotedColumn? (cs : List Char) : Option (Token × List Char) :=
  let name := cs.takeWhile (· != '\x60')
  match cs.dropWhile (· != '\x60') with
  | [] => none
  | _ :: rest => if name.isEmpty then none else some (.column (String.ofList name), rest)

/-- The characters of a string up to its closing quote, and the rest. A backslash makes the next
character stand for itself; a line feed cannot be part of a string. -/
def readString? (quote : Char) : List Char → Option (List Char × List Char)
  | [] => none
  | [c] => if c = quote then some ([], []) else none
  | c :: d :: cs =>
    if c = quote then some ([], d :: cs)
    else if c = '\n' then none
    else if c = '\\' then
      if d = '\n' then none
      else (readString? quote cs).map fun (text, rest) => (d :: text, rest)
    else (readString? quote (d :: cs)).map fun (text, rest) => (c :: text, rest)

theorem length_lt_of_readString? {quote : Char} {cs text rest : List Char}
    (h : readString? quote cs = some (text, rest)) : rest.length < cs.length := by
  fun_induction readString? quote cs generalizing text with
  | case1 => simp at h
  | case2 => simp_all
  | case3 => simp at h
  | case4 =>
    obtain ⟨-, rfl⟩ := Prod.mk.inj (Option.some.inj h)
    simp
  | case5 => simp at h
  | case6 => simp at h
  | case7 =>
    rename_i ih
    obtain ⟨⟨text', rest'⟩, hread, heq⟩ := Option.map_eq_some_iff.1 h
    obtain ⟨-, rfl⟩ := Prod.mk.inj heq
    have := ih hread
    simp only [List.length_cons]
    omega
  | case8 =>
    rename_i ih
    obtain ⟨⟨text', rest'⟩, hread, heq⟩ := Option.map_eq_some_iff.1 h
    obtain ⟨-, rfl⟩ := Prod.mk.inj heq
    have := ih hread
    simp only [List.length_cons] at this ⊢
    omega

/-- The number of characters of an exponent at the start of a text, zero if there is none. -/
def exponentLength : List Char → Nat
  | [] => 0
  | c :: cs =>
    if c = 'e' ∨ c = 'E' then
      let (signed, digits) := match cs with
        | '-' :: cs => (1, cs)
        | '+' :: cs => (1, cs)
        | cs => (0, cs)
      let count := (digits.takeWhile isDigit).length
      if count = 0 then 0 else 1 + signed + count
    else 0

/-- The number of characters of an unsigned number at the start of a text, zero if there is none:
digits with an exponent, or with a point and perhaps an exponent, or digits alone. -/
def unsignedLength (cs : List Char) : Nat :=
  let whole := (cs.takeWhile isDigit).length
  let rest := cs.drop whole
  let exponent := exponentLength rest
  if 0 < whole ∧ 0 < exponent then whole + exponent
  else match rest with
    | '.' :: rest =>
      let fraction := (rest.takeWhile isDigit).length
      if whole = 0 ∧ fraction = 0 then 0
      else whole + 1 + fraction + exponentLength (rest.drop fraction)
    | _ => whole

/-- The number of characters of a number at the start of a text, zero if there is none. -/
def numberLength (cs : List Char) : Nat :=
  let signed := match cs with
    | '-' :: _ => 1
    | '+' :: _ => 1
    | _ => 0
  let unsigned := unsignedLength (cs.drop signed)
  if unsigned = 0 then 0 else signed + unsigned

/-- The longest integer constant, in digits. -/
def maxIntegerDigits : Nat := 4300

/-- The value that a number writes: an integer if it is only digits after its sign, which may be at
most 4300, and else the nearest binary64 number. -/
def numberValue? (cs : List Char) : Option Value :=
  match readInteger? cs with
  | some n => if (readSign cs).2.length ≤ maxIntegerDigits then some (.int n) else none
  | none => (Decimal.read? cs).map fun d => .float d.toBinary64

/-- A number, and the rest. -/
def readNumber? (cs : List Char) : Option (Token × List Char) :=
  let size := numberLength cs
  if size = 0 then none
  else (numberValue? (cs.take size)).map fun v => (.constant v, cs.drop size)

/-- An operand that is no keyword, or an opening parenthesis. -/
def readOperand? (cs : List Char) : Option (Token × List Char) :=
  match cs with
  | '(' :: rest => some (.openParen, rest)
  | '\x60' :: rest => readQuotedColumn? rest
  | '\x27' :: rest =>
    (readString? '\x27' rest).map fun (text, rest) => (.constant (.text (String.ofList text)), rest)
  | '\x22' :: rest =>
    (readString? '\x22' rest).map fun (text, rest) => (.constant (.text (String.ofList text)), rest)
  | cs =>
    match readIdentifier? cs with
    | some (name, rest) => some (.column (String.ofList name), rest)
    | none => readNumber? cs

/-- A comparison in one of its spellings, or a closing parenthesis. -/
def readSign? (cs : List Char) : Option (Token × List Char) :=
  match cs with
  | ')' :: rest => some (.closeParen, rest)
  | '<' :: '=' :: rest => some (.comparison .le, rest)
  | '>' :: '=' :: rest => some (.comparison .ge, rest)
  | '<' :: '>' :: rest => some (.comparison .ne, rest)
  | '!' :: '=' :: rest => some (.comparison .ne, rest)
  | '=' :: '=' :: rest => some (.comparison .eq, rest)
  | '=' :: rest => some (.comparison .eq, rest)
  | '<' :: rest => some (.comparison .lt, rest)
  | '>' :: rest => some (.comparison .gt, rest)
  | _ => none

/-- What is read where no keyword is. -/
def Awaited.readOther? (a : Awaited) (cs : List Char) : Option (Token × List Char) :=
  match a with
  | operand | comparand => readOperand? cs
  | connective => readSign? cs
  | nullTest | null => none

/-- The token at the start of a text, and the rest. -/
def Token.read? (a : Awaited) (cs : List Char) : Option (Token × List Char) :=
  match readKeywords? cs a.keywords with
  | some read => some read
  | none => a.readOther? cs

theorem length_lt_of_readQuotedColumn? {cs rest : List Char} {t : Token}
    (h : readQuotedColumn? cs = some (t, rest)) : rest.length < cs.length := by
  simp only [readQuotedColumn?] at h
  split at h
  · simp at h
  · next c rest' hdrop =>
    split at h
    · simp at h
    · obtain ⟨-, rfl⟩ := Prod.mk.inj (Option.some.inj h)
      have hlength := (List.dropWhile_sublist (· != '\x60') (l := cs)).length_le
      rwa [hdrop, List.length_cons] at hlength

theorem length_lt_of_readNumber? {cs rest : List Char} {t : Token}
    (h : readNumber? cs = some (t, rest)) : rest.length < cs.length := by
  simp only [readNumber?] at h
  split at h
  · simp at h
  · obtain ⟨v, -, heq⟩ := Option.map_eq_some_iff.1 h
    obtain ⟨-, rfl⟩ := Prod.mk.inj heq
    rw [List.length_drop]
    cases cs with
    | nil => simp [numberLength, unsignedLength] at *
    | cons c cs =>
      simp only [List.length_cons]
      omega

theorem length_lt_of_readOperand? {cs rest : List Char} {t : Token}
    (h : readOperand? cs = some (t, rest)) : rest.length < cs.length := by
  have htext {quote : Char} {cs : List Char}
      (h : (readString? quote cs).map (fun (text, rest) =>
        (Token.constant (.text (String.ofList text)), rest)) = some (t, rest)) :
      rest.length < cs.length := by
    obtain ⟨⟨text, rest'⟩, hread, heq⟩ := Option.map_eq_some_iff.1 h
    obtain ⟨-, rfl⟩ := Prod.mk.inj heq
    exact length_lt_of_readString? hread
  unfold readOperand? at h
  split at h
  · obtain ⟨-, rfl⟩ := Prod.mk.inj (Option.some.inj h)
    exact Nat.lt_succ_self _
  · exact Nat.lt_succ_of_lt (length_lt_of_readQuotedColumn? h)
  · exact Nat.lt_succ_of_lt (htext h)
  · exact Nat.lt_succ_of_lt (htext h)
  · split at h
    · next name rest' hread =>
      obtain ⟨-, rfl⟩ := Prod.mk.inj (Option.some.inj h)
      exact length_lt_of_readIdentifier? hread
    · exact length_lt_of_readNumber? h

theorem length_lt_of_readSign? {cs rest : List Char} {t : Token}
    (h : readSign? cs = some (t, rest)) : rest.length < cs.length := by
  unfold readSign? at h
  split at h
  all_goals first
    | (obtain ⟨-, rfl⟩ := Prod.mk.inj (Option.some.inj h); simp only [List.length_cons]; omega)
    | simp at h

theorem Token.length_lt_of_read? {a : Awaited} {cs rest : List Char} {t : Token}
    (h : Token.read? a cs = some (t, rest)) : rest.length < cs.length := by
  unfold Token.read? at h
  split at h
  · next read hread =>
    obtain rfl := Option.some.inj h
    exact length_lt_of_readKeywords? a.keywords_ne_nil hread
  · cases a
    · exact length_lt_of_readOperand? h
    · exact length_lt_of_readOperand? h
    · exact length_lt_of_readSign? h
    · simp [Awaited.readOther?] at h
    · simp [Awaited.readOther?] at h

end GraphMotif.Predicate
