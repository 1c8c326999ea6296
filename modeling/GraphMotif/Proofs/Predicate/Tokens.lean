import GraphMotif.Proofs.Predicate.Rendering

/-!
# The tokens of a predicate's text

A predicate shows its tokens one after the other, so two predicates of the same tokens have the same
text. The converse is that a text shows one list of tokens only. A text is taken apart from the
left: what is awaited tells keywords from names, but for a name that is spelled as a keyword. After
such a name comes a connective, and after the keyword an operand, and no text shows both.
-/

namespace GraphMotif.Predicate

/-! ## Tokens -/

/-- The constants whose texts are those of columns of these names. -/
def namedConstants : List (String × Value) :=
  [("NULL", .null), ("TRUE", .bool true), ("FALSE", .bool false), ("inf", .float (.infinity false))]

/-- The constant that has the text of a column. -/
def constantNamed? (name : String) : Option Value :=
  (namedConstants.find? (·.1 == name)).map (·.2)

theorem mem_of_constantNamed? {name : String} {v : Value} (h : constantNamed? name = some v) :
    (name, v) ∈ namedConstants := by
  obtain ⟨⟨name', v'⟩, hfind, rfl⟩ := Option.map_eq_some_iff.1 h
  obtain rfl : name' = name := by simpa using List.find?_some hfind
  exact List.mem_of_find?_eq_some hfind

/-- The token that a column is shown as: a constant, if that has the text of the column. -/
def Token.ofColumn (name : String) : Token :=
  match constantNamed? name with
  | some v => .ofConstant v
  | none => .column name

/-- The text of a token. -/
def Token.text : Token → List Char
  | openParen => ['(']
  | closeParen => [')']
  | comparison op => ' ' :: (op.sign.toList ++ [' '])
  | or => [' ', 'O', 'R', ' ']
  | and => [' ', 'A', 'N', 'D', ' ']
  | not => ['N', 'O', 'T', ' ']
  | is => [' ', 'I', 'S', ' ']
  | null => ['N', 'U', 'L', 'L']
  | column name => (columnText name).toList
  | constant v => (constantText v).toList

/-- The tokens of a predicate, as its text shows them. -/
def tokens : Predicate → List Token
  | column name => [.ofColumn name]
  | constant v => [.ofConstant v]
  | compare op left right => left.tokens ++ .comparison op :: right.tokens
  | conj left right => .openParen :: (left.tokens ++ .and :: (right.tokens ++ [.closeParen]))
  | disj left right => .openParen :: (left.tokens ++ .or :: (right.tokens ++ [.closeParen]))
  | neg operand => .not :: operand.tokens
  | isNull operand negated =>
    operand.tokens ++ .is :: (if negated then [.not, .null] else [.null])

variable {a b : Awaited} {t t' : Token} {ts ts' : List Token} {cs cs' rest rest' : List Char}
  {name : String} {v : Value} {p : Predicate}

theorem text_ofConstant (v : Value) : (Token.ofConstant v).text = (constantText v).toList := by
  cases v <;> rfl

theorem text_ofColumn (name : String) : (Token.ofColumn name).text = (columnText name).toList := by
  have hnamed : ∀ named ∈ namedConstants, constantText named.2 = columnText named.1 := by decide
  rw [Token.ofColumn]
  split
  · next v hv => rw [text_ofConstant, hnamed _ (mem_of_constantNamed? hv)]
  · rfl

/-- The text of a predicate is that of its tokens. -/
theorem toList_toText (p : Predicate) : p.toText.toList = p.tokens.flatMap Token.text := by
  induction p with
  | column name => simp [toText, tokens, text_ofColumn]
  | constant v => simp [toText, tokens, text_ofConstant]
  | compare op left right ihl ihr => simp [toText, tokens, Token.text, ihl, ihr]
  | conj left right ihl ihr | disj left right ihl ihr =>
    simp [toText, tokens, Token.text, ihl, ihr]
  | neg operand ih => simp [toText, tokens, Token.text, ih]
  | isNull operand negated ih => cases negated <;> simp [toText, tokens, Token.text, ih]

/-! ## Texts of operands -/

/-- The characters of the texts of names and numbers. -/
def isWordPart (c : Char) : Bool := isIdentifierPart c || ['.', '+', '-'].contains c

/-- The token that a number is the text of. -/
def Token.ofNumber (cs : List Char) : Token :=
  match readInteger? cs with
  | some n => .constant (.int n)
  | none => .constant (((Binary64.read? cs).map .float).getD .null)

/-- The token that a word is the text of: a constant by its name, a column or a number. -/
def Token.ofWord (cs : List Char) : Token :=
  match constantNamed? (String.ofList cs) with
  | some v => .ofConstant v
  | none => if isIdentifier cs then .column (String.ofList cs) else .ofNumber cs

/-- An operand of one token is shown as a word, as a name between back quotes, or as a string. -/
inductive ShownAs : Token → List Char → Prop
  | word {cs : List Char} (hne : cs ≠ []) (hword : ∀ c ∈ cs, isWordPart c = true) :
    ShownAs (.ofWord cs) cs
  | quoted {cs : List Char} (hname : '\x60' ∉ cs) :
    ShownAs (.column (String.ofList cs)) ('\x60' :: (cs ++ ['\x60']))
  | string (cs : List Char) :
    ShownAs (.constant (.text (String.ofList cs))) ('\x27' :: (escapeString cs ++ ['\x27']))

/-- Whether a text is at its end or goes on behind a token. -/
def Stops (cs : List Char) : Prop := ∀ c ∈ cs.head?, IsStop c

theorem exists_cons_of_head?_any {P : Char → Bool} (h : cs.head?.any P = true) :
    ∃ c ds, cs = c :: ds ∧ P c = true := by
  cases cs with
  | nil => cases h
  | cons c ds => exact ⟨c, ds, rfl, h⟩

theorem escapeString_cons (c : Char) (cs : List Char) :
    escapeString (c :: cs) =
      (if c = '\\' ∨ c = '\x27' then ['\\', c] else [c]) ++ escapeString cs :=
  List.flatMap_cons

/-- A string ends at its closing quote. -/
theorem escapeString_append_inj
    (h : escapeString cs ++ '\x27' :: rest = escapeString cs' ++ '\x27' :: rest') :
    cs = cs' ∧ rest = rest' := by
  -- a character of the string is not read as the closing quote
  have hquote {c : Char} {cs rest rest' : List Char} :
      escapeString (c :: cs) ++ rest ≠ '\x27' :: rest' := by
    rw [escapeString_cons]
    split
    · exact fun heq => absurd (List.cons.inj heq).1 (by decide)
    · next hplain => exact fun heq => hplain (.inr (List.cons.inj heq).1)
  induction cs generalizing cs' with
  | nil =>
    cases cs' with
    | nil => exact ⟨rfl, (List.cons.inj h).2⟩
    | cons c cs' => exact absurd h.symm hquote
  | cons c cs ih =>
    cases cs' with
    | nil => exact absurd h hquote
    | cons c' cs' =>
      rw [escapeString_cons, escapeString_cons] at h
      obtain ⟨rfl, htail⟩ : c = c' ∧
          escapeString cs ++ '\x27' :: rest = escapeString cs' ++ '\x27' :: rest' := by
        split at h
        · split at h
          · exact List.cons.inj (List.cons.inj h).2
          · next hplain => exact absurd (List.cons.inj h).1.symm fun heq => hplain (.inl heq)
        · next hplain =>
          split at h
          · exact absurd (List.cons.inj h).1 fun heq => hplain (.inl heq)
          · exact List.cons.inj h
      obtain ⟨rfl, hrest⟩ := ih htail
      exact ⟨rfl, hrest⟩

theorem isWordPart_of_isStop {c : Char} (h : IsStop c) : isWordPart c = false := by
  rcases h with rfl | rfl <;> rfl

theorem takeWhile_word (hword : ∀ c ∈ cs, isWordPart c = true) (hrest : Stops rest) :
    (cs ++ rest).takeWhile isWordPart = cs := by
  rw [List.takeWhile_append_of_pos hword]
  cases rest with
  | nil => exact List.append_nil cs
  | cons c rest =>
    have hc := Bool.eq_false_iff.1 (isWordPart_of_isStop (hrest c rfl))
    rw [List.takeWhile_cons_of_neg hc, List.append_nil]

theorem takeWhile_quoted (hname : '\x60' ∉ cs) (rest : List Char) :
    (cs ++ '\x60' :: rest).takeWhile (· != '\x60') = cs := by
  have hcs : ∀ c ∈ cs, (c != '\x60') = true := fun c hc => bne_iff_ne.2 fun heq => hname (heq ▸ hc)
  rw [List.takeWhile_append_of_pos hcs, List.takeWhile_cons_of_neg (by decide), List.append_nil]

/-- A word starts with none of the two quotes. -/
theorem word_ne_quote {quote : Char} (hne : cs ≠ []) (hword : ∀ c ∈ cs, isWordPart c = true)
    (hquote : isWordPart quote = false) : cs ++ rest ≠ quote :: rest' := by
  obtain ⟨c, cs, rfl⟩ := List.exists_cons_of_ne_nil hne
  intro heq
  rw [← (List.cons.inj heq).1, hword c List.mem_cons_self] at hquote
  cases hquote

/-- Where the text of an operand ends, and which operand it is, can be seen from the text. -/
theorem ShownAs.append_inj (h : ShownAs t cs) (h' : ShownAs t' cs') (hrest : Stops rest)
    (hrest' : Stops rest') (heq : cs ++ rest = cs' ++ rest') : t = t' ∧ rest = rest' := by
  cases h with
  | word hne hword =>
    cases h' with
    | word hne' hword' =>
      have hcs := congrArg (List.takeWhile isWordPart) heq
      rw [takeWhile_word hword hrest, takeWhile_word hword' hrest'] at hcs
      subst hcs
      exact ⟨rfl, List.append_cancel_left heq⟩
    | quoted => exact absurd heq (word_ne_quote hne hword rfl)
    | string => exact absurd heq (word_ne_quote hne hword rfl)
  | @quoted cs hname =>
    cases h' with
    | word hne' hword' => exact absurd heq.symm (word_ne_quote hne' hword' rfl)
    | @quoted cs' hname' =>
      have htail : cs ++ ['\x60'] ++ rest = cs' ++ ['\x60'] ++ rest' := (List.cons.inj heq).2
      rw [List.append_assoc, List.append_assoc, List.singleton_append, List.singleton_append]
        at htail
      have hcs := congrArg (List.takeWhile (· != '\x60')) htail
      rw [takeWhile_quoted hname, takeWhile_quoted hname'] at hcs
      subst hcs
      exact ⟨rfl, (List.cons.inj (List.append_cancel_left htail)).2⟩
    | string => exact absurd (List.cons.inj heq).1 (by decide)
  | string cs =>
    cases h' with
    | word hne' hword' => exact absurd heq.symm (word_ne_quote hne' hword' rfl)
    | quoted => exact absurd (List.cons.inj heq).1 (by decide)
    | string cs' =>
      have htail : escapeString cs ++ ['\x27'] ++ rest = escapeString cs' ++ ['\x27'] ++ rest' :=
        (List.cons.inj heq).2
      rw [List.append_assoc, List.append_assoc] at htail
      obtain ⟨rfl, hrest⟩ := escapeString_append_inj htail
      exact ⟨rfl, hrest⟩

/-! ## Names and constants as texts -/

/-- A constant that has a name is no number. -/
theorem constantNamed?_eq_none {c : Char} (hc : isIdentifierStart c = false) (cs : List Char) :
    constantNamed? (String.ofList (c :: cs)) = none := by
  have hletters : ∀ named ∈ namedConstants,
      named.1.toList.head?.any isIdentifierStart = true := by decide
  cases hname : constantNamed? (String.ofList (c :: cs)) with
  | none => rfl
  | some v =>
    have hletter := hletters _ (mem_of_constantNamed? hname)
    rw [String.toList_ofList] at hletter
    exact absurd hletter (Bool.eq_false_iff.1 hc)

/-- A word that does not start as a name is a number. -/
theorem shownAs_number {c : Char} (hc : isIdentifierStart c = false)
    (hword : ∀ d ∈ c :: cs, isWordPart d = true) :
    ShownAs (Token.ofNumber (c :: cs)) (c :: cs) := by
  have hidentifier : isIdentifier (c :: cs) = false := by
    rw [isIdentifier, hc, Bool.false_and]
  have htoken : Token.ofWord (c :: cs) = Token.ofNumber (c :: cs) := by
    simp only [Token.ofWord, constantNamed?_eq_none hc, hidentifier, Bool.false_eq_true, if_false]
  exact htoken ▸ .word (List.cons_ne_nil c cs) hword

theorem isWordPart_of_isIdentifierPart {c : Char} (h : isIdentifierPart c = true) :
    isWordPart c = true := by
  rw [isWordPart, h, Bool.true_or]

/-- Digits, after a sign or not and perhaps with more of a word behind them, are a number. -/
theorem shownAs_signed (negative : Bool) {whole : List Char} (hwhole : Digits whole)
    (hrest : ∀ c ∈ rest, isWordPart c = true) :
    ShownAs (Token.ofNumber (signed negative (whole ++ rest)))
      (signed negative (whole ++ rest)) := by
  have hdigits : ∀ c ∈ whole, isWordPart c = true := fun c hc =>
    isWordPart_of_isIdentifierPart (isIdentifierPart_of_isDigit (hwhole.digit c hc))
  have hword := List.forall_mem_append.2 ⟨hdigits, hrest⟩
  obtain ⟨d, ds, rfl⟩ := List.exists_cons_of_ne_nil hwhole.ne_nil
  have hd := hwhole.digit d List.mem_cons_self
  obtain ⟨-, -, -, hdigit⟩ := isIdentifierPart_spec d (isIdentifierPart_of_isDigit hd)
  cases negative with
  | true => exact shownAs_number rfl (List.forall_mem_cons.2 ⟨rfl, hword⟩)
  | false => exact shownAs_number (hdigit hd).1 hword

/-- The digits of an integer are shown as that integer. -/
theorem shownAs_int (negative : Bool) (n : Nat) :
    ShownAs (.constant (.int (if negative then -(n : Int) else n)))
      (signed negative (Nat.toDigits 10 n)) := by
  have hshown := shownAs_signed negative (Digits.toDigits n)
    (List.forall_mem_nil (isWordPart · = true))
  have hvalue : Token.ofNumber (signed negative (Nat.toDigits 10 n)) =
      .constant (.int (if negative then -(n : Int) else n)) := by
    rw [Token.ofNumber, readInteger?_signed]
  rw [List.append_nil] at hshown
  exact hvalue ▸ hshown

/-- The text of a finite number is shown as that number. -/
theorem shownAs_finite (negative : Bool) {units : Nat} (hunits : Representable units) :
    ShownAs (.constant (.float (.finite negative units hunits)))
      (Binary64.toText (.finite negative units hunits)).toList := by
  obtain ⟨n, k, hwrites, -⟩ := Binary64.magnitudeText_writes hunits
  obtain ⟨whole, rest, htext, hwhole⟩ := hwrites.exists_digits
  have hmarks : ∀ c ∈ ['.', 'e', '+', '-'], isWordPart c = true := List.all_eq_true.1 (by decide)
  have hrest : ∀ c ∈ rest, isWordPart c = true := fun c hc =>
    (hwrites.forall_mem c (htext ▸ List.mem_append_right whole hc)).elim
      (fun hdigit => isWordPart_of_isIdentifierPart (isIdentifierPart_of_isDigit hdigit))
      (hmarks c)
  have hread := Binary64.read?_toText (.finite negative units hunits)
  rw [Binary64.toList_toText_finite] at hread ⊢
  have hvalue : Token.ofNumber (signed negative (Binary64.magnitudeText units)) =
      .constant (.float (.finite negative units hunits)) := by
    rw [Token.ofNumber, hwrites.readInteger?, hread]
    rfl
  exact hvalue ▸ htext ▸ shownAs_signed negative hwhole hrest

/-- A word that is given. -/
theorem shownAs_letters (s : String) (hne : s.toList ≠ [])
    (hword : s.toList.all isWordPart = true) : ShownAs (Token.ofWord s.toList) s.toList :=
  .word hne (List.all_eq_true.1 hword)

theorem shownAs_constant (h : v.isNull = false) :
    ShownAs (.constant v) (constantText v).toList := by
  cases v with
  | null => cases h
  | bool b =>
    cases b with
    | true => exact shownAs_letters "TRUE" (by decide) (by decide)
    | false => exact shownAs_letters "FALSE" (by decide) (by decide)
  | int n =>
    cases n with
    | ofNat n => exact toList_constantText_ofNat n ▸ shownAs_int false n
    | negSucc n => exact toList_constantText_negSucc n ▸ shownAs_int true (n + 1)
  | float x =>
    cases x with
    | nan => cases h
    | infinity negative =>
      cases negative with
      | true => exact shownAs_letters "-inf" (by decide) (by decide)
      | false => exact shownAs_letters "inf" (by decide) (by decide)
    | finite negative units hunits => exact shownAs_finite negative hunits
  | text s =>
    have hshown := ShownAs.string s.toList
    rw [String.ofList_toList] at hshown
    rwa [constantText, String.toList_ofList]

theorem shownAs_column (hname : '\x60' ∉ name.toList) (hnamed : constantNamed? name = none) :
    ShownAs (.column name) (columnText name).toList := by
  rw [columnText]
  split
  · next hidentifier =>
    have htoken : Token.ofWord name.toList = .column name := by
      rw [Token.ofWord, String.ofList_toList, hnamed]
      exact if_pos hidentifier
    obtain ⟨hne, hparts⟩ := isIdentifierPart_of_isIdentifier hidentifier
    exact htoken ▸ .word hne fun c hc => isWordPart_of_isIdentifierPart (hparts c hc)
  · have hshown := ShownAs.quoted hname
    rw [String.ofList_toList] at hshown
    rwa [toList_quotedName]

/-! ## Taking texts apart -/

/-- Whether a token has a text of its own. A column that is shown as a constant is none that does,
and the null has a token for itself. -/
def Token.Shown : Token → Prop
  | column name => '\x60' ∉ name.toList ∧ constantNamed? name = none
  | constant v => v.isNull = false
  | _ => True

/-- What is awaited behind a token; nothing if the token cannot come next. -/
def Awaited.next? : Awaited → Token → Option Awaited
  | operand, .openParen | operand, .not => some .operand
  | operand, .null | operand, .column _ | operand, .constant _ => some .connective
  | connective, .comparison _ | connective, .or | connective, .and => some .operand
  | connective, .is => some .nullTest
  | connective, .closeParen => some .connective
  | nullTest, .not => some .null
  | nullTest, .null | null, .null => some .connective
  | _, _ => none

/-- The tokens that may come next, but for the operands of one token. -/
def Awaited.marks : Awaited → List Token
  | operand => [.openParen, .not]
  | comparand => []
  | connective =>
    [.closeParen, .or, .and, .is, .comparison .eq, .comparison .ne, .comparison .lt,
      .comparison .le, .comparison .gt, .comparison .ge]
  | nullTest => [.not, .null]
  | null => [.null]

/-- The tokens may go on a text, up to its end. -/
inductive Continues : Awaited → List Token → Prop
  | nil : Continues .connective []
  | cons {a b : Awaited} {t : Token} {ts : List Token} (hshown : t.Shown)
    (hnext : a.next? t = some b) (h : Continues b ts) : Continues a (t :: ts)

/-- What comes next is one of finitely many tokens, or an operand of one token. -/
theorem Token.Shown.mem_or (hshown : t.Shown) (hnext : a.next? t = some b) :
    t ∈ a.marks ∨ a = .operand ∧ b = .connective ∧ ShownAs t t.text := by
  cases a with
  | operand =>
    cases t with
    | openParen | not => exact .inl (by decide)
    | null =>
      have hshownAs := shownAs_letters "NULL" (by decide) (by decide)
      exact .inr ⟨rfl, (Option.some.inj hnext).symm, hshownAs⟩
    | column name =>
      exact .inr ⟨rfl, (Option.some.inj hnext).symm, shownAs_column hshown.1 hshown.2⟩
    | constant v => exact .inr ⟨rfl, (Option.some.inj hnext).symm, shownAs_constant hshown⟩
    | _ => cases hnext
  | comparand => cases t <;> cases hnext
  | connective =>
    cases t with
    | comparison op => cases op <;> exact .inl (by decide)
    | closeParen | or | and | is => exact .inl (by decide)
    | _ => cases hnext
  | nullTest =>
    cases t with
    | not | null => exact .inl (by decide)
    | _ => cases hnext
  | null =>
    cases t with
    | null => exact .inl (by decide)
    | _ => cases hnext

/-- None of the tokens that may come next starts another one, but for operands. -/
theorem Awaited.marks_apart (a : Awaited) :
    ∀ t ∈ a.marks, ∀ t' ∈ a.marks, t.text <+: t'.text → t = t' := by
  cases a <;> decide

theorem Awaited.marks_append_inj (ht : t ∈ a.marks) (ht' : t' ∈ a.marks)
    (heq : t.text ++ rest = t'.text ++ rest') : t = t' ∧ rest = rest' := by
  obtain rfl : t = t' := by
    rcases List.prefix_or_prefix_of_prefix (List.prefix_append t.text rest)
      (heq ▸ List.prefix_append t'.text rest') with h | h
    · exact a.marks_apart t ht t' ht' h
    · exact (a.marks_apart t' ht' t ht h).symm
  exact ⟨rfl, List.append_cancel_left heq⟩

/-- An operand is followed by the end of the text, a blank or a closing parenthesis. -/
theorem Continues.stops (h : Continues .connective ts) : Stops (ts.flatMap Token.text) := by
  have hmarks : ∀ t ∈ Awaited.connective.marks,
      t.text.head?.any (fun c => decide (IsStop c)) = true := by decide
  cases h with
  | nil => nofun
  | @cons _ _ t _ hshown hnext =>
    rcases hshown.mem_or hnext with hmark | ⟨hoperand, -⟩
    · obtain ⟨d, ds, htext, hstop⟩ := exists_cons_of_head?_any (hmarks t hmark)
      intro c hc
      rw [List.flatMap_cons, htext] at hc
      exact Option.some.inj hc ▸ of_decide_eq_true hstop
    · cases hoperand

/-- Whether the text of an operand of one token may start with a character. -/
def startsOperand (c : Char) : Bool := isWordPart c || ['\x60', '\x27'].contains c

theorem ShownAs.exists_cons (h : ShownAs t cs) : ∃ c ds, cs = c :: ds ∧ startsOperand c = true := by
  cases h with
  | word hne hword =>
    obtain ⟨c, cs, rfl⟩ := List.exists_cons_of_ne_nil hne
    refine ⟨c, cs, rfl, ?_⟩
    rw [startsOperand, hword c List.mem_cons_self, Bool.true_or]
  | quoted | string => exact ⟨_, _, rfl, rfl⟩

/-- Whether a character starts a token that is no operand, where no connective is awaited. -/
def startsMark (c : Char) : Bool := ['(', 'N'].contains c

theorem Awaited.head?_marks (ha : a ≠ .connective) :
    ∀ t ∈ a.marks, t.text.head?.any startsMark = true := by
  cases a with
  | connective => exact absurd rfl ha
  | _ => decide

/-- What a token is without its first and its last character. -/
def Token.core (t : Token) : List Char := t.text.tail.dropLast

/-- The words that stand between two blanks. -/
def spacedWords : List String := ["OR", "AND", "IS"]

/-- Between the blanks of a connective stands a sign or one of three words, and behind it something
else than a connective. -/
theorem text_connective : ∀ t ∈ Awaited.connective.marks, t = .closeParen ∨
    t.text = ' ' :: (t.core ++ [' ']) ∧ t.core.head?.any (!startsMark ·) = true ∧
      (t.core.head?.any startsOperand = true → t.core ∈ spacedWords.map String.toList) ∧
      Awaited.connective.next? t ≠ some .connective := by
  decide

theorem shownAs_spacedWord (h : cs ∈ spacedWords.map String.toList) :
    ShownAs (Token.ofWord cs) cs := by
  obtain ⟨s, hs, rfl⟩ := List.mem_map.1 h
  have hwords : ∀ s ∈ spacedWords, s.toList ≠ [] ∧ s.toList.all isWordPart = true := by decide
  exact shownAs_letters s (hwords s hs).1 (hwords s hs).2

/-- A blank before an operand is not one before a connective: the word of the connective would be
that operand, and the blank behind that word would be another such blank. -/
theorem Continues.text_ne_blank (h : Continues .connective ts) (h' : Continues b ts')
    (hb : b ≠ .connective) : ts.flatMap Token.text ≠ ' ' :: ts'.flatMap Token.text := by
  intro heq
  induction hsize : ts.length + ts'.length using Nat.strong_induction_on generalizing b ts ts' with
  | _ size ih =>
  cases h with
  | nil => cases heq
  | @cons _ c t us hshown hnext hus =>
    cases h' with
    | nil => exact hb rfl
    | @cons _ c' t' us' hshown' hnext' hus' =>
      rw [List.flatMap_cons, List.flatMap_cons] at heq
      have hmark : t ∈ Awaited.connective.marks :=
        (hshown.mem_or hnext).resolve_right fun ⟨hoperand, _⟩ => nomatch hoperand
      rcases text_connective t hmark with rfl | ⟨htext, hmark, hword, hother⟩
      · exact absurd (List.cons.inj heq).1 (by decide)
      obtain ⟨d, ds, hcore, hd⟩ := exists_cons_of_head?_any hmark
      rw [htext] at heq
      have htail : t.core ++ ([' '] ++ us.flatMap Token.text) =
          t'.text ++ us'.flatMap Token.text :=
        List.append_assoc .. ▸ (List.cons.inj heq).2
      -- the second token starts as the connective does behind its blank
      have hfirst {d' : Char} {ds' : List Char} (htext' : t'.text = d' :: ds') : d = d' := by
        rw [hcore, htext'] at htail
        exact (List.cons.inj htail).1
      rcases hshown'.mem_or hnext' with hmark' | ⟨-, rfl, hshownAs⟩
      · obtain ⟨d', ds', htext', hd'⟩ :=
          exists_cons_of_head?_any (Awaited.head?_marks hb t' hmark')
        rw [← hfirst htext'] at hd'
        rw [hd'] at hd
        cases hd
      · obtain ⟨d', ds', htext', hd'⟩ := hshownAs.exists_cons
        have hword := shownAs_spacedWord (hword (by rw [hcore, hfirst htext']; exact hd'))
        have hstops : Stops ([' '] ++ us.flatMap Token.text) := fun c hc =>
          .inr (Option.some.inj hc).symm
        have hrest := (hword.append_inj hshownAs hstops hus'.stops htail).2
        have hc : c ≠ .connective := fun hc => hother (hc ▸ hnext)
        have hsize' : us'.length + us.length < size := by
          rw [List.length_cons, List.length_cons] at hsize
          omega
        exact ih (us'.length + us.length) hsize' hus' hus hc hrest.symm rfl

/-! ## Texts determine their tokens -/

/-- Before an operand, none of the other tokens that may come next is mistaken for an operand. -/
theorem mark_ne_operand (ht : t ∈ Awaited.operand.marks) (hnext : Awaited.operand.next? t = some a)
    (hts : Continues a ts) (hshownAs : ShownAs t' t'.text) (hts' : Continues .connective ts') :
    t.text ++ ts.flatMap Token.text ≠ t'.text ++ ts'.flatMap Token.text := by
  intro heq
  obtain rfl | rfl : t = .openParen ∨ t = .not := by
    simpa [Awaited.marks] using ht
  · obtain ⟨d, ds, htext, hstart⟩ := hshownAs.exists_cons
    rw [htext] at heq
    rw [← (List.cons.inj heq).1] at hstart
    exact absurd hstart (by decide)
  · obtain rfl := Option.some.inj hnext
    -- the word NOT would be a name, and the blank behind it one before a connective
    have hword := shownAs_letters "NOT" (by decide) (by decide)
    have hstops : Stops (' ' :: ts.flatMap Token.text) := fun c hc =>
      .inr (Option.some.inj hc).symm
    have hrest := (hword.append_inj hshownAs hstops hts'.stops heq).2
    exact hts'.text_ne_blank hts nofun hrest.symm

/-- The first token of a text, and what follows it, can be seen from the text. -/
theorem text_append_inj (hshown : t.Shown) (hnext : a.next? t = some b) (hts : Continues b ts)
    {b' : Awaited} (hshown' : t'.Shown) (hnext' : a.next? t' = some b') (hts' : Continues b' ts')
    (heq : t.text ++ ts.flatMap Token.text = t'.text ++ ts'.flatMap Token.text) :
    t = t' ∧ ts.flatMap Token.text = ts'.flatMap Token.text := by
  rcases hshown.mem_or hnext with hmark | ⟨rfl, rfl, hshownAs⟩
  · rcases hshown'.mem_or hnext' with hmark' | ⟨rfl, rfl, hshownAs'⟩
    · exact Awaited.marks_append_inj hmark hmark' heq
    · exact absurd heq (mark_ne_operand hmark hnext hts hshownAs' hts')
  · rcases hshown'.mem_or hnext' with hmark' | ⟨-, rfl, hshownAs'⟩
    · exact absurd heq.symm (mark_ne_operand hmark' hnext' hts' hshownAs hts)
    · exact hshownAs.append_inj hshownAs' hts.stops hts'.stops heq

theorem Token.Shown.text_ne_nil (hshown : t.Shown) (hnext : a.next? t = some b) : t.text ≠ [] := by
  rcases hshown.mem_or hnext with hmark | ⟨-, -, hshownAs⟩
  · have hmarks : ∀ t ∈ a.marks, t.text ≠ [] := by cases a <;> decide
    exact hmarks t hmark
  · obtain ⟨c, ds, htext, -⟩ := hshownAs.exists_cons
    exact htext ▸ List.cons_ne_nil c ds

/-- Texts that go on at the same point show the same tokens if they are the same. -/
theorem Continues.tokens_eq (h : Continues a ts) (h' : Continues a ts')
    (heq : ts.flatMap Token.text = ts'.flatMap Token.text) : ts = ts' := by
  induction h generalizing ts' with
  | nil =>
    cases h' with
    | nil => rfl
    | cons hshown' hnext' =>
      exact absurd heq.symm
        (List.append_ne_nil_of_left_ne_nil (hshown'.text_ne_nil hnext') _)
  | @cons a b t ts hshown hnext hts ih =>
    cases h' with
    | nil => exact absurd heq (List.append_ne_nil_of_left_ne_nil (hshown.text_ne_nil hnext) _)
    | @cons _ b' t' ts' hshown' hnext' hts' =>
      rw [List.flatMap_cons, List.flatMap_cons] at heq
      obtain ⟨rfl, hrest⟩ := text_append_inj hshown hnext hts hshown' hnext' hts' heq
      obtain rfl : b = b' := Option.some.inj (hnext.symm.trans hnext')
      rw [ih hts' hrest]

/-- Whether the names and the constants of a predicate can be told from their texts, but for names
that are constants: no name goes on behind a back quote, and no constant is a second null. -/
def Showable : Predicate → Prop
  | column name => '\x60' ∉ name.toList
  | constant v => v ≠ .float .nan
  | compare _ left right | conj left right | disj left right => left.Showable ∧ right.Showable
  | neg operand | isNull operand _ => operand.Showable

/-- A constant is one token. -/
theorem continues_constant (hv : v ≠ .float .nan) (hts : Continues .connective ts) :
    Continues .operand (.ofConstant v :: ts) := by
  cases v with
  | null => exact .cons trivial rfl hts
  | float x =>
    cases x with
    | nan => exact absurd rfl hv
    | _ => exact .cons rfl rfl hts
  | _ => exact .cons rfl rfl hts

/-- The tokens of a predicate may go on as those of an operand. -/
theorem continues_tokens (h : p.Showable) (hts : Continues .connective ts) :
    Continues .operand (p.tokens ++ ts) := by
  induction p generalizing ts with
  | column name =>
    rw [tokens, Token.ofColumn]
    cases hnamed : constantNamed? name with
    | none => exact .cons ⟨h, hnamed⟩ rfl hts
    | some v =>
      have hnan : ∀ named ∈ namedConstants, named.2 ≠ .float .nan := by decide
      exact continues_constant (hnan _ (mem_of_constantNamed? hnamed)) hts
  | constant v => exact continues_constant h hts
  | compare op left right ihl ihr =>
    rw [tokens, List.append_assoc]
    exact ihl h.1 (.cons trivial rfl (ihr h.2 hts))
  | conj left right ihl ihr | disj left right ihl ihr =>
    have hright := ihr h.2 (.cons (t := .closeParen) trivial rfl hts)
    rw [tokens, List.cons_append, List.append_assoc, List.cons_append, List.append_assoc]
    exact .cons trivial rfl (ihl h.1 (.cons trivial rfl hright))
  | neg operand ih => exact .cons trivial rfl (ih h hts)
  | isNull operand negated ih =>
    rw [tokens, List.append_assoc]
    cases negated with
    | true =>
      exact ih h (.cons trivial rfl (.cons (t := .not) trivial rfl (.cons trivial rfl hts)))
    | false => exact ih h (.cons trivial rfl (.cons trivial rfl hts))

/-- Two predicates have the same text exactly if they have the same tokens. -/
theorem toText_eq_iff {q : Predicate} (hp : p.Showable) (hq : q.Showable) :
    p.toText = q.toText ↔ p.tokens = q.tokens := by
  have hcontinues {p : Predicate} (h : p.Showable) : Continues .operand p.tokens :=
    List.append_nil p.tokens ▸ continues_tokens h .nil
  constructor
  · intro heq
    refine (hcontinues hp).tokens_eq (hcontinues hq) ?_
    rw [← toList_toText, ← toList_toText, heq]
  · intro heq
    refine String.toList_injective ?_
    rw [toList_toText, toList_toText, heq]

end GraphMotif.Predicate
