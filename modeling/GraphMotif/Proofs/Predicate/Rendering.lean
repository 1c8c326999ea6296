import GraphMotif.Proofs.Number.ReadBack
import GraphMotif.Proofs.Predicate.Composition
import GraphMotif.Proofs.Predicate.Denotation

/-!
# Reading predicates back from their texts

The text of a predicate puts parentheses only around conjunctions and disjunctions. That is enough:
the text of a column, a constant, a conjunction or a disjunction is read as one operand, and the
text of any other predicate as one comparison or null test with the negations before it. So a text
is parsed to the predicate that it was written from, as long as its names and constants can be read
back and nothing else than such operands is compared or tested.
-/

namespace GraphMotif.Predicate

/-! ## Legible predicates -/

/-- The constants of a predicate, from left to right, as often as they occur. -/
def constants : Predicate → List Value
  | column _ => []
  | constant v => [v]
  | compare _ left right | conj left right | disj left right => left.constants ++ right.constants
  | neg operand | isNull operand _ => operand.constants

/-- Whether the text of a predicate is read as one operand. -/
def isOperand : Predicate → Bool
  | column _ | constant _ | conj .. | disj .. => true
  | compare .. | neg _ | isNull .. => false

/-- What a comparison compares, and what a null test tests. -/
def tested : Predicate → List Predicate
  | compare _ left right => [left, right]
  | isNull operand _ => [operand]
  | column _ | constant _ | conj .. | disj .. | neg _ => []

/-- Whether a column can be read back from its name. -/
structure LegibleName (name : String) : Prop where
  ne_empty : name ≠ ""
  unquoted : '\x60' ∉ name.toList
  /-- The name is, in any case of its letters, no keyword that can start an operand. -/
  no_keyword : name.toLower ∉ ["not", "null", "true", "false"]

/-- Whether a constant can be read back from its text. -/
def LegibleConstant : Value → Prop
  | .null | .bool _ => True
  | .int n => (toString n.natAbs).length ≤ maxIntegerDigits
  | .float _ => False
  | .text s => '\n' ∉ s.toList

/-- Whether a predicate can be read back from its text. -/
structure Legible (p : Predicate) : Prop where
  names : ∀ name ∈ p.columns, LegibleName name
  constants : ∀ v ∈ p.constants, LegibleConstant v
  tested : ∀ q ∈ p.subterms, ∀ operand ∈ q.tested, operand.isOperand = true

instance (name : String) : Decidable (LegibleName name) :=
  decidable_of_iff (name ≠ "" ∧ '\x60' ∉ name.toList ∧
      name.toLower ∉ ["not", "null", "true", "false"])
    ⟨fun ⟨hne, hunquoted, hkeyword⟩ => ⟨hne, hunquoted, hkeyword⟩,
      fun h => ⟨h.ne_empty, h.unquoted, h.no_keyword⟩⟩

instance (v : Value) : Decidable (LegibleConstant v) :=
  match v with
  | .null | .bool _ => isTrue trivial
  | .int _ => inferInstanceAs (Decidable (_ ≤ _))
  | .float _ => isFalse id
  | .text _ => inferInstanceAs (Decidable (_ ∉ _))

instance (p : Predicate) : Decidable p.Legible :=
  decidable_of_iff ((∀ name ∈ p.columns, LegibleName name) ∧
      (∀ v ∈ p.constants, LegibleConstant v) ∧
      ∀ q ∈ p.subterms, ∀ operand ∈ q.tested, operand.isOperand = true)
    ⟨fun ⟨hnames, hconstants, htested⟩ => ⟨hnames, hconstants, htested⟩,
      fun h => ⟨h.names, h.constants, h.tested⟩⟩

variable {p q left right : Predicate} {name : String} {v : Value} {a : Awaited} {t : Token}
  {cs ds rest : List Char}

theorem mem_subterms_self (p : Predicate) : p ∈ p.subterms := by
  cases p <;> exact List.mem_cons_self

/-- What a legible predicate is made of is legible. -/
theorem Legible.of_mem_operands (h : p.Legible) (hq : q ∈ p.operands) : q.Legible := by
  have hparts : (∀ name ∈ q.columns, name ∈ p.columns) ∧ (∀ v ∈ q.constants, v ∈ p.constants) ∧
      ∀ r ∈ q.subterms, r ∈ p.subterms := by
    cases p with
    | column | constant => exact absurd hq List.not_mem_nil
    | compare | conj | disj =>
      simp only [operands, List.mem_cons, List.not_mem_nil, or_false] at hq
      rcases hq with rfl | rfl <;> simp +contextual [columns, Predicate.constants, subterms]
    | neg | isNull =>
      obtain rfl := List.mem_singleton.1 hq
      simp +contextual [columns, Predicate.constants, subterms]
  obtain ⟨hcolumns, hconstants, hsubterms⟩ := hparts
  exact ⟨fun name hname => h.names name (hcolumns name hname),
    fun v hv => h.constants v (hconstants v hv), fun r hr => h.tested r (hsubterms r hr)⟩

theorem Legible.both (h : p.Legible) (hoperands : p.operands = [left, right]) :
    left.Legible ∧ right.Legible :=
  ⟨h.of_mem_operands (hoperands ▸ List.mem_cons_self),
    h.of_mem_operands (hoperands ▸ List.mem_cons_of_mem _ List.mem_cons_self)⟩

/-! ## Names and constants as tokens -/

/-- The awaited tokens that may be an operand. -/
def Awaited.IsOperand (a : Awaited) : Prop := a = .operand ∨ a = .comparand

theorem readKeyword?_of_isIdentifierPart {word : List Char}
    (hname : ∀ c ∈ cs, isIdentifierPart c = true) (h : readKeyword? word cs = some rest) :
    cs.map foldCase = word := by
  induction word generalizing cs with
  | nil =>
    cases cs with
    | nil => rfl
    | cons c cs =>
      rw [readKeyword?, if_pos (hname c List.mem_cons_self)] at h
      cases h
  | cons k ks ih =>
    cases cs with
    | nil => cases h
    | cons c cs =>
      obtain ⟨-, hcs⟩ := List.forall_mem_cons.1 hname
      rw [readKeyword?] at h
      split at h
      · next hc => rw [List.map_cons, hc, ih hcs h]
      · cases h

/-- What holds of the ASCII characters of names holds of all characters of names. -/
theorem forall_isIdentifierPart {P : Char → Prop}
    (h : ∀ n < 128, isIdentifierPart (Char.ofNat n) = true → P (Char.ofNat n)) :
    ∀ c, isIdentifierPart c = true → P c := by
  intro c hc
  have hascii : c.toNat < 128 := by
    simp only [isIdentifierPart, isIdentifierStart, Bool.or_eq_true, Bool.and_eq_true,
      decide_eq_true_eq, beq_iff_eq, Char.le_def, UInt32.le_iff_toNat_le] at hc
    rcases hc with ((⟨-, h⟩ | ⟨-, h⟩) | rfl) | ⟨-, h⟩
    · exact Nat.lt_of_le_of_lt h (by decide)
    · exact Nat.lt_of_le_of_lt h (by decide)
    · decide
    · exact Nat.lt_of_le_of_lt h (by decide)
  rw [← Char.ofNat_toNat c] at hc ⊢
  exact h _ hascii hc

/-- A character of a name is folded by writing it in lower case, is no parenthesis, quote or blank,
and starts neither a name nor a constant if it is a digit. -/
theorem isIdentifierPart_spec : ∀ c, isIdentifierPart c = true →
    foldCase c = c.toLower ∧ c ∉ ['(', '\x60', '\x27', '\x22'] ∧ isBlank c = false ∧
      (isDigit c = true → isIdentifierStart c = false ∧ foldCase c ∉ ['n', 't', 'f']) :=
  forall_isIdentifierPart (by decide +kernel)

theorem readKeywords?_eq_none {keywords : List (String × Token)}
    (h : ∀ k ∈ keywords, readKeyword? k.1.toList cs = none) : readKeywords? cs keywords = none := by
  induction keywords with
  | nil => rfl
  | cons keyword keywords ih =>
    obtain ⟨hkeyword, hkeywords⟩ := List.forall_mem_cons.1 h
    rw [readKeywords?, hkeyword, ih hkeywords]

/-- A name that is no keyword is not read as one. -/
theorem readKeywords?_identifier (ha : a.IsOperand) (h : LegibleName name)
    (hparts : ∀ c ∈ name.toList, isIdentifierPart c = true) :
    readKeywords? name.toList a.keywords = none := by
  have hwords : ∀ k ∈ a.keywords, k.1 ∈ ["not", "null", "true", "false"] := by
    rcases ha with rfl | rfl <;> decide
  refine readKeywords?_eq_none fun k hk => ?_
  cases hread : readKeyword? k.1.toList name.toList with
  | none => rfl
  | some rest =>
    -- the keyword would be the whole name
    have hlower : name.toLower.toList = k.1.toList := by
      rw [← readKeyword?_of_isIdentifierPart hparts hread,
        show name.toLower = name.map Char.toLower from rfl, String.toList_map]
      exact List.map_congr_left fun c hc => (isIdentifierPart_spec c (hparts c hc)).1.symm
    exact absurd (String.toList_injective hlower ▸ hwords k hk) h.no_keyword

/-- Before a name or a digit stands no parenthesis and no quote. -/
theorem readOperand?_cons {c : Char} (hc : isIdentifierPart c = true) (cs : List Char) :
    readOperand? (c :: cs) =
      match readIdentifier? (c :: cs) with
      | some (name, rest) => some (.column (String.ofList name), rest)
      | none => readNumber? (c :: cs) := by
  obtain ⟨-, hne, -, -⟩ := isIdentifierPart_spec c hc
  simp only [List.mem_cons, List.not_mem_nil, or_false, not_or] at hne
  obtain ⟨hparen, hback, hsingle, hdouble⟩ := hne
  exact readOperand?_eq (fun _ h => hparen (List.cons.inj h).1) (fun _ h => hback (List.cons.inj h).1)
    (fun _ h => hsingle (List.cons.inj h).1) fun _ h => hdouble (List.cons.inj h).1

/-- An identifier is written in the characters of names. -/
theorem isIdentifierPart_of_isIdentifier (h : isIdentifier cs = true) :
    cs ≠ [] ∧ ∀ c ∈ cs, isIdentifierPart c = true := by
  cases cs with
  | nil => cases h
  | cons c cs =>
    obtain ⟨hstart, hall⟩ := Bool.and_eq_true_iff.1 h
    have hpart : isIdentifierPart c = true := by
      rw [isIdentifierPart, hstart, Bool.true_or]
    exact ⟨List.cons_ne_nil c cs, List.forall_mem_cons.2 ⟨hpart, List.all_eq_true.1 hall⟩⟩

theorem toList_quotedName (name : String) :
    ("\x60" ++ name ++ "\x60").toList = '\x60' :: (name.toList ++ ['\x60']) := by
  simp

theorem Awaited.IsOperand.readOther? (ha : a.IsOperand) : a.readOther? cs = readOperand? cs := by
  rcases ha with rfl | rfl <;> rfl

/-- The name of a column is read to its end. -/
theorem read?_columnText (ha : a.IsOperand) (h : LegibleName name) :
    Token.read? a (columnText name).toList = some (.column name, []) := by
  rw [columnText]
  split
  · next hname =>
    obtain ⟨hne, hparts⟩ := isIdentifierPart_of_isIdentifier hname
    have hkeywords := readKeywords?_identifier ha h hparts
    obtain ⟨c, cs, hcs⟩ := List.exists_cons_of_ne_nil hne
    rw [hcs] at hname hparts hkeywords ⊢
    have hread : readIdentifier? (c :: cs) = some (c :: cs, []) := by
      obtain ⟨-, hcs⟩ := List.forall_mem_cons.1 hparts
      rw [readIdentifier?, if_pos (Bool.and_eq_true_iff.1 hname).1,
        List.takeWhile_eq_self_iff.2 hcs, List.dropWhile_eq_nil_iff.2 hcs]
    rw [Token.read?, hkeywords]
    simp only [ha.readOther?, readOperand?_cons (hparts c List.mem_cons_self), hread]
    rw [← hcs, String.ofList_toList]
  · have hread : Token.read? a ('\x60' :: (name.toList ++ ['\x60'])) =
        readQuotedColumn? (name.toList ++ ['\x60']) := by
      rcases ha with rfl | rfl <;> rfl
    have hunquoted : ∀ c ∈ name.toList, (c != '\x60') = true := fun c hc =>
      bne_iff_ne.2 fun heq => h.unquoted (heq ▸ hc)
    have hname : name.toList.isEmpty = false := by
      rw [List.isEmpty_eq_false_iff]
      exact fun hnil => h.ne_empty (String.toList_injective hnil)
    rw [toList_quotedName, hread, readQuotedColumn?, List.takeWhile_append_of_pos hunquoted,
      List.dropWhile_append_of_pos hunquoted]
    simp [hname]

/-- A text between quotes is read back, with the characters that were escaped in it. -/
theorem readString?_escapeString {s : List Char} (hs : '\n' ∉ s) (rest : List Char) :
    readString? '\x27' (escapeString s ++ '\x27' :: rest) = some (s, rest) := by
  induction s with
  | nil => cases rest <;> rfl
  | cons c s ih =>
    obtain ⟨hfeed, hs⟩ := not_or.1 (mt List.mem_cons.2 hs)
    have hstep : escapeString (c :: s) ++ '\x27' :: rest =
        (if c = '\\' ∨ c = '\x27' then ['\\', c] else [c]) ++ (escapeString s ++ '\x27' :: rest) := by
      rw [escapeString, List.flatMap_cons, List.append_assoc]
      rfl
    rw [hstep]
    split
    · simp only [List.cons_append, List.nil_append, readString?, Ne.symm hfeed, ih hs, if_true,
        if_false, Option.map_some, Char.reduceEq]
    · next hplain =>
      obtain ⟨hescape, hquote⟩ := not_or.1 hplain
      cases htail : escapeString s ++ '\x27' :: rest with
      | nil => exact absurd htail (List.append_ne_nil_of_right_ne_nil _ (List.cons_ne_nil _ _))
      | cons d cs =>
        have hread := htail ▸ ih hs
        simp only [List.cons_append, List.nil_append, readString?, Ne.symm hfeed, hescape, hquote,
          hread, if_false, Option.map_some]

/-! ## Integers as tokens -/

section Integers

variable {d : Char}

theorem isIdentifierPart_of_isDigit (h : isDigit d = true) : isIdentifierPart d = true := by
  rw [isIdentifierPart, Bool.or_eq_true]
  exact .inr h

/-- A digit starts a number. -/
theorem read?_of_isDigit (ha : a.IsOperand) (hne : cs ≠ []) (hdigits : ∀ d ∈ cs, isDigit d = true) :
    Token.read? a cs = readNumber? cs := by
  obtain ⟨d, cs, rfl⟩ := List.exists_cons_of_ne_nil hne
  have h := hdigits d List.mem_cons_self
  have hpart := isIdentifierPart_of_isDigit h
  obtain ⟨-, -, -, hdigit⟩ := isIdentifierPart_spec d hpart
  obtain ⟨hstart, hfold⟩ := hdigit h
  have hkeywords : readKeywords? (d :: cs) a.keywords = none := by
    simp only [List.mem_cons, List.not_mem_nil, or_false, not_or] at hfold
    rcases ha with rfl | rfl <;>
      simp [Awaited.keywords, constantKeywords, readKeywords?, readKeyword?, hfold]
  rw [Token.read?, hkeywords]
  simp only [ha.readOther?, readOperand?_cons hpart, readIdentifier?, hstart, Bool.false_eq_true,
    if_false]

theorem unsignedLength_eq_length (h : ∀ d ∈ cs, isDigit d = true) :
    unsignedLength cs = cs.length := by
  simp [unsignedLength, List.takeWhile_eq_self_iff.2 h, exponentLength]

/-- Digits have no sign before them. -/
theorem ne_cons_of_isDigit (h : ∀ d ∈ cs, isDigit d = true) (hd : isDigit d = false)
    (tail : List Char) : cs ≠ d :: tail := by
  rintro rfl
  exact absurd (h d List.mem_cons_self) (Bool.eq_false_iff.1 hd)

theorem readSign_of_isDigit (h : ∀ d ∈ cs, isDigit d = true) : readSign cs = (false, cs) := by
  unfold readSign
  split
  · exact absurd rfl (ne_cons_of_isDigit h (by decide) _)
  · exact absurd rfl (ne_cons_of_isDigit h (by decide) _)
  · rfl

theorem numberLength_of_isDigit (h : ∀ d ∈ cs, isDigit d = true) : numberLength cs = cs.length := by
  have hsigned (signed : Nat) (hzero : signed = 0) :
      (if unsignedLength (cs.drop signed) = 0 then 0
        else signed + unsignedLength (cs.drop signed)) = cs.length := by
    subst hzero
    rw [List.drop_zero, unsignedLength_eq_length h]
    split <;> omega
  refine hsigned _ ?_
  split
  · exact absurd rfl (ne_cons_of_isDigit h (by decide) _)
  · exact absurd rfl (ne_cons_of_isDigit h (by decide) _)
  · rfl

/-- A number that is the whole text is read to its end. -/
theorem readNumber?_eq_some (hne : cs ≠ []) (hlength : numberLength cs = cs.length)
    (hvalue : numberValue? cs = some v) : readNumber? cs = some (.constant v, []) := by
  have hpos : ¬cs.length = 0 := fun h => hne (List.eq_nil_of_length_eq_zero h)
  simp only [readNumber?, hlength, if_neg hpos, List.take_length, List.drop_length, hvalue,
    Option.map_some]

/-- The digits of a natural number are read to their end. -/
theorem readNumber?_toDigits {n : Nat} (h : (Nat.toDigits 10 n).length ≤ maxIntegerDigits) :
    readNumber? (Nat.toDigits 10 n) = some (.constant (.int n), []) ∧
      readNumber? ('-' :: Nat.toDigits 10 n) = some (.constant (.int (-n)), []) := by
  have hdigits := isDigit_of_mem_toDigits (n := n)
  have hall : (Nat.toDigits 10 n).all isDigit = true := List.all_eq_true.2 hdigits
  have hempty : (Nat.toDigits 10 n).isEmpty = false :=
    List.isEmpty_eq_false_iff.2 Nat.toDigits_ne_nil
  constructor
  · refine readNumber?_eq_some Nat.toDigits_ne_nil (numberLength_of_isDigit hdigits) ?_
    simp [numberValue?, readInteger?, readSign_of_isDigit hdigits, hall, hempty, h,
      digitsValue_toDigits]
  · refine readNumber?_eq_some (List.cons_ne_nil _ _) ?_ ?_
    · have hlength := unsignedLength_eq_length hdigits
      have hpos := List.length_pos_iff.2 (Nat.toDigits_ne_nil (n := n) (b := 10))
      simp [numberLength, hlength]
      omega
    · simp [numberValue?, readInteger?, readSign, hall, hempty, h, digitsValue_toDigits]

end Integers

/-- The token that a constant is read as. -/
def Token.ofConstant : Value → Token
  | .null => .null
  | v => .constant v

theorem toList_constantText_ofNat (n : Nat) :
    (constantText (.int (.ofNat n))).toList = Nat.toDigits 10 n := Nat.toList_repr

theorem toList_constantText_negSucc (n : Nat) :
    (constantText (.int (.negSucc n))).toList = '-' :: Nat.toDigits 10 (n + 1) := by
  refine (String.toList_append (s := "-") (t := (n + 1).repr)).trans ?_
  rw [Nat.toList_repr]
  rfl

/-- The text of a constant is read to its end. -/
theorem read?_constantText (ha : a.IsOperand) (h : LegibleConstant v) :
    Token.read? a (constantText v).toList = some (.ofConstant v, []) := by
  cases v with
  | null => rcases ha with rfl | rfl <;> rfl
  | bool b => rcases ha with rfl | rfl <;> cases b <;> rfl
  | int n =>
    have hread := readNumber?_toDigits (n := n.natAbs) (by rw [← Nat.toList_repr]; exact h)
    cases n with
    | ofNat n =>
      rw [toList_constantText_ofNat, read?_of_isDigit ha Nat.toDigits_ne_nil isDigit_of_mem_toDigits]
      exact hread.1
    | negSucc n =>
      have hminus : Token.read? a ('-' :: Nat.toDigits 10 (n + 1)) =
          readNumber? ('-' :: Nat.toDigits 10 (n + 1)) := by
        rcases ha with rfl | rfl <;> rfl
      rw [toList_constantText_negSucc, hminus]
      exact hread.2
  | float x => exact absurd h id
  | text s =>
    have htext : (constantText (.text s)).toList = '\x27' :: (escapeString s.toList ++ ['\x27']) :=
      String.toList_ofList
    have hread : Token.read? a ('\x27' :: (escapeString s.toList ++ ['\x27'])) =
        (readString? '\x27' (escapeString s.toList ++ ['\x27'])).map fun read =>
          (.constant (.text (String.ofList read.1)), read.2) := by
      rcases ha with rfl | rfl <;> rfl
    rw [htext, hread, readString?_escapeString h]
    exact congrArg (fun s => some (Token.constant (.text s), [])) String.ofList_toList

/-! ## Reading predicates -/

section Reading

variable {m m' : Parser} {d c : Option Predicate} {n : Nat} {group : Group} {outer : List Group}

theorem negate_add (n k : Nat) (q : Predicate) :
    Group.negate (n + k) q = Group.negate n (Group.negate k q) := by
  induction n with
  | zero => rw [Nat.zero_add]; rfl
  | succ n ih => rw [Nat.succ_add, Group.negate, Group.negate, ih]

/-- The parser stands behind `p`, read where a disjunction `d`, a conjunction `c` and `n` negations
stood before it: behind a comparison that makes `p` with some more negations. -/
def Behind (d c : Option Predicate) (n : Nat) (outer : List Group) (p : Predicate) (m : Parser) :
    Prop :=
  ∃ k comparison position q,
    m = ⟨⟨d, c, n + k, comparison⟩, outer, position⟩ ∧ m.complete? = some q ∧ Group.negate k q = p

/-- The text is read as one operand. -/
def ReadsOperand (p : Predicate) : Prop :=
  ∀ group outer,
    LeadsBefore ⟨group, outer, .beforeOperand⟩ p.toText.toList ⟨group, outer, .after p⟩

/-- The text is read as what a conjunction may go on with. -/
def ReadsMember (p : Predicate) : Prop :=
  ∀ d c n outer, ∃ m,
    LeadsBefore ⟨⟨d, c, n, none⟩, outer, .beforeOperand⟩ p.toText.toList m ∧ Behind d c n outer p m

namespace Behind

theorem awaited (h : Behind d c n outer p m) : m.awaited = .connective := by
  obtain ⟨k, comparison, position, q, -, hcomplete, -⟩ := h
  exact Parser.awaited_of_complete? hcomplete

/-- A connective or a closing parenthesis goes on with what has been read, negations included. -/
theorem next? (h : Behind d c n outer p m) (ht : t ∈ [.and, .or, .closeParen]) :
    m.next? t = Parser.connect? ⟨⟨d, c, n, none⟩, outer, .after p⟩ p t := by
  obtain ⟨k, comparison, position, q, rfl, hcomplete, rfl⟩ := h
  have hnext : Parser.next? ⟨⟨d, c, n + k, comparison⟩, outer, position⟩ t =
      Parser.connect? ⟨⟨d, c, n + k, comparison⟩, outer, position⟩ q t := by
    simp only [List.mem_cons, List.not_mem_nil, or_false] at ht
    cases position with
    | after operand =>
      obtain rfl := Option.some.inj hcomplete
      rcases ht with rfl | rfl | rfl <;> rfl
    | afterTest test =>
      obtain rfl := Option.some.inj hcomplete
      rcases ht with rfl | rfl | rfl <;> rfl
    | _ => exact absurd hcomplete nofun
  have hconjoined : Group.conjoined ⟨d, c, n + k, comparison⟩ q =
      Group.conjoined ⟨d, c, n, none⟩ (Group.negate k q) := by
    rw [Group.conjoined, Group.conjoined, negate_add]
  rw [hnext]
  unfold Parser.connect?
  simp only [Group.disjoined, hconjoined]

theorem finish? (h : Behind none none 0 [] p m) : m.finish? = some p := by
  obtain ⟨k, comparison, position, q, rfl, hcomplete, rfl⟩ := h
  rw [Parser.finish?, hcomplete]
  simp [Group.disjoined, Group.conjoined]

end Behind

theorem ReadsOperand.member (h : ReadsOperand p) : ReadsMember p := fun d c n outer =>
  ⟨_, h ⟨d, c, n, none⟩ outer, 0, none, .after p, p, rfl, rfl, rfl⟩

theorem ReadsMember.neg (h : ReadsMember p) : ReadsMember p.neg := by
  intro d c n outer
  obtain ⟨m, hreads, k, comparison, position, q, rfl, hcomplete, rfl⟩ := h d c (n + 1) outer
  refine ⟨_, ?_, k + 1, comparison, position, q, ?_, hcomplete, rfl⟩
  · have hnot := LeadsTo.keyword (m := ⟨⟨d, c, n, none⟩, outer, .beforeOperand⟩)
      ⟨"NOT", rfl⟩ (t := .not) List.mem_cons_self rfl
    have htext : (neg (Group.negate k q)).toText.toList =
        ("NOT".toList ++ [' ']) ++ (Group.negate k q).toText.toList := by
      simp [toText]
    rw [htext]
    exact hnot.before hreads
  · rw [Nat.add_assoc, Nat.add_comm 1]

/-- A comparison of two operands is read. -/
theorem ReadsOperand.compare (hleft : ReadsOperand left) (hright : ReadsOperand right)
    (op : Comparison) : ReadsMember (compare op left right) := by
  intro d c n outer
  have hsign : (op.sign, op) ∈ comparisonSigns := by
    cases op <;> decide
  refine ⟨⟨⟨d, c, n, some (left, op)⟩, outer, .after right⟩, ?_, 0, some (left, op), .after right,
    Predicate.compare op left right, rfl, rfl, rfl⟩
  have hspaced := (hleft ⟨d, c, n, none⟩ outer).spaced (.sign ⟨op.sign, op, hsign⟩ rfl rfl)
  rw [toText, String.toList_append]
  exact hspaced.before (hright _ outer)

/-- A null test of an operand is read. -/
theorem ReadsOperand.isNull (h : ReadsOperand p) (negated : Bool) :
    ReadsMember (isNull p negated) := by
  intro d c n outer
  have his : ("is", Token.is) ∈ Awaited.connective.keywords := by decide
  have hnot : ("not", Token.not) ∈ Awaited.nullTest.keywords := by decide
  refine ⟨⟨⟨d, c, n, none⟩, outer, .afterTest (Predicate.isNull p negated)⟩, ?_, 0, none, _, _, rfl,
    rfl, rfl⟩
  have hspaced : LeadsTo _ (p.toText ++ " " ++ "IS" ++ " ").toList _ :=
    (h ⟨d, c, n, none⟩ outer).spaced (.keyword ⟨"IS", rfl⟩ his rfl)
  cases negated with
  | false =>
    have htext : (Predicate.isNull p false).toText.toList =
        (p.toText ++ " " ++ "IS" ++ " ").toList ++ "NULL".toList := by
      simp [toText]
    rw [htext]
    exact hspaced.before (.token (t := .null) rfl rfl)
  | true =>
    have htext : (Predicate.isNull p true).toText.toList =
        (p.toText ++ " " ++ "IS" ++ " ").toList ++ ("NOT".toList ++ [' '] ++ "NULL".toList) := by
      simp [toText]
    rw [htext]
    exact hspaced.before
      ((LeadsTo.keyword ⟨"NOT", rfl⟩ hnot rfl).before (.token (t := .null) rfl rfl))

/-- Two predicates that are joined by a connective between parentheses are one operand. -/
theorem readsOperand_joined {word : String} (hleft : ReadsMember left) (hright : ReadsMember right)
    (kw : Keyword word) (hmem : (word, t) ∈ Awaited.connective.keywords)
    (ht : t ∈ [.and, .or, .closeParen])
    (hnext : ∀ outer, Parser.connect? ⟨.init, outer, .after left⟩ left t =
      some ⟨⟨d, c, 0, none⟩, outer, .beforeOperand⟩)
    (hjoined : Group.disjoined ⟨d, c, 0, none⟩ right = p)
    (htext : p.toText = "(" ++ left.toText ++ " " ++ kw.text ++ " " ++ right.toText ++ ")") :
    ReadsOperand p := by
  intro group outer
  obtain ⟨m, hreads, hbehind⟩ := hleft none none 0 (group :: outer)
  obtain ⟨m', hreads', hbehind'⟩ := hright d c 0 (group :: outer)
  have hopen :
      LeadsTo ⟨group, outer, .beforeOperand⟩ ['('] ⟨.init, group :: outer, .beforeOperand⟩ := by
    intro rest
    refine Parser.run_of_read (t := .openParen) ?_ rfl
    rw [Parser.awaited]
    cases group.comparison.isSome <;> rfl
  have hspaced : LeadsTo ⟨.init, group :: outer, .beforeOperand⟩
      (left.toText ++ " " ++ kw.text ++ " ").toList
      ⟨⟨d, c, 0, none⟩, group :: outer, .beforeOperand⟩ :=
    hreads.spaced (.keyword kw (hbehind.awaited ▸ hmem) ((hbehind.next? ht).trans (hnext _)))
  have hclose : LeadsTo m' [')'] ⟨group, outer, .after p⟩ := by
    intro rest
    refine Parser.run_of_read (t := .closeParen) ?_ ?_
    · rw [hbehind'.awaited]
      rfl
    · rw [hbehind'.next? (by decide), ← hjoined]
      rfl
  have hlist : p.toText.toList = ['('] ++ ((left.toText ++ " " ++ kw.text ++ " ").toList ++
      (right.toText.toList ++ [')'])) := by
    simp [htext]
  rw [hlist]
  exact (hopen.append (hspaced.append (hreads'.append (.inl rfl) hclose))).leadsBefore

theorem awaited_beforeOperand (group : Group) (outer : List Group) :
    (Parser.awaited ⟨group, outer, .beforeOperand⟩).IsOperand := by
  rw [Parser.awaited]
  cases group.comparison.isSome with
  | true => exact .inr rfl
  | false => exact .inl rfl

theorem readsOperand_column (h : LegibleName name) : ReadsOperand (column name) :=
  fun group outer => .token (read?_columnText (awaited_beforeOperand group outer) h) rfl

theorem readsOperand_constant (h : LegibleConstant v) : ReadsOperand (constant v) := by
  intro group outer
  refine .token (read?_constantText (awaited_beforeOperand group outer) h) ?_
  cases v <;> rfl

/-- The text of a legible predicate is read as it was written. -/
theorem Legible.reads (h : p.Legible) : ReadsMember p ∧ (p.isOperand = true → ReadsOperand p) := by
  have hoperand {p : Predicate} (hp : ReadsOperand p) :
      ReadsMember p ∧ (p.isOperand = true → ReadsOperand p) := ⟨hp.member, fun _ => hp⟩
  induction p with
  | column name => exact hoperand (readsOperand_column (h.names name List.mem_cons_self))
  | constant v => exact hoperand (readsOperand_constant (h.constants v List.mem_cons_self))
  | compare op left right ihleft ihright =>
    obtain ⟨hleft, hright⟩ := h.both rfl
    have htested := h.tested _ (mem_subterms_self _)
    have hleft' := (ihleft hleft).2 (htested left List.mem_cons_self)
    have hright' := (ihright hright).2 (htested right (List.mem_cons_of_mem _ List.mem_cons_self))
    exact ⟨hleft'.compare hright' op, nofun⟩
  | conj left right ihleft ihright =>
    obtain ⟨hleft, hright⟩ := h.both rfl
    refine hoperand (readsOperand_joined (t := .and) (d := none) (c := some left)
      (ihleft hleft).1 (ihright hright).1 (⟨"AND", rfl⟩ : Keyword "and") (by decide) (by decide)
      (fun _ => rfl) rfl ?_)
    simp [toText, String.append_assoc]
  | disj left right ihleft ihright =>
    obtain ⟨hleft, hright⟩ := h.both rfl
    refine hoperand (readsOperand_joined (t := .or) (d := some left) (c := none)
      (ihleft hleft).1 (ihright hright).1 (⟨"OR", rfl⟩ : Keyword "or") (by decide) (by decide)
      (fun _ => rfl) rfl ?_)
    simp [toText, String.append_assoc]
  | neg operand ih => exact ⟨(ih (h.of_mem_operands List.mem_cons_self)).1.neg, nofun⟩
  | isNull operand negated ih =>
    have htested := h.tested _ (mem_subterms_self _)
    have hoperand' := (ih (h.of_mem_operands List.mem_cons_self)).2 (htested operand List.mem_cons_self)
    exact ⟨hoperand'.isNull negated, nofun⟩

end Reading

/-! ## Parsing predicates -/

theorem exists_mem_columnText (name : String) :
    ∃ c ∈ (columnText name).toList, isBlank c = false := by
  rw [columnText]
  split
  · next hname =>
    obtain ⟨hne, hparts⟩ := isIdentifierPart_of_isIdentifier hname
    obtain ⟨c, hc⟩ := List.exists_mem_of_ne_nil _ hne
    obtain ⟨-, -, hblank, -⟩ := isIdentifierPart_spec c (hparts c hc)
    exact ⟨c, hc, hblank⟩
  · exact ⟨'\x60', by simp, by decide⟩

theorem exists_mem_constantText (h : LegibleConstant v) :
    ∃ c ∈ (constantText v).toList, isBlank c = false := by
  cases v with
  | null => exact ⟨'N', by decide, by decide⟩
  | bool b => cases b <;> exact ⟨'E', by decide, by decide⟩
  | int n =>
    obtain ⟨d, hd⟩ := List.exists_mem_of_ne_nil _ (Nat.toDigits_ne_nil (n := n.natAbs) (b := 10))
    obtain ⟨-, -, hblank, -⟩ := isIdentifierPart_spec d
      (isIdentifierPart_of_isDigit (isDigit_of_mem_toDigits d hd))
    refine ⟨d, ?_, hblank⟩
    cases n with
    | ofNat n => exact toList_constantText_ofNat n ▸ hd
    | negSucc n => exact toList_constantText_negSucc n ▸ List.mem_cons_of_mem _ hd
  | float x => exact absurd h id
  | text s => exact ⟨'\x27', by simp [constantText], by decide⟩

/-- The text of a legible predicate is not blank. -/
theorem exists_mem_toText (h : p.Legible) : ∃ c ∈ p.toText.toList, isBlank c = false := by
  cases p with
  | column name => exact exists_mem_columnText name
  | constant v => exact exists_mem_constantText (h.constants v List.mem_cons_self)
  | compare op left right =>
    have hany : op.sign.toList.any (!isBlank ·) = true := by cases op <;> decide
    obtain ⟨c, hc, hblank⟩ := List.any_eq_true.1 hany
    rw [Bool.not_eq_true'] at hblank
    exact ⟨c, by simp [toText, hc], hblank⟩
  | conj | disj => exact ⟨'(', by simp [toText], by decide⟩
  | neg => exact ⟨'N', by simp [toText], by decide⟩
  | isNull _ negated => exact ⟨'I', by cases negated <;> simp [toText], by decide⟩

/-- A legible predicate is parsed from its text. -/
theorem parse_toText (h : p.Legible) : parse p.toText = .ok p := by
  obtain ⟨c, hmem, hblank⟩ := exists_mem_toText h
  obtain ⟨m, hreads, hbehind⟩ := h.reads.1 none none 0 []
  exact parse_of_mem hmem hblank (hreads.run_eq_some hbehind.finish?)

/-- A column named as a connective, one between back quotes, an escaped quote and a negative number,
all in nested connectives. -/
def nestedPredicate : Predicate :=
  .disj (.neg (.isNull (.column "and") true))
    (.conj (.neg (.neg (.compare .le (.column "first name") (.constant (.text "it\x27s")))))
      (.compare .eq (.disj (.column "x") (.constant (.bool true))) (.constant (.int (-5)))))

theorem parse_toText_nestedPredicate :
    nestedPredicate.Legible ∧ parse nestedPredicate.toText = .ok nestedPredicate := by
  have hlegible : nestedPredicate.Legible := by
    decide +kernel
  exact ⟨hlegible, parse_toText hlegible⟩

end GraphMotif.Predicate
