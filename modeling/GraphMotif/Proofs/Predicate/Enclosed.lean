import GraphMotif.Predicate.Parse

/-!
# Predicates between parentheses

Which token is read depends on what is awaited and on the characters that follow. A closing
parenthesis and a blank are part of no keyword, name or number, so a token at the end of a text is
read alike when the text is followed by one of them. Groups around a predicate do not change what is
awaited, so a text that is a predicate by itself is read as the same operand between parentheses,
wherever an operand is awaited.
-/

namespace GraphMotif.Predicate

/-! ## Tokens before a parenthesis or a blank -/

section Classes

variable {α : Type} {p : α → Bool} {stop : α}

/-- Characters of a class are taken up to a character outside of it. -/
theorem takeWhile_append_stop (hstop : p stop = false) (xs rest : List α) :
    (xs ++ stop :: rest).takeWhile p = xs.takeWhile p := by
  induction xs with
  | nil => exact List.takeWhile_cons_of_neg (Bool.eq_false_iff.1 hstop)
  | cons x xs ih => rw [List.cons_append, List.takeWhile_cons, List.takeWhile_cons, ih]

theorem dropWhile_append_stop (hstop : p stop = false) (xs rest : List α) :
    (xs ++ stop :: rest).dropWhile p = xs.dropWhile p ++ stop :: rest := by
  induction xs with
  | nil => exact List.dropWhile_cons_of_neg (Bool.eq_false_iff.1 hstop)
  | cons x xs ih =>
    rw [List.cons_append, List.dropWhile_cons, List.dropWhile_cons, ih]
    split <;> rfl

end Classes

/-- Whether a character goes on with no token that stands before it. -/
def IsStop (c : Char) : Prop := c = ')' ∨ c = ' '

instance (c : Char) : Decidable (IsStop c) := inferInstanceAs (Decidable (_ ∨ _))

namespace IsStop

variable {c : Char}

theorem foldCase (h : IsStop c) : foldCase c = c := by
  rcases h with rfl | rfl <;> rfl

theorem isIdentifierPart (h : IsStop c) : isIdentifierPart c = false := by
  rcases h with rfl | rfl <;> rfl

theorem isDigit (h : IsStop c) : isDigit c = false := by
  rcases h with rfl | rfl <;> rfl

theorem notMem_keywords (h : IsStop c) (a : Awaited) : ∀ k ∈ a.keywords, c ∉ k.1.toList := by
  rcases h with rfl | rfl <;> cases a <;> decide

end IsStop

variable {cs rest : List Char} {t : Token} {a : Awaited} {text rest' : List Char} {stop : Char}

/-- A keyword is read, or not read, as at the end of the text. -/
theorem readKeyword?_append (hstop : IsStop stop) {word : List Char} (hword : stop ∉ word)
    (cs rest : List Char) :
    readKeyword? word (cs ++ stop :: rest) = (readKeyword? word cs).map (· ++ stop :: rest) := by
  induction word generalizing cs with
  | nil =>
    cases cs with
    | nil => exact if_neg (Bool.eq_false_iff.1 hstop.isIdentifierPart)
    | cons c cs =>
      rw [List.cons_append, readKeyword?, readKeyword?]
      split <;> rfl
  | cons k ks ih =>
    obtain ⟨hk, hks⟩ := not_or.1 (mt List.mem_cons.2 hword)
    cases cs with
    | nil => exact if_neg (hstop.foldCase.symm ▸ hk)
    | cons c cs =>
      rw [List.cons_append, readKeyword?, readKeyword?, ih hks]
      split <;> rfl

theorem readKeywords?_append (hstop : IsStop stop) {keywords : List (String × Token)}
    (hwords : ∀ k ∈ keywords, stop ∉ k.1.toList) (cs rest : List Char) :
    readKeywords? (cs ++ stop :: rest) keywords =
      (readKeywords? cs keywords).map fun (t, rest') => (t, rest' ++ stop :: rest) := by
  induction keywords with
  | nil => rfl
  | cons keyword keywords ih =>
    obtain ⟨word, token⟩ := keyword
    obtain ⟨hword, hwords⟩ := List.forall_mem_cons.1 hwords
    rw [readKeywords?, readKeywords?, readKeyword?_append hstop hword, ih hwords]
    cases readKeyword? word.toList cs <;> rfl

theorem readIdentifier?_append_stop (hstop : IsStop stop) (cs rest : List Char) :
    readIdentifier? (cs ++ stop :: rest) =
      (readIdentifier? cs).map fun (name, rest') => (name, rest' ++ stop :: rest) := by
  cases cs with
  | nil => rcases hstop with rfl | rfl <;> rfl
  | cons c cs =>
    rw [List.cons_append, readIdentifier?, readIdentifier?,
      takeWhile_append_stop hstop.isIdentifierPart, dropWhile_append_stop hstop.isIdentifierPart]
    split <;> rfl

theorem readString?_append {quote : Char} (h : readString? quote cs = some (text, rest'))
    (rest : List Char) : readString? quote (cs ++ rest) = some (text, rest' ++ rest) := by
  fun_induction readString? quote cs generalizing text with
  | case1 => cases h
  | case2 =>
    obtain ⟨rfl, rfl⟩ := Prod.mk.inj (Option.some.inj h)
    cases rest with
    | nil => exact if_pos rfl
    | cons d rest => exact if_pos rfl
  | case3 => cases h
  | case4 =>
    obtain ⟨rfl, rfl⟩ := Prod.mk.inj (Option.some.inj h)
    exact if_pos rfl
  | case5 => cases h
  | case6 => cases h
  | case7 =>
    rename_i hquote hfeed hescape ih
    obtain ⟨⟨text', rest''⟩, hread, heq⟩ := Option.map_eq_some_iff.1 h
    obtain ⟨rfl, rfl⟩ := Prod.mk.inj heq
    simp only [List.cons_append, readString?, if_neg hquote, if_neg hfeed, if_neg hescape, ih hread,
      if_true, Option.map_some]
  | case8 =>
    rename_i hquote hfeed hescape ih
    obtain ⟨⟨text', rest''⟩, hread, heq⟩ := Option.map_eq_some_iff.1 h
    obtain ⟨rfl, rfl⟩ := Prod.mk.inj heq
    have hread' := ih hread
    rw [List.cons_append] at hread'
    simp only [List.cons_append, readString?, if_neg hquote, if_neg hfeed, if_neg hescape, hread',
      Option.map_some]

theorem readQuotedColumn?_append (h : readQuotedColumn? cs = some (t, rest')) (rest : List Char) :
    readQuotedColumn? (cs ++ rest) = some (t, rest' ++ rest) := by
  rw [readQuotedColumn?] at h ⊢
  cases hdrop : cs.dropWhile (· != '\x60') with
  | nil =>
    simp only [hdrop] at h
    cases h
  | cons c after =>
    -- the closing quote is in the text, and so nothing after the text is part of the name
    have htake : (cs.takeWhile (· != '\x60')).length ≠ cs.length := by
      intro heq
      have hlength := congrArg List.length (List.takeWhile_append_dropWhile (p := (· != '\x60')) (l := cs))
      rw [List.length_append, hdrop, List.length_cons] at hlength
      omega
    simp only [hdrop] at h
    simp only [List.takeWhile_append, if_neg htake, List.dropWhile_append, hdrop, List.isEmpty_cons,
      Bool.false_eq_true, if_false, List.cons_append]
    split at h
    · cases h
    · next hname =>
      obtain ⟨rfl, rfl⟩ := Prod.mk.inj (Option.some.inj h)
      exact if_neg hname

/-! ## Numbers before a parenthesis or a blank -/

theorem exponentLength_append (hstop : IsStop stop) (cs rest : List Char) :
    exponentLength (cs ++ stop :: rest) = exponentLength cs := by
  match cs with
  | [] => rcases hstop with rfl | rfl <;> rfl
  | [c] => rcases hstop with rfl | rfl <;> simp [exponentLength, isDigit]
  | c :: d :: cs =>
    have htake := takeWhile_append_stop hstop.isDigit (d :: cs) rest
    by_cases hminus : d = '-'
    · subst hminus
      simp only [List.cons_append, exponentLength, takeWhile_append_stop hstop.isDigit]
    · by_cases hplus : d = '+'
      · subst hplus
        simp only [List.cons_append, exponentLength, takeWhile_append_stop hstop.isDigit]
      · rw [List.cons_append] at htake
        simp [exponentLength, hminus, hplus, htake]

/-- What is left after characters of a class, where the text goes on. -/
theorem drop_takeWhile_append (p : Char → Bool) (cs suffix : List Char) :
    (cs ++ suffix).drop (cs.takeWhile p).length = cs.drop (cs.takeWhile p).length ++ suffix :=
  List.drop_append_of_le_length (List.takeWhile_sublist p).length_le

theorem unsignedLength_append (hstop : IsStop stop) (cs rest : List Char) :
    unsignedLength (cs ++ stop :: rest) = unsignedLength cs := by
  simp only [unsignedLength, takeWhile_append_stop hstop.isDigit, drop_takeWhile_append,
    exponentLength_append hstop]
  cases hrest : cs.drop (cs.takeWhile isDigit).length with
  | nil => rcases hstop with rfl | rfl <;> rfl
  | cons c after =>
    by_cases hpoint : c = '.'
    · subst hpoint
      simp only [List.cons_append, takeWhile_append_stop hstop.isDigit, drop_takeWhile_append,
        exponentLength_append hstop]
    · simp [hpoint]

theorem exponentLength_le (cs : List Char) : exponentLength cs ≤ cs.length := by
  have hcount {signed : Nat} {digits cs : List Char} (h : signed + digits.length ≤ cs.length) :
      (if (digits.takeWhile isDigit).length = 0 then 0
        else 1 + signed + (digits.takeWhile isDigit).length) ≤ cs.length + 1 := by
    have hdigits := (List.takeWhile_sublist isDigit (l := digits)).length_le
    split <;> omega
  cases cs with
  | nil => exact Nat.le_refl _
  | cons c cs =>
    simp only [exponentLength]
    split
    · split
      · exact hcount (Nat.le_of_eq (Nat.add_comm ..))
      · exact hcount (Nat.le_of_eq (Nat.add_comm ..))
      · exact hcount (Nat.le_of_eq (Nat.zero_add _))
    · exact Nat.zero_le _

theorem unsignedLength_le (cs : List Char) : unsignedLength cs ≤ cs.length := by
  have hdigits (cs : List Char) : (cs.takeWhile isDigit).length ≤ cs.length :=
    (List.takeWhile_sublist isDigit).length_le
  have hwhole := hdigits cs
  have hexponent := exponentLength_le (cs.drop (cs.takeWhile isDigit).length)
  rw [List.length_drop] at hexponent
  simp only [unsignedLength]
  split
  · omega
  · split
    · next after hrest =>
      have hlength := congrArg List.length hrest
      rw [List.length_drop, List.length_cons] at hlength
      have hfraction := hdigits after
      have hexponent' := exponentLength_le (after.drop (after.takeWhile isDigit).length)
      rw [List.length_drop] at hexponent'
      split <;> omega
    · exact hwhole

theorem numberLength_le (cs : List Char) : numberLength cs ≤ cs.length := by
  have hle {signed : Nat} {cs : List Char} (h : signed ≤ cs.length) :
      (if unsignedLength (cs.drop signed) = 0 then 0
        else signed + unsignedLength (cs.drop signed)) ≤ cs.length := by
    have hdrop := unsignedLength_le (cs.drop signed)
    rw [List.length_drop] at hdrop
    split <;> omega
  simp only [numberLength]
  split
  · exact hle (Nat.succ_le_succ (Nat.zero_le _))
  · exact hle (Nat.succ_le_succ (Nat.zero_le _))
  · exact hle (Nat.zero_le _)

theorem numberLength_append (hstop : IsStop stop) (cs rest : List Char) :
    numberLength (cs ++ stop :: rest) = numberLength cs := by
  match cs with
  | [] => rcases hstop with rfl | rfl <;> rfl
  | c :: cs =>
    by_cases hminus : c = '-'
    · subst hminus
      simp only [numberLength, List.cons_append, List.drop_succ_cons, List.drop_zero,
        unsignedLength_append hstop]
    · by_cases hplus : c = '+'
      · subst hplus
        simp only [numberLength, List.cons_append, List.drop_succ_cons, List.drop_zero,
          unsignedLength_append hstop]
      · have happend := unsignedLength_append hstop (c :: cs) rest
        rw [List.cons_append] at happend
        simp [numberLength, hminus, hplus, happend]

theorem readNumber?_append (hstop : IsStop stop) (cs rest : List Char) :
    readNumber? (cs ++ stop :: rest) =
      (readNumber? cs).map fun (t, rest') => (t, rest' ++ stop :: rest) := by
  have hle := numberLength_le cs
  simp only [readNumber?, numberLength_append hstop, List.take_append_of_le_length hle,
    List.drop_append_of_le_length hle]
  split
  · rfl
  · rw [Option.map_map]
    rfl

/-! ## Reading a token -/

/-- An operand that is written by its first characters alone: no parenthesis and no quote. -/
theorem readOperand?_eq {cs : List Char} (hparen : ∀ tail, cs ≠ '(' :: tail)
    (hback : ∀ tail, cs ≠ '\x60' :: tail) (hsingle : ∀ tail, cs ≠ '\x27' :: tail)
    (hdouble : ∀ tail, cs ≠ '\x22' :: tail) :
    readOperand? cs =
      match readIdentifier? cs with
      | some (name, rest) => some (.column (String.ofList name), rest)
      | none => readNumber? cs := by
  unfold readOperand?
  split
  · exact absurd rfl (hparen _)
  · exact absurd rfl (hback _)
  · exact absurd rfl (hsingle _)
  · exact absurd rfl (hdouble _)
  · rfl

theorem readOperand?_append (hstop : IsStop stop) (h : readOperand? cs = some (t, rest'))
    (rest : List Char) :
    readOperand? (cs ++ stop :: rest) = some (t, rest' ++ stop :: rest) := by
  unfold readOperand? at h
  split at h
  · obtain ⟨rfl, rfl⟩ := Prod.mk.inj (Option.some.inj h)
    rfl
  · exact readQuotedColumn?_append h _
  · obtain ⟨⟨text, after⟩, hread, heq⟩ := Option.map_eq_some_iff.1 h
    obtain ⟨rfl, rfl⟩ := Prod.mk.inj heq
    simp only [List.cons_append, readOperand?, readString?_append hread, Option.map_some]
  · obtain ⟨⟨text, after⟩, hread, heq⟩ := Option.map_eq_some_iff.1 h
    obtain ⟨rfl, rfl⟩ := Prod.mk.inj heq
    simp only [List.cons_append, readOperand?, readString?_append hread, Option.map_some]
  · next hparen hback hsingle hdouble =>
    have hne {c : Char} (hc : ¬IsStop c) (hcs : ∀ tail, cs ≠ c :: tail) (tail : List Char) :
        cs ++ stop :: rest ≠ c :: tail := by
      intro heq
      obtain ⟨-, hclose⟩ | ⟨after, hafter, -⟩ := List.append_eq_cons_iff.1 heq
      · exact hc ((List.cons.inj hclose).1 ▸ hstop)
      · exact hcs after hafter
    rw [readOperand?_eq (hne (by decide) hparen) (hne (by decide) hback)
      (hne (by decide) hsingle) (hne (by decide) hdouble), readIdentifier?_append_stop hstop,
      readNumber?_append hstop]
    cases hname : readIdentifier? cs with
    | some read =>
      rw [hname] at h
      obtain ⟨rfl, rfl⟩ := Prod.mk.inj (Option.some.inj h)
      rfl
    | none =>
      rw [hname] at h
      exact congrArg (Option.map _) h

theorem readSign?_append (hstop : IsStop stop) (h : readSign? cs = some (t, rest'))
    (rest : List Char) : readSign? (cs ++ stop :: rest) = some (t, rest' ++ stop :: rest) := by
  unfold readSign? at h
  split at h
  -- a sign of one character, which the character behind it does not make a longer one
  case h_7 after hlong | h_8 after hlong _ | h_9 after hlong =>
    obtain ⟨rfl, rfl⟩ := Prod.mk.inj (Option.some.inj h)
    cases after with
    | nil => rcases hstop with rfl | rfl <;> rfl
    | cons d after => simp_all [readSign?]
  case h_10 => exact absurd h nofun
  all_goals
    obtain ⟨rfl, rfl⟩ := Prod.mk.inj (Option.some.inj h)
    rfl

/-- A token of a text is the token that is read where a closing parenthesis or a blank follows the
text. -/
theorem Token.read?_append (hstop : IsStop stop) (h : Token.read? a cs = some (t, rest'))
    (rest : List Char) :
    Token.read? a (cs ++ stop :: rest) = some (t, rest' ++ stop :: rest) := by
  rw [Token.read?] at h ⊢
  rw [readKeywords?_append hstop (hstop.notMem_keywords a)]
  cases hkeyword : readKeywords? cs a.keywords with
  | some read =>
    rw [hkeyword] at h
    obtain rfl := Option.some.inj h
    rfl
  | none =>
    simp only [hkeyword] at h
    cases a with
    | operand => exact readOperand?_append hstop h rest
    | comparand => exact readOperand?_append hstop h rest
    | connective => exact readSign?_append hstop h rest
    | nullTest => exact absurd h nofun
    | null => exact absurd h nofun

/-- No token starts with layout. -/
theorem Token.read?_cons_of_isLayout {c : Char} (hc : isLayout c = true) (a : Awaited)
    (cs : List Char) : Token.read? a (c :: cs) = none := by
  simp only [isLayout, Bool.or_eq_true, beq_iff_eq] at hc
  rcases hc with (((rfl | rfl) | rfl) | rfl) | rfl <;> cases a <;> rfl

/-! ## Steps of the parser -/

namespace Parser

variable {m m' : Parser} {p : Predicate}

/-- A run by its next token. -/
theorem run_eq (m : Parser) (cs : List Char) :
    m.run cs =
      if (skipLayout cs).isEmpty then m.finish?
      else (Token.read? m.awaited (skipLayout cs)).bind fun (t, rest') =>
        (m.next? t).bind fun m' => m'.run rest' := by
  rw [run]
  refine ite_congr rfl (fun _ => rfl) fun _ => ?_
  split
  · next hread => rw [hread, Option.bind_none]
  · next t rest' hread =>
    simp only [hread, Option.bind_some]
    cases m.next? t <;> rfl

/-- Layout at the start of a text does not matter. -/
theorem run_append_of_layout {blanks : List Char} (hblanks : ∀ c ∈ blanks, isLayout c = true)
    (m : Parser) (cs : List Char) : m.run (blanks ++ cs) = m.run cs := by
  have hskip : skipLayout (blanks ++ cs) = skipLayout cs :=
    List.dropWhile_append_of_pos hblanks
  rw [run_eq, run_eq m cs, hskip]

/-- One token is read, and the parser goes on behind it. -/
theorem run_of_read (hread : Token.read? m.awaited (skipLayout cs) = some (t, rest'))
    (hnext : m.next? t = some m') : m.run cs = m'.run rest' := by
  have hne : (skipLayout cs).isEmpty = false := by
    cases hcs : skipLayout cs with
    | nil =>
      rw [hcs] at hread
      exact absurd (Token.length_lt_of_read? hread) (Nat.not_lt_zero _)
    | cons => rfl
  rw [run_eq, hne, hread]
  exact congrArg (Option.bind · fun m' => m'.run rest') hnext

/-- A text that is read to its end is either layout alone or goes on after a token. -/
theorem run_cases (h : m.run cs = some p) :
    (skipLayout cs = [] ∧ m.finish? = some p) ∨
      ∃ t rest' m', Token.read? m.awaited (skipLayout cs) = some (t, rest') ∧
        m.next? t = some m' ∧ m'.run rest' = some p := by
  rw [run_eq] at h
  split at h
  · next hempty => exact .inl ⟨List.isEmpty_iff.1 hempty, h⟩
  · obtain ⟨⟨t, rest'⟩, hread, h⟩ := Option.bind_eq_some_iff.1 h
    obtain ⟨m', hnext, hrun⟩ := Option.bind_eq_some_iff.1 h
    exact .inr ⟨t, rest', m', hread, hnext, hrun⟩

/-! ## A text between parentheses -/

/-- A parser inside of further groups. -/
def within (m : Parser) (groups : List Group) : Parser := { m with outer := m.outer ++ groups }

theorem connect?_within (h : m.connect? p t = some m') (groups : List Group) :
    (m.within groups).connect? p t = some (m'.within groups) := by
  obtain ⟨group, outer, position⟩ := m
  cases t with
  | and => exact congrArg (Option.map (within · groups)) h
  | or => exact congrArg (Option.map (within · groups)) h
  | closeParen =>
    cases outer with
    | nil => exact absurd h nofun
    | cons inner outer => exact congrArg (Option.map (within · groups)) h
  | _ => exact absurd h nofun

theorem next?_within (h : m.next? t = some m') (groups : List Group) :
    (m.within groups).next? t = some (m'.within groups) := by
  obtain ⟨group, outer, position⟩ := m
  have hguarded {c : Bool} {m₀ : Parser} (h : (if c then none else some m₀) = some m') :
      (if c then none else some (m₀.within groups)) = some (m'.within groups) := by
    cases c with
    | true => exact absurd h nofun
    | false => exact congrArg (Option.map (within · groups)) h
  cases position with
  | beforeOperand =>
    cases t with
    | openParen | column _ | constant _ | null => exact congrArg (Option.map (within · groups)) h
    | not => exact hguarded h
    | _ => exact absurd h nofun
  | after operand =>
    cases t with
    | comparison _ | is => exact hguarded h
    | _ =>
      simp only [next?, complete?, Option.bind_some] at h
      exact connect?_within h groups
  | afterIs operand =>
    cases t with
    | not | null => exact congrArg (Option.map (within · groups)) h
    | _ => exact absurd h nofun
  | afterIsNot operand =>
    cases t with
    | null => exact congrArg (Option.map (within · groups)) h
    | _ => exact absurd h nofun
  | afterTest _ => exact connect?_within h groups

/-- Behind a complete comparison, the parser awaits anything that follows an operand. -/
theorem awaited_of_complete? (h : m.complete? = some p) : m.awaited = .connective := by
  unfold complete? at h
  unfold awaited
  split at h
  · next hposition => rw [hposition]
  · next hposition => rw [hposition]
  · exact absurd h nofun

/-- Where a text may end, the parser awaits anything that follows an operand. -/
theorem awaited_of_finish? (h : m.finish? = some p) : m.awaited = .connective := by
  rw [finish?] at h
  split at h
  · obtain ⟨q, hq, -⟩ := Option.map_eq_some_iff.1 h
    exact awaited_of_complete? hq
  · exact absurd h nofun

/-- Where a text may end, a closing parenthesis closes the group around it. -/
theorem next?_close (h : m.finish? = some p) (group : Group) (groups : List Group) :
    (m.within (group :: groups)).next? .closeParen =
      some { group, outer := groups, position := .after p } := by
  obtain ⟨inner, outer, position⟩ := m
  rw [finish?] at h
  split at h
  · next houter =>
    obtain rfl := List.isEmpty_iff.1 houter
    obtain ⟨q, hq, rfl⟩ := Option.map_eq_some_iff.1 h
    cases position with
    | after operand =>
      obtain rfl := Option.some.inj hq
      rfl
    | afterTest test =>
      obtain rfl := Option.some.inj hq
      rfl
    | _ => exact absurd hq nofun
  · exact absurd h nofun

theorem run_within_append_close (h : m.run cs = some p) (group : Group) (groups : List Group)
    (rest : List Char) :
    (m.within (group :: groups)).run (cs ++ ')' :: rest) =
      { group, outer := groups, position := .after p : Parser }.run rest := by
  have hskip (cs : List Char) : skipLayout (cs ++ ')' :: rest) = skipLayout cs ++ ')' :: rest :=
    dropWhile_append_stop (by decide) cs rest
  induction hlength : cs.length using Nat.strongRecOn generalizing m cs with
  | _ n ih =>
    obtain ⟨hlayout, hfinish⟩ | ⟨t, rest', m', hread, hnext, hrun⟩ := run_cases h
    · have hclose : Token.read? (m.within (group :: groups)).awaited (')' :: rest) =
          some (.closeParen, rest) := by
        have hawaited : (m.within (group :: groups)).awaited = m.awaited := rfl
        rw [hawaited, awaited_of_finish? hfinish]
        rfl
      refine run_of_read ?_ (next?_close hfinish group groups)
      rw [hskip, hlayout]
      exact hclose
    · have hlt : rest'.length < n :=
        hlength ▸ Nat.lt_of_lt_of_le (Token.length_lt_of_read? hread) (length_skipLayout_le cs)
      rw [run_of_read (by rw [hskip]; exact Token.read?_append (.inl rfl) hread rest)
        (next?_within hnext (group :: groups))]
      exact ih _ hlt hrun rfl

/-- A predicate between parentheses is an operand. -/
theorem run_enclosed (h : init.run cs = some p) (group : Group) (outer : List Group)
    (rest : List Char) :
    { group, outer, position := .beforeOperand : Parser }.run ('(' :: (cs ++ ')' :: rest)) =
      { group, outer, position := .after p : Parser }.run rest := by
  have hread : Token.read? (awaited { group, outer, position := .beforeOperand })
      (skipLayout ('(' :: (cs ++ ')' :: rest))) = some (.openParen, cs ++ ')' :: rest) := by
    rw [awaited]
    cases group.comparison.isSome <;> rfl
  have hnext : next? { group, outer, position := .beforeOperand } .openParen =
      some (init.within (group :: outer)) := rfl
  rw [run_of_read hread hnext, run_within_append_close h]

end Parser

end GraphMotif.Predicate
