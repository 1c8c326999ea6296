import GraphMotif.Predicate.Condition
import GraphMotif.Proofs.Predicate.Enclosed

/-!
# Composing texts of predicates

Texts that are predicates may be put between parentheses and combined by keywords and signs, as
conditions are combined by their operators, with the same predicates as outcome. A chain of such
texts joined by AND, or of such chains joined by OR, is nested to the left.
-/

namespace GraphMotif.Predicate

/-! ## Texts and what they are composed of -/

/-- A keyword in some case of its letters. -/
structure Keyword (word : String) where
  text : String
  folds : text.toList.map foldCase = word.toList

/-- A text that is a predicate. -/
structure Accepted where
  text : String
  predicate : Predicate
  parsed : parse text = .ok predicate

/-- The comparisons with the signs that write them. -/
def comparisonSigns : List (String × Comparison) :=
  [("=", .eq), ("==", .eq), ("!=", .ne), ("<>", .ne), ("<", .lt), ("<=", .le), (">", .gt),
    (">=", .ge)]

/-- A comparison in one of its spellings. -/
structure Sign where
  text : String
  comparison : Comparison
  spelled : (text, comparison) ∈ comparisonSigns

namespace Accepted

/-- The text between parentheses. -/
def enclosed (t : Accepted) : String := "(" ++ t.text ++ ")"

/-- The condition that is built from the text. -/
def condition (t : Accepted) : Condition := ⟨t.predicate⟩

end Accepted

/-- A member of a chain: a text between parentheses, perhaps after NOT. -/
structure Item where
  negation : Option (Keyword "not")
  operand : Accepted

namespace Item

def text (i : Item) : String :=
  match i.negation with
  | none => i.operand.enclosed
  | some kw => kw.text ++ " " ++ i.operand.enclosed

def condition (i : Item) : Condition :=
  match i.negation with
  | none => i.operand.condition
  | some _ => i.operand.condition.opposite

end Item

/-- One or more members joined by a keyword. -/
structure Chain (word : String) (α : Type) where
  first : α
  others : List (Keyword word × α)

namespace Chain

variable {word : String} {α : Type}

/-- The members of a chain, with the keywords between them. -/
def text (write : α → String) (c : Chain word α) : String :=
  c.others.foldl (fun text (kw, x) => text ++ " " ++ kw.text ++ " " ++ write x) (write c.first)

/-- The members of a chain, nested to the left. -/
def condition (combine : Operand → Operand → Condition) (build : α → Condition)
    (c : Chain word α) : Condition :=
  c.others.foldl (fun left (_, x) => combine (.condition left) (.condition (build x)))
    (build c.first)

/-- What holds of the first member and is kept by one more member holds of the chain. -/
theorem reads {write : α → String} (combine : Operand → Operand → Condition)
    (build : α → Condition) {P : String → Condition → Prop} (c : Chain word α)
    (hfirst : P (write c.first) (build c.first))
    (hnext : ∀ text left, P text left → ∀ (kw : Keyword word) x,
      P (text ++ " " ++ kw.text ++ " " ++ write x)
        (combine (.condition left) (.condition (build x)))) :
    P (c.text write) (c.condition combine build) := by
  obtain ⟨first, others⟩ := c
  rw [text, condition]
  simp only at hfirst ⊢
  generalize write first = text at hfirst ⊢
  generalize build first = left at hfirst ⊢
  -- the text and the condition grow together
  induction others generalizing text left with
  | nil => exact hfirst
  | cons other others ih => exact ih _ _ (hnext text left hfirst other.1 other.2)

end Chain

/-- A conjunction of items. -/
abbrev Conjunction := Chain "and" Item

namespace Conjunction

def text (c : Conjunction) : String := Chain.text Item.text c

def condition (c : Conjunction) : Condition := Chain.condition .both Item.condition c

end Conjunction

/-- A disjunction of conjunctions. -/
abbrev Disjunction := Chain "or" Conjunction

namespace Disjunction

def text (c : Disjunction) : String := Chain.text Conjunction.text c

def condition (c : Disjunction) : Condition := Chain.condition .either Conjunction.condition c

end Disjunction

/-! ## Reading keywords and signs -/

/-- A keyword that was read starts the text, in lower case. -/
theorem prefix_of_readKeyword? {word cs rest : List Char} (h : readKeyword? word cs = some rest) :
    word <+: cs.map foldCase := by
  induction word generalizing cs with
  | nil => exact List.nil_prefix
  | cons k ks ih =>
    cases cs with
    | nil => cases h
    | cons c cs =>
      rw [readKeyword?] at h
      split at h
      · next hc => exact List.cons_prefix_cons.2 ⟨hc.symm, ih h⟩
      · cases h

/-- A keyword is read where no character follows that would continue the word. -/
theorem readKeyword?_append_of_folds {word cs rest : List Char} (hfolds : cs.map foldCase = word)
    (hrest : ∀ c ∈ rest.head?, isIdentifierPart c = false) :
    readKeyword? word (cs ++ rest) = some rest := by
  subst hfolds
  induction cs with
  | nil =>
    cases rest with
    | nil => rfl
    | cons c rest => exact if_neg (Bool.eq_false_iff.1 (hrest c rfl))
  | cons c cs ih => exact (if_pos rfl).trans ih

/-- No two of the keywords that are awaited at one place start a text together. -/
theorem Awaited.keywords_apart (a : Awaited) :
    a.keywords.Pairwise fun k l => ¬ k.1.toList <+: l.1.toList ∧ ¬ l.1.toList <+: k.1.toList := by
  cases a <;> decide

theorem readKeywords?_of_mem {keywords : List (String × Token)} {word : String} {t : Token}
    {cs rest : List Char}
    (hapart : keywords.Pairwise fun k l =>
      ¬ k.1.toList <+: l.1.toList ∧ ¬ l.1.toList <+: k.1.toList)
    (hmem : (word, t) ∈ keywords) (hread : readKeyword? word.toList cs = some rest) :
    readKeywords? cs keywords = some (t, rest) := by
  induction keywords with
  | nil => exact absurd hmem List.not_mem_nil
  | cons keyword keywords ih =>
    obtain ⟨other, t'⟩ := keyword
    obtain ⟨hother, hapart⟩ := List.pairwise_cons.1 hapart
    rw [readKeywords?]
    obtain heq | hmem := List.mem_cons.1 hmem
    · obtain ⟨rfl, rfl⟩ := Prod.mk.inj heq
      rw [hread]
    · cases hfirst : readKeyword? other.toList cs with
      | none => exact ih hapart hmem
      | some _ =>
        obtain ⟨hleft, hright⟩ := hother (word, t) hmem
        obtain h | h := List.prefix_or_prefix_of_prefix (prefix_of_readKeyword? hfirst)
          (prefix_of_readKeyword? hread)
        · exact absurd h hleft
        · exact absurd h hright

/-- A keyword is read in any case where it is awaited. -/
theorem Keyword.read? {word : String} {t : Token} {a : Awaited} (kw : Keyword word)
    (hmem : (word, t) ∈ a.keywords) {rest : List Char}
    (hrest : ∀ c ∈ rest.head?, isIdentifierPart c = false) :
    Token.read? a (kw.text.toList ++ rest) = some (t, rest) := by
  rw [Token.read?, readKeywords?_of_mem a.keywords_apart hmem
    (readKeyword?_append_of_folds kw.folds hrest)]

theorem Awaited.isLayout_keywords (a : Awaited) :
    ∀ k ∈ a.keywords, ∀ c ∈ k.1.toList, isLayout c = false := by
  have hletters : a.keywords.all (fun k => k.1.toList.all fun c => !isLayout c) = true := by
    cases a <;> decide
  intro k hk c hc
  have hword := List.all_eq_true.1 hletters k hk
  simpa using List.all_eq_true.1 hword c hc

/-- A keyword does not start with layout. -/
theorem Keyword.skipLayout_append {word : String} {t : Token} {a : Awaited} (kw : Keyword word)
    (hmem : (word, t) ∈ a.keywords) (rest : List Char) :
    skipLayout (kw.text.toList ++ rest) = kw.text.toList ++ rest := by
  have hfold {c : Char} (hc : isLayout c = true) : foldCase c = c := by
    simp only [isLayout, Bool.or_eq_true, beq_iff_eq] at hc
    rcases hc with (((rfl | rfl) | rfl) | rfl) | rfl <;> decide
  have hfolds := kw.folds
  cases htext : kw.text.toList with
  | nil =>
    rw [htext] at hfolds
    exact absurd hfolds.symm (a.keywords_ne_nil _ hmem)
  | cons c cs =>
    rw [htext] at hfolds
    refine List.dropWhile_cons_of_neg fun hc => ?_
    have hmem' : foldCase c ∈ word.toList := hfolds ▸ List.mem_cons_self
    rw [hfold hc] at hmem'
    exact absurd hc (Bool.eq_false_iff.1 (a.isLayout_keywords _ hmem _ hmem'))

/-- A sign is read where a blank follows. -/
theorem Sign.read? (s : Sign) (rest : List Char) :
    Token.read? .connective (skipLayout (s.text.toList ++ ' ' :: rest)) =
      some (.comparison s.comparison, ' ' :: rest) := by
  have hread : ∀ sign ∈ comparisonSigns,
      Token.read? .connective (skipLayout (sign.1.toList ++ ' ' :: rest)) =
        some (.comparison sign.2, ' ' :: rest) := by
    simp only [comparisonSigns, List.forall_mem_cons]
    exact ⟨rfl, rfl, rfl, rfl, rfl, rfl, rfl, rfl, nofun⟩
  exact hread (s.text, s.comparison) s.spelled

/-! ## Reading compositions -/

/-- Reading the text leads from one state of the parser to the other, whatever follows. -/
def LeadsTo (m : Parser) (cs : List Char) (m' : Parser) : Prop :=
  ∀ rest, m.run (cs ++ rest) = m'.run rest

/-- Reading the text leads from one state of the parser to the other, unless the character that
follows goes on with the last token. -/
def LeadsBefore (m : Parser) (cs : List Char) (m' : Parser) : Prop :=
  ∀ rest, (∀ c ∈ rest.head?, IsStop c) → m.run (cs ++ rest) = m'.run rest

/-- A text that is accepted is read to its end. -/
theorem Accepted.run_init (t : Accepted) : Parser.init.run t.text.toList = some t.predicate := by
  have h := t.parsed
  rw [parse] at h
  split at h
  · exact absurd h nofun
  · split at h
    · exact absurd h nofun
    · next hrun => rw [hrun, Except.ok.inj h]

namespace LeadsTo

variable {m m' m'' : Parser} {cs ds : List Char}

theorem append (h : LeadsTo m cs m') (h' : LeadsTo m' ds m'') : LeadsTo m (cs ++ ds) m'' := by
  intro rest
  rw [List.append_assoc, h, h']

/-- A blank is skipped. -/
theorem blank (m : Parser) : LeadsTo m [' '] m :=
  Parser.run_append_of_layout (List.forall_mem_singleton.2 rfl) m

theorem before (h : LeadsTo m cs m') (h' : LeadsBefore m' ds m'') : LeadsBefore m (cs ++ ds) m'' := by
  intro rest hrest
  rw [List.append_assoc, h, h' rest hrest]

theorem leadsBefore (h : LeadsTo m cs m') : LeadsBefore m cs m' := fun rest _ => h rest

end LeadsTo

namespace LeadsBefore

variable {m m' m'' : Parser} {cs ds : List Char}

/-- A token is read that is the whole text. -/
theorem token {t : Token} (hread : Token.read? m.awaited cs = some (t, []))
    (hnext : m.next? t = some m') : LeadsBefore m cs m' := by
  intro rest hrest
  have happend : Token.read? m.awaited (cs ++ rest) = some (t, rest) := by
    cases rest with
    | nil => rwa [List.append_nil]
    | cons c rest => exact Token.read?_append (hrest c rfl) hread rest
  have hskip : skipLayout (cs ++ rest) = cs ++ rest := by
    cases cs with
    | nil => exact absurd (Token.length_lt_of_read? hread) (Nat.lt_irrefl 0)
    | cons c cs =>
      refine List.dropWhile_cons_of_neg fun hc => ?_
      exact absurd ((Token.read?_cons_of_isLayout hc _ _).symm.trans hread) nofun
  exact Parser.run_of_read (hskip.symm ▸ happend) hnext

/-- A text goes on where its last token ends. -/
theorem append (h : LeadsBefore m cs m') {c : Char} (hc : IsStop c)
    (h' : LeadsTo m' (c :: ds) m'') : LeadsTo m (cs ++ c :: ds) m'' := by
  intro rest
  have hstop : ∀ d ∈ (c :: ds ++ rest).head?, IsStop d := by
    intro d hd
    obtain rfl : c = d := Option.some.inj hd
    exact hc
  rw [List.append_assoc, h _ hstop, h']

/-- A word with a blank on both sides follows a text. -/
theorem spaced {text word : String} (h : LeadsBefore m text.toList m')
    (hword : LeadsTo m' (word.toList ++ [' ']) m'') :
    LeadsTo m (text ++ " " ++ word ++ " ").toList m'' := by
  have htext : (text ++ " " ++ word ++ " ").toList =
      text.toList ++ ' ' :: (word.toList ++ [' ']) := by
    simp [List.append_assoc]
  rw [htext]
  exact h.append (.inr rfl) ((LeadsTo.blank m').append hword)

/-- The text is read to its end. -/
theorem run_eq_some {p : Predicate} (h : LeadsBefore m cs m') (hfinish : m'.finish? = some p) :
    m.run cs = some p := by
  have hrun := h [] nofun
  rw [List.append_nil] at hrun
  rw [hrun, Parser.run_eq]
  exact hfinish

end LeadsBefore

namespace LeadsTo

variable {m m' m'' : Parser} {cs ds : List Char}

/-- A text between parentheses is an operand. -/
theorem enclosed (t : Accepted) (group : Group) (outer : List Group) :
    LeadsTo { group, outer, position := .beforeOperand } t.enclosed.toList
      { group, outer, position := .after t.predicate } := by
  intro rest
  have htext : t.enclosed.toList ++ rest = '(' :: (t.text.toList ++ ')' :: rest) := by
    simp [Accepted.enclosed]
  rw [htext, Parser.run_enclosed t.run_init]

/-- A keyword is read in any case, with the blank behind it. -/
theorem keyword {word : String} {t : Token} (kw : Keyword word)
    (hmem : (word, t) ∈ m.awaited.keywords) (hnext : m.next? t = some m') :
    LeadsTo m (kw.text.toList ++ [' ']) m' := by
  intro rest
  have hblank : ∀ c ∈ (' ' :: rest).head?, isIdentifierPart c = false := by
    intro c hc
    obtain rfl := Option.some.inj hc
    decide
  have hread : Token.read? m.awaited (skipLayout (kw.text.toList ++ ' ' :: rest)) =
      some (t, ' ' :: rest) := by
    rw [kw.skipLayout_append hmem]
    exact kw.read? hmem hblank
  rw [List.append_assoc, List.singleton_append, Parser.run_of_read hread hnext]
  exact blank m' rest

/-- A sign is read after an operand, with the blank behind it. -/
theorem sign (s : Sign) (hawaited : m.awaited = .connective)
    (hnext : m.next? (.comparison s.comparison) = some m') :
    LeadsTo m (s.text.toList ++ [' ']) m' := by
  intro rest
  have hread := hawaited ▸ s.read? rest
  rw [List.append_assoc, List.singleton_append, Parser.run_of_read hread hnext]
  exact blank m' rest

/-- A word with a blank on both sides follows a text. -/
theorem spaced {text word : String} (h : LeadsTo m text.toList m')
    (hword : LeadsTo m' (word.toList ++ [' ']) m'') :
    LeadsTo m (text ++ " " ++ word ++ " ").toList m'' :=
  h.leadsBefore.spaced hword

/-- A keyword is read at the end of a text. -/
theorem run_keyword {word : String} {t : Token} {p : Predicate} (h : LeadsTo m cs m')
    (kw : Keyword word) (hmem : (word, t) ∈ m'.awaited.keywords) (hnext : m'.next? t = some m'')
    (hfinish : m''.finish? = some p) : m.run (cs ++ kw.text.toList) = some p := by
  have hread : Token.read? m'.awaited (skipLayout kw.text.toList) = some (t, []) := by
    rw [← List.append_nil kw.text.toList, kw.skipLayout_append hmem]
    exact kw.read? hmem nofun
  rw [h, Parser.run_of_read hread hnext, Parser.run_eq]
  exact hfinish

/-- The text is read to its end. -/
theorem run_eq_some {p : Predicate} (h : LeadsTo m cs m') (hfinish : m'.finish? = some p) :
    m.run cs = some p :=
  h.leadsBefore.run_eq_some hfinish

end LeadsTo

/-! ## Chains -/

/-- Reading the text leads behind the last operand of the conjunction `p`, where the disjunction
`d` stands before it. -/
def ReadsConjunction (d : Option Predicate) (text : String) (p : Predicate) : Prop :=
  ∃ c n operand,
    LeadsTo ⟨⟨d, none, 0, none⟩, [], .beforeOperand⟩ text.toList
      ⟨⟨d, c, n, none⟩, [], .after operand⟩ ∧
    Group.conjoined ⟨d, c, n, none⟩ operand = p

/-- Reading the text leads behind the last operand of the disjunction `p`. -/
def ReadsDisjunction (text : String) (p : Predicate) : Prop :=
  ∃ d c n operand,
    LeadsTo .init text.toList ⟨⟨d, c, n, none⟩, [], .after operand⟩ ∧
    Group.disjoined ⟨d, c, n, none⟩ operand = p

/-- The number of negations before an item. -/
def Item.negations (i : Item) : Nat :=
  match i.negation with
  | none => 0
  | some _ => 1

theorem Item.negate_negations (i : Item) :
    Group.negate i.negations i.operand.predicate = i.condition.predicate := by
  obtain ⟨negation, operand⟩ := i
  cases negation <;> rfl

theorem Item.leadsTo (i : Item) (d c : Option Predicate) :
    LeadsTo ⟨⟨d, c, 0, none⟩, [], .beforeOperand⟩ i.text.toList
      ⟨⟨d, c, i.negations, none⟩, [], .after i.operand.predicate⟩ := by
  obtain ⟨negation, operand⟩ := i
  cases negation with
  | none => exact LeadsTo.enclosed operand _ _
  | some kw =>
    have htext : (Item.text ⟨some kw, operand⟩).toList =
        (kw.text.toList ++ [' ']) ++ operand.enclosed.toList := by
      simp [Item.text]
    rw [htext]
    exact (LeadsTo.keyword kw (t := .not) List.mem_cons_self rfl).append
      (LeadsTo.enclosed operand _ _)

/-- A conjunction goes on by one more item. -/
theorem ReadsConjunction.and {d : Option Predicate} {text : String} {left : Condition}
    (h : ReadsConjunction d text left.predicate) (kw : Keyword "and") (i : Item) :
    ReadsConjunction d (text ++ " " ++ kw.text ++ " " ++ i.text)
      (Condition.both (.condition left) (.condition i.condition)).predicate := by
  obtain ⟨c, n, operand, hleads, hconjoined⟩ := h
  have hmem : ("and", Token.and) ∈ Awaited.connective.keywords := by decide
  refine ⟨some left.predicate, i.negations, i.operand.predicate, ?_, ?_⟩
  · have hnext : Parser.next? ⟨⟨d, c, n, none⟩, [], .after operand⟩ .and =
        some ⟨⟨d, some left.predicate, 0, none⟩, [], .beforeOperand⟩ := by
      rw [← hconjoined]
      rfl
    rw [String.toList_append]
    exact (hleads.spaced (.keyword kw hmem hnext)).append (i.leadsTo d _)
  · exact congrArg (Predicate.conj left.predicate) i.negate_negations

theorem Conjunction.reads (c : Conjunction) (d : Option Predicate) :
    ReadsConjunction d c.text c.condition.predicate :=
  Chain.reads .both Item.condition
    (P := fun text condition => ReadsConjunction d text condition.predicate) c
    ⟨none, _, _, c.first.leadsTo d none, c.first.negate_negations⟩ fun _ _ h kw i => h.and kw i

/-- A disjunction goes on by one more conjunction. -/
theorem ReadsDisjunction.or {text : String} {left : Condition}
    (h : ReadsDisjunction text left.predicate) (kw : Keyword "or") (right : Conjunction) :
    ReadsDisjunction (text ++ " " ++ kw.text ++ " " ++ right.text)
      (Condition.either (.condition left) (.condition right.condition)).predicate := by
  obtain ⟨d, c, n, operand, hleads, hdisjoined⟩ := h
  obtain ⟨c', n', operand', hleads', hconjoined⟩ := right.reads (some left.predicate)
  have hmem : ("or", Token.or) ∈ Awaited.connective.keywords := by decide
  refine ⟨some left.predicate, c', n', operand', ?_, ?_⟩
  · have hnext : Parser.next? ⟨⟨d, c, n, none⟩, [], .after operand⟩ .or =
        some ⟨⟨some left.predicate, none, 0, none⟩, [], .beforeOperand⟩ := by
      rw [← hdisjoined]
      rfl
    rw [String.toList_append]
    exact (hleads.spaced (.keyword kw hmem hnext)).append hleads'
  · exact congrArg (Predicate.disj left.predicate) hconjoined

theorem Disjunction.reads (c : Disjunction) : ReadsDisjunction c.text c.condition.predicate := by
  obtain ⟨c', n, operand, hleads, hconjoined⟩ := c.first.reads none
  exact Chain.reads .either Conjunction.condition
    (P := fun text condition => ReadsDisjunction text condition.predicate) c
    ⟨none, c', n, operand, hleads, hconjoined⟩ fun _ _ h kw right => h.or kw right

/-! ## Parsing compositions -/

theorem mem_dropWhile_of_neg {α : Type} {p : α → Bool} {x : α} {xs : List α} (hmem : x ∈ xs)
    (hx : p x = false) : x ∈ xs.dropWhile p := by
  induction xs with
  | nil => exact hmem
  | cons y ys ih =>
    rw [List.dropWhile_cons]
    split
    · next hy =>
      obtain rfl | hmem := List.mem_cons.1 hmem
      · exact absurd hy (Bool.eq_false_iff.1 hx)
      · exact ih hmem
    · exact hmem

/-- A text that is not blank and is read to its end is accepted. -/
theorem parse_of_mem {text : String} {p : Predicate} {c : Char} (hmem : c ∈ text.toList)
    (hblank : isBlank c = false) (hrun : Parser.init.run text.toList = some p) :
    parse text = .ok p := by
  have htrim : c ∈ trim text.toList :=
    List.mem_reverse.2
      (mem_dropWhile_of_neg (List.mem_reverse.2 (mem_dropWhile_of_neg hmem hblank)) hblank)
  rw [parse, List.isEmpty_eq_false_iff.2 (List.ne_nil_of_mem htrim), hrun]
  rfl

/-- A text with a parenthesis that is read to its end is accepted. -/
theorem parse_of_run {text : String} {p : Predicate} (hmem : '(' ∈ text.toList)
    (hrun : Parser.init.run text.toList = some p) : parse text = .ok p :=
  parse_of_mem hmem (by decide) hrun

theorem Accepted.paren_mem_enclosed (t : Accepted) : '(' ∈ t.enclosed.toList := by
  simp [Accepted.enclosed]

theorem Disjunction.paren_mem_text (c : Disjunction) : '(' ∈ c.text.toList := by
  have hitem (i : Item) : '(' ∈ i.text.toList := by
    obtain ⟨negation, operand⟩ := i
    cases negation with
    | none => exact operand.paren_mem_enclosed
    | some kw => simp [Item.text, operand.paren_mem_enclosed]
  have hconjunction (c : Conjunction) : '(' ∈ c.text.toList :=
    Chain.reads .both Item.condition (P := fun text _ => '(' ∈ text.toList) c
      (hitem c.first) fun _ _ h _ _ => by simp [h]
  exact Chain.reads .either Conjunction.condition (P := fun text _ => '(' ∈ text.toList) c
    (hconjunction c.first) fun _ _ h _ _ => by simp [h]

/-- A disjunction of conjunctions of texts and their negations, nested to the left. -/
theorem parse_disjunction (c : Disjunction) : parse c.text = .ok c.condition.predicate := by
  obtain ⟨d, c', n, operand, hleads, hdisjoined⟩ := c.reads
  refine parse_of_run c.paren_mem_text (hleads.run_eq_some ?_)
  exact congrArg some hdisjoined

/-- Texts between parentheses are composed to the predicates that are built from their conditions
by the connectives, the null tests and the comparisons: a text by itself, a conjunction, a
disjunction, a negation, both null tests, a comparison, and any disjunction of conjunctions of
texts and their negations, which are nested to the left. -/
theorem parse_composed (t u : Accepted) :
    parse t.enclosed = .ok t.predicate ∧
      (∀ kw : Keyword "and", parse (t.enclosed ++ " " ++ kw.text ++ " " ++ u.enclosed) =
        .ok (Condition.both (.condition t.condition) (.condition u.condition)).predicate) ∧
      (∀ kw : Keyword "or", parse (t.enclosed ++ " " ++ kw.text ++ " " ++ u.enclosed) =
        .ok (Condition.either (.condition t.condition) (.condition u.condition)).predicate) ∧
      (∀ kw : Keyword "not", parse (kw.text ++ " " ++ t.enclosed) =
        .ok t.condition.opposite.predicate) ∧
      (∀ (kw : Keyword "is") (kw' : Keyword "null"),
        parse (t.enclosed ++ " " ++ kw.text ++ " " ++ kw'.text) =
          .ok t.condition.isNull.predicate) ∧
      (∀ (kw : Keyword "is") (kw' : Keyword "not") (kw'' : Keyword "null"),
        parse (t.enclosed ++ " " ++ kw.text ++ " " ++ kw'.text ++ " " ++ kw''.text) =
          .ok t.condition.isNotNull.predicate) ∧
      (∀ s : Sign, parse (t.enclosed ++ " " ++ s.text ++ " " ++ u.enclosed) =
        .ok (Condition.compare s.comparison (.condition t.condition)
          (.condition u.condition)).predicate) ∧
      ∀ groups : Disjunction, parse groups.text = .ok groups.condition.predicate := by
  have henclosed (t : Accepted) (group : Group) := LeadsTo.enclosed t group []
  have hparen : '(' ∈ t.enclosed.toList := t.paren_mem_enclosed
  have his : ("is", Token.is) ∈ Awaited.connective.keywords := by decide
  have hnot : ("not", Token.not) ∈ Awaited.nullTest.keywords := by decide
  have hnull : ("null", Token.null) ∈ Awaited.nullTest.keywords := by decide
  have hnull' : ("null", Token.null) ∈ Awaited.null.keywords := by decide
  refine ⟨?_, ?_, ?_, ?_, ?_, ?_, ?_, parse_disjunction⟩
  · exact parse_disjunction ⟨⟨⟨none, t⟩, []⟩, []⟩
  · intro kw
    exact parse_disjunction ⟨⟨⟨none, t⟩, [(kw, ⟨none, u⟩)]⟩, []⟩
  · intro kw
    exact parse_disjunction ⟨⟨⟨none, t⟩, []⟩, [(kw, ⟨⟨none, u⟩, []⟩)]⟩
  · intro kw
    exact parse_disjunction ⟨⟨⟨some kw, t⟩, []⟩, []⟩
  · intro kw kw'
    refine parse_of_run (by simp [hparen]) ?_
    rw [String.toList_append]
    exact ((henclosed t .init).spaced (.keyword kw his rfl)).run_keyword kw' hnull rfl rfl
  · intro kw kw' kw''
    have htext : (t.enclosed ++ " " ++ kw.text ++ " " ++ kw'.text ++ " " ++ kw''.text).toList =
        (t.enclosed ++ " " ++ kw.text ++ " ").toList ++ (kw'.text.toList ++ [' ']) ++
          kw''.text.toList := by
      simp [List.append_assoc]
    refine parse_of_run (by simp [hparen]) ?_
    rw [htext]
    exact (((henclosed t .init).spaced (.keyword kw his rfl)).append
      (.keyword kw' hnot rfl)).run_keyword kw'' hnull' rfl rfl
  · intro s
    refine parse_of_run (by simp [hparen]) ?_
    rw [String.toList_append]
    exact (((henclosed t .init).spaced (.sign s rfl rfl)).append (henclosed u _)).run_eq_some rfl

end GraphMotif.Predicate
