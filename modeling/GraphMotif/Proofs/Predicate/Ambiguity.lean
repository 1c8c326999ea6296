import GraphMotif.Proofs.Predicate.Tokens
import GraphMotif.Proofs.Value.Equality

/-!
# What the text of a predicate tells

The text of a predicate that was read from some text shows its tokens, so two such predicates have
the same text exactly if they have the same tokens. The tokens do not always tell the predicate:
only conjunctions and disjunctions stand between parentheses, and some columns are shown as
constants. Where only operands are compared and tested, and no column is named as a constant, the
parser makes the predicate again from its tokens.
-/

namespace GraphMotif.Predicate

variable {p q left right : Predicate} {t : Token} {ts : List Token} {m m' : Parser} {g : Group}
  {cs rest : List Char} {a : Awaited}

/-! ## What is read can be shown -/

/-- Whether the name or the constant of a token can be told from its text. -/
def Token.Showable : Token → Prop
  | column name => '\x60' ∉ name.toList
  | constant v => v ≠ .float .nan
  | _ => True

theorem toBinary64_ne_nan (d : Decimal) : d.toBinary64 ≠ .nan := by
  unfold Decimal.toBinary64
  split
  · exact Binary64.ofRatio_ne_nan _ _ _
  · split
    · nofun
    · split <;> exact Binary64.ofRatio_ne_nan _ _ _

theorem numberValue?_ne_nan {v : Value} (h : numberValue? cs = some v) : v ≠ .float .nan := by
  unfold numberValue? at h
  split at h
  · split at h
    · exact Option.some.inj h ▸ nofun
    · cases h
  · obtain ⟨d, -, rfl⟩ := Option.map_eq_some_iff.1 h
    exact fun heq => toBinary64_ne_nan d (Value.float.inj heq)

/-- A column between back quotes ends at the first of them. -/
theorem showable_of_readQuotedColumn? (h : readQuotedColumn? cs = some (t, rest)) :
    t.Showable := by
  simp only [readQuotedColumn?] at h
  split at h
  · cases h
  · split at h
    · cases h
    · obtain rfl := (Prod.mk.inj (Option.some.inj h)).1
      intro hmem
      rw [String.toList_ofList] at hmem
      exact absurd (List.mem_takeWhile_imp hmem) (by decide)

/-- An identifier has no back quote in it. -/
theorem notMem_of_readIdentifier? {name : List Char} (h : readIdentifier? cs = some (name, rest)) :
    '\x60' ∉ name := by
  cases cs with
  | nil => cases h
  | cons c cs =>
    rw [readIdentifier?] at h
    split at h
    · next hstart =>
      obtain ⟨rfl, -⟩ := Prod.mk.inj (Option.some.inj h)
      intro hmem
      rcases List.mem_cons.1 hmem with rfl | hmem
      · exact absurd hstart (by decide)
      · exact absurd (List.mem_takeWhile_imp hmem) (by decide)
    · cases h

theorem showable_of_readOperand? (h : readOperand? cs = some (t, rest)) : t.Showable := by
  unfold readOperand? at h
  split at h
  · exact (Prod.mk.inj (Option.some.inj h)).1 ▸ trivial
  · exact showable_of_readQuotedColumn? h
  · obtain ⟨read, -, heq⟩ := Option.map_eq_some_iff.1 h
    exact (Prod.mk.inj heq).1 ▸ nofun
  · obtain ⟨read, -, heq⟩ := Option.map_eq_some_iff.1 h
    exact (Prod.mk.inj heq).1 ▸ nofun
  · split at h
    · next name rest' hread =>
      obtain rfl := (Prod.mk.inj (Option.some.inj h)).1
      rw [Token.Showable, String.toList_ofList]
      exact notMem_of_readIdentifier? hread
    · simp only [readNumber?] at h
      split at h
      · cases h
      · obtain ⟨v, hvalue, heq⟩ := Option.map_eq_some_iff.1 h
        exact (Prod.mk.inj heq).1 ▸ numberValue?_ne_nan hvalue

theorem mem_of_readKeywords? {keywords : List (String × Token)}
    (h : readKeywords? cs keywords = some (t, rest)) : t ∈ keywords.map (·.2) := by
  induction keywords with
  | nil => cases h
  | cons keyword keywords ih =>
    rw [readKeywords?] at h
    split at h
    · exact (Prod.mk.inj (Option.some.inj h)).1 ▸ List.mem_cons_self
    · exact List.mem_cons_of_mem _ (ih h)

/-- The name or the constant of a token that was read can be told from its text. -/
theorem showable_of_read? (h : Token.read? a cs = some (t, rest)) : t.Showable := by
  rw [Token.read?] at h
  split at h
  · next read hread =>
    obtain rfl := Option.some.inj h
    have hkeywords : ∀ t ∈ a.keywords.map (·.2), t.Showable := by
      cases a <;> simp [Awaited.keywords, constantKeywords, Token.Showable]
    exact hkeywords t (mem_of_readKeywords? hread)
  · cases a with
    | operand | comparand => exact showable_of_readOperand? h
    | connective =>
      change readSign? cs = _ at h
      unfold readSign? at h
      split at h
      all_goals first
        | exact (Prod.mk.inj (Option.some.inj h)).1 ▸ trivial
        | cases h
    | nullTest | null => cases h

/-- Whether all that a group holds can be told from its text. -/
structure Group.Showable (g : Group) : Prop where
  disjunction : ∀ p ∈ g.disjunction, p.Showable
  conjunction : ∀ p ∈ g.conjunction, p.Showable
  comparison : ∀ c ∈ g.comparison, c.1.Showable

namespace Group.Showable

theorem init : Group.init.Showable := ⟨nofun, nofun, nofun⟩

theorem negate (h : p.Showable) (n : Nat) : (Group.negate n p).Showable := by
  induction n with
  | zero => exact h
  | succ n ih => exact ih

theorem compared (h : g.Showable) (hp : p.Showable) : (g.compared p).Showable := by
  unfold Group.compared
  split
  · exact hp
  · next hcomparison => exact ⟨h.comparison _ hcomparison, hp⟩

theorem conjoined (h : g.Showable) (hp : p.Showable) : (g.conjoined p).Showable := by
  unfold Group.conjoined
  split
  · exact negate hp _
  · next hconjunction => exact ⟨h.conjunction _ hconjunction, negate hp _⟩

theorem disjoined (h : g.Showable) (hp : p.Showable) : (g.disjoined p).Showable := by
  unfold Group.disjoined
  split
  · exact h.conjoined hp
  · next hdisjunction => exact ⟨h.disjunction _ hdisjunction, h.conjoined hp⟩

end Group.Showable

/-- What has been read of the current comparison. -/
def Position.operand? : Position → Option Predicate
  | beforeOperand => none
  | after p | afterIs p | afterIsNot p | afterTest p => some p

/-- Whether all that has been read can be told from its text. -/
structure Parser.Showable (m : Parser) : Prop where
  group : m.group.Showable
  outer : ∀ g ∈ m.outer, g.Showable
  operand : ∀ p ∈ m.position.operand?, p.Showable

namespace Parser.Showable

theorem complete? (h : m.Showable) (hcomplete : m.complete? = some p) : p.Showable := by
  unfold Parser.complete? at hcomplete
  split at hcomplete
  · next hposition =>
    exact Option.some.inj hcomplete ▸ h.group.compared (h.operand _ (hposition ▸ rfl))
  · next hposition => exact h.operand _ (hposition ▸ hcomplete)
  · cases hcomplete

theorem finish? (h : m.Showable) (hfinish : m.finish? = some p) : p.Showable := by
  rw [Parser.finish?] at hfinish
  split at hfinish
  · obtain ⟨q, hcomplete, rfl⟩ := Option.map_eq_some_iff.1 hfinish
    exact h.group.disjoined (h.complete? hcomplete)
  · cases hfinish

theorem connect? (h : m.Showable) (hp : p.Showable) (hconnect : m.connect? p t = some m') :
    m'.Showable := by
  obtain ⟨g, outer, position⟩ := m
  cases t with
  | and =>
    obtain rfl := Option.some.inj hconnect
    exact ⟨⟨h.group.disjunction, fun q hq => Option.some.inj hq ▸ h.group.conjoined hp, nofun⟩,
      h.outer, nofun⟩
  | or =>
    obtain rfl := Option.some.inj hconnect
    exact ⟨⟨fun q hq => Option.some.inj hq ▸ h.group.disjoined hp, nofun, nofun⟩, h.outer, nofun⟩
  | closeParen =>
    cases outer with
    | nil => cases hconnect
    | cons g' outer =>
      obtain rfl := Option.some.inj hconnect
      obtain ⟨hg', houter⟩ := List.forall_mem_cons.1 h.outer
      exact ⟨hg', houter, fun q hq => Option.some.inj hq ▸ h.group.disjoined hp⟩
  | _ => cases hconnect

/-- One more token whose text tells it. -/
theorem next? (h : m.Showable) (ht : t.Showable) (hnext : m.next? t = some m') : m'.Showable := by
  obtain ⟨g, outer, position⟩ := m
  have hmoved {position' : Position} (hoperand : ∀ p ∈ position'.operand?, p.Showable) :
      Parser.Showable ⟨g, outer, position'⟩ := ⟨h.group, h.outer, hoperand⟩
  have hread {p : Predicate} (hp : p.Showable) : ∀ q ∈ some p, q.Showable :=
    fun q hq => Option.some.inj hq ▸ hp
  have hguarded {c : Bool} {m₀ : Parser} (hnext : (if c then none else some m₀) = some m')
      (h₀ : m₀.Showable) : m'.Showable := by
    cases c with
    | true => cases hnext
    | false => exact Option.some.inj hnext ▸ h₀
  have hcomplete (hnext : (Parser.complete? ⟨g, outer, position⟩).bind
      (Parser.connect? ⟨g, outer, position⟩ · t) = some m') : m'.Showable := by
    obtain ⟨p, hp, hconnect⟩ := Option.bind_eq_some_iff.1 hnext
    exact h.connect? (h.complete? hp) hconnect
  cases position with
  | beforeOperand =>
    cases t with
    | openParen =>
      obtain rfl := Option.some.inj hnext
      exact ⟨.init, List.forall_mem_cons.2 ⟨h.group, h.outer⟩, nofun⟩
    | not =>
      exact hguarded hnext
        ⟨⟨h.group.disjunction, h.group.conjunction, h.group.comparison⟩, h.outer, h.operand⟩
    | column name => exact Option.some.inj hnext ▸ hmoved (hread ht)
    | constant v => exact Option.some.inj hnext ▸ hmoved (hread ht)
    | null =>
      have hnull : (Predicate.constant .null).Showable := nofun
      exact Option.some.inj hnext ▸ hmoved (hread hnull)
    | _ => cases hnext
  | after operand =>
    cases t with
    | comparison op =>
      have hleft : ∀ c ∈ some (operand, op), c.1.Showable := fun c hc =>
        Option.some.inj hc ▸ h.operand operand rfl
      exact hguarded hnext ⟨⟨h.group.disjunction, h.group.conjunction, hleft⟩, h.outer, nofun⟩
    | is => exact hguarded hnext (hmoved h.operand)
    | _ => exact hcomplete hnext
  | afterIs operand =>
    cases t with
    | not => exact Option.some.inj hnext ▸ hmoved h.operand
    | null =>
      have htest : (operand.isNull false).Showable := h.operand operand rfl
      exact Option.some.inj hnext ▸ hmoved (hread htest)
    | _ => cases hnext
  | afterIsNot operand =>
    cases t with
    | null =>
      have htest : (operand.isNull true).Showable := h.operand operand rfl
      exact Option.some.inj hnext ▸ hmoved (hread htest)
    | _ => cases hnext
  | afterTest test => exact hcomplete hnext

/-- What is parsed from a text can be told from its own text. -/
theorem run (h : m.Showable) (hrun : m.run cs = some p) : p.Showable := by
  induction hsize : cs.length using Nat.strong_induction_on generalizing m cs with
  | _ size ih =>
    obtain ⟨-, hfinish⟩ | ⟨t, rest, m', hread, hnext, hrun⟩ := Parser.run_cases hrun
    · exact h.finish? hfinish
    · have hlt : rest.length < size :=
        hsize ▸ Nat.lt_of_lt_of_le (Token.length_lt_of_read? hread) (length_skipLayout_le cs)
      exact ih rest.length hlt (h.next? (showable_of_read? hread) hnext) hrun rfl

end Parser.Showable

theorem Accepted.showable (t : Accepted) : t.predicate.Showable :=
  have hinit : Parser.init.Showable :=
    ⟨Group.Showable.init, fun _ h => (nomatch h), fun _ h => (nomatch h)⟩
  hinit.run t.run_init

/-! ## Parsing tokens -/

/-- Whether the tokens of a predicate tell it: no column is named as a constant, and only columns,
constants, conjunctions and disjunctions are compared or tested. -/
def isPlain : Predicate → Bool
  | column name => (constantNamed? name).isNone
  | constant _ => true
  | compare _ left right => left.isOperand && right.isOperand && left.isPlain && right.isPlain
  | conj left right | disj left right => left.isPlain && right.isPlain
  | neg operand => operand.isPlain
  | isNull operand _ => operand.isOperand && operand.isPlain

/-- The parser after some more tokens, if these can come next. -/
def Parser.feed? (m : Parser) (ts : List Token) : Option Parser := ts.foldlM Parser.next? m

theorem Parser.feed?_cons (m : Parser) (t : Token) (ts : List Token) :
    m.feed? (t :: ts) = (m.next? t).bind (·.feed? ts) := List.foldlM_cons

theorem Parser.feed?_append (m : Parser) (ts ts' : List Token) :
    m.feed? (ts ++ ts') = (m.feed? ts).bind (·.feed? ts') := List.foldlM_append

section Feeding

variable {d c : Option Predicate}

/-- The tokens are parsed as one operand. -/
def FeedsOperand (p : Predicate) : Prop :=
  ∀ group outer,
    Parser.feed? ⟨group, outer, .beforeOperand⟩ p.tokens = some ⟨group, outer, .after p⟩

/-- The tokens are parsed as what a conjunction may go on with. -/
def FeedsMember (p : Predicate) : Prop :=
  ∀ d c n outer, ∃ m,
    Parser.feed? ⟨⟨d, c, n, none⟩, outer, .beforeOperand⟩ p.tokens = some m ∧
      Behind d c n outer p m

theorem FeedsOperand.member (h : FeedsOperand p) : FeedsMember p := fun d c n outer =>
  ⟨_, h ⟨d, c, n, none⟩ outer, 0, none, .after p, p, rfl, rfl, rfl⟩

theorem FeedsMember.neg (h : FeedsMember p) : FeedsMember p.neg := by
  intro d c n outer
  obtain ⟨m, hfeed, k, comparison, position, q, rfl, hcomplete, rfl⟩ := h d c (n + 1) outer
  refine ⟨_, hfeed, k + 1, comparison, position, q, ?_, hcomplete, rfl⟩
  rw [Nat.add_assoc, Nat.add_comm 1]

theorem FeedsOperand.compare (hleft : FeedsOperand left) (hright : FeedsOperand right)
    (op : Comparison) : FeedsMember (compare op left right) := by
  intro d c n outer
  refine ⟨⟨⟨d, c, n, some (left, op)⟩, outer, .after right⟩, ?_, 0, some (left, op), .after right,
    Predicate.compare op left right, rfl, rfl, rfl⟩
  rw [tokens, Parser.feed?_append, hleft]
  exact hright _ outer

theorem FeedsOperand.isNull (h : FeedsOperand p) (negated : Bool) :
    FeedsMember (isNull p negated) := by
  intro d c n outer
  refine ⟨⟨⟨d, c, n, none⟩, outer, .afterTest (Predicate.isNull p negated)⟩, ?_, 0, none, _, _, rfl,
    rfl, rfl⟩
  rw [tokens, Parser.feed?_append, h]
  cases negated <;> rfl

/-- Two predicates that are joined by a connective between parentheses are one operand. -/
theorem feedsOperand_joined (hleft : FeedsMember left) (hright : FeedsMember right)
    (ht : t ∈ [.and, .or, .closeParen])
    (hnext : ∀ outer, Parser.connect? ⟨.init, outer, .after left⟩ left t =
      some ⟨⟨d, c, 0, none⟩, outer, .beforeOperand⟩)
    (hjoined : Group.disjoined ⟨d, c, 0, none⟩ right = p)
    (htokens : p.tokens = .openParen :: (left.tokens ++ t :: (right.tokens ++ [.closeParen]))) :
    FeedsOperand p := by
  intro group outer
  obtain ⟨m, hfeed, hbehind⟩ := hleft none none 0 (group :: outer)
  obtain ⟨m', hfeed', hbehind'⟩ := hright d c 0 (group :: outer)
  have hinside : Parser.feed? ⟨.init, group :: outer, .beforeOperand⟩ left.tokens = some m := hfeed
  have hopen : Parser.next? ⟨group, outer, .beforeOperand⟩ .openParen =
      some ⟨.init, group :: outer, .beforeOperand⟩ := rfl
  have hconnect := (hbehind.next? ht).trans (hnext (group :: outer))
  have hclose : m'.next? .closeParen = some ⟨group, outer, .after p⟩ := by
    rw [hbehind'.next? (by decide), ← hjoined]
    rfl
  have hlast : m'.feed? [.closeParen] = some ⟨group, outer, .after p⟩ := by
    rw [Parser.feed?_cons, hclose]
    rfl
  rw [htokens, Parser.feed?_cons, hopen, Option.bind_some, Parser.feed?_append, hinside,
    Option.bind_some, Parser.feed?_cons, hconnect, Option.bind_some, Parser.feed?_append, hfeed',
    Option.bind_some, hlast]

/-- The tokens of a plain predicate are parsed as it was written. -/
theorem feeds_of_isPlain (h : p.isPlain = true) :
    FeedsMember p ∧ (p.isOperand = true → FeedsOperand p) := by
  have hoperand {p : Predicate} (hp : FeedsOperand p) :
      FeedsMember p ∧ (p.isOperand = true → FeedsOperand p) := ⟨hp.member, fun _ => hp⟩
  have hmember {p : Predicate} (hp : FeedsMember p) (hother : p.isOperand = false) :
      FeedsMember p ∧ (p.isOperand = true → FeedsOperand p) :=
    ⟨hp, fun hoperand => absurd hoperand (Bool.eq_false_iff.1 hother)⟩
  induction p with
  | column name =>
    have htoken : Token.ofColumn name = .column name := by
      rw [Token.ofColumn, Option.isNone_iff_eq_none.1 h]
    refine hoperand fun group outer => ?_
    rw [tokens, htoken]
    rfl
  | constant v => exact hoperand fun group outer => by cases v <;> rfl
  | compare op left right ihleft ihright =>
    simp only [isPlain, Bool.and_eq_true] at h
    obtain ⟨⟨⟨hleft, hright⟩, hplain⟩, hplain'⟩ := h
    exact hmember (((ihleft hplain).2 hleft).compare ((ihright hplain').2 hright) op) rfl
  | conj left right ihleft ihright =>
    obtain ⟨hleft, hright⟩ := Bool.and_eq_true_iff.1 h
    exact hoperand (feedsOperand_joined (t := .and) (d := none) (c := some left)
      (ihleft hleft).1 (ihright hright).1 (by decide) (fun _ => rfl) rfl rfl)
  | disj left right ihleft ihright =>
    obtain ⟨hleft, hright⟩ := Bool.and_eq_true_iff.1 h
    exact hoperand (feedsOperand_joined (t := .or) (d := some left) (c := none)
      (ihleft hleft).1 (ihright hright).1 (by decide) (fun _ => rfl) rfl rfl)
  | neg operand ih => exact hmember (ih h).1.neg rfl
  | isNull operand negated ih =>
    obtain ⟨htested, hplain⟩ := Bool.and_eq_true_iff.1 h
    exact hmember (((ih hplain).2 htested).isNull negated) rfl

end Feeding

/-- A plain predicate is parsed from its tokens. -/
theorem feed?_tokens (h : p.isPlain = true) :
    (Parser.init.feed? p.tokens).bind Parser.finish? = some p := by
  obtain ⟨m, hfeed, hbehind⟩ := (feeds_of_isPlain h).1 none none 0 []
  have hinit : Parser.init.feed? p.tokens = some m := hfeed
  rw [hinit, Option.bind_some, hbehind.finish?]

theorem eq_of_tokens_eq (hp : p.isPlain = true) (hq : q.isPlain = true)
    (h : p.tokens = q.tokens) : p = q := by
  have hread := feed?_tokens hp
  rw [h, feed?_tokens hq] at hread
  exact (Option.some.inj hread).symm

/-! ## Texts and predicates -/

/-- Two predicates that were read from texts have the same text exactly if they have the same
tokens, so plain ones only if they are the same predicate. -/
theorem toText_determines (a b : Accepted) :
    (a.predicate.toText = b.predicate.toText ↔ a.predicate.tokens = b.predicate.tokens) ∧
      (a.predicate.isPlain = true → b.predicate.isPlain = true →
        a.predicate.toText = b.predicate.toText → a.predicate = b.predicate) := by
  have htokens := toText_eq_iff a.showable b.showable
  exact ⟨htokens, fun ha hb htext => eq_of_tokens_eq ha hb (htokens.1 htext)⟩

/-- Two spellings of one plain predicate. -/
theorem toText_determines_spellings :
    ∃ a b : Accepted, a.text = "(Not (x is null) AND \x60y\x60 <> 'it')" ∧
      b.text = "not x IS NULL and y != \x22it\x22" ∧ a.predicate = b.predicate := by
  have ha : parse "(Not (x is null) AND \x60y\x60 <> 'it')" = .ok (.conj
      (.neg (.isNull (.column "x") false)) (.compare .ne (.column "y") (.constant (.text "it")))) :=
    by decide +kernel
  have hb : parse "not x IS NULL and y != \x22it\x22" = .ok (.conj
      (.neg (.isNull (.column "x") false)) (.compare .ne (.column "y") (.constant (.text "it")))) :=
    by decide +kernel
  obtain ⟨-, hplain⟩ := toText_determines ⟨_, _, ha⟩ ⟨_, _, hb⟩
  exact ⟨⟨_, _, ha⟩, ⟨_, _, hb⟩, rfl, rfl, hplain rfl rfl rfl⟩

/-- One row with a null. -/
def nullTable : Table String where
  headings := [⟨"x", .mixed⟩]
  rows := [[.null]]
  rectangular := by simp

/-- Different predicates that were read from texts may have the same text: a negation tested for
null and a negated null test, which are true on other rows, a column named TRUE and that constant,
and a column named inf and a constant too large for a number. -/
theorem exists_toText_eq_and_ne :
    (∃ p q, parse "NOT x IS NULL" = .ok p ∧ parse "(NOT x) IS NULL" = .ok q ∧
      p.toText = q.toText ∧ p ≠ q ∧ p.mask nullTable = .ok [false] ∧
      q.mask nullTable = .ok [true]) ∧
    (∃ p q, parse "TRUE" = .ok p ∧ parse "\x60TRUE\x60" = .ok q ∧ p.toText = q.toText ∧ p ≠ q) ∧
    ∃ p q, parse "x = 1e999" = .ok p ∧ parse "x = inf" = .ok q ∧ p.toText = q.toText ∧ p ≠ q := by
  refine ⟨⟨.neg (.isNull (.column "x") false), .isNull (.neg (.column "x")) false,
      ?_, ?_, by decide, by decide, by decide, by decide⟩,
    ⟨.constant (.bool true), .column "TRUE", ?_, ?_, by decide, by decide⟩,
    .compare .eq (.column "x") (.constant (.float (.infinity false))),
    .compare .eq (.column "x") (.column "inf"), ?_, ?_, by decide, by decide⟩
  all_goals decide +kernel

end GraphMotif.Predicate
