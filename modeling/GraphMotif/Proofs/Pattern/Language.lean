import GraphMotif.Pattern.Parse
import GraphMotif.Proofs.Pattern.Names
import GraphMotif.Proofs.Pattern.Reading

/-!
# The language of patterns

A pattern is written as the tokens of its clauses with a semicolon between any two of them, and with
layout at will. Parsing accepts exactly the texts that lay these tokens out, and returns the
pattern: what is parsed is laid out by the text (`laid_of_parse`), and every text that lays out a
pattern is read and passes the check (`parse_of_laid`).
-/

namespace GraphMotif

/-! ## Parsing -/

open Pattern

/-- The way a clause is written. -/
def Clause.written : Clause → Written
  | .vertex name => .vertex false name
  | .edge e => .forward e.negated e.src e.edge e.dst

/-- The tokens of a pattern. -/
def Pattern.tokens (p : Pattern) : List Token := clauseTokens (p.clauses.map Clause.written)

theorem Pattern.Written.clause?_eq_some_iff {w : Written} {c : Clause} :
    w.clause? = some c ↔ w = c.written := by
  cases w with
  | vertex n a => cases n <;> cases c <;> simp [Written.clause?, Clause.written, eq_comm]
  | forward n a e b =>
    cases c with
    | vertex name => simp [Written.clause?, Clause.written]
    | edge f =>
      obtain ⟨src, edge, dst, negated⟩ := f
      simp only [Written.clause?, Clause.written, Option.some.injEq, Clause.edge.injEq,
        EdgeClause.mk.injEq, Written.forward.injEq]
      exact ⟨fun ⟨ha, he, hb, hn⟩ => ⟨hn, ha, he, hb⟩, fun ⟨hn, ha, he, hb⟩ => ⟨ha, he, hb, hn⟩⟩
  | backward n a e b => cases c <;> simp [Written.clause?, Clause.written]

/-- Checking returns the clauses that were written. -/
theorem Pattern.check_eq_ok_iff {text : String} {placed : List Placed} {clauses : List Clause} :
    check text placed = .ok clauses ↔ placed.map (·.written) = clauses.map Clause.written := by
  induction placed generalizing clauses with
  | nil => cases clauses <;> simp [check]
  | cons x placed ih =>
    obtain ⟨offset, w⟩ := x
    simp only [check, List.map_cons]
    cases hw : w.clause? with
    | none =>
      cases clauses with
      | nil => simp
      | cons c clauses =>
        have hne : w ≠ c.written := fun h => by
          rw [Written.clause?_eq_some_iff.2 h] at hw
          exact absurd hw nofun
        simp [hne]
    | some c =>
      -- a clause is written in one way, so the first clauses agree
      obtain rfl := Written.clause?_eq_some_iff.1 hw
      have hinj : ∀ d : Clause, c.written = d.written ↔ c = d := fun d => by
        rw [← Written.clause?_eq_some_iff, hw, Option.some.injEq]
      cases clauses with
      | nil => cases check text placed <;> simp [Except.map]
      | cons d clauses =>
        rw [List.map_cons, List.cons.injEq, hinj, ← ih]
        cases check text placed with
        | error e => simp [Except.map]
        | ok rest => simp [Except.map]

theorem Pattern.forall_mem_clauseTokens {P : Token → Prop} (hsemicolon : P .semicolon)
    (ws : List Written) :
    (∀ t ∈ clauseTokens ws, P t) ↔ ∀ w ∈ ws, ∀ t ∈ w.tokens, P t := by
  induction ws with
  | nil => simp [clauseTokens]
  | cons w ws ih =>
    cases ws with
    | nil => simp [clauseTokens]
    | cons v ws =>
      rw [clauseTokens_cons_cons, List.forall_mem_append, List.forall_mem_cons, ih,
        List.forall_mem_cons (l := v :: ws)]
      exact and_congr_right fun _ => and_iff_right hsemicolon

theorem Clause.forall_mem_tokens_written (c : Clause) :
    (∀ t ∈ c.written.tokens, t.WellSpelled) ↔
      ∀ kind, ∀ name ∈ c.names kind, isIdentifier name.toList = true := by
  -- slot by slot: only names have a spelling of their own
  have hkind : ∀ Q : Element → Prop, (∀ kind, Q kind) ↔ Q .vertex ∧ Q .edge := fun Q =>
    ⟨fun h => ⟨h .vertex, h .edge⟩, fun h kind => by cases kind <;> simp only [h]⟩
  have hslot : ∀ s : Slot, (∀ t ∈ Written.slotTokens s, t.WellSpelled) ↔
      ∀ name ∈ s.toList, isIdentifier name.toList = true := fun s => by
    cases s <;> simp [Written.slotTokens, Token.WellSpelled]
  have hbang : ∀ n, ∀ t ∈ Written.bangTokens n, t.WellSpelled := fun n t ht => by
    cases n with
    | false => exact absurd ht List.not_mem_nil
    | true =>
      obtain rfl := List.mem_singleton.1 ht
      trivial
  have hvertex : ∀ s : Slot, (∀ t ∈ Written.vertexTokens s, t.WellSpelled) ↔
      ∀ name ∈ s.toList, isIdentifier name.toList = true := fun s => by
    rw [Written.vertexTokens, List.forall_mem_append, List.forall_mem_cons, hslot,
      List.forall_mem_singleton]
    exact ⟨fun h => h.1.2, fun h => ⟨⟨trivial, h⟩, trivial⟩⟩
  have hedge : ∀ s : Slot, (∀ t ∈ Written.edgeTokens s, t.WellSpelled) ↔
      ∀ name ∈ s.toList, isIdentifier name.toList = true := fun s => by
    rw [Written.edgeTokens, List.forall_mem_append, List.forall_mem_cons, hslot,
      List.forall_mem_singleton]
    exact ⟨fun h => h.1.2, fun h => ⟨⟨trivial, h⟩, trivial⟩⟩
  rw [hkind]
  cases c with
  | vertex name =>
    rw [Clause.written, Written.tokens, List.forall_mem_append, hvertex]
    exact ⟨fun h => ⟨h.2, fun _ h => absurd h List.not_mem_nil⟩, fun h => ⟨hbang false, h.1⟩⟩
  | edge e =>
    rw [Clause.written, Written.tokens, List.forall_mem_append, List.forall_mem_append,
      List.forall_mem_append, List.forall_mem_cons, List.forall_mem_cons, hvertex, hvertex, hedge,
      Clause.names, Clause.names, List.forall_mem_append]
    constructor
    · rintro ⟨⟨⟨-, hsrc⟩, -, hname⟩, -, hdst⟩
      exact ⟨⟨hsrc, hdst⟩, hname⟩
    · rintro ⟨⟨hsrc, hdst⟩, hname⟩
      exact ⟨⟨⟨hbang e.negated, hsrc⟩, trivial, hname⟩, trivial, hdst⟩

theorem Pattern.forall_mem_tokens (p : Pattern) :
    (∀ t ∈ p.tokens, t.WellSpelled) ↔ p.UsesIdentifiers := by
  rw [Pattern.tokens, forall_mem_clauseTokens (P := Token.WellSpelled) trivial,
    List.forall_mem_map]
  exact forall₂_congr fun c _ => c.forall_mem_tokens_written

/-- What is parsed is laid out by the text. -/
theorem Pattern.laid_of_parse {text : String} {p : Pattern} (h : Pattern.parse text = .ok p) :
    p.UsesIdentifiers ∧ Laid p.tokens text.toList := by
  simp only [parse] at h
  cases hread : readClauses text.toList with
  | error position =>
    rw [hread] at h
    exact absurd h nofun
  | ok placed =>
    rw [hread] at h
    cases hcheck : check text placed with
    | error e =>
      simp only [hcheck, Except.map] at h
      exact absurd h nofun
    | ok clauses =>
      simp only [hcheck, Except.map, Except.ok.injEq] at h
      subst h
      obtain ⟨hspelled, hlaid⟩ := spells_iff.2 ⟨placed, hread, check_eq_ok_iff.1 hcheck⟩
      exact ⟨(Pattern.forall_mem_tokens ⟨clauses⟩).1 hspelled, hlaid⟩

/-- Every text that lays out a pattern is parsed. -/
theorem Pattern.parse_of_laid {text : String} {p : Pattern} (hnames : p.UsesIdentifiers)
    (hlaid : Laid p.tokens text.toList) : Pattern.parse text = .ok p := by
  obtain ⟨placed, hread, hplaced⟩ := spells_iff.1 ⟨(Pattern.forall_mem_tokens p).2 hnames, hlaid⟩
  have hcheck : check text placed = .ok p.clauses := check_eq_ok_iff.2 hplaced
  simp only [parse, hread, hcheck, Except.map]

/-- The text of a clause is its tokens, one after the other. -/
theorem Pattern.Written.toList_toText (w : Written) :
    w.toText.toList = w.tokens.flatMap Token.spelling := by
  have hslot : ∀ s : Slot,
      (Written.slotTokens s).flatMap Token.spelling = s.toText.toList := fun s => by
    cases s <;> simp [Written.slotTokens, Token.spelling, Slot.toText]
  cases w with
  | vertex negated name =>
    cases negated <;>
      simp [toText, tokens, vertexTokens, bangTokens, hslot, Token.spelling]
  | forward negated src edge dst =>
    cases negated <;>
      simp [toText, EdgeClause.toText, tokens, vertexTokens, edgeTokens, bangTokens, hslot,
        Token.spelling]
  | backward negated dst edge src =>
    cases negated <;>
      simp [toText, tokens, vertexTokens, edgeTokens, bangTokens, hslot, Token.spelling]

/-- A clause has one text, as a clause of a pattern and as it is written. -/
theorem Clause.toText_written (c : Clause) : c.written.toText = c.toText := by
  cases c with
  | vertex name => simp [Clause.written, Clause.toText, Written.toText]
  | edge e => rfl

/-- The text of a pattern lays it out. -/
theorem Pattern.laid_toText (p : Pattern) : Laid p.tokens p.toText.toList := by
  have hclause : ∀ c : Clause, c.toText.toList = c.written.tokens.flatMap Token.spelling :=
    fun c => by rw [← c.toText_written, Written.toList_toText]
  obtain ⟨clauses⟩ := p
  simp only [Pattern.toText, Pattern.tokens, String.toList_intercalate]
  induction clauses with
  | nil => exact .nil (by simp)
  | cons c clauses ih =>
    cases clauses with
    | nil =>
      simpa [clauseTokens, hclause] using Laid.of_spelling c.written.tokens
    | cons d clauses =>
      have htext : Laid (c.written.tokens ++ [Token.semicolon])
          (c.toText.toList ++ [';']) := by
        rw [hclause]
        exact (Laid.of_spelling _).append (Laid.of_spelling [.semicolon])
      have hblank : ∀ c ∈ [' '], isLayout c = true := List.forall_mem_singleton.2 rfl
      have hrest := htext.append (ih.append_left hblank)
      simpa [clauseTokens, List.append_assoc] using hrest

/-- Parsing accepts exactly the texts that lay out the tokens of a pattern whose names are
identifiers, and returns that pattern. So the text of such a pattern is parsed to it, layout makes
no difference, and every text that lays out no pattern is refused. -/
theorem Pattern.parse_eq_ok_iff_laid (text : String) (p : Pattern) :
    (Pattern.parse text = .ok p ↔ p.UsesIdentifiers ∧ Laid p.tokens text.toList) ∧
      (p.UsesIdentifiers → Pattern.parse p.toText = .ok p) ∧
      (p.UsesIdentifiers → ∀ text' : String, Laid p.tokens text.toList →
        Laid p.tokens text'.toList → Pattern.parse text' = Pattern.parse text) ∧
      ((∀ q : Pattern, ¬ (q.UsesIdentifiers ∧ Laid q.tokens text.toList)) →
        ∃ e, Pattern.parse text = .error e) := by
  refine ⟨⟨laid_of_parse, fun h => parse_of_laid h.1 h.2⟩, fun hnames =>
    parse_of_laid hnames p.laid_toText, fun hnames text' hlaid hlaid' => ?_, fun hnone => ?_⟩
  · rw [parse_of_laid hnames hlaid, parse_of_laid hnames hlaid']
  · cases hparse : Pattern.parse text with
    | error e => exact ⟨e, rfl⟩
    | ok q => exact absurd (laid_of_parse hparse) (hnone q)

end GraphMotif
