import GraphMotif.Proofs.Pattern.Language

/-!
# Refused clauses

Parsing has two ways to fail. The reader finds no clauses in the text, or it finds some that a
pattern may not hold; then the first of them is refused, at the offset of its first token
(`parse_eq_error_iff`). A text that lays out clauses of any kind is read, so only a text that lays
out none is malformed. The message about an edge that is written backwards says how to write it.
-/

namespace GraphMotif.Pattern

/-- A clause that no pattern may hold: a negated vertex, or an edge that is written backwards. -/
def Written.Refused : Written → Prop
  | vertex negated _ => negated = true
  | forward .. => False
  | backward .. => True

theorem Written.clause?_eq_none_iff {w : Written} : w.clause? = none ↔ w.Refused := by
  cases w with
  | vertex n a => cases n <;> simp [clause?, Refused]
  | forward n a e b => simp [clause?, Refused]
  | backward n a e b => simp [clause?, Refused]

/-- Checking fails at the first refused clause. -/
theorem check_eq_error_iff {text : String} {placed : List Placed} {e : ParseError} :
    check text placed = .error e ↔ ∃ before x after, placed = before ++ x :: after ∧
      (∀ y ∈ before, ¬y.written.Refused) ∧ x.written.Refused ∧
      e = .refused text x.offset x.written := by
  induction placed with
  | nil => simp [check]
  | cons y placed ih =>
    obtain ⟨offset, w⟩ := y
    rw [check]
    cases hw : w.clause? with
    | none =>
      -- the first clause is refused, whatever comes after it
      have hrefused : w.Refused := Written.clause?_eq_none_iff.1 hw
      constructor
      · intro h
        exact ⟨[], ⟨offset, w⟩, placed, rfl, fun _ hy => absurd hy List.not_mem_nil, hrefused,
          (Except.error.inj h).symm⟩
      · rintro ⟨before, x, after, hplaced, hbefore, -, rfl⟩
        cases before with
        | nil =>
          obtain ⟨rfl, rfl⟩ := List.cons.inj hplaced
          rfl
        | cons y before =>
          obtain ⟨rfl, -⟩ := List.cons.inj hplaced
          exact absurd hrefused (hbefore _ List.mem_cons_self)
    | some c =>
      have hallowed : ¬w.Refused := fun h => by
        rw [Written.clause?_eq_none_iff.2 h] at hw
        cases hw
      have hmap : (check text placed).map (c :: ·) = .error e ↔ check text placed = .error e := by
        cases check text placed <;> simp [Except.map]
      rw [hmap, ih]
      constructor
      · rintro ⟨before, x, after, rfl, hbefore, hx, rfl⟩
        exact ⟨⟨offset, w⟩ :: before, x, after, rfl,
          List.forall_mem_cons.2 ⟨hallowed, hbefore⟩, hx, rfl⟩
      · rintro ⟨before, x, after, hplaced, hbefore, hx, rfl⟩
        cases before with
        | nil =>
          obtain ⟨rfl, -⟩ := List.cons.inj hplaced
          exact absurd hx hallowed
        | cons y before =>
          obtain ⟨rfl, rfl⟩ := List.cons.inj hplaced
          exact ⟨before, x, after, rfl, (List.forall_mem_cons.1 hbefore).2, hx, rfl⟩

/-- Parsing fails where reading fails, or else at the first refused clause. -/
theorem parse_eq_error_iff {text : String} {e : ParseError} :
    Pattern.parse text = .error e ↔
      (∃ position, readClauses text.toList = .error position ∧ e = .malformed text position) ∨
      ∃ before x after, readClauses text.toList = .ok (before ++ x :: after) ∧
        (∀ y ∈ before, ¬y.written.Refused) ∧ x.written.Refused ∧
        e = .refused text x.offset x.written := by
  rw [Pattern.parse]
  cases hread : readClauses text.toList with
  | error position => simp [eq_comm]
  | ok placed =>
    have hmap : (check text placed).map Pattern.mk = .error e ↔ check text placed = .error e := by
      cases check text placed <;> simp [Except.map]
    simp only [hmap, check_eq_error_iff, reduceCtorEq, false_and, exists_false, false_or,
      Except.ok.injEq]

/-! ## Clauses that are read -/

/-- A pattern has no refused clauses. -/
theorem not_refused_of_parse {text : String} {p : Pattern} {ws : List Written}
    (h : Pattern.parse text = .ok p) (hspells : Spells text.toList ws) : ∀ w ∈ ws, ¬w.Refused := by
  obtain ⟨hnames, hlaid⟩ := Pattern.laid_of_parse h
  obtain rfl := hspells.unique ⟨(Pattern.forall_mem_tokens p).2 hnames, hlaid⟩
  refine List.forall_mem_map.2 fun c _ hrefused => ?_
  have hnone := Written.clause?_eq_none_iff.2 hrefused
  rw [Written.clause?_eq_some_iff.2 rfl] at hnone
  exact absurd hnone nofun

/-- The clauses that a reader stops with stand at their offsets. -/
theorem Reader.HasRead.standsAt {r : Reader} {front rest : List Char} (h : r.HasRead front rest)
    {before after : List Placed} {x : Placed} (hfinish : r.finish? = some (before ++ x :: after)) :
    StandsAt front (before.map (·.written)) x.written x.offset := by
  unfold finish? at hfinish
  split at hfinish
  · next w hw =>
    have hclauses := Option.some.inj hfinish
    obtain rfl | ⟨after, y, rfl⟩ := List.eq_nil_or_concat after
    · -- the last clause is the one that the end of the text ends
      obtain ⟨rfl, hlast⟩ := List.append_inj' hclauses rfl
      obtain rfl := (List.cons.inj hlast).1
      obtain ⟨head, clause, rfl, hoffset, hhead, hclause⟩ := h.current_of_clause? hw
      exact ⟨head, clause, [], by rw [List.append_nil], hoffset, hhead, hclause⟩
    · rw [List.concat_eq_append, ← List.cons_append, ← List.append_assoc] at hclauses
      obtain ⟨hclauses, -⟩ := List.append_inj' hclauses rfl
      exact h.finished before x after hclauses
  · split at hfinish
    · exact absurd (Option.some.inj hfinish).symm (List.append_ne_nil_of_right_ne_nil _ nofun)
    · exact absurd hfinish nofun

/-- Each clause that is read stands at its offset. -/
theorem standsAt_of_readClauses {cs : List Char} {before after : List Placed} {x : Placed}
    (h : readClauses cs = .ok (before ++ x :: after)) :
    StandsAt cs (before.map (·.written)) x.written x.offset := by
  obtain ⟨r, front, rest, rfl, hasRead, -, hfinish⟩ := Reader.exists_finish?_of_readClauses h
  exact (hasRead.standsAt hfinish).append_right rest

/-! ## How to write an edge -/

/-- The text that points an edge forward is parsed to that edge, where its names are identifiers. -/
theorem parse_forward {negated : Bool} {dst edge src : Slot}
    (h : ∀ t ∈ (Written.backward negated dst edge src).tokens, t.WellSpelled) :
    Pattern.parse (EdgeClause.toText { src, edge, dst, negated }) =
      .ok ⟨[.edge { src, edge, dst, negated }]⟩ := by
  -- both ways of writing the edge have the same names
  have hnames : Pattern.UsesIdentifiers ⟨[.edge { src, edge, dst, negated }]⟩ := by
    rw [← Pattern.forall_mem_tokens, Pattern.tokens,
      forall_mem_clauseTokens (P := Token.WellSpelled) trivial]
    simp only [Written.tokens, List.forall_mem_append, List.forall_mem_cons] at h
    obtain ⟨⟨⟨hbang, hdst⟩, -, hedge⟩, -, hsrc⟩ := h
    refine List.forall_mem_singleton.2 ?_
    simp only [Clause.written, Written.tokens, List.forall_mem_append, List.forall_mem_cons]
    exact ⟨⟨⟨hbang, hsrc⟩, trivial, hedge⟩, trivial, hdst⟩
  have htext := Pattern.parse_of_laid hnames (Pattern.laid_toText _)
  simpa [Pattern.toText, Clause.toText] using htext

/-- A text that lays out clauses is refused exactly if it writes an edge backwards or negates a
vertex, at the first clause that does and at its first token. Every other text that is no pattern is
malformed, whatever clauses it starts with. The message about an edge that is written backwards ends
with a text that is parsed to the edge with the same name and negation, from the vertex that the
arrow points from to the one that it points to. -/
theorem parse_refuses (text : String) :
    (∀ ws, Spells text.toList ws →
      ((∃ e, Pattern.parse text = .error e) ↔ ∃ w ∈ ws, w.Refused) ∧
      ∀ before w after, ws = before ++ w :: after → (∀ v ∈ before, ¬v.Refused) → w.Refused →
        ∃ offset, Pattern.parse text = .error (.refused text offset w) ∧
          StandsAt text.toList before w offset) ∧
    ((¬∃ ws, Spells text.toList ws) →
      ∃ position, Pattern.parse text = .error (.malformed text position)) ∧
    ∀ ws, Spells text.toList ws → ∀ negated dst edge src,
      Written.backward negated dst edge src ∈ ws → ∃ suggestion,
        (∀ offset, (ParseError.refused text offset (.backward negated dst edge src)).reason =
          "Edge direction is reversed; write the edge as " ++ suggestion) ∧
        Pattern.parse suggestion = .ok ⟨[.edge { src, edge, dst, negated }]⟩ := by
  refine ⟨fun ws hspells => ?_, fun hnone => ?_, fun ws hspells negated dst edge src hmem => ?_⟩
  · obtain ⟨placed, hread, rfl⟩ := spells_iff.1 hspells
    have herror : ∀ before x after, placed = before ++ x :: after →
        (∀ y ∈ before, ¬y.written.Refused) → x.written.Refused →
        Pattern.parse text = .error (.refused text x.offset x.written) :=
      fun before x after hplaced hbefore hx =>
        parse_eq_error_iff.2 (.inr ⟨before, x, after, hplaced ▸ hread, hbefore, hx, rfl⟩)
    refine ⟨⟨?_, ?_⟩, ?_⟩
    · rintro ⟨e, he⟩
      obtain ⟨position, hread', -⟩ | ⟨before, x, after, hread', -, hx, -⟩ := parse_eq_error_iff.1 he
      · rw [hread] at hread'
        exact absurd hread' nofun
      · obtain rfl := Except.ok.inj (hread.symm.trans hread')
        exact ⟨x.written, by simp, hx⟩
    · rintro ⟨w, hw, hrefused⟩
      cases hparse : Pattern.parse text with
      | error e => exact ⟨e, rfl⟩
      | ok p => exact absurd hrefused (not_refused_of_parse hparse hspells w hw)
    · intro before w after hws hbefore hw
      obtain ⟨before, rest, rfl, rfl, hrest⟩ := List.map_eq_append_iff.1 hws
      obtain ⟨x, after, rfl, rfl, -⟩ := List.map_eq_cons_iff.1 hrest
      exact ⟨x.offset, herror before x after rfl
        (fun y hy => hbefore _ (List.mem_map_of_mem hy)) hw,
        standsAt_of_readClauses hread⟩
  · cases hread : readClauses text.toList with
    | error position => exact ⟨position, parse_eq_error_iff.2 (.inl ⟨position, hread, rfl⟩)⟩
    | ok placed => exact absurd ⟨_, spells_iff.2 ⟨placed, hread, rfl⟩⟩ hnone
  · refine ⟨_, fun _ => rfl, parse_forward ?_⟩
    exact (forall_mem_clauseTokens trivial ws).1 hspells.1 _ hmem

example : Pattern.parse "(a); !(b)<-[e]-(a); !(c)" = .error (.refused "(a); !(b)<-[e]-(a); !(c)" 5
    (.backward true (some "b") (some "e") (some "a"))) := by cbv

end GraphMotif.Pattern
