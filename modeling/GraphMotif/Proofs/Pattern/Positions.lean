import GraphMotif.Proofs.Pattern.Refusals

/-!
# Where a text goes wrong

A text that lays out no clauses of any kind is malformed at one position
(`readClauses_eq_error_iff`). Mostly it is the first place at which no text goes on: the tokens
before it begin some text of clauses, and they do so no longer with a token that the text goes on
with. If the text ends too early instead, it is where its last token starts.
-/

namespace GraphMotif.Pattern

/-- Tokens that begin a text of clauses. -/
def Viable (ts : List Token) : Prop := ∃ cs ws, Spells cs ws ∧ ts <+: clauseTokens ws

/-- The tokens before a position of a text are viable, and with a token that the rest of the text
begins with they are not. -/
def GoesWrongAt (text : List Char) (position : Nat) : Prop :=
  ∃ ts front rest, text = front ++ rest ∧ front.length = position ∧
    Laid ts front ∧ Untorn front rest ∧ (∃ c ∈ rest.head?, isLayout c = false) ∧
    Viable ts ∧ ∀ t, t.spelling <+: rest → ¬Viable (ts ++ [t])

/-- The tokens of a text are viable without being those of clauses, and the last of them starts at a
position. -/
def BreaksOffAt (text : List Char) (position : Nat) : Prop :=
  ∃ ts t front blanks, text = front ++ (t.spelling ++ blanks) ∧ front.length = position ∧
    Laid ts front ∧ (∀ c ∈ blanks, isLayout c = true) ∧
    Viable (ts ++ [t]) ∧ ∀ ws, clauseTokens ws ≠ ts ++ [t]

/-! ## Viable tokens -/

theorem Viable.spelled {ts : List Token} (h : Viable ts) : ∀ t ∈ ts, t.WellSpelled := by
  obtain ⟨cs, ws, ⟨hspelled, -⟩, us, hus⟩ := h
  exact fun t ht => hspelled t (hus ▸ List.mem_append_left us ht)

/-- The machine takes viable tokens. -/
theorem Viable.exists_complete? {ts : List Token} (h : Viable ts) :
    ∃ us ws, complete? [] .nothing (ts ++ us) = some ws := by
  obtain ⟨cs, ws, -, us, hus⟩ := h
  exact ⟨us, ws, complete?_eq_some_iff.2 hus⟩

/-- Tokens that bring what has been read of a clause to its end. -/
def Progress.missing : Progress → List Token
  | nothing | bang => [.openParen, .closeParen]
  | firstOpened _ | firstNamed _ _ => [.closeParen]
  | first _ _ | whole _ => []
  | half h => [.openBracket, .closeBracket, h.direction.tip, .openParen, .closeParen]
  | edgeOpened h | edgeNamed h _ => [.closeBracket, h.direction.tip, .openParen, .closeParen]
  | edge h _ => [h.direction.tip, .openParen, .closeParen]
  | pointed _ _ => [.openParen, .closeParen]
  | secondOpened _ _ | secondNamed _ _ _ => [.closeParen]

theorem exists_complete?_missing (done : List Written) (q : Progress) :
    ∃ ws, complete? done q q.missing = some ws := by
  cases q with
  | half h | edgeOpened h | edgeNamed h | edge h =>
    obtain ⟨direction, n, a⟩ := h
    cases direction <;> exact ⟨_, rfl⟩
  | _ => exact ⟨_, rfl⟩

theorem Progress.spelled_missing (q : Progress) : ∀ t ∈ q.missing, t.WellSpelled := by
  intro t ht
  cases q with
  | half h | edgeOpened h | edgeNamed h | edge h =>
    obtain ⟨direction, n, a⟩ := h
    cases direction <;> revert t <;> simp [missing, Direction.tip, Token.WellSpelled]
  | _ => revert t; simp [missing, Token.WellSpelled]

/-- Layout does not tear a name apart. -/
theorem Untorn.append_layout {front blanks rest : List Char} (h : Untorn front (blanks ++ rest))
    (hblanks : ∀ c ∈ blanks, isLayout c = true) : Untorn (front ++ blanks) rest := by
  intro c hc hpart
  obtain rfl | ⟨blanks, b, rfl⟩ := List.eq_nil_or_concat blanks
  · rw [List.append_nil] at hc
    exact h c hc hpart
  · rw [List.concat_eq_append, ← List.append_assoc, List.getLast?_concat] at hc
    obtain rfl := Option.some.inj hc
    have hb := hblanks b (by simp)
    rw [isIdentifierPart_eq_false hb] at hpart
    exact absurd hpart nofun

/-! ## What can come next -/

namespace Reader

variable {size : Nat} {r r' : Reader} {front rest : List Char} {t : Token}

/-- What has been read is viable. -/
theorem HasRead.viable (h : r.HasRead front rest) : Viable r.tokens := by
  obtain ⟨ws, hws⟩ := exists_complete?_missing r.done r.progress
  have htokens : r.tokens ++ r.progress.missing = clauseTokens ws := eq_clauseTokens_of_complete? hws
  refine ⟨_, ws, ⟨?_, Laid.of_spelling _⟩, r.progress.missing, htokens⟩
  rw [← htokens]
  exact List.forall_mem_append.2 ⟨h.spelled, r.progress.spelled_missing⟩

/-- A token that makes what has been read longer can come next. -/
theorem HasRead.exists_next (h : r.HasRead front rest) (hviable : Viable (r.tokens ++ [t]))
    (offset : Nat) : ∃ r', r.next? offset t = some r' := by
  obtain ⟨us, ws, hws⟩ := hviable.exists_complete?
  rw [List.append_assoc, List.singleton_append, h.accepts, complete?_next? r offset] at hws
  obtain ⟨r', hnext, -⟩ := Option.bind_eq_some_iff.1 hws
  exact ⟨r', hnext⟩

/-- Whether a name can come next does not depend on the name. -/
theorem exists_next_of_name {offset : Nat} {name : List Char}
    (h : r.next? offset (.name name) = some r') (name' : List Char) :
    ∃ r'', r.next? offset (.name name') = some r'' := by
  simp only [next?, Option.map_eq_some_iff] at h ⊢
  obtain ⟨q, hq, -⟩ := h
  cases hprogress : r.progress with
  | firstOpened n => exact ⟨_, _, rfl, rfl⟩
  | edgeOpened h => exact ⟨_, _, rfl, rfl⟩
  | secondOpened h e => exact ⟨_, _, rfl, rfl⟩
  | _ => simp [hprogress, Progress.next?] at hq

/-- A token that the text goes on with and that makes what has been read longer is read, a name
together with all its characters. -/
theorem HasRead.exists_step (h : r.HasRead front rest) (hstarts : t.spelling <+: skipLayout rest)
    (hviable : Viable (r.tokens ++ [t])) : ∃ next, r.step? size rest = some next := by
  obtain ⟨more, hmore⟩ := hstarts
  have ht : t.WellSpelled := hviable.spelled t (List.mem_append_right _ List.mem_cons_self)
  -- what is read is the token, or a longer name
  obtain ⟨t', more', hread, r', hnext⟩ : ∃ t' more',
      Token.read? r.progress.arrowAwaited (skipLayout rest) = some (t', more') ∧
        ∃ r', r.next? (size - (skipLayout rest).length) t' = some r' := by
    obtain ⟨r', hnext⟩ := h.exists_next hviable (size - (skipLayout rest).length)
    rw [← hmore]
    rw [← hmore] at hnext
    by_cases hmark : ∃ name, t = .name name
    · obtain ⟨name, rfl⟩ := hmark
      have hname : isIdentifier (name ++ more.takeWhile isIdentifierPart) = true := by
        cases name with
        | nil => exact absurd ht nofun
        | cons c cs =>
          have hname : isIdentifier (c :: cs) = true := ht
          simp only [isIdentifier, List.cons_append, List.all_append, Bool.and_eq_true] at hname ⊢
          exact ⟨hname.1, hname.2, List.all_takeWhile⟩
      have hend : ∀ c ∈ (more.dropWhile isIdentifierPart).head?, isIdentifierPart c = false := by
        intro c hc
        have hhead := List.head?_dropWhile_not isIdentifierPart more
        rwa [Option.mem_def.1 hc] at hhead
      have hread : Token.read? r.progress.arrowAwaited _ = _ := read?_name hname hend
      rw [List.append_assoc, List.takeWhile_append_dropWhile] at hread
      exact ⟨_, _, hread, exists_next_of_name hnext _⟩
    · exact ⟨t, more, read?_of_next? ht hnext fun name heq => absurd ⟨name, heq⟩ hmark, r', hnext⟩
  exact ⟨(r', more'), by rw [step?, hread]; exact Option.map_eq_some_iff.2 ⟨r', hnext, rfl⟩⟩

/-- A reader that stops before the end of the text stops where the text goes wrong. -/
theorem HasRead.goesWrongAt (h : r.HasRead front rest) (hstop : r.step? size rest = none)
    (hrest : skipLayout rest ≠ []) :
    GoesWrongAt (front ++ rest) ((front ++ rest).length - (skipLayout rest).length) := by
  have hsplit : rest = rest.takeWhile isLayout ++ skipLayout rest :=
    List.takeWhile_append_dropWhile.symm
  have hblanks : ∀ c ∈ rest.takeWhile isLayout, isLayout c = true :=
    fun c hc => List.all_eq_true.1 List.all_takeWhile c hc
  refine ⟨r.tokens, front ++ rest.takeWhile isLayout, skipLayout rest, ?_, ?_,
    h.laid.append_right hblanks, ?_, ?_, h.viable, fun t hstarts hviable => ?_⟩
  · rw [List.append_assoc, ← hsplit]
  · have hlength := congrArg List.length hsplit
    simp only [List.length_append] at hlength ⊢
    omega
  · exact (hsplit ▸ h.untorn).append_layout hblanks
  · obtain ⟨c, cs, hcs⟩ := List.exists_cons_of_ne_nil hrest
    have hhead := List.head?_dropWhile_not isLayout rest
    rw [← skipLayout, hcs] at hhead
    exact ⟨c, by rw [hcs]; rfl, hhead⟩
  · obtain ⟨next, hnext⟩ := h.exists_step hstarts hviable
    rw [hstop] at hnext
    cases hnext

/-- A reader that stops at the end of the text before a clause is complete breaks off at the last
token. -/
theorem HasRead.breaksOffAt (h : r.HasRead front rest) (hfinish : r.finish? = none)
    (hrest : ∀ c ∈ rest, isLayout c = true) : BreaksOffAt (front ++ rest) r.tokenOffset := by
  have hincomplete : ∀ ws, clauseTokens ws ≠ r.tokens := fun ws hws => by
    have hcomplete := h.finish?_eq_some_iff.2 hws.symm
    rw [hfinish] at hcomplete
    cases hcomplete
  obtain ⟨ts, t, before, htokens, rfl, hlaid, hoffset⟩ := h.last fun hnil =>
    hincomplete [] hnil.symm
  exact ⟨ts, t, before, rest, List.append_assoc .., hoffset.symm, hlaid, hrest,
    htokens ▸ h.viable, htokens ▸ hincomplete⟩

/-- Viable tokens that a text starts with are read. -/
theorem exists_hasRead_of_viable {ts : List Token} (hlaid : Laid ts front) (hviable : Viable ts)
    (huntorn : Untorn front rest) :
    ∃ (r : Reader) (read blanks : List Char), front = read ++ blanks ∧
      (∀ c ∈ blanks, isLayout c = true) ∧ r.HasRead read (blanks ++ rest) ∧ r.tokens = ts ∧
      Reaches (front ++ rest).length init (front ++ rest) r (blanks ++ rest) := by
  obtain ⟨us, ws, hws⟩ := hviable.exists_complete?
  exact exists_hasRead_of_laid hlaid hviable.spelled huntorn hws

end Reader

open Reader

/-! ## The position of an error -/

/-- Where a text goes wrong, reading stops. -/
theorem readClauses_of_goesWrongAt {text : List Char} {position : Nat}
    (h : GoesWrongAt text position) : readClauses text = .error position := by
  obtain ⟨ts, front, rest, rfl, rfl, hlaid, huntorn, ⟨c, hc, hlayout⟩, hviable, hwrong⟩ := h
  obtain ⟨r, read, blanks, rfl, hblanks, h, rfl, hreaches⟩ :=
    exists_hasRead_of_viable hlaid hviable huntorn
  have hskip : skipLayout (blanks ++ rest) = rest := by
    obtain ⟨rest, rfl⟩ := List.head?_eq_some_iff.1 hc
    rw [skipLayout, List.dropWhile_append_of_pos hblanks,
      List.dropWhile_cons_of_neg (by simp [hlayout])]
  -- a step would read a token that makes what has been read longer
  have hstop : r.step? (read ++ blanks ++ rest).length (blanks ++ rest) = none := by
    cases hstep : r.step? (read ++ blanks ++ rest).length (blanks ++ rest) with
    | none => rfl
    | some next =>
      obtain ⟨r', rest'⟩ := next
      obtain ⟨t, hread, hnext⟩ := exists_next_of_step? hstep
      obtain ⟨_, -, h'⟩ := h.step (by rw [List.append_assoc]) hstep
      obtain ⟨hrest, -⟩ := eq_append_of_read? hread
      refine absurd (tokens_of_next? hnext ▸ h'.viable) (hwrong t ⟨rest', ?_⟩)
      rw [← hrest, hskip]
  have hne : rest.isEmpty = false := by
    rw [List.isEmpty_eq_false_iff]
    exact List.ne_nil_of_mem (List.mem_of_head? hc)
  rw [readClauses, run_eq_stop hreaches hstop, stop, hskip, hne, if_neg Bool.false_ne_true,
    List.length_append, Nat.add_sub_cancel]

/-- Where a text breaks off, reading fails at its last token. -/
theorem readClauses_of_breaksOffAt {text : List Char} {position : Nat}
    (h : BreaksOffAt text position) : readClauses text = .error position := by
  obtain ⟨ts, t, front, rest, rfl, rfl, hlaid, hrest, hviable, hincomplete⟩ := h
  have ht : t.WellSpelled := hviable.spelled t (List.mem_append_right _ List.mem_cons_self)
  have hlaid' : Laid (ts ++ [t]) (front ++ t.spelling) :=
    hlaid.append (Spans.singleton ht).laid
  have huntorn : Untorn (front ++ t.spelling) rest := fun _ _ _ d hd =>
    isIdentifierPart_eq_false (hrest d (List.mem_of_mem_head? hd))
  obtain ⟨r, read, blanks, htext, hblanks, h, htokens, hreaches⟩ :=
    exists_hasRead_of_viable hlaid' hviable huntorn
  -- only layout is left, and what has been read are no clauses
  have hleft : ∀ c ∈ blanks ++ rest, isLayout c = true := List.forall_mem_append.2 ⟨hblanks, hrest⟩
  have hfinish : r.finish? = none := by
    cases hfinish : r.finish? with
    | none => rfl
    | some placed =>
      have hcomplete := h.finish?_eq_some_iff.1 (congrArg _ hfinish)
      exact absurd (hcomplete.symm.trans htokens) (hincomplete _)
  have hoffset : r.tokenOffset = front.length := by
    obtain ⟨us, u, before, hus, hread, -, hoffset⟩ := h.last (by simp [htokens])
    obtain ⟨rfl, hu⟩ := List.append_inj' (htokens.symm.trans hus) rfl
    obtain rfl := (List.cons.inj hu).1
    -- the token ends the text that lays it out, so no layout follows it
    obtain rfl | ⟨blanks, b, rfl⟩ := List.eq_nil_or_concat blanks
    · rw [List.append_nil, hread] at htext
      rw [hoffset, List.append_cancel_right htext]
    · obtain ⟨cs, c, hspelling, hc⟩ := last_spelling ht
      rw [hspelling, List.concat_eq_append, ← List.append_assoc, ← List.append_assoc] at htext
      obtain ⟨-, hcb⟩ := List.append_inj' htext rfl
      rw [(List.cons.inj hcb).1, hblanks b (by simp)] at hc
      cases hc
  rw [← List.append_assoc, readClauses, run_eq_stop hreaches (step?_of_layout hleft _ r),
    stop_of_layout hleft, hfinish, hoffset]
  rfl

/-- Reading fails exactly where the text goes wrong or breaks off. -/
theorem readClauses_eq_error_iff {text : List Char} {position : Nat} :
    readClauses text = .error position ↔ GoesWrongAt text position ∨ BreaksOffAt text position := by
  refine ⟨fun h => ?_, fun h => h.elim readClauses_of_goesWrongAt readClauses_of_breaksOffAt⟩
  obtain ⟨r, front, rest, rfl, hasRead, hstop, hrun⟩ := exists_hasRead text
  rw [h, stop] at hrun
  split at hrun
  · next hempty =>
    have hrest := skipLayout_eq_nil_iff.1 (List.isEmpty_iff.1 hempty)
    cases hfinish : r.finish? with
    | some placed =>
      rw [hfinish] at hrun
      cases hrun
    | none =>
      rw [hfinish] at hrun
      obtain rfl := Except.error.inj hrun
      exact .inr (hasRead.breaksOffAt hfinish hrest)
  · next hne =>
    obtain rfl := Except.error.inj hrun
    exact .inl (hasRead.goesWrongAt hstop fun hnil => hne (List.isEmpty_iff.2 hnil))

/-- The character at which reading fails is no layout. -/
theorem exists_getElem?_of_readClauses {text : List Char} {position : Nat}
    (h : readClauses text = .error position) :
    ∃ c, text[position]? = some c ∧ isLayout c = false := by
  obtain h | h := readClauses_eq_error_iff.1 h
  · obtain ⟨-, front, rest, rfl, rfl, -, -, ⟨c, hc, hlayout⟩, -⟩ := h
    refine ⟨c, ?_, hlayout⟩
    rw [List.getElem?_append_right (Nat.le_refl _), Nat.sub_self, ← List.head?_eq_getElem?, hc]
  · obtain ⟨ts, t, front, blanks, rfl, rfl, -, -, hviable, -⟩ := h
    have ht := hviable.spelled t (List.mem_append_right _ List.mem_cons_self)
    obtain ⟨c, cs, hspelling, hlayout⟩ := head?_spelling ht
    exact ⟨c, by simp [hspelling], hlayout⟩

/-- No refused clause is told to be malformed. -/
theorem reason_refused_ne (text : String) (offset : Nat) (w : Written) :
    (ParseError.refused text offset w).reason ≠ "Malformed pattern clause" := by
  have hnegated : "Negation is only allowed on edge clauses" ≠ "Malformed pattern clause" := by
    decide
  have hbackward : ∀ suggestion, "Edge direction is reversed; write the edge as " ++ suggestion ≠
      "Malformed pattern clause" := fun suggestion h => by
    have hhead := congrArg (fun s => s.toList.head?) h
    simp at hhead
  cases w with
  | vertex n a => exact hnegated
  | forward n a e b => exact hnegated
  | backward n a e b => exact hbackward _

/-- The errors about malformed clauses are at the positions inside a text where it goes wrong: the
tokens before such a position begin some text of clauses of any kind, and with what the text goes on
with they do so no longer. Or else the whole text breaks off, and the position is where its last
token starts. -/
theorem parse_malformed_iff (text : String) (e : ParseError) :
    Pattern.parse text = .error e ∧ e.reason = "Malformed pattern clause" ↔
      ∃ position < text.length, e = .malformed text position ∧
        (GoesWrongAt text.toList position ∨ BreaksOffAt text.toList position) := by
  constructor
  · rintro ⟨herror, hreason⟩
    obtain ⟨position, hread, rfl⟩ | ⟨before, x, after, -, -, -, rfl⟩ := parse_eq_error_iff.1 herror
    · obtain ⟨c, hc, -⟩ := exists_getElem?_of_readClauses hread
      obtain ⟨hlt, -⟩ := List.getElem?_eq_some_iff.1 hc
      rw [String.length_toList] at hlt
      exact ⟨position, hlt, rfl, readClauses_eq_error_iff.1 hread⟩
    · exact absurd hreason (reason_refused_ne _ _ _)
  · rintro ⟨position, -, rfl, hposition⟩
    exact ⟨parse_eq_error_iff.2 (.inl ⟨position, readClauses_eq_error_iff.2 hposition, rfl⟩), rfl⟩

example : readClauses "(a)-[e]-(b)".toList = .error 7 := by cbv

end GraphMotif.Pattern
