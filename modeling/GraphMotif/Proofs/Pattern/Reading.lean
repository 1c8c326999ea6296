import GraphMotif.Proofs.Pattern.Machine

/-!
# Reading a text token by token

The reader takes one token after another until no further one can come next: every run of it is
such a sequence of steps and what the reader then makes of the rest (`exists_reaches`, `run_eq_stop`).
Between two steps `HasRead` holds of the text that has been read: it lays out the tokens of the
clauses and of the progress so far, each clause stands at its offset, and the tokens lead the machine
on tokens to where the reader is. One step keeps this (`HasRead.step`), so a run does. The other way
round, tokens that the machine takes are read where they are laid out (`reaches_of_laid`). Together
they say that a text is read to the clauses whose tokens it lays out (`spells_iff`).
-/

namespace GraphMotif.Pattern

/-! ## Clauses in a text -/

/-- A text lays out clauses of any kind, also those that no pattern may hold. -/
def Spells (cs : List Char) (ws : List Written) : Prop :=
  (∀ t ∈ clauseTokens ws, t.WellSpelled) ∧ Laid (clauseTokens ws) cs

/-- A text lays out tokens, from the first one to the last one. -/
structure Spans (ts : List Token) (cs : List Char) : Prop where
  laid : Laid ts cs
  head : ∃ c rest, cs = c :: rest ∧ isLayout c = false
  last : ∃ rest c, cs = rest ++ [c] ∧ isLayout c = false

/-- The tokens of clauses, a semicolon after each. -/
def closedTokens (ws : List Written) : List Token :=
  ws.flatMap fun w => w.tokens ++ [.semicolon]

/-- The first token of a clause stands at an offset of a text, after some other clauses. -/
def StandsAt (text : List Char) (before : List Written) (w : Written) (offset : Nat) : Prop :=
  ∃ front clause back, text = front ++ (clause ++ back) ∧ front.length = offset ∧
    Laid (closedTokens before) front ∧ Spans w.tokens clause

/-- A text is not cut in two within a name. -/
def Untorn (front rest : List Char) : Prop :=
  ∀ c ∈ front.getLast?, isIdentifierPart c = true → ∀ d ∈ rest.head?, isIdentifierPart d = false

theorem StandsAt.append_right {text : List Char} {before : List Written} {w : Written}
    {offset : Nat} (h : StandsAt text before w offset) (more : List Char) :
    StandsAt (text ++ more) before w offset := by
  obtain ⟨front, clause, back, rfl, hoffset, hfront, hclause⟩ := h
  refine ⟨front, clause, back ++ more, ?_, hoffset, hfront, hclause⟩
  rw [List.append_assoc, List.append_assoc]

/-- Layout may be put after a text. -/
theorem Laid.append_right {ts : List Token} {cs blanks : List Char} (h : Laid ts cs)
    (hblanks : ∀ c ∈ blanks, isLayout c = true) : Laid ts (cs ++ blanks) := by
  simpa using h.append (.nil hblanks)

/-- One token after layout. -/
theorem Laid.singleton {t : Token} {blanks : List Char} (hblanks : ∀ c ∈ blanks, isLayout c = true) :
    Laid [t] (blanks ++ t.spelling) := by
  simpa using (Laid.of_spelling [t]).append_left hblanks

theorem isIdentifierPart_of_mem {name : List Char} (hname : isIdentifier name = true) :
    ∀ c ∈ name, isIdentifierPart c = true := by
  cases name with
  | nil => exact fun _ hc => absurd hc List.not_mem_nil
  | cons c cs =>
    simp only [isIdentifier, Bool.and_eq_true, List.all_eq_true] at hname
    exact List.forall_mem_cons.2 ⟨by rw [isIdentifierPart, hname.1, Bool.true_or], hname.2⟩

/-- No token has layout in it. -/
theorem isLayout_of_mem_spelling {t : Token} (ht : t.WellSpelled) :
    ∀ c ∈ t.spelling, isLayout c = false := by
  cases t with
  | name name =>
    intro c hc
    have hpart := isIdentifierPart_of_mem ht c hc
    rw [← Bool.not_eq_true]
    intro hlayout
    rw [isIdentifierPart_eq_false hlayout] at hpart
    exact absurd hpart nofun
  | _ => simp [Token.spelling, isLayout]

/-- No token ends with layout. -/
theorem last_spelling {t : Token} (ht : t.WellSpelled) :
    ∃ cs c, t.spelling = cs ++ [c] ∧ isLayout c = false := by
  obtain ⟨c, cs, hspelling, -⟩ := head?_spelling ht
  have hne : t.spelling ≠ [] := hspelling ▸ List.cons_ne_nil c cs
  exact ⟨t.spelling.dropLast, t.spelling.getLast hne, (List.dropLast_concat_getLast hne).symm,
    isLayout_of_mem_spelling ht _ (List.getLast_mem hne)⟩

namespace Spans

theorem singleton {t : Token} (ht : t.WellSpelled) : Spans [t] t.spelling where
  laid := by simpa using Laid.of_spelling [t]
  head := head?_spelling ht
  last := last_spelling ht

/-- One more token after layout. -/
theorem concat {ts : List Token} {cs blanks : List Char} {t : Token} (h : Spans ts cs)
    (hblanks : ∀ c ∈ blanks, isLayout c = true) (ht : t.WellSpelled) :
    Spans (ts ++ [t]) (cs ++ (blanks ++ t.spelling)) where
  laid := h.laid.append (Laid.singleton hblanks)
  head := by
    obtain ⟨c, rest, rfl, hc⟩ := h.head
    exact ⟨c, rest ++ (blanks ++ t.spelling), rfl, hc⟩
  last := by
    obtain ⟨rest, c, hspelling, hc⟩ := last_spelling ht
    refine ⟨cs ++ (blanks ++ rest), c, ?_, hc⟩
    rw [hspelling, List.append_assoc, List.append_assoc]

end Spans

/-! ## Steps of the reader -/

namespace Reader

/-- The reader and the rest of the text after one more token, if there is one that can come next. -/
def step? (size : Nat) (r : Reader) (cs : List Char) : Option (Reader × List Char) :=
  (Token.read? r.progress.arrowAwaited (skipLayout cs)).bind fun (t, rest) =>
    (r.next? (size - (skipLayout cs).length) t).map (·, rest)

/-- What a reader makes of a rest in which no further token can come next. -/
def stop (size : Nat) (r : Reader) (cs : List Char) : Except Nat (List Placed) :=
  if (skipLayout cs).isEmpty then
    match r.finish? with
    | some clauses => .ok clauses
    | none => .error r.tokenOffset
  else .error (size - (skipLayout cs).length)

theorem step?_of_layout {cs : List Char} (hcs : ∀ c ∈ cs, isLayout c = true) (size : Nat)
    (r : Reader) : r.step? size cs = none := by
  rw [step?, skipLayout_eq_nil_iff.2 hcs]
  rfl

/-- A reader that stops at the end of the text gives its clauses, if they are complete. -/
theorem stop_of_layout {cs : List Char} (hcs : ∀ c ∈ cs, isLayout c = true) (size : Nat)
    (r : Reader) :
    r.stop size cs = r.finish?.elim (.error r.tokenOffset) .ok := by
  rw [stop, skipLayout_eq_nil_iff.2 hcs]
  cases r.finish? <;> rfl

/-- A reader goes on from one place of a text to another, token by token. -/
inductive Reaches (size : Nat) : Reader → List Char → Reader → List Char → Prop where
  | refl (r : Reader) (cs : List Char) : Reaches size r cs r cs
  | step {r r₁ r' : Reader} {cs rest cs' : List Char} (hstep : r.step? size cs = some (r₁, rest))
      (hrest : Reaches size r₁ rest r' cs') : Reaches size r cs r' cs'

variable {size : Nat} {r r' : Reader} {cs cs' rest : List Char}

/-- A step reads a token that can come next. -/
theorem exists_next_of_step? (h : r.step? size cs = some (r', rest)) :
    ∃ t, Token.read? r.progress.arrowAwaited (skipLayout cs) = some (t, rest) ∧
      r.next? (size - (skipLayout cs).length) t = some r' := by
  obtain ⟨⟨t, rest'⟩, hread, h⟩ := Option.bind_eq_some_iff.1 h
  obtain ⟨r₁, hnext, heq⟩ := Option.map_eq_some_iff.1 h
  obtain ⟨rfl, rfl⟩ := Prod.mk.inj heq
  exact ⟨t, hread, hnext⟩

theorem run_of_step? (h : r.step? size cs = some (r', rest)) : r.run size cs = r'.run size rest := by
  obtain ⟨t, hread, hnext⟩ := exists_next_of_step? h
  have hne : (skipLayout cs).isEmpty = false := by
    rw [List.isEmpty_eq_false_iff]
    intro hempty
    rw [hempty] at hread
    exact absurd hread nofun
  rw [run]
  simp only [hne, Bool.false_eq_true, if_false]
  split
  · next hnone => rw [hread] at hnone; cases hnone
  · next token rest' hsome =>
    rw [hread] at hsome
    obtain ⟨rfl, rfl⟩ := Prod.mk.inj (Option.some.inj hsome)
    rw [hnext]

theorem run_of_step?_eq_none (h : r.step? size cs = none) : r.run size cs = r.stop size cs := by
  rw [run, stop]
  simp only
  split
  · rfl
  · split
    · rfl
    · next token rest' hsome =>
      rw [step?, hsome, Option.bind_some, Option.map_eq_none_iff] at h
      rw [h]

theorem length_lt_of_step? (h : r.step? size cs = some (r', rest)) : rest.length < cs.length := by
  obtain ⟨t, hread, -⟩ := exists_next_of_step? h
  exact Nat.lt_of_lt_of_le (Token.length_lt_of_read? hread) (length_skipLayout_le cs)

/-- Every reader goes on to a place where it can take no further token. -/
theorem exists_reaches (size : Nat) (r : Reader) (cs : List Char) :
    ∃ r' cs', Reaches size r cs r' cs' ∧ r'.step? size cs' = none := by
  cases hstep : r.step? size cs with
  | none => exact ⟨r, cs, .refl r cs, hstep⟩
  | some next =>
    obtain ⟨r₁, rest⟩ := next
    have := length_lt_of_step? hstep
    obtain ⟨r', cs', hreaches, hstop⟩ := exists_reaches size r₁ rest
    exact ⟨r', cs', .step hstep hreaches, hstop⟩
termination_by cs.length

theorem Reaches.run_eq (h : Reaches size r cs r' cs') : r.run size cs = r'.run size cs' := by
  induction h with
  | refl => rfl
  | step hstep _ ih => exact (run_of_step? hstep).trans ih

/-- A run gives what the reader makes of the rest in which it can take no further token. -/
theorem run_eq_stop (h : Reaches size r cs r' cs') (hstop : r'.step? size cs' = none) :
    r.run size cs = r'.stop size cs' :=
  h.run_eq.trans (run_of_step?_eq_none hstop)

/-! ## What has been read -/

/-- The tokens that a reader has read. -/
def tokens (r : Reader) : List Token := closedTokens r.done ++ r.progress.tokens

/-- A token that can come next ends the clause that has been read or belongs to the next one. -/
theorem next?_cases {offset : Nat} {t : Token} (h : r.next? offset t = some r') :
    (∃ w, t = .semicolon ∧ r.progress.clause? = some w ∧
      r' = { clauses := r.clauses ++ [⟨r.clauseOffset, w⟩], progress := .nothing,
             clauseOffset := offset, tokenOffset := offset }) ∨
    (∃ q, r.progress.next? t = some q ∧
      r' = { r with
        progress := q
        clauseOffset := if r.progress = .nothing then offset else r.clauseOffset
        tokenOffset := offset }) := by
  unfold next? at h
  split at h
  · next w hw => exact .inl ⟨w, rfl, hw, (Option.some.inj h).symm⟩
  · obtain ⟨q, hq, rfl⟩ := Option.map_eq_some_iff.1 h
    exact .inr ⟨q, hq, rfl⟩

theorem tokens_of_next? {offset : Nat} {t : Token} (h : r.next? offset t = some r') :
    r'.tokens = r.tokens ++ [t] := by
  obtain ⟨w, rfl, hw, rfl⟩ | ⟨q, hq, rfl⟩ := next?_cases h
  · simp [tokens, done, closedTokens, Progress.tokens, tokens_of_clause? hw]
  · rw [tokens, tokens, List.append_assoc, ← tokens_next? hq]
    rfl

theorem tokenOffset_of_next? {offset : Nat} {t : Token} (h : r.next? offset t = some r') :
    r'.tokenOffset = offset := by
  obtain ⟨w, rfl, hw, rfl⟩ | ⟨q, hq, rfl⟩ := next?_cases h <;> rfl

/-- What holds of a reader after the text `front` and before the text `rest`. -/
structure HasRead (r : Reader) (front rest : List Char) : Prop where
  laid : Laid r.tokens front
  spelled : ∀ t ∈ r.tokens, t.WellSpelled
  untorn : Untorn front rest
  /-- The tokens lead the machine on tokens from its start to where the reader is. -/
  accepts : ∀ ts, complete? [] .nothing (r.tokens ++ ts) = complete? r.done r.progress ts
  /-- The last token starts at its offset. -/
  last : r.tokens ≠ [] → ∃ ts t before, r.tokens = ts ++ [t] ∧ front = before ++ t.spelling ∧
    Laid ts before ∧ r.tokenOffset = before.length
  /-- The clauses that are complete stand at their offsets. -/
  finished : ∀ before x after, r.clauses = before ++ x :: after →
    StandsAt front (before.map (·.written)) x.written x.offset
  /-- What there is of the next clause starts at the offset of that clause. -/
  current : r.progress ≠ .nothing → ∃ head clause, front = head ++ clause ∧
    head.length = r.clauseOffset ∧ Laid (closedTokens r.done) head ∧
    Spans r.progress.tokens clause

theorem hasRead_init (rest : List Char) : HasRead .init [] rest where
  laid := .nil fun _ hc => absurd hc List.not_mem_nil
  spelled _ ht := absurd ht List.not_mem_nil
  untorn _ hc := absurd hc nofun
  accepts _ := rfl
  last h := absurd rfl h
  finished _ _ _ h := absurd h.symm (List.append_ne_nil_of_right_ne_nil _ nofun)
  current h := absurd rfl h

namespace HasRead

variable {front blanks : List Char} {t : Token}

/-- A clause that could end here starts at the offset of the next clause. -/
theorem current_of_clause? (h : r.HasRead front rest) {w : Written}
    (hw : r.progress.clause? = some w) : ∃ head clause, front = head ++ clause ∧
      head.length = r.clauseOffset ∧ Laid (closedTokens r.done) head ∧ Spans w.tokens clause := by
  have hne : r.progress ≠ .nothing := fun hnothing => by
    rw [hnothing] at hw
    exact absurd hw nofun
  exact tokens_of_clause? hw ▸ h.current hne

/-- The clauses that are complete still stand at their offsets after one more token. -/
theorem finished_next (h : r.HasRead front rest) (more : List Char) {offset : Nat}
    (hnext : r.next? offset t = some r') :
    ∀ before x after, r'.clauses = before ++ x :: after →
      StandsAt (front ++ more) (before.map (·.written)) x.written x.offset := by
  intro before x after hx
  obtain ⟨w, rfl, hw, rfl⟩ | ⟨q, -, rfl⟩ := next?_cases hnext
  · -- the clause that the semicolon ends is the last one
    obtain rfl | ⟨after, y, rfl⟩ := List.eq_nil_or_concat after
    · obtain ⟨rfl, hlast⟩ := List.append_inj' hx rfl
      obtain rfl := (List.cons.inj hlast).1
      obtain ⟨head, clause, rfl, hoffset, hhead, hclause⟩ := h.current_of_clause? hw
      exact ⟨head, clause, more, List.append_assoc .., hoffset, hhead, hclause⟩
    · rw [List.concat_eq_append, ← List.cons_append, ← List.append_assoc] at hx
      obtain ⟨hx, -⟩ := List.append_inj' hx rfl
      exact (h.finished before x after hx).append_right more
  · exact (h.finished before x after hx).append_right more

/-- After one more token, what there is of the next clause starts at the offset of that clause. -/
theorem current_next (h : r.HasRead front (blanks ++ rest))
    (hblanks : ∀ c ∈ blanks, isLayout c = true) (ht : t.WellSpelled)
    (hnext : r.next? (front ++ blanks).length t = some r') (hne : r'.progress ≠ .nothing) :
    ∃ head clause, front ++ (blanks ++ t.spelling) = head ++ clause ∧
      head.length = r'.clauseOffset ∧ Laid (closedTokens r'.done) head ∧
      Spans r'.progress.tokens clause := by
  obtain ⟨w, rfl, hw, rfl⟩ | ⟨q, hq, rfl⟩ := next?_cases hnext
  · exact absurd rfl hne
  · have htokens := tokens_next? hq
    by_cases hnothing : r.progress = .nothing
    · -- the token is the first one of the clause
      have hlaid := h.laid
      rw [tokens, hnothing, Progress.tokens, List.append_nil] at hlaid
      rw [hnothing, Progress.tokens, List.nil_append] at htokens
      exact ⟨front ++ blanks, t.spelling, (List.append_assoc ..).symm, (if_pos hnothing).symm,
        hlaid.append_right hblanks, htokens ▸ Spans.singleton ht⟩
    · obtain ⟨head, clause, rfl, hoffset, hhead, hclause⟩ := h.current hnothing
      exact ⟨head, clause ++ (blanks ++ t.spelling), List.append_assoc ..,
        hoffset.trans (if_neg hnothing).symm, hhead, htokens ▸ hclause.concat hblanks ht⟩

/-- One more token, after layout. -/
theorem next (h : r.HasRead front (blanks ++ (t.spelling ++ rest)))
    (hblanks : ∀ c ∈ blanks, isLayout c = true) (ht : t.WellSpelled)
    (huntorn : Untorn (front ++ (blanks ++ t.spelling)) rest)
    (hnext : r.next? (front ++ blanks).length t = some r') :
    r'.HasRead (front ++ (blanks ++ t.spelling)) rest where
  laid := tokens_of_next? hnext ▸ h.laid.append (Laid.singleton hblanks)
  spelled := tokens_of_next? hnext ▸ List.forall_mem_append.2
    ⟨h.spelled, List.forall_mem_singleton.2 ht⟩
  untorn := huntorn
  accepts ts := by
    rw [tokens_of_next? hnext, List.append_assoc, List.singleton_append, h.accepts,
      complete?_next? r (front ++ blanks).length, hnext, Option.bind_some]
  last _ := by
    exact ⟨r.tokens, t, front ++ blanks, tokens_of_next? hnext, (List.append_assoc ..).symm,
      h.laid.append_right hblanks, tokenOffset_of_next? hnext⟩
  finished := h.finished_next _ hnext
  current := h.current_next hblanks ht hnext

end HasRead

/-- A name is read to its end, and no other token ends like a name. -/
theorem untorn_of_read? {arrowAwaited : Bool} {t : Token}
    (h : Token.read? arrowAwaited cs = some (t, rest)) (front : List Char) :
    Untorn (front ++ t.spelling) rest := by
  obtain ⟨name, rfl, hread⟩ | ⟨hmark, -⟩ := read?_cases h
  · exact fun _ _ _ => head?_of_readIdentifier? hread
  · intro c hc hpart
    rw [List.getLast?_append] at hc
    cases t with
    | name name => exact absurd rfl (hmark name)
    | _ =>
      obtain rfl := Option.some.inj hc
      exact absurd hpart (by decide)

namespace HasRead

variable {front : List Char}

/-- What holds of a reader still holds of it after one more token. -/
theorem step (h : r.HasRead front cs) (hsize : size = (front ++ cs).length)
    (hstep : r.step? size cs = some (r', rest)) :
    ∃ front', front ++ cs = front' ++ rest ∧ r'.HasRead front' rest := by
  obtain ⟨t, hread, hnext⟩ := exists_next_of_step? hstep
  obtain ⟨hrest, ht⟩ := eq_append_of_read? hread
  have hcs : cs = cs.takeWhile isLayout ++ (t.spelling ++ rest) := by
    rw [← hrest]
    exact List.takeWhile_append_dropWhile.symm
  have hblanks : ∀ c ∈ cs.takeWhile isLayout, isLayout c = true :=
    fun c hc => List.all_eq_true.1 List.all_takeWhile c hc
  have hoffset : size - (skipLayout cs).length = (front ++ cs.takeWhile isLayout).length := by
    have hlength := congrArg List.length hcs
    simp only [List.length_append] at hlength hsize ⊢
    rw [hrest, List.length_append]
    omega
  rw [hoffset] at hnext
  rw [hcs] at h
  refine ⟨front ++ (cs.takeWhile isLayout ++ t.spelling), ?_, h.next hblanks ht ?_ hnext⟩
  · rw [List.append_assoc, List.append_assoc, ← hcs]
  · rw [← List.append_assoc]
    exact untorn_of_read? hread _

/-- What holds of a reader still holds of it wherever it goes on to. -/
theorem reaches (h : r.HasRead front cs) (hsize : size = (front ++ cs).length)
    (hreaches : Reaches size r cs r' cs') :
    ∃ front', front ++ cs = front' ++ cs' ∧ r'.HasRead front' cs' := by
  induction hreaches generalizing front with
  | refl => exact ⟨front, rfl, h⟩
  | step hstep _ ih =>
    obtain ⟨front₁, htext, h₁⟩ := h.step hsize hstep
    obtain ⟨front', htext', h'⟩ := ih h₁ (htext ▸ hsize)
    exact ⟨front', htext.trans htext', h'⟩

end HasRead

/-- A whole text is read up to a place where no further token can come next, and the run gives what
the reader makes of the rest. -/
theorem exists_hasRead (text : List Char) :
    ∃ r front rest, text = front ++ rest ∧ HasRead r front rest ∧ r.step? text.length rest = none ∧
      readClauses text = r.stop text.length rest := by
  obtain ⟨r, rest, hreaches, hstop⟩ := exists_reaches text.length init text
  obtain ⟨front, htext, h⟩ := (hasRead_init text).reaches rfl hreaches
  exact ⟨r, front, rest, htext, h, hstop, run_eq_stop hreaches hstop⟩

/-- A text that is read is read up to layout at its end, and the clauses are complete there. -/
theorem exists_finish?_of_readClauses {text : List Char} {placed : List Placed}
    (h : readClauses text = .ok placed) :
    ∃ r front rest, text = front ++ rest ∧ HasRead r front rest ∧
      (∀ c ∈ rest, isLayout c = true) ∧ r.finish? = some placed := by
  obtain ⟨r, front, rest, htext, hasRead, -, hstop⟩ := exists_hasRead text
  rw [h, stop] at hstop
  split at hstop
  · next hempty =>
    refine ⟨r, front, rest, htext, hasRead, skipLayout_eq_nil_iff.1 (List.isEmpty_iff.1 hempty), ?_⟩
    cases hfinish : r.finish? with
    | none =>
      rw [hfinish] at hstop
      cases hstop
    | some placed' =>
      rw [hfinish] at hstop
      rw [Except.ok.inj hstop]
  · cases hstop

/-! ## Reading what is laid out -/

/-- A step reads a token that can come next, after layout. -/
theorem step?_eq_some {t : Token} {blanks : List Char} (hblanks : ∀ c ∈ blanks, isLayout c = true)
    (ht : t.WellSpelled)
    (hread : Token.read? r.progress.arrowAwaited (t.spelling ++ rest) = some (t, rest))
    (hnext : r.next? (size - (t.spelling ++ rest).length) t = some r') :
    r.step? size (blanks ++ (t.spelling ++ rest)) = some (r', rest) := by
  have hskip : skipLayout (blanks ++ (t.spelling ++ rest)) = t.spelling ++ rest := by
    obtain ⟨c, cs, hspelling, hc⟩ := head?_spelling ht
    rw [skipLayout, List.dropWhile_append_of_pos hblanks, hspelling, List.cons_append,
      List.dropWhile_cons_of_neg (by simp [hc])]
  rw [step?, hskip, hread]
  exact Option.map_eq_some_iff.2 ⟨r', hnext, rfl⟩

/-- Tokens that the machine takes are read where they are laid out. -/
theorem reaches_of_laid {ts us : List Token} {front : List Char} {out : List Written}
    (hlaid : Laid ts front) (hspelled : ∀ t ∈ ts, t.WellSpelled) (huntorn : Untorn front rest)
    (h : complete? r.done r.progress (ts ++ us) = some out) :
    ∃ r' blanks, (∀ c ∈ blanks, isLayout c = true) ∧
      Reaches size r (front ++ rest) r' (blanks ++ rest) ∧ r'.tokens = r.tokens ++ ts := by
  induction hlaid generalizing r with
  | @nil cs hcs =>
    exact ⟨r, cs, hcs, .refl r _, (List.append_nil _).symm⟩
  | @cons t ts blanks cs hblanks hlaid ih =>
    obtain ⟨ht, hspelled⟩ := List.forall_mem_cons.1 hspelled
    -- a name ends before a closing bracket, or where the tokens end
    have hname : ∀ name, t = .name name → ∀ c ∈ (cs ++ rest).head?, isIdentifierPart c = false := by
      rintro name rfl c hc
      cases cs with
      | nil =>
        obtain ⟨d, ds, hspelling, -⟩ := head?_spelling ht
        have hne : name ≠ [] := fun h => List.cons_ne_nil d ds (hspelling.symm.trans h)
        refine huntorn (name.getLast hne) ?_ (isIdentifierPart_of_mem ht _ (List.getLast_mem hne))
          c hc
        rw [Token.spelling, List.append_nil, List.getLast?_append, List.getLast?_eq_some_getLast hne]
        rfl
      | cons d ds =>
        exact head?_after_name (hlaid.append (Laid.of_spelling us)) h c hc
    rw [List.cons_append, complete?_next? r (size - (t.spelling ++ (cs ++ rest)).length)] at h
    obtain ⟨r₁, hnext, h⟩ := Option.bind_eq_some_iff.1 h
    have hstep := step?_eq_some hblanks ht (read?_of_next? ht hnext hname) hnext
    have huntorn' : Untorn cs rest := fun c hc => huntorn c <| by
      rw [List.getLast?_append, List.getLast?_append, Option.mem_def.1 hc]
      rfl
    obtain ⟨r', blanks', hblanks', hreaches, htokens⟩ := ih hspelled huntorn' h
    refine ⟨r', blanks', hblanks', ?_, ?_⟩
    · rw [List.append_assoc, List.append_assoc]
      exact .step hstep hreaches
    · rw [htokens, tokens_of_next? hnext, List.append_assoc, List.singleton_append]

/-- Tokens that the machine takes are read where a text starts with them, and layout after them
is left. -/
theorem exists_hasRead_of_laid {ts us : List Token} {front : List Char} {out : List Written}
    (hlaid : Laid ts front) (hspelled : ∀ t ∈ ts, t.WellSpelled) (huntorn : Untorn front rest)
    (h : complete? [] .nothing (ts ++ us) = some out) :
    ∃ (r : Reader) (read blanks : List Char), front = read ++ blanks ∧
      (∀ c ∈ blanks, isLayout c = true) ∧ r.HasRead read (blanks ++ rest) ∧ r.tokens = ts ∧
      Reaches (front ++ rest).length init (front ++ rest) r (blanks ++ rest) := by
  obtain ⟨r, blanks, hblanks, hreaches, htokens⟩ :=
    reaches_of_laid (r := init) hlaid hspelled huntorn h
  obtain ⟨read, htext, h⟩ := (hasRead_init _).reaches rfl hreaches
  rw [List.nil_append, ← List.append_assoc] at htext
  exact ⟨r, read, blanks, List.append_cancel_right htext, hblanks, h, htokens, hreaches⟩

/-- The clauses are complete exactly if what has been read are their tokens. -/
theorem HasRead.finish?_eq_some_iff {front : List Char} (h : r.HasRead front rest)
    {ws : List Written} :
    r.finish?.map (fun placed => placed.map (·.written)) = some ws ↔ r.tokens = clauseTokens ws := by
  rw [← complete?_finish?, ← h.accepts, List.append_nil, complete?_eq_some_iff]

end Reader

/-- A text lays out clauses exactly if it is read to them. -/
theorem spells_iff {cs : List Char} {ws : List Written} :
    Spells cs ws ↔ ∃ placed, readClauses cs = .ok placed ∧ placed.map (·.written) = ws := by
  constructor
  · rintro ⟨hspelled, hlaid⟩
    have huntorn : Untorn cs [] := fun _ _ _ d hd => by cases hd
    have hcomplete : complete? [] .nothing (clauseTokens ws ++ []) = some ws :=
      complete?_eq_some_iff.2 (List.append_nil _)
    obtain ⟨r, read, blanks, -, hblanks, hasRead, htokens, hreaches⟩ :=
      Reader.exists_hasRead_of_laid hlaid hspelled huntorn hcomplete
    obtain ⟨placed, hfinish, hplaced⟩ :=
      Option.map_eq_some_iff.1 (hasRead.finish?_eq_some_iff.2 htokens)
    rw [List.append_nil, List.append_nil] at hreaches
    refine ⟨placed, ?_, hplaced⟩
    rw [readClauses, Reader.run_eq_stop hreaches (Reader.step?_of_layout hblanks _ _),
      Reader.stop_of_layout hblanks, hfinish]
    rfl
  · rintro ⟨placed, hread, rfl⟩
    obtain ⟨r, front, rest, rfl, hasRead, hrest, hfinish⟩ :=
      Reader.exists_finish?_of_readClauses hread
    have htokens := hasRead.finish?_eq_some_iff.1 (congrArg _ hfinish)
    exact ⟨htokens ▸ hasRead.spelled, htokens ▸ hasRead.laid.append_right hrest⟩

/-- A text lays out one list of clauses at most. -/
theorem Spells.unique {cs : List Char} {ws ws' : List Written} (h : Spells cs ws)
    (h' : Spells cs ws') : ws = ws' := by
  obtain ⟨placed, hread, rfl⟩ := spells_iff.1 h
  obtain ⟨placed', hread', rfl⟩ := spells_iff.1 h'
  rw [Except.ok.inj (hread.symm.trans hread')]

end GraphMotif.Pattern
