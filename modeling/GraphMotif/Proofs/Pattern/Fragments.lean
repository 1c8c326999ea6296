import Mathlib.Data.List.DropRight
import GraphMotif.Proofs.Pattern.Positions

/-!
# What an error shows of a text

An error carries the text, a position in it and a fragment. The fragment should be found in the text
around the position, within one clause or as the separator that is misplaced (`PointsInto`). It is
not always found there. The fragment of a malformed text is the trimmed clause around the position,
and trimming can cut the position off, as a separator after a clause does (`KeptAt`). A refused
clause is shown without the layout between its tokens, so it is found only where there is none.
-/

namespace GraphMotif.Pattern

/-- A fragment occurs in a text around a position, within one clause or as a separator. -/
def PointsInto (text fragment : List Char) (position : Nat) : Prop :=
  ∃ front back, text = front ++ (fragment ++ back) ∧
    front.length ≤ position ∧ position < front.length + fragment.length ∧
    (';' ∉ fragment ∨ fragment = [';'])

/-- The part of the clause around a position that stands before it. -/
def clauseBefore (text : List Char) (position : Nat) : List Char :=
  (text.take position).rtakeWhile (· != ';')

/-- The part of the clause around a position that starts there. -/
def clauseFrom (text : List Char) (position : Nat) : List Char :=
  (text.drop position).takeWhile (· != ';')

/-- A position is not trimmed off the clause around it: it is one of a separator that only blanks
stand before in its clause, or of some other character that is not blank or stands between two that
are not. -/
def KeptAt (text : List Char) (position : Nat) : Prop :=
  ∃ c, text[position]? = some c ∧
    (c = ';' → ∀ b ∈ clauseBefore text position, isBlank b = true) ∧
    (c ≠ ';' → isBlank c = true → (∃ b ∈ clauseBefore text position, isBlank b = false) ∧
      ∃ b ∈ clauseFrom text position, isBlank b = false)

/-! ## Occurrences around a position -/

theorem isPrefix_takeWhile {p : Char → Bool} {l cs : List Char} (h : l <+: cs)
    (hl : ∀ c ∈ l, p c = true) : l <+: cs.takeWhile p := by
  obtain ⟨rest, rfl⟩ := h
  rw [List.takeWhile_append_of_pos hl]
  exact List.prefix_append ..

theorem isSuffix_rtakeWhile {p : Char → Bool} {l cs : List Char} (h : l <:+ cs)
    (hl : ∀ c ∈ l, p c = true) : l <:+ cs.rtakeWhile p := by
  rw [← List.reverse_prefix, List.rtakeWhile, List.reverse_reverse]
  exact isPrefix_takeWhile (List.reverse_prefix.2 h) fun c hc => hl c (List.mem_reverse.1 hc)

theorem drop_eq_cons {text : List Char} {position : Nat} {c : Char} (hc : text[position]? = some c) :
    ∃ rest, text.drop position = c :: rest := by
  obtain ⟨hlt, rfl⟩ := List.getElem?_eq_some_iff.1 hc
  exact ⟨_, List.drop_eq_getElem_cons hlt⟩

section

variable {text fragment : List Char} {position : Nat} {c : Char}

/-- A fragment that occurs around a position is cut in two there. -/
theorem PointsInto.split (hc : text[position]? = some c) (h : PointsInto text fragment position) :
    ∃ l r, fragment = l ++ c :: r ∧ l <:+ text.take position ∧ c :: r <+: text.drop position := by
  obtain ⟨front, back, rfl, hfront, hback, -⟩ := h
  obtain ⟨k, rfl⟩ := Nat.exists_eq_add_of_le hfront
  have hk : k < fragment.length := by omega
  have hr : fragment.drop k <+: (front ++ (fragment ++ back)).drop (front.length + k) :=
    ⟨back, by rw [List.drop_length_add_append, List.drop_append_of_le_length hk.le]⟩
  have hl : fragment.take k <:+ (front ++ (fragment ++ back)).take (front.length + k) :=
    ⟨front, by rw [List.take_length_add_append, List.take_append_of_le_length hk.le]⟩
  -- the second part starts with the character at the position
  obtain ⟨rest, hrest⟩ := drop_eq_cons hc
  rw [List.drop_eq_getElem_cons hk, hrest, List.cons_prefix_cons] at hr
  obtain ⟨rfl, hr⟩ := hr
  refine ⟨fragment.take k, fragment.drop (k + 1), ?_, hl, ?_⟩
  · rw [← List.drop_eq_getElem_cons hk, List.take_append_drop]
  · rw [hrest, List.cons_prefix_cons]
    exact ⟨rfl, hr⟩

/-- The two parts of a fragment without a separator stand in the clause around the position. -/
theorem PointsInto.split_clause (hc : text[position]? = some c)
    (h : PointsInto text fragment position) (hfragment : ';' ∉ fragment) :
    ∃ l r, fragment = l ++ c :: r ∧ l <:+ clauseBefore text position ∧
      c :: r <+: clauseFrom text position := by
  obtain ⟨l, r, rfl, hl, hr⟩ := h.split hc
  have hne : ∀ d ∈ l ++ c :: r, (d != ';') = true := fun d hd =>
    bne_iff_ne.2 fun heq => hfragment (heq ▸ hd)
  obtain ⟨hnel, hner⟩ := List.forall_mem_append.1 hne
  exact ⟨l, r, rfl, isSuffix_rtakeWhile hl hnel, isPrefix_takeWhile hr hner⟩

end

/-! ## Trimming -/

theorem trim_split (cs : List Char) : ∃ front back, cs = front ++ (trim cs ++ back) ∧
    (∀ c ∈ front, isBlank c = true) ∧ ∀ c ∈ back, isBlank c = true := by
  refine ⟨cs.takeWhile isBlank, (cs.dropWhile isBlank).rtakeWhile isBlank, ?_,
    fun c hc => List.mem_takeWhile_imp hc, fun c hc => List.mem_rtakeWhile_imp hc⟩
  have htrim : trim cs = (cs.dropWhile isBlank).rdropWhile isBlank := rfl
  rw [htrim, List.rdropWhile_append_rtakeWhile, List.takeWhile_append_dropWhile]

theorem trim_eq_nil_iff {cs : List Char} : trim cs = [] ↔ ∀ c ∈ cs, isBlank c = true := by
  constructor
  · intro h
    obtain ⟨front, back, hcs, hfront, hback⟩ := trim_split cs
    rw [h, List.nil_append] at hcs
    rw [hcs]
    exact List.forall_mem_append.2 ⟨hfront, hback⟩
  · intro h
    rw [trim, List.dropWhile_eq_nil_iff.2 h]
    rfl

/-- What trimming takes off a text does not reach a position in it: on the left if what is up to it
is not blank, on the right if what starts there is not. -/
theorem trim_split_around {before more : List Char} {c : Char}
    (hbefore : ∃ b ∈ before ++ [c], isBlank b = false) (hmore : ∃ b ∈ c :: more, isBlank b = false) :
    ∃ front back, before ++ c :: more = front ++ (trim (before ++ c :: more) ++ back) ∧
      front.length ≤ before.length ∧
      before.length < front.length + (trim (before ++ c :: more)).length := by
  obtain ⟨front, back, hsplit, hfront, hback⟩ := trim_split (before ++ c :: more)
  refine ⟨front, back, hsplit, ?_, ?_⟩
  · by_contra hlong
    have hstart : before ++ [c] <+: front := by
      refine List.prefix_of_prefix_length_le ⟨more, ?_⟩ ⟨_, hsplit.symm⟩ ?_
      · rw [List.append_assoc, List.singleton_append]
      · rw [List.length_append, List.length_singleton]
        omega
    obtain ⟨b, hb, hb'⟩ := hbefore
    rw [hfront b (hstart.subset hb)] at hb'
    exact absurd hb' nofun
  · by_contra hlong
    have hend : c :: more <:+ back := by
      refine List.suffix_of_suffix_length_le (List.suffix_append before _)
        ⟨front ++ trim (before ++ c :: more), ?_⟩ ?_
      · rw [List.append_assoc]
        exact hsplit.symm
      · have hlength := congrArg List.length hsplit
        simp only [List.length_append] at hlength hlong
        omega
    obtain ⟨b, hb, hb'⟩ := hmore
    rw [hback b (hend.subset hb)] at hb'
    exact absurd hb' nofun

/-- A trimmed text does not end with a blank. -/
theorem getLast?_trim (cs : List Char) : ∀ c ∈ (trim cs).getLast?, isBlank c = false := by
  intro c hc
  have hhead := List.head?_dropWhile_not isBlank (cs.dropWhile isBlank).reverse
  rw [trim, trimEnd, List.getLast?_reverse] at hc
  rwa [Option.mem_def.1 hc] at hhead

/-- A trimmed text does not start with a blank. -/
theorem head?_trim (cs : List Char) : ∀ c ∈ (trim cs).head?, isBlank c = false := by
  intro c hc
  have hstarts : trim cs <+: cs.dropWhile isBlank := List.rdropWhile_prefix ..
  obtain ⟨rest, hrest⟩ := hstarts
  have hhead := List.head?_dropWhile_not isBlank cs
  rw [← hrest, List.head?_append, Option.mem_def.1 hc] at hhead
  exact hhead

/-! ## The fragment of a malformed text -/

theorem isInfix_of_suffix_take {text l r : List Char} {position : Nat}
    (hl : l <:+ text.take position) (hr : r <+: text.drop position) : l ++ r <:+: text := by
  obtain ⟨front, hfront⟩ := hl
  obtain ⟨back, hback⟩ := hr
  refine ⟨front, back, ?_⟩
  rw [← List.append_assoc, hfront, List.append_assoc, hback, List.take_append_drop]

theorem isSuffix_clauseBefore (text : List Char) (position : Nat) :
    clauseBefore text position <:+ text.take position := List.rtakeWhile_suffix ..

theorem isPrefix_clauseFrom (text : List Char) (position : Nat) :
    clauseFrom text position <+: text.drop position := List.takeWhile_prefix ..

/-- A text is the clause around a position between what comes before it and what comes after it. -/
theorem clause_split (text : List Char) (position : Nat) :
    ∃ head tail, text.take position = head ++ clauseBefore text position ∧
      text = head ++ (clauseBefore text position ++ clauseFrom text position ++ tail) := by
  obtain ⟨head, hhead⟩ := isSuffix_clauseBefore text position
  obtain ⟨tail, htail⟩ := isPrefix_clauseFrom text position
  refine ⟨head, tail, hhead.symm, ?_⟩
  rw [List.append_assoc, ← List.append_assoc, hhead, htail, List.take_append_drop]

/-- A clause that is not blank is shown, trimmed. -/
theorem enclosingClause_eq_trim {text : List Char} {position : Nat}
    (h : trim (clauseBefore text position ++ clauseFrom text position) ≠ []) :
    ParseError.enclosingClause text position =
      trim (clauseBefore text position ++ clauseFrom text position) := by
  have hshown : (!(trim (clauseBefore text position ++ clauseFrom text position)).isEmpty) = true := by
    rw [List.isEmpty_eq_false_iff.2 h]
    rfl
  exact if_pos hshown

/-- A separator after a blank clause is shown. -/
theorem enclosingClause_eq_separator {text : List Char} {position : Nat}
    (hc : text[position]? = some ';') (h : ∀ b ∈ clauseBefore text position, isBlank b = true) :
    ParseError.enclosingClause text position = [';'] := by
  obtain ⟨rest, hdrop⟩ := drop_eq_cons hc
  have hfrom : clauseFrom text position = [] := by
    rw [clauseFrom, hdrop]
    rfl
  have hclause : ¬(!(trim (clauseBefore text position ++
      clauseFrom text position)).isEmpty) = true := by
    rw [hfrom, List.append_nil, trim_eq_nil_iff.2 h]
    exact nofun
  have hseparator : trim (clauseBefore text position ++ clauseFrom text position ++
      ((text.drop position).drop (clauseFrom text position).length).take 1) = [';'] := by
    rw [hfrom, hdrop, List.append_nil, trim, List.dropWhile_append_of_pos h]
    rfl
  have hshown : (!(trim (clauseBefore text position ++ clauseFrom text position ++
      ((text.drop position).drop (clauseFrom text position).length).take 1)).isEmpty) = true := by
    rw [hseparator]
    rfl
  exact (if_neg hclause).trans ((if_pos hshown).trans hseparator)

/-- What is shown is some part of the text, trimmed. -/
theorem exists_trim_eq_enclosingClause (text : List Char) (position : Nat) :
    ∃ cs, ParseError.enclosingClause text position = trim cs ∧ cs <:+: text := by
  rw [ParseError.enclosingClause]
  split
  · exact ⟨_, rfl, isInfix_of_suffix_take (isSuffix_clauseBefore ..) (isPrefix_clauseFrom ..)⟩
  · split
    · refine ⟨_, rfl, ?_⟩
      rw [List.append_assoc]
      refine isInfix_of_suffix_take (isSuffix_clauseBefore ..) ?_
      -- one character more than the clause has
      obtain ⟨rest, hrest⟩ := isPrefix_clauseFrom text position
      rw [← clauseFrom, ← hrest, List.drop_left, List.prefix_append_right_inj]
      exact List.take_prefix ..
    · exact ⟨text, rfl, List.infix_rfl⟩

theorem mem_of_mem_trim {cs : List Char} {c : Char} (h : c ∈ trim cs) : c ∈ cs := by
  obtain ⟨front, back, hcs, -, -⟩ := trim_split cs
  rw [hcs]
  exact List.mem_append_right _ (List.mem_append_left _ h)

/-- There is no separator within a clause. -/
theorem not_mem_clause (text : List Char) (position : Nat) :
    ';' ∉ clauseBefore text position ++ clauseFrom text position := by
  intro h
  obtain h | h := List.mem_append.1 h
  · exact absurd (List.mem_rtakeWhile_imp h) (by decide)
  · exact absurd (List.mem_takeWhile_imp h) (by decide)

/-- What is shown of a malformed text occurs around the position only if the position is not trimmed
off. -/
theorem PointsInto.keptAt {text : List Char} {position : Nat} {c : Char}
    (hc : text[position]? = some c)
    (h : PointsInto text (ParseError.enclosingClause text position) position) :
    KeptAt text position := by
  refine ⟨c, hc, ?_, fun hne hblank => ?_⟩
  · rintro rfl
    -- otherwise the clause before the separator is shown, without the separator
    by_contra hbefore
    have hclause : trim (clauseBefore text position ++ clauseFrom text position) ≠ [] :=
      fun hnil => hbefore (List.forall_mem_append.1 (trim_eq_nil_iff.1 hnil)).1
    have hmem : ';' ∉ ParseError.enclosingClause text position := by
      rw [enclosingClause_eq_trim hclause]
      exact fun hmem => not_mem_clause text position (mem_of_mem_trim hmem)
    obtain ⟨l, r, -, -, hr⟩ := h.split_clause hc hmem
    exact absurd (List.mem_takeWhile_imp (hr.subset List.mem_cons_self)) (by decide)
  · have hfragment : ';' ∉ ParseError.enclosingClause text position := by
      obtain ⟨-, -, -, -, -, hmem | hseparator⟩ := id h
      · exact hmem
      · obtain ⟨l, r, heq, -, -⟩ := h.split hc
        rw [hseparator] at heq
        have hmem : c ∈ [';'] := heq ▸ List.mem_append_right l List.mem_cons_self
        exact absurd (List.mem_singleton.1 hmem) hne
    obtain ⟨l, r, heq, hl, hr⟩ := h.split_clause hc hfragment
    obtain ⟨cs, hcs, -⟩ := exists_trim_eq_enclosingClause text position
    rw [hcs] at heq
    constructor
    · -- the fragment does not start with the blank at the position
      cases l with
      | nil =>
        have hhead := head?_trim cs c (by rw [heq]; rfl)
        rw [hblank] at hhead
        exact absurd hhead nofun
      | cons b l =>
        exact ⟨b, hl.subset List.mem_cons_self, head?_trim cs b (by rw [heq]; rfl)⟩
    · have hne : c :: r ≠ [] := List.cons_ne_nil c r
      refine ⟨(c :: r).getLast hne, hr.subset (List.getLast_mem hne), ?_⟩
      refine getLast?_trim cs _ ?_
      rw [heq, List.getLast?_append, List.getLast?_eq_some_getLast hne]
      rfl

/-- If the position is not trimmed off, then what is shown occurs around it. -/
theorem KeptAt.pointsInto {text : List Char} {position : Nat} (h : KeptAt text position) :
    PointsInto text (ParseError.enclosingClause text position) position := by
  obtain ⟨c, hc, hseparator, hother⟩ := h
  obtain ⟨hlt, -⟩ := List.getElem?_eq_some_iff.1 hc
  obtain ⟨rest, hdrop⟩ := drop_eq_cons hc
  by_cases hsemicolon : c = ';'
  · subst hsemicolon
    rw [enclosingClause_eq_separator hc (hseparator rfl)]
    refine ⟨text.take position, rest, ?_, List.length_take_le .., ?_, .inr rfl⟩
    · rw [List.singleton_append, ← hdrop, List.take_append_drop]
    · rw [List.length_take_of_le hlt.le]
      exact Nat.lt_succ_self _
  · obtain ⟨head, tail, htake, htext⟩ := clause_split text position
    have hposition : position = head.length + (clauseBefore text position).length := by
      rw [← List.length_append, ← htake, List.length_take_of_le hlt.le]
    obtain ⟨more, hfrom⟩ : ∃ more, clauseFrom text position = c :: more :=
      ⟨_, by rw [clauseFrom, hdrop, List.takeWhile_cons_of_pos (by simpa using hsemicolon)]⟩
    -- something that is not blank stands on either side, or is the character at the position
    have hsides : (∃ b ∈ clauseBefore text position ++ [c], isBlank b = false) ∧
        ∃ b ∈ c :: more, isBlank b = false := by
      cases hblank : isBlank c with
      | false =>
        exact ⟨⟨c, List.mem_append_right _ (List.mem_singleton_self c), hblank⟩, c,
          List.mem_cons_self, hblank⟩
      | true =>
        obtain ⟨⟨b, hb, hb'⟩, hafter⟩ := hother hsemicolon hblank
        exact ⟨⟨b, List.mem_append_left _ hb, hb'⟩, hfrom ▸ hafter⟩
    obtain ⟨l, r, hsplit, hfront, hback⟩ := trim_split_around hsides.1 hsides.2
    rw [← hfrom] at hsplit hback
    have hclause : trim (clauseBefore text position ++ clauseFrom text position) ≠ [] := by
      intro hnil
      rw [hnil, List.length_nil] at hback
      omega
    rw [enclosingClause_eq_trim hclause]
    refine ⟨head ++ l, r ++ tail, ?_, ?_, ?_, .inl fun h => not_mem_clause text position
      (mem_of_mem_trim h)⟩
    · rw [List.append_assoc, ← List.append_assoc _ r, ← List.append_assoc l, ← hsplit]
      exact htext
    · rw [List.length_append]
      omega
    · rw [List.length_append]
      omega

/-! ## The fragment of a refused clause -/

/-- A text without its layout is the tokens that it lays out, written one after the other. -/
theorem Laid.filter {ts : List Token} {cs : List Char} (h : Laid ts cs)
    (hspelled : ∀ t ∈ ts, t.WellSpelled) :
    cs.filter (fun c => !isLayout c) = ts.flatMap Token.spelling := by
  induction h with
  | nil hcs =>
    refine List.filter_eq_nil_iff.2 fun c hc => ?_
    rw [hcs c hc]
    exact nofun
  | @cons t ts blanks cs hblanks _ ih =>
    obtain ⟨ht, hspelled⟩ := List.forall_mem_cons.1 hspelled
    have hnil : blanks.filter (fun c => !isLayout c) = [] :=
      List.filter_eq_nil_iff.2 fun c hc => by
        rw [hblanks c hc]
        exact nofun
    have htoken : t.spelling.filter (fun c => !isLayout c) = t.spelling :=
      List.filter_eq_self.2 fun c hc => by rw [isLayout_of_mem_spelling ht c hc]; rfl
    rw [List.filter_append, List.filter_append, hnil, htoken, ih hspelled]
    rfl

/-- Only layout comes after the last token. -/
theorem Laid.exists_last {ts : List Token} {t : Token} {cs : List Char} (h : Laid (ts ++ [t]) cs) :
    ∃ front blanks, cs = front ++ (t.spelling ++ blanks) ∧ ∀ c ∈ blanks, isLayout c = true := by
  induction ts generalizing cs with
  | nil =>
    obtain - | @⟨_, _, blanks, cs, -, hnil⟩ := h
    obtain ⟨hcs⟩ := hnil
    exact ⟨blanks, cs, rfl, hcs⟩
  | cons u ts ih =>
    obtain - | @⟨_, _, blanks, cs, -, hrest⟩ := h
    obtain ⟨front, more, rfl, hmore⟩ := ih hrest
    exact ⟨blanks ++ (u.spelling ++ front), more, by simp [List.append_assoc], hmore⟩

/-- Only layout stands between a clause and the separator before it. -/
theorem isLayout_of_suffix {before : List Written} {front l : List Char}
    (h : Laid (closedTokens before) front) (hl : l <:+ front) (hseparator : ';' ∉ l) :
    ∀ c ∈ l, isLayout c = true := by
  obtain rfl | ⟨before, w, rfl⟩ := List.eq_nil_or_concat before
  · obtain ⟨hfront⟩ : Laid [] front := h
    exact fun c hc => hfront c (hl.subset hc)
  · have hclosed : closedTokens (before ++ [w]) =
        (closedTokens before ++ w.tokens) ++ [.semicolon] := by
      simp [closedTokens, List.append_assoc]
    rw [List.concat_eq_append, hclosed] at h
    obtain ⟨rest, blanks, rfl, hblanks⟩ := h.exists_last
    have hend : l <:+ blanks := by
      refine List.suffix_of_suffix_length_le hl ⟨rest ++ [';'], by simp [Token.spelling]⟩ ?_
      by_contra hlong
      have hmore : ';' :: blanks <:+ l :=
        List.suffix_of_suffix_length_le ⟨rest, rfl⟩ hl (Nat.lt_of_not_le hlong)
      exact hseparator (hmore.subset List.mem_cons_self)
    exact fun c hc => hblanks c (hend.subset hc)

/-- No token of a clause separates clauses. -/
theorem semicolon_not_mem_tokens (w : Written) : Token.semicolon ∉ w.tokens := by
  have hslot : ∀ s : Slot, Token.semicolon ∉ Written.slotTokens s := fun s => by
    cases s <;> simp [Written.slotTokens]
  have hbang : ∀ negated, Token.semicolon ∉ Written.bangTokens negated := fun negated => by
    cases negated <;> simp [Written.bangTokens]
  cases w <;> simp [Written.tokens, Written.vertexTokens, Written.edgeTokens, hslot, hbang]

/-- The text of a clause has no separator in it. -/
theorem not_mem_toText {w : Written} (hspelled : ∀ t ∈ w.tokens, t.WellSpelled) :
    ';' ∉ w.toText.toList := by
  rw [w.toList_toText, List.mem_flatMap]
  rintro ⟨t, ht, hmem⟩
  have hspelled := hspelled t ht
  cases t with
  | name name => exact absurd (isIdentifierPart_of_mem hspelled _ hmem) (by decide)
  | semicolon => exact semicolon_not_mem_tokens w ht
  | _ => exact absurd hmem (by decide)

/-- The text of a clause that is laid out has none of its layout. -/
theorem Laid.toList_toText {w : Written} {clause : List Char} (h : Laid w.tokens clause)
    (hspelled : ∀ t ∈ w.tokens, t.WellSpelled) :
    w.toText.toList = clause.filter (fun c => !isLayout c) := by
  rw [w.toList_toText, h.filter hspelled]

/-- Where the text of a clause occurs around the position of the clause, the clause starts with
it. -/
theorem isPrefix_of_pointsInto {before : List Written} {w : Written} {front clause back : List Char}
    (hfront : Laid (closedTokens before) front) (hclause : Spans w.tokens clause)
    (hspelled : ∀ t ∈ w.tokens, t.WellSpelled)
    (h : PointsInto (front ++ (clause ++ back)) w.toText.toList front.length) :
    w.toText.toList <+: clause := by
  obtain ⟨d, cs, hcs, -⟩ := hclause.head
  obtain ⟨l, r, heq, hl, hr⟩ := h.split (c := d) (by simp [hcs])
  rw [List.take_left] at hl
  rw [List.drop_left] at hr
  have hfilter := hclause.laid.toList_toText hspelled
  -- what occurs before the position is layout, so there is nothing of the clause
  have hseparator : ';' ∉ l := fun hmem =>
    not_mem_toText hspelled (heq ▸ List.mem_append_left _ hmem)
  have hnil : l = [] := List.eq_nil_iff_forall_not_mem.2 fun c hc => by
    have hmem : c ∈ w.toText.toList := heq ▸ List.mem_append_left _ hc
    have hlayout := (List.mem_filter.1 (hfilter ▸ hmem)).2
    rw [isLayout_of_suffix hfront hl hseparator c hc] at hlayout
    exact absurd hlayout nofun
  rw [hnil, List.nil_append] at heq
  refine List.prefix_of_prefix_length_le (heq ▸ hr) (List.prefix_append ..) ?_
  rw [hfilter]
  exact List.length_filter_le ..

/-- A clause that starts with all of it but its layout has no layout, as it ends with a token. -/
theorem Spans.filter_eq_self_of_isPrefix {ts : List Token} {cs : List Char} (h : Spans ts cs)
    (hstarts : cs.filter (fun c => !isLayout c) <+: cs) :
    cs.filter (fun c => !isLayout c) = cs := by
  obtain ⟨more, hmore⟩ := hstarts
  have hnil : more.filter (fun c => !isLayout c) = [] := by
    have hself := congrArg (List.filter fun c => !isLayout c) hmore
    simpa only [List.filter_append, List.filter_filter, Bool.and_self, List.append_right_eq_self]
      using hself
  obtain rfl | ⟨more, e, rfl⟩ := List.eq_nil_or_concat more
  · rwa [List.append_nil] at hmore
  · obtain ⟨rest, c, hlast, hc⟩ := h.last
    have hce : e = c := by
      rw [← hmore, List.concat_eq_append, ← List.append_assoc] at hlast
      exact (List.cons.inj (List.append_inj' hlast rfl).2).1
    exact absurd (by rw [hce, hc]; rfl) (List.filter_eq_nil_iff.1 hnil e (by simp))

/-- A refused clause is shown without its layout, so what is shown occurs around the position only
if there is none. -/
theorem StandsAt.pointsInto_iff {text : List Char} {before : List Written} {w : Written}
    {position : Nat} (h : StandsAt text before w position)
    (hspelled : ∀ t ∈ w.tokens, t.WellSpelled) :
    ∃ clause, clause <+: text.drop position ∧ Spans w.tokens clause ∧
      w.toText.toList = clause.filter (fun c => !isLayout c) ∧
      (PointsInto text w.toText.toList position ↔ ∀ c ∈ clause, isLayout c = false) := by
  obtain ⟨front, clause, back, rfl, rfl, hfront, hclause⟩ := h
  have htext := hclause.laid.toList_toText hspelled
  have hself : clause.filter (fun c => !isLayout c) = clause ↔ ∀ c ∈ clause, isLayout c = false := by
    simp only [List.filter_eq_self, Bool.not_eq_true']
  refine ⟨clause, ⟨back, List.drop_left.symm⟩, hclause, htext, fun h => ?_, fun h => ?_⟩
  · have hstarts := isPrefix_of_pointsInto hfront hclause hspelled h
    exact hself.1 (hclause.filter_eq_self_of_isPrefix (htext ▸ hstarts))
  · have heq : w.toText.toList = clause := htext.trans (hself.2 h)
    obtain ⟨c, cs, hcs, -⟩ := hclause.head
    refine ⟨front, back, by rw [heq], Nat.le_refl _, ?_, .inl (not_mem_toText hspelled)⟩
    rw [heq, hcs, List.length_cons]
    omega

/-- An error carries the text and a position inside it. The fragment of a malformed text is a part
of the text, and occurs around the position exactly if the position is not trimmed off the clause.
The fragment of a refused clause is the clause without its layout, and occurs around the position
exactly if the clause has none. -/
theorem parse_fragment (text : String) (e : ParseError) (h : Pattern.parse text = .error e) :
    e.pattern = text ∧ ∃ position < text.length, e.position? = some position ∧
      (e = .malformed text position ∧ e.fragment.toList <:+: text.toList ∧
          (PointsInto text.toList e.fragment.toList position ↔ KeptAt text.toList position) ∨
        ∃ w clause, e = .refused text position w ∧ w.Refused ∧
          clause <+: text.toList.drop position ∧ Spans w.tokens clause ∧
          e.fragment.toList = clause.filter (fun c => !isLayout c) ∧
          (PointsInto text.toList e.fragment.toList position ↔
            ∀ c ∈ clause, isLayout c = false)) := by
  obtain ⟨position, hread, rfl⟩ | ⟨before, x, after, hread, -, hrefused, rfl⟩ :=
    parse_eq_error_iff.1 h
  · obtain ⟨c, hc, -⟩ := exists_getElem?_of_readClauses hread
    obtain ⟨hlt, -⟩ := List.getElem?_eq_some_iff.1 hc
    rw [String.length_toList] at hlt
    have hfragment : (ParseError.malformed text position).fragment.toList =
        ParseError.enclosingClause text.toList position := String.toList_ofList
    refine ⟨rfl, position, hlt, rfl, .inl ⟨rfl, ?_, ?_⟩⟩
    · obtain ⟨cs, hcs, hinfix⟩ := exists_trim_eq_enclosingClause text.toList position
      obtain ⟨front, back, hsplit, -⟩ := trim_split cs
      rw [hfragment, hcs]
      exact List.IsInfix.trans ⟨front, back, by rw [List.append_assoc, ← hsplit]⟩ hinfix
    · rw [hfragment]
      exact ⟨fun h => h.keptAt hc, fun h => h.pointsInto⟩
  · have hspelled : ∀ t ∈ x.written.tokens, t.WellSpelled :=
      (forall_mem_clauseTokens trivial _).1 (spells_iff.2 ⟨_, hread, rfl⟩).1 _ (by simp)
    obtain ⟨clause, hstarts, hclause, hfragment, hiff⟩ :=
      (standsAt_of_readClauses hread).pointsInto_iff hspelled
    refine ⟨rfl, x.offset, ?_, rfl, .inr ⟨x.written, clause, rfl, hrefused, hstarts, hclause,
      hfragment, hiff⟩⟩
    obtain ⟨c, cs, rfl, -⟩ := hclause.head
    have hlength := hstarts.length_le
    rw [List.length_drop, List.length_cons, String.length_toList] at hlength
    omega

theorem parse_fragment_trailingSemicolon :
    Pattern.parse "(a);" = .error (.malformed "(a);" 3) ∧
      (ParseError.malformed "(a);" 3).pattern = "(a);" ∧ ∃ position < "(a);".length,
        (ParseError.malformed "(a);" 3).position? = some position ∧
        (ParseError.malformed "(a);" 3 = .malformed "(a);" position ∧
            (ParseError.malformed "(a);" 3).fragment.toList <:+: "(a);".toList ∧
            (PointsInto "(a);".toList (ParseError.malformed "(a);" 3).fragment.toList position ↔
              KeptAt "(a);".toList position) ∨
          ∃ w clause, ParseError.malformed "(a);" 3 = .refused "(a);" position w ∧ w.Refused ∧
            clause <+: "(a);".toList.drop position ∧ Spans w.tokens clause ∧
            (ParseError.malformed "(a);" 3).fragment.toList = clause.filter (fun c => !isLayout c) ∧
            (PointsInto "(a);".toList (ParseError.malformed "(a);" 3).fragment.toList position ↔
              ∀ c ∈ clause, isLayout c = false)) :=
  have herror : Pattern.parse "(a);" = .error (.malformed "(a);" 3) := by decide +kernel
  ⟨herror, parse_fragment "(a);" (.malformed "(a);" 3) herror⟩

/-- Fragments that are not found around the position: a clause that was written with a blank in it,
one that a separator comes after, and the blank that a text consists of. -/
theorem exists_fragment_not_pointsInto :
    (∃ e, Pattern.parse "(a) <-[]-(b)" = .error e ∧ e.fragment = "(a)<-[]-(b)" ∧
      ¬e.fragment.toList <:+: "(a) <-[]-(b)".toList) ∧
    (∃ e, Pattern.parse "(a);" = .error e ∧ e.position? = some 3 ∧ e.fragment = "(a)" ∧
      ¬PointsInto "(a);".toList e.fragment.toList 3) ∧
    ∃ e, Pattern.parse "\u00a0" = .error e ∧ e.fragment = "" := by
  have hspaced : Pattern.parse "(a) <-[]-(b)" =
      .error (.refused "(a) <-[]-(b)" 0 (.backward false (some "a") none (some "b"))) := by
    decide +kernel
  have htrailing : Pattern.parse "(a);" = .error (.malformed "(a);" 3) := by decide +kernel
  have hblank : Pattern.parse "\u00a0" = .error (.malformed "\u00a0" 0) := by decide +kernel
  refine ⟨⟨_, hspaced, by decide +kernel, by decide +kernel⟩,
    ⟨_, htrailing, rfl, by decide +kernel, fun h => ?_⟩, ⟨_, hblank, by decide +kernel⟩⟩
  -- the fragment would have the separator at the position
  obtain ⟨l, r, heq, -, -⟩ := h.split (c := ';') (by decide +kernel)
  have hmem : ';' ∈ (ParseError.malformed "(a);" 3).fragment.toList :=
    heq ▸ List.mem_append_right l List.mem_cons_self
  exact absurd hmem (by decide +kernel)

end GraphMotif.Pattern
