import GraphMotif.Pattern.Reader

/-!
# Tokens and the texts that lay them out

`Laid ts cs` says that the text `cs` consists of the tokens `ts` with runs of layout before, between
and after them. A token that stands at the start of a text is read there: a name if it ends there, an
arrow or a dash if that is what is awaited.
-/

namespace GraphMotif.Pattern

/-- The text `cs` consists of the tokens `ts`, with layout anywhere around but not inside them. -/
inductive Laid : List Token → List Char → Prop where
  | nil {cs : List Char} (hcs : ∀ c ∈ cs, isLayout c = true) : Laid [] cs
  | cons {t : Token} {ts : List Token} {blanks cs : List Char}
      (hblanks : ∀ c ∈ blanks, isLayout c = true) (hcs : Laid ts cs) :
      Laid (t :: ts) (blanks ++ (t.spelling ++ cs))

/-- Whether a token is a mark or the name that it carries is an identifier. -/
def Token.WellSpelled : Token → Prop
  | .name cs => isIdentifier cs = true
  | _ => True

namespace Laid

/-- Layout may be put before a text. -/
theorem append_left {ts : List Token} {blanks cs : List Char}
    (hblanks : ∀ c ∈ blanks, isLayout c = true) (h : Laid ts cs) : Laid ts (blanks ++ cs) := by
  cases h with
  | nil hcs =>
    refine .nil fun c hc => ?_
    rcases List.mem_append.1 hc with hc | hc
    · exact hblanks c hc
    · exact hcs c hc
  | @cons t ts more cs hmore hcs =>
    rw [← List.append_assoc]
    refine .cons (fun c hc => ?_) hcs
    rcases List.mem_append.1 hc with hc | hc
    · exact hblanks c hc
    · exact hmore c hc

/-- Texts that follow each other lay out the tokens of one and then those of the other. -/
theorem append {ts us : List Token} {cs ds : List Char} (h : Laid ts cs) (h' : Laid us ds) :
    Laid (ts ++ us) (cs ++ ds) := by
  induction h with
  | nil hcs => exact h'.append_left hcs
  | cons hblanks _ ih =>
    simp only [List.append_assoc, List.cons_append]
    exact .cons hblanks ih

/-- Tokens written one after the other. -/
theorem of_spelling (ts : List Token) : Laid ts (ts.flatMap Token.spelling) := by
  induction ts with
  | nil => exact .nil (by simp)
  | cons t ts ih =>
    have hblanks : ∀ c ∈ ([] : List Char), isLayout c = true := by simp
    rw [List.flatMap_cons]
    exact .cons hblanks ih

end Laid

theorem skipLayout_eq_nil_iff {cs : List Char} :
    skipLayout cs = [] ↔ ∀ c ∈ cs, isLayout c = true := by
  induction cs with
  | nil => simp [skipLayout]
  | cons c cs ih =>
    by_cases hc : isLayout c = true
    · have hskip : skipLayout (c :: cs) = skipLayout cs := List.dropWhile_cons_of_pos hc
      rw [hskip, ih, List.forall_mem_cons]
      exact ⟨fun h => ⟨hc, h⟩, fun h => h.2⟩
    · have hskip : skipLayout (c :: cs) = c :: cs := List.dropWhile_cons_of_neg hc
      rw [hskip, List.forall_mem_cons]
      exact ⟨fun h => absurd h (List.cons_ne_nil c cs), fun h => absurd h.1 hc⟩

/-! ## Reading one token -/

/-- Layout is no part of a name. -/
theorem isIdentifierPart_eq_false {c : Char} (hc : isLayout c = true) :
    isIdentifierPart c = false := by
  simp only [isLayout, Bool.or_eq_true, beq_iff_eq] at hc
  rcases hc with (((rfl | rfl) | rfl) | rfl) | rfl <;> decide

theorem eq_append_of_readIdentifier? {cs name rest : List Char}
    (h : readIdentifier? cs = some (name, rest)) : cs = name ++ rest ∧ isIdentifier name = true := by
  cases cs with
  | nil => simp [readIdentifier?] at h
  | cons c cs =>
    simp only [readIdentifier?] at h
    split at h
    · next hc =>
      obtain ⟨rfl, rfl⟩ := Prod.mk.inj (Option.some.inj h)
      refine ⟨by simp, ?_⟩
      rw [isIdentifier, hc, Bool.true_and]
      exact List.all_takeWhile
    · simp at h

theorem readIdentifier?_append {name rest : List Char} (hname : isIdentifier name = true)
    (hrest : ∀ c ∈ rest.head?, isIdentifierPart c = false) :
    readIdentifier? (name ++ rest) = some (name, rest) := by
  cases name with
  | nil => simp [isIdentifier] at hname
  | cons c cs =>
    simp only [isIdentifier, Bool.and_eq_true, List.all_eq_true] at hname
    obtain ⟨hc, hcs⟩ := hname
    have htake : rest.takeWhile isIdentifierPart = [] := by
      cases rest with
      | nil => rfl
      | cons d ds => exact List.takeWhile_cons_of_neg (by simp [hrest d rfl])
    have hdrop : rest.dropWhile isIdentifierPart = rest := by
      cases rest with
      | nil => rfl
      | cons d ds => exact List.dropWhile_cons_of_neg (by simp [hrest d rfl])
    simp only [List.cons_append, readIdentifier?, hc, if_true]
    rw [List.takeWhile_append_of_pos hcs, List.dropWhile_append_of_pos hcs, htake, hdrop,
      List.append_nil]

/-- An identifier is read to its end. -/
theorem head?_of_readIdentifier? {cs name rest : List Char}
    (h : readIdentifier? cs = some (name, rest)) :
    ∀ d ∈ rest.head?, isIdentifierPart d = false := by
  intro d hd
  cases cs with
  | nil => exact absurd h nofun
  | cons c cs =>
    simp only [readIdentifier?, Option.ite_none_right_eq_some] at h
    obtain ⟨-, rfl⟩ := Prod.mk.inj (Option.some.inj h.2)
    have hhead := List.head?_dropWhile_not isIdentifierPart cs
    rw [Option.mem_def.1 hd] at hhead
    exact hhead

/-- What is read is an identifier, or a mark at the start of the text. -/
theorem read?_cases {arrowAwaited : Bool} {cs rest : List Char} {t : Token}
    (h : Token.read? arrowAwaited cs = some (t, rest)) :
    (∃ name, t = .name name ∧ readIdentifier? cs = some (name, rest)) ∨
      (∀ name, t ≠ .name name) ∧ cs = t.spelling ++ rest ∧ t.WellSpelled := by
  unfold Token.read? at h
  split at h
  case h_9 =>
    obtain ⟨⟨name, rest'⟩, hread, heq⟩ := Option.map_eq_some_iff.1 h
    obtain ⟨rfl, rfl⟩ := Prod.mk.inj heq
    exact .inl ⟨name, rfl, hread⟩
  case h_8 =>
    split at h
    · split at h
      · obtain ⟨rfl, rfl⟩ := Prod.mk.inj (Option.some.inj h)
        exact .inr ⟨nofun, rfl, trivial⟩
      · exact absurd h nofun
    · obtain ⟨rfl, rfl⟩ := Prod.mk.inj (Option.some.inj h)
      exact .inr ⟨nofun, rfl, trivial⟩
  all_goals
    obtain ⟨rfl, rfl⟩ := Prod.mk.inj (Option.some.inj h)
    exact .inr ⟨nofun, rfl, trivial⟩

/-- A token that is read stands at the start of the text. -/
theorem eq_append_of_read? {arrowAwaited : Bool} {cs rest : List Char} {t : Token}
    (h : Token.read? arrowAwaited cs = some (t, rest)) :
    cs = t.spelling ++ rest ∧ t.WellSpelled := by
  obtain ⟨name, rfl, hread⟩ | ⟨-, hmark⟩ := read?_cases h
  · exact eq_append_of_readIdentifier? hread
  · exact hmark

/-- No token starts with layout. -/
theorem head?_spelling {t : Token} (ht : t.WellSpelled) :
    ∃ c cs, t.spelling = c :: cs ∧ isLayout c = false := by
  cases t with
  | name cs =>
    cases cs with
    | nil => simp [Token.WellSpelled, isIdentifier] at ht
    | cons c cs =>
      refine ⟨c, cs, rfl, ?_⟩
      simp only [Token.WellSpelled, isIdentifier, Bool.and_eq_true] at ht
      rw [Bool.eq_false_iff]
      intro hc
      have hpart := isIdentifierPart_eq_false hc
      rw [isIdentifierPart, ht.1, Bool.true_or] at hpart
      exact absurd hpart nofun
  | _ => exact ⟨_, _, rfl, by decide⟩

/-- A name is read whole where no further character of a name follows. -/
theorem read?_name {arrowAwaited : Bool} {name rest : List Char} (hname : isIdentifier name = true)
    (hrest : ∀ c ∈ rest.head?, isIdentifierPart c = false) :
    Token.read? arrowAwaited (name ++ rest) = some (.name name, rest) := by
  have hread := readIdentifier?_append hname hrest
  cases name with
  | nil => simp [isIdentifier] at hname
  | cons c cs =>
    simp only [isIdentifier, Bool.and_eq_true] at hname
    unfold Token.read?
    -- no mark starts like an identifier
    split
    case h_9 => rw [hread]; rfl
    all_goals
      next heq =>
        obtain ⟨rfl, -⟩ := List.cons.inj heq
        exact absurd hname.1 (by decide)

/-- A mark is read at its place: an arrow where one is awaited, a dash where none is. -/
theorem read?_mark {arrowAwaited : Bool} {t : Token} (rest : List Char)
    (hname : ∀ cs, t ≠ .name cs) (hdash : t = .dash → arrowAwaited = false)
    (harrow : t = .arrow → arrowAwaited = true) :
    Token.read? arrowAwaited (t.spelling ++ rest) = some (t, rest) := by
  cases t with
  | name cs => exact absurd rfl (hname cs)
  | dash => rw [hdash rfl]; rfl
  | arrow => rw [harrow rfl]; rfl
  | _ => rfl

end GraphMotif.Pattern
