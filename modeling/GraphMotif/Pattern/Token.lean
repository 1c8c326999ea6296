import GraphMotif.Text.Identifier

/-!
# Tokens of patterns

The marks and names of which patterns are made, how each is spelled, and how the next one is read.
A dash and the arrow `->` start alike; the reader says which of the two it awaits.
-/

namespace GraphMotif.Pattern

/-- A token of a pattern. -/
inductive Token where
  | bang
  | openParen
  | closeParen
  | openBracket
  | closeBracket
  | dash
  | arrow
  | backArrow
  | semicolon
  | name (cs : List Char)
  deriving DecidableEq

namespace Token

/-- The characters of a token. -/
def spelling : Token → List Char
  | bang => ['!']
  | openParen => ['(']
  | closeParen => [')']
  | openBracket => ['[']
  | closeBracket => [']']
  | dash => ['-']
  | arrow => ['-', '>']
  | backArrow => ['<', '-']
  | semicolon => [';']
  | name cs => cs

/-- The token at the start of a text, and the rest. A text that starts with a dash is read as an
arrow where one is awaited and as a dash elsewhere. -/
def read? (arrowAwaited : Bool) (cs : List Char) : Option (Token × List Char) :=
  match cs with
  | '!' :: rest => some (bang, rest)
  | '(' :: rest => some (openParen, rest)
  | ')' :: rest => some (closeParen, rest)
  | '[' :: rest => some (openBracket, rest)
  | ']' :: rest => some (closeBracket, rest)
  | ';' :: rest => some (semicolon, rest)
  | '<' :: '-' :: rest => some (backArrow, rest)
  | '-' :: rest =>
    if arrowAwaited then
      match rest with
      | '>' :: rest => some (arrow, rest)
      | _ => none
    else some (dash, rest)
  | _ => (readIdentifier? cs).map fun (cs, rest) => (name cs, rest)

theorem length_lt_of_read? {arrowAwaited : Bool} {cs rest : List Char} {t : Token}
    (h : read? arrowAwaited cs = some (t, rest)) : rest.length < cs.length := by
  unfold read? at h
  split at h
  case h_9 =>
    obtain ⟨⟨word, rest'⟩, hread, heq⟩ := Option.map_eq_some_iff.1 h
    obtain ⟨-, rfl⟩ := Prod.mk.inj heq
    exact length_lt_of_readIdentifier? hread
  case h_8 =>
    split at h
    · split at h
      · obtain ⟨-, rfl⟩ := Prod.mk.inj (Option.some.inj h)
        simp only [List.length_cons]
        omega
      · exact absurd h nofun
    · obtain ⟨-, rfl⟩ := Prod.mk.inj (Option.some.inj h)
      exact Nat.lt_succ_self _
  all_goals
    obtain ⟨-, rfl⟩ := Prod.mk.inj (Option.some.inj h)
    simp only [List.length_cons]
    omega

end Token

end GraphMotif.Pattern
