/-!
# Identifiers

An identifier is an ASCII letter or underscore, then ASCII letters, digits and underscores.
-/

namespace GraphMotif

/-- Whether an identifier may start with a character. -/
def isIdentifierStart (c : Char) : Bool :=
  ('a' ≤ c && c ≤ 'z') || ('A' ≤ c && c ≤ 'Z') || c == '_'

/-- Whether an identifier may go on with a character. -/
def isIdentifierPart (c : Char) : Bool := isIdentifierStart c || ('0' ≤ c && c ≤ '9')

/-- Whether a text is one identifier. -/
def isIdentifier : List Char → Bool
  | [] => false
  | c :: cs => isIdentifierStart c && cs.all isIdentifierPart

/-- The longest identifier at the start of a text, and the rest. -/
def readIdentifier? : List Char → Option (List Char × List Char)
  | [] => none
  | c :: cs =>
    if isIdentifierStart c then
      some (c :: cs.takeWhile isIdentifierPart, cs.dropWhile isIdentifierPart)
    else none

theorem length_lt_of_readIdentifier? {cs name rest : List Char}
    (h : readIdentifier? cs = some (name, rest)) : rest.length < cs.length := by
  cases cs with
  | nil => simp [readIdentifier?] at h
  | cons c cs =>
    simp only [readIdentifier?] at h
    split at h
    · obtain ⟨-, rfl⟩ := Prod.mk.inj (Option.some.inj h)
      have := (List.dropWhile_sublist isIdentifierPart (l := cs)).length_le
      simp only [List.length_cons]
      omega
    · simp at h

end GraphMotif
