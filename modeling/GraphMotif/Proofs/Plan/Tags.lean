import GraphMotif.Plan
import Mathlib.Data.List.TakeWhile

/-!
# Tags

The tag of a scan is a letter and a number. No tag holds the mark that separates it from a column,
so the name of a scanned column says which tag and which column it was made of.
-/

namespace GraphMotif

/-- Whether a tag can be told from what stands after it. -/
def IsTag (tag : String) : Prop := ':' ∉ tag.toList

instance (tag : String) : Decidable (IsTag tag) := inferInstanceAs (Decidable (_ ∉ _))

theorem toList_qualified (tag column : String) :
    (qualified tag column).toList = tag.toList ++ ':' :: ':' :: column.toList := by
  rw [qualified, String.toList_append, String.toList_append, List.append_assoc]
  rfl

/-- The tag is what stands before the first colon. -/
theorem takeWhile_qualified {tag : String} (h : IsTag tag) (column : String) :
    (qualified tag column).toList.takeWhile (· != ':') = tag.toList := by
  have htag : ∀ c ∈ tag.toList, (c != ':') = true := fun c hc =>
    bne_iff_ne.2 fun heq => h (heq ▸ hc)
  rw [toList_qualified, List.takeWhile_append_of_pos htag]
  exact List.append_nil _

theorem qualified_injective (tag : String) : Function.Injective (qualified tag) :=
  fun _ _ h => (String.append_right_inj _).1 h

/-- Columns of one name were made of one tag and one column. -/
theorem qualified_inj {tag tag' column column' : String} (h : IsTag tag) (h' : IsTag tag') :
    qualified tag column = qualified tag' column' ↔ tag = tag' ∧ column = column' := by
  constructor
  · intro heq
    have htag : tag.toList = tag'.toList := by
      rw [← takeWhile_qualified h column, ← takeWhile_qualified h' column', heq]
    obtain rfl := String.toList_injective htag
    exact ⟨rfl, qualified_injective tag heq⟩
  · rintro ⟨rfl, rfl⟩
    rfl

/-! ## Letters and numbers -/

theorem toList_toString (n : Nat) : (toString n).toList = Nat.toDigits 10 n := Nat.toList_repr

theorem toString_injective : Function.Injective (toString : Nat → String) := fun m n h => by
  have hdigits : Nat.toDigits 10 m = Nat.toDigits 10 n := by
    rw [← toList_toString, ← toList_toString, h]
  rw [← Nat.ofDigitChars_toDigits (b := 10) (n := m) (by decide) (by decide), hdigits,
    Nat.ofDigitChars_toDigits (by decide) (by decide)]

theorem isDigit_of_mem_toString {n : Nat} {c : Char} (h : c ∈ (toString n).toList) :
    c.isDigit = true := by
  rw [toList_toString] at h
  exact Nat.isDigit_of_mem_toDigits (by decide) (by decide) h

/-- A text without a colon before a number is a tag. -/
theorem isTag_append_toString {letter : String} (h : IsTag letter) (n : Nat) :
    IsTag (letter ++ toString n) := by
  intro hmem
  rw [String.toList_append, List.mem_append] at hmem
  exact hmem.elim h fun hdigit => absurd (isDigit_of_mem_toString hdigit) (by decide)

/-- A letter before a number says which letter and which number they are. -/
theorem letter_append_toString_inj {letter letter' : String} {c c' : Char}
    (hc : letter.toList = [c]) (hc' : letter'.toList = [c']) {m n : Nat} :
    letter ++ toString m = letter' ++ toString n ↔ letter = letter' ∧ m = n := by
  constructor
  · intro h
    have hlist := congrArg String.toList h
    rw [String.toList_append, String.toList_append, hc, hc'] at hlist
    obtain ⟨rfl, hrest⟩ := List.cons.inj hlist
    exact ⟨String.toList_injective (hc.trans hc'.symm),
      toString_injective (String.toList_injective hrest)⟩
  · rintro ⟨rfl, rfl⟩
    rfl

namespace Element

theorem letter_inj {kind kind' : Element} : kind.letter = kind'.letter ↔ kind = kind' := by
  cases kind <;> cases kind' <;> decide

/-- The columns of bindings with different kinds or different numbers differ. -/
theorem letter_append_inj {kind kind' : Element} {m n : Nat} :
    kind.letter ++ toString m = kind'.letter ++ toString n ↔ kind = kind' ∧ m = n := by
  rw [← letter_inj]
  cases kind <;> cases kind' <;> exact letter_append_toString_inj rfl rfl

theorem isTag_letter_append (kind : Element) (n : Nat) : IsTag (kind.letter ++ toString n) := by
  cases kind <;> exact isTag_append_toString (by decide) n

end Element

end GraphMotif
