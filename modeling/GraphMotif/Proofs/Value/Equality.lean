import GraphMotif.Table

/-!
# Equality of cells

Cells are the same when they are not null and have one normal form. How their columns are stored
matters in one case: an integer column meets a binary64 column as binary64 numbers. A column that
was matched with one of another kind is mixed from then on, unless both hold numbers, and a mixed
column meets all others by value.
-/

namespace GraphMotif

theorem Binary64.ofRatio_ne_nan (negative : Bool) (num den : Nat) :
    Binary64.ofRatio negative num den ≠ .nan := by
  rw [Binary64.ofRatio]
  split <;> rintro ⟨⟩

theorem Binary64.ofInt_ne_nan (n : Int) : Binary64.ofInt n ≠ .nan := ofRatio_ne_nan _ _ _

namespace Value

theorem isNull_toFloat (v : Value) : v.toFloat.isNull = v.isNull := by
  cases v with
  | int n =>
    have hx := Binary64.ofInt_ne_nan n
    rw [toFloat]
    generalize Binary64.ofInt n = x at hx
    cases x with
    | nan => exact absurd rfl hx
    | _ => rfl
  | _ => rfl

/-- The nulls are the values with the normal form of a null. -/
theorem key_eq_null_iff {v : Value} : v.key = .null ↔ v.isNull = true := by
  cases v with
  | float x => cases x <;> simp [key, quantity?, Binary64.quantity?, isNull]
  | _ => simp [key, quantity?, isNull]

theorem same_iff {a b : Value} :
    a.same b = true ↔ a.isNull = false ∧ b.isNull = false ∧ a.key = b.key := by
  simp only [same, Bool.and_eq_true, Bool.not_eq_true', beq_iff_eq]
  constructor
  · rintro ⟨ha, hkey⟩
    refine ⟨ha, ?_, hkey⟩
    rw [← Bool.not_eq_true, ← key_eq_null_iff] at ha ⊢
    rwa [← hkey]
  · exact fun ⟨ha, _, hkey⟩ => ⟨ha, hkey⟩

theorem same_self {v : Value} (hnull : v.isNull = false) : v.same v = true :=
  same_iff.2 ⟨hnull, hnull, rfl⟩

theorem same_comm (a b : Value) : a.same b = b.same a := by
  rw [Bool.eq_iff_iff, same_iff, same_iff]
  constructor
  · exact fun ⟨ha, hb, hkey⟩ => ⟨hb, ha, hkey.symm⟩
  · exact fun ⟨hb, ha, hkey⟩ => ⟨ha, hb, hkey.symm⟩

end Value

namespace ColumnKind

/-- Whether cells of columns of two kinds are equal. -/
def equal (kind kind' : ColumnKind) (a b : Value) : Bool :=
  (kind.align kind' a).same (kind'.align kind b)

/-- The kind of a column after it was matched with one of another kind. -/
def matched (kind other : ColumnKind) : ColumnKind :=
  if kind = other || (kind.isNumeric && other.isNumeric) then kind else .mixed

theorem isNull_align (kind other : ColumnKind) (v : Value) :
    (kind.align other v).isNull = v.isNull := by
  unfold align
  split
  · exact v.isNull_toFloat
  · rfl

theorem equal_comm (kind kind' : ColumnKind) (a b : Value) :
    kind.equal kind' a b = kind'.equal kind b a := Value.same_comm ..

/-- Columns of one kind meet by value. -/
theorem equal_self (kind : ColumnKind) (a b : Value) : kind.equal kind a b = a.same b := by
  cases kind <;> rfl

theorem mixed_equal (kind : ColumnKind) (a b : Value) : mixed.equal kind a b = a.same b := by
  cases kind <;> rfl

theorem equal_mixed (kind : ColumnKind) (a b : Value) : kind.equal mixed a b = a.same b := by
  cases kind <;> rfl

/-- Being matched with a column changes nothing in how a column meets that very column. -/
theorem matched_equal (kind other : ColumnKind) (a b : Value) :
    (kind.matched other).equal other a b = kind.equal other a b := by
  cases kind <;> cases other <;> rfl

end ColumnKind

end GraphMotif
