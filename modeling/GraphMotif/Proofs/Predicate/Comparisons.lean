import GraphMotif.Predicate.Condition
import GraphMotif.Proofs.Predicate.Evaluation
import GraphMotif.Proofs.Value.Order

/-!
# The six comparisons

Of two values that have an order, a comparison asks whether that order is one of those it accepts.
So the six comparisons of two operands fit together on every row, and a comparison is the mirrored
one of its operands the other way round.
-/

namespace GraphMotif

namespace Comparison

/-- Whether a comparison holds of values in an order. -/
def accepts : Comparison → Ordering → Bool
  | eq, o => o.isEq
  | ne, o => o.isNe
  | lt, o => o.isLT
  | le, o => o.isLE
  | gt, o => o.isGT
  | ge, o => o.isGE

/-- Of values that have an order, every comparison asks for that order only. -/
theorem holds?_of_compare? {a b : Value} {o : Ordering} (h : a.compare? b = some o)
    (op : Comparison) : op.holds? a b = some (op.accepts o) := by
  have hsame : a.same b = o.isEq := by
    rw [Bool.eq_iff_iff, Value.same_iff_of_compare? h]
    cases o <;> decide
  cases op with
  | eq => rw [holds?, hsame, accepts]
  | ne => rw [holds?, hsame, accepts]; cases o <;> rfl
  | _ => rw [holds?, h]; rfl

/-- The mirrored comparison holds of two values the other way round. -/
theorem holds?_mirror (op : Comparison) (a b : Value) : op.mirror.holds? b a = op.holds? a b := by
  cases op with
  | eq => exact congrArg some (Value.same_comm b a)
  | ne => exact congrArg (fun same => some (!same)) (Value.same_comm b a)
  | _ =>
    simp only [mirror, holds?]
    rw [a.compare?_swap b, Option.map_map]
    refine congrArg (Option.map · _) (funext fun o => ?_)
    cases o <;> rfl

theorem isOrdered_mirror (op : Comparison) : op.mirror.isOrdered = op.isOrdered := by
  cases op <;> rfl

end Comparison

theorem Value.mixes_comm (a b : Value) : b.mixes a = a.mixes b := by
  rw [Value.mixes, Value.mixes, Bool.and_comm (!b.isNull), bne_comm]

namespace Predicate

/-- The answers of the six comparisons of two values fit together. -/
structure Coherent (a b : Value) (answer : Comparison → Truth) : Prop where
  unknown : ∀ op, answer op = none ↔ a.isNull = true ∨ b.isNull = true
  exactly_one : a.isNull = false → b.isNull = false →
    ∃! op, op ∈ [Comparison.lt, .eq, .gt] ∧ answer op = some true
  le : answer .le = (answer .gt).not
  ge : answer .ge = (answer .lt).not
  ne : answer .ne = (answer .eq).not

theorem coherent_of_null {a b : Value} (h : a.isNull = true ∨ b.isNull = true) :
    Coherent a b fun _ => none where
  unknown _ := iff_of_true rfl h
  exactly_one ha hb := by
    rw [ha, hb] at h
    exact absurd h (by decide)
  le := rfl
  ge := rfl
  ne := rfl

theorem coherent_of_order {a b : Value} (ha : a.isNull = false) (hb : b.isNull = false)
    (o : Ordering) : Coherent a b fun op => some (op.accepts o) where
  unknown _ := by
    rw [ha, hb]
    exact iff_of_false nofun (by decide)
  exactly_one _ _ := by
    cases o with
    | lt => exact ⟨.lt, by decide, fun op h => by revert h; cases op <;> decide⟩
    | eq => exact ⟨.eq, by decide, fun op h => by revert h; cases op <;> decide⟩
    | gt => exact ⟨.gt, by decide, fun op h => by revert h; cases op <;> decide⟩
  le := by cases o <;> rfl
  ge := by cases o <;> rfl
  ne := by cases o <;> rfl

/-- Stored values of which none is a text where the other is a number are compared coherently. -/
theorem coherent_compareStored (kind kind' : ColumnKind) {a b : Value} (h : a.mixes b = false) :
    Coherent a b (compareStored · kind kind' a b) := by
  by_cases hnull : (a.isNull || b.isNull) = true
  · have hanswer : (compareStored · kind kind' a b) = fun _ => none :=
      funext fun op => if_pos hnull
    rw [hanswer]
    exact coherent_of_null (Bool.or_eq_true _ _ ▸ hnull)
  · obtain ⟨ha, hb⟩ := Bool.or_eq_false_iff.1 (Bool.not_eq_true _ ▸ hnull)
    cases hcompare : (kind.align kind' a).compare? (kind'.align kind b) with
    | none =>
      rw [Value.compare?_eq_none_iff (by rw [ColumnKind.isNull_align, ha])
        (by rw [ColumnKind.isNull_align, hb]), ColumnKind.isText_align,
        ColumnKind.isText_align] at hcompare
      rw [Value.mixes, ha, hb] at h
      exact absurd h (by simpa using hcompare)
    | some o =>
      have hanswer : (compareStored · kind kind' a b) = fun op => some (op.accepts o) :=
        funext fun op => (if_neg hnull).trans (Comparison.holds?_of_compare? hcompare op)
      rw [hanswer]
      exact coherent_of_order ha hb o

theorem compareStored_mirror (op : Comparison) (kind kind' : ColumnKind) (a b : Value) :
    compareStored op.mirror kind' kind b a = compareStored op kind kind' a b := by
  rw [compareStored, compareStored, Bool.or_comm, Comparison.holds?_mirror]

/-! ## Over a table -/

section Table

variable {ν : Type} [DecidableEq ν] [ColumnName ν] {t : Table ν} {l r : Predicate}

/-- The answer of a comparison of two operands on a row. -/
def comparedAt (t : Table ν) (l r : Predicate) (row : Row) (op : Comparison) : Truth :=
  compareStored op (l.storage t) (r.storage t) (l.valueAt t row) (r.valueAt t row)

theorem comparedAt_mirror (row : Row) (op : Comparison) :
    comparedAt t r l row op.mirror = comparedAt t l r row op :=
  compareStored_mirror op _ _ _ _

/-- Two operands can be compared: they can be computed, and a comparison that asks for an order
meets no text and number. -/
def Comparable (t : Table ν) (l r : Predicate) (op : Comparison) : Prop :=
  l.Computable t ∧ r.Computable t ∧
    (op.isOrdered = true → ∀ row ∈ t.rows, (l.valueAt t row).mixes (r.valueAt t row) = false)

theorem comparable_mirror_iff {op : Comparison} :
    Comparable t r l op.mirror ↔ Comparable t l r op := by
  simp only [Comparable, Comparison.isOrdered_mirror, Value.mixes_comm (l.valueAt t _)]
  exact and_left_comm

theorem eval_compare_succeeds (t : Table ν) (op : Comparison) (l r : Predicate) :
    SucceedsIff ((compare op l r).eval t) (Comparable t l r op)
      (· = .series (.ofTruths (t.rows.map (comparedAt t l r · op)))) := by
  rw [eval]
  refine (eval_succeeds t l).bind fun a ha => (eval_succeeds t r).bind fun b hb =>
    (compareSeries_succeeds ha hb).bind_pure fun truths htruths => ?_
  rw [htruths]
  rfl

/-- Computed truth values are truth values. -/
theorem truths_ofTruths (p : Predicate) (size : Nat) (answers : List Truth) :
    truths p size (.series (.ofTruths answers)) = .ok answers := by
  have hvalue (answer : Truth) : Truth.ofValue answer.toValue = answer := by
    cases answer <;> rfl
  have htruths : (Series.ofTruths answers).truths? = some answers := by
    rw [Series.truths?, if_pos (by rfl), Series.ofTruths, List.map_map]
    exact congrArg some ((List.map_congr_left fun answer _ => hvalue answer).trans (List.map_id _))
  rw [truths, Result.toSeries, htruths]

theorem mask_compare_succeeds (t : Table ν) (op : Comparison) (l r : Predicate) :
    SucceedsIff ((compare op l r).mask t) (Comparable t l r op)
      (· = t.rows.map (comparedAt t l r · op == some true)) := by
  rw [mask]
  refine ((eval_compare_succeeds t op l r).bind fun a ha => ?_).of_iff
    (and_iff_left trivial)
  rw [ha, truths_ofTruths]
  exact .ok List.map_map

/-- The six comparisons of two operands are evaluated, to answers that fit together on every row. -/
structure ComparesCoherently (t : Table ν) (l r : Predicate) (answer : Row → Comparison → Truth) :
    Prop where
  left : ∃ a, l.eval t = .ok a ∧ (a.toSeries t.size).column.cells = t.rows.map (l.valueAt t)
  right : ∃ b, r.eval t = .ok b ∧ (b.toSeries t.size).column.cells = t.rows.map (r.valueAt t)
  eval : ∀ op, (compare op l r).eval t = .ok (.series (.ofTruths (t.rows.map (answer · op))))
  mask : ∀ op, (compare op l r).mask t = .ok (t.rows.map (answer · op == some true))
  coherent : ∀ row ∈ t.rows, Coherent (l.valueAt t row) (r.valueAt t row) (answer row)

theorem comparesCoherently_of_eval {less : Result} (h : (compare .lt l r).eval t = .ok less) :
    ComparesCoherently t l r (comparedAt t l r) := by
  obtain ⟨⟨hl, hr, hmixes⟩, -⟩ := (eval_compare_succeeds t .lt l r).of_ok h
  have hcond (op : Comparison) : Comparable t l r op := ⟨hl, hr, fun _ => hmixes rfl⟩
  have hcells {p : Predicate} (hp : p.Computable t) :
      ∃ a, p.eval t = .ok a ∧ (a.toSeries t.size).column.cells = t.rows.map (p.valueAt t) := by
    obtain ⟨a, ha, hcolumn⟩ := (eval_succeeds t p).of_cond hp
    exact ⟨a, ha, congrArg Column.cells hcolumn⟩
  refine ⟨hcells hl, hcells hr, fun op => ?_, fun op => ?_, fun row hrow => ?_⟩
  · obtain ⟨_, heval, rfl⟩ := (eval_compare_succeeds t op l r).of_cond (hcond op)
    exact heval
  · obtain ⟨_, hmask, rfl⟩ := (mask_compare_succeeds t op l r).of_cond (hcond op)
    exact hmask
  · exact coherent_compareStored _ _ (hmixes rfl row hrow)

end Table

/-- An integer that is rounded where it meets the binary64 column, a binary64 number that is not a
number, and a row on which the integer is less. -/
def mixedTable : Table String where
  headings := [⟨"n", .int⟩, ⟨"x", .float⟩]
  rows := [[.int 9007199254740993, .float (.ofInt 9007199254740992)], [.int 1, .float .nan],
    [.int 2, .float (.ofInt 3)]]
  rectangular := by simp

end Predicate

end GraphMotif
