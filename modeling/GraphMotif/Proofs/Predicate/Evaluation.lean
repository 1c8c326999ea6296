import GraphMotif.Proofs.Except
import GraphMotif.Proofs.Predicate.Denotation
import GraphMotif.Proofs.Table.Position
import GraphMotif.Proofs.Value.Equality

/-!
# Masks are made row by row

Evaluating a predicate column by column gives on every row the value of the predicate there. The
induction is on the predicate: every operator succeeds exactly if its operands do and what it
demands of their values holds on all rows.
-/

namespace GraphMotif

/-! ## Comparing two values -/

namespace Value

theorem isText_toFloat (v : Value) : v.toFloat.isText = v.isText := by
  cases v <;> rfl

theorem isText_iff {v : Value} : v.isText = true ↔ ∃ s, v = text s := by
  cases v <;> simp [isText]

theorem isText_congr {a b : Value} (h : a.key = b.key) : a.isText = b.isText := by
  have hkey {v : Value} : v.isText = true ↔ ∃ s, v.key = .text s := by
    cases v with
    | text s => exact iff_of_true rfl ⟨s, rfl⟩
    | float x => cases x <;> exact iff_of_false nofun nofun
    | _ => exact iff_of_false nofun nofun
  rw [Bool.eq_iff_iff, hkey, hkey, h]

/-- What is neither null nor a text stands for a number. -/
theorem exists_quantity {v : Value} (hnull : v.isNull = false) (htext : v.isText = false) :
    ∃ q, v.quantity? = some q := by
  cases v with
  | null => exact absurd hnull nofun
  | bool b => exact ⟨_, rfl⟩
  | int n => exact ⟨_, rfl⟩
  | text s => exact absurd htext nofun
  | float x =>
    cases x with
    | nan => exact absurd hnull nofun
    | infinity negative => exact ⟨_, rfl⟩
    | finite negative units representable => exact ⟨_, rfl⟩

theorem compare?_of_quantities {a b : Value} {x y : Quantity} (ha : a.quantity? = some x)
    (hb : b.quantity? = some y) : a.compare? b = some (x.compare y) := by
  unfold compare?
  split
  · exact absurd ha nofun
  · rw [ha, hb]

/-- Of two values that are not null, exactly those have no order of which one is a text. -/
theorem compare?_eq_none_iff {a b : Value} (ha : a.isNull = false) (hb : b.isNull = false) :
    a.compare? b = none ↔ a.isText ≠ b.isText := by
  by_cases hta : a.isText = true
  · obtain ⟨s, rfl⟩ := isText_iff.1 hta
    by_cases htb : b.isText = true
    · obtain ⟨s', rfl⟩ := isText_iff.1 htb
      exact iff_of_false nofun fun h => h rfl
    · have hnone : (text s).compare? b = none := by
        unfold compare?
        split
        · exact absurd rfl htb
        · rfl
      exact iff_of_true hnone fun h => htb (h.symm.trans hta)
  · have hta : a.isText = false := Bool.not_eq_true _ ▸ hta
    obtain ⟨x, hx⟩ := exists_quantity ha hta
    rw [hta]
    by_cases htb : b.isText = true
    · obtain ⟨s', rfl⟩ := isText_iff.1 htb
      have hnone : a.compare? (text s') = none := by
        unfold compare?
        split
        · exact absurd hta nofun
        · rw [hx]
          rfl
      exact iff_of_true hnone nofun
    · have htb : b.isText = false := Bool.not_eq_true _ ▸ htb
      obtain ⟨y, hy⟩ := exists_quantity hb htb
      rw [compare?_of_quantities hx hy, htb]
      exact iff_of_false nofun fun h => h rfl

end Value

theorem ColumnKind.isText_align (kind other : ColumnKind) (v : Value) :
    (kind.align other v).isText = v.isText := by
  unfold ColumnKind.align
  split
  · exact v.isText_toFloat
  · rfl

/-- A comparison has no answer exactly where it asks for an order of a text and a number. -/
theorem Comparison.holds?_eq_none_iff {op : Comparison} {a b : Value} (ha : a.isNull = false)
    (hb : b.isNull = false) :
    op.holds? a b = none ↔ op.isOrdered = true ∧ a.mixes b = true := by
  have hmixes : a.mixes b = true ↔ a.compare? b = none := by
    rw [Value.compare?_eq_none_iff ha hb, Value.mixes, ha, hb]
    simp
  rw [hmixes]
  cases op <;> simp [Comparison.holds?, Comparison.isOrdered]

namespace Predicate

variable {ν : Type} [DecidableEq ν] [ColumnName ν] {t : Table ν}
  {p operand left right : Predicate} {op : Comparison}

/-- Comparing two stored values fails exactly where an order of a text and a number is asked for. -/
theorem compareCells_succeeds (mirrored : Bool) (kind kind' : ColumnKind) (a b : Value) :
    SucceedsIff (compareCells p op mirrored (kind.align kind' a) (kind'.align kind b))
      (op.isOrdered = true → a.mixes b = false) (· = compareStored op kind kind' a b) := by
  rw [compareCells, compareStored, ColumnKind.isNull_align, ColumnKind.isNull_align]
  split
  · next hnull =>
    refine .inl ⟨fun _ => ?_, none, rfl, rfl⟩
    rw [Value.mixes]
    cases ha : a.isNull with
    | true => rfl
    | false =>
      rw [ha, Bool.false_or] at hnull
      rw [hnull]
      rfl
  · next hnull =>
    obtain ⟨ha, hb⟩ := Bool.or_eq_false_iff.1 (Bool.not_eq_true _ ▸ hnull)
    have hnone : op.holds? (kind.align kind' a) (kind'.align kind b) = none ↔
        op.isOrdered = true ∧ a.mixes b = true := by
      rw [Comparison.holds?_eq_none_iff (by rw [ColumnKind.isNull_align, ha])
        (by rw [ColumnKind.isNull_align, hb])]
      simp only [Value.mixes, ColumnKind.isNull_align, ColumnKind.isText_align]
    cases hholds : op.holds? (kind.align kind' a) (kind'.align kind b) with
    | some answer =>
      refine .inl ⟨fun hordered => ?_, some answer, rfl, rfl⟩
      rw [← Bool.not_eq_true]
      intro hmixes
      rw [hnone.2 ⟨hordered, hmixes⟩] at hholds
      exact absurd hholds nofun
    | none =>
      obtain ⟨hordered, hmixes⟩ := hnone.1 hholds
      exact .inr ⟨fun h => absurd (h hordered) (by rw [hmixes]; nofun), _, rfl⟩

/-! ## Series -/

/-- The column of the values of a predicate on all rows. -/
def valueColumn (t : Table ν) (p : Predicate) : Column where
  kind := p.storage t
  cells := t.rows.map (p.valueAt t)

theorem truths_succeeds {r : Result} (h : (r.toSeries t.size).column = p.valueColumn t) :
    SucceedsIff (truths operand t.size r) (p.IsBoolean t)
      (· = t.rows.map fun row => Truth.ofValue (p.valueAt t row)) := by
  have hboolean : (decide (p.storage t = .bool) ||
      (t.rows.map (p.valueAt t)).all fun v => v.isNull || v.isBool) = true ↔ p.IsBoolean t := by
    simp only [IsBoolean, Bool.or_eq_true, decide_eq_true_eq, List.all_map, List.all_eq_true,
      Function.comp_apply]
  rw [truths, Series.truths?, h]
  split
  · next truths htruths =>
    split at htruths
    · next hcond =>
      refine .inl ⟨hboolean.1 hcond, truths, rfl, ?_⟩
      rw [← Option.some.inj htruths, valueColumn, List.map_map]
      rfl
    · cases htruths
  · next hnone =>
    split at hnone
    · cases hnone
    · next hcond => exact .inr ⟨mt hboolean.2 hcond, _, rfl⟩

theorem compareSeries_succeeds {a b : Series} (ha : a.column = left.valueColumn t)
    (hb : b.column = right.valueColumn t) :
    SucceedsIff (compareSeries p op a b)
      (op.isOrdered = true → ∀ row ∈ t.rows, (left.valueAt t row).mixes (right.valueAt t row) = false)
      (· = t.rows.map fun row => compareStored op (left.storage t) (right.storage t)
        (left.valueAt t row) (right.valueAt t row)) := by
  have hzip : (a.aligned b).zip (b.aligned a) = t.rows.map fun row =>
      ((left.storage t).align (right.storage t) (left.valueAt t row),
        (right.storage t).align (left.storage t) (right.valueAt t row)) := by
    rw [Series.aligned, Series.aligned, ha, hb]
    simp only [valueColumn, List.map_map]
    exact List.zip_map' ..
  rw [compareSeries, hzip, List.mapM_map]
  refine (SucceedsIff.mapM fun row _ => compareCells_succeeds _ (left.storage t) (right.storage t)
    (left.valueAt t row) (right.valueAt t row)).of_iff ?_
  exact ⟨fun h hordered row hrow => h row hrow hordered, fun h row hrow hordered =>
    h hordered row hrow⟩

/-- A series of truth values computed row by row. -/
theorem column_ofTruths {truths : Row → Truth}
    (hvalue : ∀ row, p.valueAt t row = (truths row).toValue) (hkind : p.storage t = .bool) :
    (Series.ofTruths (t.rows.map truths)).column = p.valueColumn t := by
  rw [Series.ofTruths, valueColumn, hkind, List.map_map]
  exact congrArg (Column.mk .bool) (List.map_congr_left fun row _ => (hvalue row).symm)

/-! ## What an operator adds to what its operands need -/

theorem mem_subterms_iff {q : Predicate} :
    q ∈ p.subterms ↔ q = p ∨ ∃ operand ∈ p.operands, q ∈ operand.subterms := by
  cases p <;> simp [subterms, operands]

theorem mem_columns_iff {name : String} :
    name ∈ p.columns ↔ p = column name ∨ ∃ operand ∈ p.operands, name ∈ operand.columns := by
  cases p <;> simp [columns, operands, eq_comm]

/-- A predicate can be computed when its operands can and its own operator can be applied to
them. -/
theorem computable_iff : p.Computable t ↔ (∀ operand ∈ p.operands, operand.Computable t) ∧
    (∀ name, p = column name → ColumnName.ofText name ∈ t.names) ∧
    (∀ op left right, p = compare op left right → op.isOrdered = true →
      ∀ row ∈ t.rows, (left.valueAt t row).mixes (right.valueAt t row) = false) ∧
    ∀ operand ∈ p.connected, operand.IsBoolean t := by
  constructor
  · intro h
    refine ⟨fun operand hoperand => ⟨fun name hname => ?_, fun op left right hmem => ?_,
      fun q hq => ?_⟩, fun name heq => ?_, fun op left right heq => ?_, ?_⟩
    · exact h.columns name (mem_columns_iff.2 (.inr ⟨operand, hoperand, hname⟩))
    · exact h.ordered op left right (mem_subterms_iff.2 (.inr ⟨operand, hoperand, hmem⟩))
    · exact h.connected q (mem_subterms_iff.2 (.inr ⟨operand, hoperand, hq⟩))
    · exact h.columns name (mem_columns_iff.2 (.inl heq))
    · exact h.ordered op left right (mem_subterms_iff.2 (.inl heq.symm))
    · exact h.connected p (mem_subterms_iff.2 (.inl rfl))
  · rintro ⟨hoperands, hcolumn, hordered, hconnected⟩
    refine ⟨fun name hname => ?_, fun op left right hmem => ?_, fun q hq => ?_⟩
    · rcases mem_columns_iff.1 hname with heq | ⟨operand, hoperand, hname⟩
      · exact hcolumn name heq
      · exact (hoperands operand hoperand).columns name hname
    · rcases mem_subterms_iff.1 hmem with heq | ⟨operand, hoperand, hmem⟩
      · exact hordered op left right heq.symm
      · exact (hoperands operand hoperand).ordered op left right hmem
    · rcases mem_subterms_iff.1 hq with rfl | ⟨operand, hoperand, hq⟩
      · exact hconnected
      · exact (hoperands operand hoperand).connected q hq

theorem computable_column_iff {name : String} :
    (column name).Computable t ↔ ColumnName.ofText name ∈ t.names := by
  rw [computable_iff]
  simp [operands, connected]

theorem computable_constant (v : Value) : (constant v).Computable t :=
  computable_iff.2 (by simp [operands, connected])

theorem computable_compare_iff :
    (compare op left right).Computable t ↔ left.Computable t ∧ right.Computable t ∧
      (op.isOrdered = true → ∀ row ∈ t.rows,
        (left.valueAt t row).mixes (right.valueAt t row) = false) := by
  rw [computable_iff]
  simp [operands, connected, and_assoc]

theorem computable_conj_iff :
    (conj left right).Computable t ↔
      left.Computable t ∧ left.IsBoolean t ∧ right.Computable t ∧ right.IsBoolean t := by
  rw [computable_iff]
  simp [operands, connected, and_assoc, and_left_comm]

theorem computable_disj_iff :
    (disj left right).Computable t ↔
      left.Computable t ∧ left.IsBoolean t ∧ right.Computable t ∧ right.IsBoolean t := by
  rw [computable_iff]
  simp [operands, connected, and_assoc, and_left_comm]

theorem computable_neg_iff :
    (neg operand).Computable t ↔ operand.Computable t ∧ operand.IsBoolean t := by
  rw [computable_iff]
  simp [operands, connected]

theorem computable_isNull_iff {negated : Bool} :
    (isNull operand negated).Computable t ↔ operand.Computable t := by
  rw [computable_iff]
  simp [operands, connected]

/-! ## Evaluation -/

/-- A predicate is evaluated if and only if it can be computed, and then to its values on all
rows. -/
def EvalSucceeds (t : Table ν) (p : Predicate) : Prop :=
  SucceedsIff (p.eval t) (p.Computable t) fun r => (r.toSeries t.size).column = p.valueColumn t

theorem eval_column_succeeds (t : Table ν) (name : String) : EvalSucceeds t (column name) := by
  rw [EvalSucceeds, eval]
  by_cases hname : ColumnName.ofText name ∈ t.names
  · have hposition := t.position?_eq_some hname
    refine .inl ⟨computable_column_iff.2 hname, _, by rw [Table.column?, hposition]; rfl, ?_⟩
    simp only [Result.toSeries, valueColumn, storage, valueAt, Table.column?, hposition]
    rfl
  · refine .inr ⟨mt computable_column_iff.1 hname, ?_⟩
    rw [t.column?_eq_none_iff.2 hname]
    exact ⟨_, rfl⟩

/-- A connective succeeds exactly if its operands do and stand for truth values. -/
theorem connective_succeeds (ihl : EvalSucceeds t left) (ihr : EvalSucceeds t right)
    {connect : Truth → Truth → Truth} (hkind : p.storage t = .bool)
    (hvalue : ∀ row, p.valueAt t row = (connect (Truth.ofValue (left.valueAt t row))
      (Truth.ofValue (right.valueAt t row))).toValue) :
    SucceedsIff (do
        let a ← truths left t.size (← left.eval t)
        let b ← truths right t.size (← right.eval t)
        return Result.series (.ofTruths (List.zipWith connect a b)))
      (left.Computable t ∧ left.IsBoolean t ∧ right.Computable t ∧ right.IsBoolean t)
      fun r => (r.toSeries t.size).column = p.valueColumn t := by
  refine ihl.bind fun a ha => (truths_succeeds ha).bind fun as has => ihr.bind fun b hb =>
    (truths_succeeds hb).bind_pure fun bs hbs => ?_
  rw [has, hbs, List.zipWith_map, List.zipWith_self]
  exact column_ofTruths hvalue hkind

/-- Every predicate is evaluated so. -/
theorem eval_succeeds (t : Table ν) (p : Predicate) : EvalSucceeds t p := by
  induction p with
  | column name => exact eval_column_succeeds t name
  | constant v =>
    refine (SucceedsIff.ok ?_).of_iff (iff_of_true trivial (computable_constant v))
    show (Series.ofConstant t.rows.length v).column = _
    rw [Series.ofConstant, ← List.map_const']
    rfl
  | compare op left right ihl ihr =>
    rw [EvalSucceeds, eval]
    refine (ihl.bind fun a ha => ihr.bind fun b hb =>
      (compareSeries_succeeds ha hb).bind_pure fun truths htruths => ?_).of_iff
        computable_compare_iff.symm
    rw [htruths]
    exact column_ofTruths (fun _ => rfl) rfl
  | conj left right ihl ihr =>
    exact (connective_succeeds ihl ihr rfl fun _ => rfl).of_iff computable_conj_iff.symm
  | disj left right ihl ihr =>
    exact (connective_succeeds ihl ihr rfl fun _ => rfl).of_iff computable_disj_iff.symm
  | neg operand ih =>
    rw [EvalSucceeds, eval]
    refine (ih.bind fun a ha => (truths_succeeds ha).bind_pure fun as has => ?_).of_iff
      computable_neg_iff.symm
    rw [has, List.map_map]
    exact column_ofTruths (fun _ => rfl) rfl
  | isNull operand negated ih =>
    rw [EvalSucceeds, eval]
    refine (ih.bind_pure fun a ha => ?_).of_iff computable_isNull_iff.symm
    show (Series.ofTruths (((a.toSeries t.size).column.cells).map _)).column = _
    rw [ha, valueColumn, List.map_map]
    exact column_ofTruths (fun _ => rfl) rfl

/-- A predicate has a mask exactly if it can be evaluated, and then the mask is made row by row. -/
theorem mask_succeeds (t : Table ν) (p : Predicate) :
    SucceedsIff (p.mask t) (p.Evaluable t) (· = t.rows.map (p.trueAt t)) := by
  have hcond : p.Computable t ∧ p.IsBoolean t ↔ p.Evaluable t :=
    ⟨fun ⟨h, hboolean⟩ => ⟨h, hboolean⟩, fun h => ⟨h.toComputable, h.boolean⟩⟩
  rw [mask]
  refine ((eval_succeeds t p).bind fun r hr => (truths_succeeds hr).bind_pure
    fun truths htruths => ?_).of_iff hcond
  rw [htruths, List.map_map]
  rfl

theorem mask_eq_of_evaluable (h : p.Evaluable t) : p.mask t = .ok (t.rows.map (p.trueAt t)) := by
  obtain ⟨_, hmarks, rfl⟩ := (mask_succeeds t p).of_cond h
  exact hmarks

theorem evaluable_of_mask {marks : List Bool} (h : p.mask t = .ok marks) : p.Evaluable t :=
  ((mask_succeeds t p).of_ok h).1

end Predicate

end GraphMotif
