import GraphMotif.Proofs.Plan.Evaluation

/-!
# Counting rows

Where nothing is demanded of the rows of a plan, only their number matters: a scan has the rows of
its relation, a join all pairs, and an anti-join keeps all left rows or none. A table may have rows
and no columns, and its rows are counted like those of any other one, but for one place: to an
anti-join, a right input without columns is empty.
-/

namespace GraphMotif

/-- The number of pairs of a left and a right row. -/
theorem length_pairs (left right : List Row) :
    (left.flatMap fun l => right.map (l ++ ·)).length = left.length * right.length := by
  simp only [List.length_flatMap, List.length_map, List.map_const', List.sum_replicate_nat]

/-- A plan of scans, and of joins and anti-joins that demand nothing. -/
inductive CrossPlan where
  | scan (element : Element) (tag : String) (columns : List String)
  | join (left right : CrossPlan)
  | antiJoin (left right : CrossPlan)

namespace CrossPlan

/-- The plan as a tree of operators. -/
def plan : CrossPlan → Plan
  | scan element tag columns => .scan element tag columns
  | join left right => .join left.plan right.plan []
  | antiJoin left right => .antiJoin left.plan right.plan []

/-- The number of rows of a plan. An anti-join keeps its left rows where its right input is empty,
which `isEmpty` decides by the columns and the number of rows of that input. -/
def countRows (r : Relations) (isEmpty : List String → Nat → Bool) : CrossPlan → Nat
  | scan element _ _ => (r.table element).size
  | join left right => left.countRows r isEmpty * right.countRows r isEmpty
  | antiJoin left right =>
    if isEmpty right.plan.columns (right.countRows r isEmpty) then left.countRows r isEmpty else 0

/-- What has no rows is empty. -/
def lacksRows (_ : List String) (count : Nat) : Bool := count == 0

/-- What has no rows or no columns is empty. -/
def lacksRowsOrColumns (columns : List String) (count : Nat) : Bool :=
  count == 0 || columns.isEmpty

/-- Some anti-join has a right input with rows but without columns. -/
def HidesRows (r : Relations) (p : CrossPlan) : Prop :=
  ∃ left right, Plan.antiJoin left right [] ∈ p.plan.walk ∧ right.columns = [] ∧
    (right.frame r).rows ≠ []

variable {r : Relations} {left right : CrossPlan}

/-! ## Nested loops -/

/-- The nested loops give as many rows as are counted by rows alone. -/
theorem length_rows_frame (r : Relations) (p : CrossPlan) :
    (p.plan.frame r).rows.length = p.countRows r lacksRows := by
  induction p with
  | scan element tag columns => exact List.length_map ..
  | join left right ihl ihr =>
    have hall (l : Row) : (right.plan.frame r).rows.filter
        ((left.plan.frame r).agree (right.plan.frame r) [] l) = (right.plan.frame r).rows :=
      List.filter_eq_self.2 fun _ _ => rfl
    simp only [plan, Plan.frame, Frame.join, hall, length_pairs, ihl, ihr, countRows]
  | antiJoin left right ihl ihr =>
    have hany (l : Row) : (right.plan.frame r).rows.any
        ((left.plan.frame r).agree (right.plan.frame r) [] l) =
          !(right.plan.frame r).rows.isEmpty := by
      cases (right.plan.frame r).rows <;> rfl
    have hcount : lacksRows right.plan.columns (right.countRows r lacksRows) =
        (right.plan.frame r).rows.isEmpty := by
      rw [lacksRows, ← ihr]
      cases (right.plan.frame r).rows <;> rfl
    rw [countRows, hcount, ← ihl]
    simp only [plan, Plan.frame, Frame.antiJoin, hany, Bool.not_not]
    cases (right.plan.frame r).rows.isEmpty with
    | true => rw [List.filter_eq_self.2 fun _ _ => rfl, if_pos rfl]
    | false => rw [List.filter_eq_nil_iff.2 fun _ _ => Bool.false_ne_true]; rfl

/-- What holds of each input unless rows are hidden in it holds of both unless rows are hidden. -/
theorem both_or_hidesRows {p : CrossPlan} {node : Plan} {a b : Prop}
    (hwalk : p.plan.walk = node :: (left.plan.walk ++ right.plan.walk))
    (hl : a ∨ left.HidesRows r) (hr : b ∨ right.HidesRows r) : (a ∧ b) ∨ p.HidesRows r := by
  have hinput {q : CrossPlan} (h : q.HidesRows r)
      (hwalk : ∀ node ∈ q.plan.walk, node ∈ p.plan.walk) : p.HidesRows r := by
    obtain ⟨l, r, hmem, hhides⟩ := h
    exact ⟨l, r, hwalk _ hmem, hhides⟩
  rcases hl with hl | hl
  · rcases hr with hr | hr
    · exact .inl ⟨hl, hr⟩
    · exact .inr (hinput hr fun _ h => by simp [hwalk, h])
  · exact .inr (hinput hl fun _ h => by simp [hwalk, h])

/-- The two ways to count differ only where rows are hidden. -/
theorem countRows_eq_or_hidesRows (r : Relations) (p : CrossPlan) :
    p.countRows r lacksRowsOrColumns = p.countRows r lacksRows ∨ p.HidesRows r := by
  induction p with
  | scan => exact .inl rfl
  | join left right ihl ihr =>
    obtain ⟨hl, hr⟩ | hhides := both_or_hidesRows (p := join left right) rfl ihl ihr
    · exact .inl (by rw [countRows, countRows, hl, hr])
    · exact .inr hhides
  | antiJoin left right ihl ihr =>
    obtain ⟨hl, hr⟩ | hhides := both_or_hidesRows (p := antiJoin left right) rfl ihl ihr
    case inr => exact .inr hhides
    by_cases hhides : right.plan.columns = [] ∧ (right.plan.frame r).rows ≠ []
    · exact .inr ⟨_, _, List.mem_cons_self, hhides⟩
    · refine .inl ?_
      have hcond : lacksRowsOrColumns right.plan.columns (right.countRows r lacksRows) =
          lacksRows right.plan.columns (right.countRows r lacksRows) := by
        rw [← length_rows_frame, lacksRowsOrColumns, lacksRows]
        cases hrows : (right.plan.frame r).rows with
        | nil => rfl
        | cons row rows =>
          have hcolumns : right.plan.columns ≠ [] := fun h =>
            hhides ⟨h, hrows ▸ List.cons_ne_nil row rows⟩
          rw [List.isEmpty_eq_false_iff.2 hcolumns, Bool.or_false]
      rw [countRows, countRows, hl, hr, hcond]

/-! ## Evaluation -/

/-- The evaluation of a plan fails exactly if the relations lack a column of a scan, and else gives
the announced columns and as many rows as are counted by rows and columns. -/
def EvalCounts (r : Relations) (p : CrossPlan) : Prop :=
  SucceedsIff (p.plan.eval r) (r.Supply p.plan) fun t =>
    t.names = p.plan.columns.map .plain ∧ t.size = p.countRows r lacksRowsOrColumns

theorem supply_scan_iff {element : Element} {tag : String} {columns : List String} :
    r.Supply (.scan element tag columns) ↔
      ∀ column ∈ columns, column ∈ (r.table element).names := by
  constructor
  · exact fun h => h element tag columns List.mem_cons_self
  · intro h element' tag' columns' hscan
    obtain ⟨rfl, rfl, rfl⟩ := Plan.scan.inj (List.mem_singleton.1 hscan)
    exact h

/-- An operator on two plans asks for the columns that the two plans ask for. -/
theorem supply_iff_both {p node : Plan}
    (hwalk : p.walk = node :: (left.plan.walk ++ right.plan.walk))
    (hnode : ∀ element tag columns, node ≠ .scan element tag columns) :
    r.Supply p ↔ r.Supply left.plan ∧ r.Supply right.plan := by
  constructor
  · exact fun h => Plan.Supply.both h hwalk
  · rintro ⟨hl, hr⟩ element tag columns hscan
    rcases List.mem_cons.1 (hwalk ▸ hscan) with heq | hscan
    · exact absurd heq.symm (hnode element tag columns)
    · rcases List.mem_append.1 hscan with hscan | hscan
      · exact hl element tag columns hscan
      · exact hr element tag columns hscan

theorem eval_scan (r : Relations) (element : Element) (tag : String) (columns : List String) :
    EvalCounts r (scan element tag columns) := by
  rw [EvalCounts, plan, supply_scan_iff]
  by_cases hcolumns : ∀ column ∈ columns, column ∈ (r.table element).names
  · have hyields := (r.table element).scanned_yields element tag hcolumns
    rcases hyields with ⟨hfalse, -⟩ | ⟨-, t, hok, ht⟩
    · exact hfalse.elim
    · refine .inl ⟨hcolumns, t, hok, ht.names, ?_⟩
      rw [Table.size, ht.rows, Frame.scan, List.length_map]
      rfl
  · refine .inr ⟨hcolumns, ?_⟩
    have hmissing : (columns.filter fun column =>
        !(r.table element).names.contains column).isEmpty = false := by
      rw [List.isEmpty_eq_false_iff, ne_eq, List.filter_eq_nil_iff]
      simpa using hcolumns
    exact ⟨_, by rw [Plan.eval, Table.scanned, hmissing]; rfl⟩

theorem eval_plan (r : Relations) (p : CrossPlan) : EvalCounts r p := by
  induction p with
  | scan element tag columns => exact eval_scan r element tag columns
  | join left right ihl ihr =>
    have hsupply := supply_iff_both (r := r) (p := (join left right).plan) rfl nofun
    refine SucceedsIff.of_iff (ihl.bind fun lt hl => ihr.bind_pure (f := lt.cross)
      fun rt hr => ?_) hsupply.symm
    refine ⟨?_, ?_⟩
    · show (lt.headings ++ rt.headings).map (·.name) = _
      rw [List.map_append]
      exact (congrArg₂ (· ++ ·) hl.1 hr.1).trans List.map_append.symm
    · rw [countRows, ← hl.2, ← hr.2]
      exact length_pairs lt.rows rt.rows
  | antiJoin left right ihl ihr =>
    have hsupply := supply_iff_both (r := r) (p := (antiJoin left right).plan) rfl nofun
    refine SucceedsIff.of_iff (ihl.bind fun lt hl => ihr.bind fun rt hr =>
      .ok (a := if rt.rows.isEmpty || rt.headings.isEmpty then lt else lt.empty) ?_)
      (by rw [hsupply, and_true])
    have hcond : (rt.rows.isEmpty || rt.headings.isEmpty) =
        lacksRowsOrColumns right.plan.columns (right.countRows r lacksRowsOrColumns) := by
      have hheadings : rt.headings.isEmpty = right.plan.columns.isEmpty := by
        rw [← List.isEmpty_map (f := Heading.name), ← Table.names, hr.1, List.isEmpty_map]
      have hrows : rt.rows.isEmpty = (rt.size == 0) := by
        rw [Table.size]
        cases rt.rows <;> rfl
      rw [lacksRowsOrColumns, ← hr.2, hheadings, hrows]
    rw [countRows, ← hcond, plan, Plan.columns, ← hl.1, ← hl.2]
    split
    · exact ⟨rfl, rfl⟩
    · exact ⟨rfl, rfl⟩

/-- A vertex and an edge. -/
def oneEdge : Relations where
  vertices := .ofColumns [(idColumn, { kind := .int, cells := [.int 1] })]
  edges := .ofColumns
    [(srcColumn, { kind := .int, cells := [.int 1] }),
     (dstColumn, { kind := .int, cells := [.int 1] })]

/-- The vertices, if there is no edge. -/
def unlessEdges : CrossPlan := .antiJoin (.scan .vertex "v" [idColumn]) (.scan .edge "e" [])

end CrossPlan

end GraphMotif
