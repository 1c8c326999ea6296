import GraphMotif.Proofs.Plan.Check
import GraphMotif.Proofs.Plan.Refinement
import Mathlib.Algebra.Group.Int.Defs

/-!
# Plans compute what nested loops find

A checked plan over relations with its columns stops for keys that cannot be compared exactly if
some join in it has such keys; otherwise it gives the rows of the nested loops.
-/

namespace GraphMotif

namespace Plan

variable {r : Relations} {p left right child : Plan} {equalities : List Equality}

theorem names_frame (h : p.Relational) : (p.frame r).names = p.columns := by
  induction p with
  | empty columns => rfl
  | scan element tag columns => rfl
  | join left right equalities ihl ihr =>
    rw [frame, Frame.join, columns, ihl h.1, ihr h.2.1]
  | antiJoin left right equalities ihl _ => exact ihl h.1
  | filter child equalities ih => exact ih h
  | project child outputs _ => exact h.elim

/-- Only a plan without rows has no columns. -/
theorem rows_frame_eq_nil (h : p.Relational) (hcolumns : p.columns = []) :
    (p.frame r).rows = [] := by
  induction p with
  | empty columns => rfl
  | scan element tag columns => exact absurd (List.map_eq_nil_iff.1 hcolumns) h.1
  | join left right equalities ihl _ =>
    rw [frame, Frame.join, ihl h.1 (List.append_eq_nil_iff.1 hcolumns).1, List.flatMap_nil]
  | antiJoin left right equalities ihl _ =>
    rw [frame, Frame.antiJoin, ihl h.1 hcolumns, List.filter_nil]
  | filter child equalities ih => rw [frame, Frame.filter, ih h hcolumns, List.filter_nil]
  | project child outputs _ => exact h.elim

/-! ## Clashes -/

section Clashes

variable (r left right child equalities)

theorem clashes_join :
    (join left right equalities).Clashes r ↔
      (left.frame r).Clash (right.frame r) equalities ∨ left.Clashes r ∨ right.Clashes r := by
  simp only [Clashes, walk, List.exists_mem_cons_iff, List.mem_append, or_and_right, exists_or]
  rfl

theorem clashes_antiJoin :
    (antiJoin left right equalities).Clashes r ↔
      (left.frame r).Clash (right.frame r) equalities ∨ left.Clashes r ∨ right.Clashes r := by
  simp only [Clashes, walk, List.exists_mem_cons_iff, List.mem_append, or_and_right, exists_or]
  rfl

theorem clashes_filter : (filter child equalities).Clashes r ↔ child.Clashes r := by
  simp only [Clashes, walk, List.exists_mem_cons_iff, ClashesHere, false_or]

theorem clashes_project (outputs : List Output) :
    (project child outputs).Clashes r ↔ child.Clashes r := by
  simp only [Clashes, walk, List.exists_mem_cons_iff, ClashesHere, false_or]

end Clashes

/-! ## Evaluation -/

/-- Relations that supply a plan supply the plans in it. -/
theorem Supply.of_subset {q : Plan} (h : r.Supply p) (hwalk : ∀ node ∈ q.walk, node ∈ p.walk) :
    r.Supply q :=
  fun element tag columns hscan => h element tag columns (hwalk _ hscan)

theorem Supply.both {node : Plan} (h : r.Supply p)
    (hwalk : p.walk = node :: (left.walk ++ right.walk)) : r.Supply left ∧ r.Supply right := by
  have hpart {q : Plan} (hq : ∀ n ∈ q.walk, n ∈ left.walk ++ right.walk) : r.Supply q :=
    Supply.of_subset h fun n hn => hwalk ▸ List.mem_cons_of_mem _ (hq n hn)
  exact ⟨hpart fun _ => List.mem_append_left _, hpart fun _ => List.mem_append_right _⟩

/-- The columns that equalities refer to are names of the frames. -/
theorem mem_names_of_grounded (hleft : left.Relational) (hright : right.Relational)
    (h : Grounded equalities left.columns right.columns) :
    (∀ e ∈ equalities, e.left ∈ (left.frame r).names) ∧
      ∀ e ∈ equalities, e.right ∈ (right.frame r).names := by
  rw [names_frame hleft, names_frame hright]
  exact ⟨fun e he => (h e he).1, fun e he => (h e he).2⟩

/-- A plan below its projection computes its frame. -/
theorem eval_yields (h : p.Relational) (hsupply : r.Supply p) (hcheck : p.check = .ok ()) :
    Yields (p.eval r) (p.Clashes r) (p.frame r) := by
  induction p with
  | empty columns =>
    refine .of_realizes ?_ (Table.realizes_noRows columns _)
    rintro ⟨node, hnode, hclash⟩
    rw [List.mem_singleton.1 hnode] at hclash
    exact hclash
  | scan element tag columns =>
    have hcolumns := hsupply element tag columns List.mem_cons_self
    have hclash : ¬(scan element tag columns).Clashes r := by
      rintro ⟨node, hnode, hclash⟩
      rw [List.mem_singleton.1 hnode] at hclash
      exact hclash
    rw [eval, eq_false hclash]
    exact Table.scanned_yields _ element tag hcolumns
  | join left right equalities ihl ihr =>
    -- the check of the plan gives the columns that the keys refer to
    obtain ⟨hleft, hright, -⟩ := h
    obtain ⟨hgrounded, hcheckl, hcheckr⟩ := check_join.1 hcheck
    obtain ⟨hl, hr⟩ := mem_names_of_grounded (r := r) hleft hright hgrounded
    obtain ⟨hsupplyl, hsupplyr⟩ := Supply.both hsupply rfl
    have hyieldsl := ihl hleft hsupplyl hcheckl
    have hyieldsr := ihr hright hsupplyr hcheckr
    rw [eval, clashes_join]
    exact hyieldsl.bind₂ hyieldsr fun _ _ htl htr => htl.join_yields htr hl hr
  | antiJoin left right equalities ihl ihr =>
    obtain ⟨hleft, hright, -⟩ := h
    obtain ⟨hgrounded, hcheckl, hcheckr⟩ := check_antiJoin.1 hcheck
    obtain ⟨hl, hr⟩ := mem_names_of_grounded (r := r) hleft hright hgrounded
    obtain ⟨hsupplyl, hsupplyr⟩ := Supply.both hsupply rfl
    have hyieldsl := ihl hleft hsupplyl hcheckl
    have hyieldsr := ihr hright hsupplyr hcheckr
    -- the engine takes an input without columns for one without rows
    have hcolumns : (right.frame r).names = [] → (right.frame r).rows = [] := fun hnames =>
      rows_frame_eq_nil hright (names_frame hright ▸ hnames)
    rw [eval, clashes_antiJoin]
    exact hyieldsl.bind₂ hyieldsr fun _ _ htl htr => htl.antiJoin_yields htr hl hr hcolumns
  | filter child equalities ih =>
    obtain ⟨hgrounded, hcheckc⟩ := check_filter.1 hcheck
    obtain ⟨hl, hr⟩ := mem_names_of_grounded (r := r) h h hgrounded
    rw [eval, clashes_filter]
    rcases ih h (Supply.of_subset hsupply fun node hnode => List.mem_cons_of_mem _ hnode) hcheckc
      with ⟨hclash, a, b, herror⟩ | ⟨hclash, t, hok, ht⟩
    · exact .inl ⟨hclash, a, b, by rw [herror]; rfl⟩
    · obtain ⟨t', hok', ht'⟩ := ht.filterEqual_realizes hl hr
      exact .inr ⟨hclash, t', by rw [hok]; exact hok', ht'⟩
  | project child outputs _ => exact h.elim

/-- A projection picks the columns of the result out of the frame below it. -/
theorem eval_project {outputs : List Output} (h : child.Relational)
    (hsupply : r.Supply (project child outputs)) (hcheck : (project child outputs).check = .ok ()) :
    (child.Clashes r ∧ ∃ a b, (project child outputs).eval r = .error (.incomparableKeys a b)) ∨
      (¬child.Clashes r ∧ ∃ t, (project child outputs).eval r = .ok t ∧
        t.names = (project child outputs).labels ∧
        t.rows = (project child outputs).resultRows r) := by
  obtain ⟨houtputs, hcheckc⟩ := check_project.1 hcheck
  rw [← names_frame (r := r) h] at houtputs
  rw [eval]
  rcases eval_yields h (Supply.of_subset hsupply fun node hnode => List.mem_cons_of_mem _ hnode)
    hcheckc with ⟨hclash, a, b, herror⟩ | ⟨hclash, t, hok, ht⟩
  · exact .inl ⟨hclash, a, b, by rw [herror]; rfl⟩
  · obtain ⟨t', hok', hnames, hrows⟩ := ht.projectTo_eq houtputs
    exact .inr ⟨hclash, t', by rw [hok]; exact hok', hnames, hrows⟩

/-- An integer identity, and the end of an edge at the binary64 number next to it. -/
def roundedRelations : Relations where
  vertices := .ofColumns [(idColumn, { kind := .int, cells := [.int (2 ^ 53 + 1)] })]
  edges := .ofColumns [(srcColumn, { kind := .float, cells := [.float (.ofInt (2 ^ 53))] })]

/-- Edges with the vertices that they start at. -/
def roundedJoin : Plan :=
  .join (.scan .vertex "v" [idColumn]) (.scan .edge "e" [srcColumn])
    [{ left := qualified "v" idColumn, right := qualified "e" srcColumn }]

theorem wellFormed_roundedJoin : roundedJoin.WellFormed :=
  ⟨⟨by decide, by decide⟩, ⟨by decide, by decide⟩, by decide +kernel⟩

theorem supply_roundedJoin : roundedRelations.Supply roundedJoin := by
  intro element tag columns hscan column hcolumn
  simp only [roundedJoin, walk, List.mem_cons, List.cons_append, List.nil_append, reduceCtorEq,
    List.not_mem_nil, or_false, false_or] at hscan
  rcases hscan with h | h
  · obtain ⟨rfl, -, rfl⟩ := scan.inj h
    exact hcolumn
  · obtain ⟨rfl, -, rfl⟩ := scan.inj h
    exact hcolumn

theorem check_roundedJoin : roundedJoin.check = .ok () := by decide +kernel

end Plan

end GraphMotif
