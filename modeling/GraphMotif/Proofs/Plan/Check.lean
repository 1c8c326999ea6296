import GraphMotif.Plan.Check
import GraphMotif.Proofs.Except
import Mathlib.Data.List.Basic

/-!
# What a check of a plan establishes

An operator passes its check when every column that it refers to is among the columns of its input,
and a plan passes when all its operators do.
-/

namespace GraphMotif.Plan

theorem checkDemand_eq_ok_iff {node : Plan} {wanted available : List String} :
    checkDemand node wanted available = .ok () ↔ ∀ column ∈ wanted, column ∈ available := by
  have hmissing : (wanted.filter fun column => !available.contains column).isEmpty = true ↔
      ∀ column ∈ wanted, column ∈ available := by
    rw [List.isEmpty_iff, List.filter_eq_nil_iff]
    exact forall₂_congr fun column _ => by simp
  rw [checkDemand, ← hmissing]
  split
  · next h => exact iff_of_true rfl h
  · next h => exact iff_of_false nofun h

theorem checkNode_eq_ok_iff {node : Plan} :
    node.checkNode = .ok () ↔ ∀ demand ∈ node.demands, ∀ column ∈ demand.1, column ∈ demand.2 := by
  rw [checkNode, forM_eq_ok_iff]
  exact forall₂_congr fun _ _ => checkDemand_eq_ok_iff

/-- The left columns of equalities are among some columns, the right ones among others. -/
def Grounded (equalities : List Equality) (leftColumns rightColumns : List String) : Prop :=
  ∀ e ∈ equalities, e.left ∈ leftColumns ∧ e.right ∈ rightColumns

variable {left right child : Plan} {equalities : List Equality} {outputs : List Output}

theorem grounded_iff {leftColumns rightColumns : List String} :
    Grounded equalities leftColumns rightColumns ↔
      (∀ column ∈ equalities.map (·.left), column ∈ leftColumns) ∧
        ∀ column ∈ equalities.map (·.right), column ∈ rightColumns := by
  rw [List.forall_mem_map, List.forall_mem_map, ← forall₂_and]
  rfl

theorem checkNode_join :
    (join left right equalities).checkNode = .ok () ↔
      Grounded equalities left.columns right.columns := by
  rw [checkNode_eq_ok_iff, demands, List.forall_mem_cons, List.forall_mem_singleton, grounded_iff]

theorem checkNode_antiJoin :
    (antiJoin left right equalities).checkNode = .ok () ↔
      Grounded equalities left.columns right.columns := by
  rw [checkNode_eq_ok_iff, demands, List.forall_mem_cons, List.forall_mem_singleton, grounded_iff]

theorem checkNode_filter :
    (filter child equalities).checkNode = .ok () ↔
      Grounded equalities child.columns child.columns := by
  rw [checkNode_eq_ok_iff, demands, List.forall_mem_singleton, List.forall_mem_append, grounded_iff]

theorem checkNode_project :
    (project child outputs).checkNode = .ok () ↔
      ∀ o ∈ outputs, ∀ column ∈ o.columns, column ∈ child.columns := by
  rw [checkNode_eq_ok_iff, demands, List.forall_mem_singleton]
  exact ⟨fun h o ho column hcolumn => h column (List.mem_flatMap.2 ⟨o, ho, hcolumn⟩),
    fun h column hcolumn =>
      let ⟨o, ho, hmem⟩ := List.mem_flatMap.1 hcolumn
      h o ho column hmem⟩

/-! ## Whole plans -/

theorem check_join :
    (join left right equalities).check = .ok () ↔
      Grounded equalities left.columns right.columns ∧ left.check = .ok () ∧
        right.check = .ok () := by
  simp only [check, forM_eq_ok_iff, walk, List.forall_mem_cons, List.forall_mem_append,
    checkNode_join]

theorem check_antiJoin :
    (antiJoin left right equalities).check = .ok () ↔
      Grounded equalities left.columns right.columns ∧ left.check = .ok () ∧
        right.check = .ok () := by
  simp only [check, forM_eq_ok_iff, walk, List.forall_mem_cons, List.forall_mem_append,
    checkNode_antiJoin]

theorem check_filter :
    (filter child equalities).check = .ok () ↔
      Grounded equalities child.columns child.columns ∧ child.check = .ok () := by
  simp only [check, forM_eq_ok_iff, walk, List.forall_mem_cons, checkNode_filter]

theorem check_project :
    (project child outputs).check = .ok () ↔
      (∀ o ∈ outputs, ∀ column ∈ o.columns, column ∈ child.columns) ∧ child.check = .ok () := by
  simp only [check, forM_eq_ok_iff, walk, List.forall_mem_cons, checkNode_project]

end GraphMotif.Plan
