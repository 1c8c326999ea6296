import GraphMotif.Proofs.Graph.Occurrences
import GraphMotif.Proofs.Table.Position
import Mathlib.Data.Multiset.Bind
import Mathlib.Logic.Function.DependsOn

/-!
# Assignments of rows

Every element gets a row of its relation, in all ways; the order in which the elements are taken
does not matter. What a clause says depends only on the elements that it names.
-/

namespace GraphMotif

/-- The cells of a row under the names of a table are the row. -/
theorem Table.map_cellAt_names {t : Table String} (h : t.names.Nodup) {row : Row}
    (hrow : row ∈ t.rows) : t.names.map (t.cellAt row) = row :=
  Row.map_cell_idxOf h ((t.rectangular row hrow).trans t.length_names.symm)

namespace Graph

variable (g : Graph)

theorem columns_eq (kind : Element) : g.schema.columns kind = (g.relations.table kind).names := by
  cases kind <;> rfl

theorem nodup_names (kind : Element) : (g.relations.table kind).names.Nodup := by
  cases kind
  · exact g.nodup_vertices
  · exact g.nodup_edges

theorem idColumn_mem : idColumn ∈ (g.relations.table .vertex).names := g.id_mem

theorem side_mem {side : String} (h : side ∈ [srcColumn, dstColumn]) :
    side ∈ (g.relations.table .edge).names := by
  rcases List.mem_cons.1 h with rfl | h
  · exact g.src_mem
  · exact List.mem_singleton.1 h ▸ g.dst_mem

/-! ## All assignments -/

theorem assignments_concat (sites : List Site) (s : Site) :
    g.assignments (sites ++ [s]) = (g.assignments sites).flatMap fun a =>
      (g.relations.table s.kind).rows.map fun row => Function.update a s row := by
  rw [assignments, List.foldl_append]
  rfl

/-- An assignment gives the elements rows of their relations. -/
theorem mem_rows_of_mem_assignments {sites : List Site} {a : Assignment}
    (ha : a ∈ g.assignments sites) : ∀ s ∈ sites, a s ∈ (g.relations.table s.kind).rows := by
  induction sites using List.reverseRecOn generalizing a with
  | nil => exact fun _ hs => absurd hs List.not_mem_nil
  | append_singleton sites last ih =>
    rw [assignments_concat] at ha
    obtain ⟨a', ha', ha⟩ := List.mem_flatMap.1 ha
    obtain ⟨row, hrow, rfl⟩ := List.mem_map.1 ha
    intro s hs
    by_cases heq : s = last
    · subst heq
      rwa [Function.update_self]
    · rw [Function.update_of_ne heq]
      refine ih ha' s ((List.mem_append.1 hs).resolve_right fun hs => heq ?_)
      exact List.mem_singleton.1 hs

theorem length_of_mem_assignments {sites : List Site} {a : Assignment}
    (ha : a ∈ g.assignments sites) {s : Site} (hs : s ∈ sites) :
    (a s).length = (g.relations.table s.kind).names.length := by
  rw [Table.length_names]
  exact (g.relations.table s.kind).rectangular _ (g.mem_rows_of_mem_assignments ha s hs)

/-- The order of the elements does not matter. -/
theorem assignments_perm {sites sites' : List Site} (h : sites.Perm sites') :
    (g.assignments sites).Perm (g.assignments sites') := by
  let extend (found : Multiset Assignment) (s : Site) : Multiset Assignment :=
    found.bind fun a => (g.relations.table s.kind).rows.map fun row => Function.update a s row
  have hcoe (sites : List Site) (found : List Assignment) :
      ((sites.foldl (fun found s => found.flatMap fun a =>
        (g.relations.table s.kind).rows.map fun row => Function.update a s row) found :
          List Assignment) : Multiset Assignment) = sites.foldl extend found := by
    induction sites generalizing found with
    | nil => rfl
    | cons s sites ih =>
      rw [List.foldl_cons, ih, List.foldl_cons]
      refine congrArg (fun m => sites.foldl extend m) ?_
      exact (Multiset.coe_bind ..).symm
  -- two elements get their rows in either order, the same one keeps the later row
  have hcomm (x y : Site) (found : Multiset Assignment) :
      extend (extend found x) y = extend (extend found y) x := by
    by_cases heq : x = y
    · rw [heq]
    · simp only [extend, Multiset.bind_assoc]
      refine Multiset.bind_congr fun a _ => ?_
      simp only [← Multiset.map_coe, Multiset.bind_map]
      rw [Multiset.bind_map_comm]
      refine Multiset.bind_congr fun row _ => Multiset.map_congr rfl fun row' _ => ?_
      exact Function.update_comm heq row' row a
  rw [← Multiset.coe_eq_coe, assignments, assignments, hcoe, hcoe]
  exact h.foldl_eq' (fun x _ y _ found => hcomm x y found) _

end Graph

end GraphMotif
