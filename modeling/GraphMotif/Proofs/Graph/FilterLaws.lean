import GraphMotif.Proofs.Graph.Filter

/-!
# Filters one after another

What a predicate says of a row does not depend on which other rows there are, and fewer rows give
fewer reasons to fail. So filtering by one predicate and then by another keeps the rows on which
both are true, in either order, as one filter by their conjunction does, and filters of vertices and
of edges do not touch each other.
-/

namespace GraphMotif

namespace Predicate

variable {ν : Type} [DecidableEq ν] [ColumnName ν] {t : Table ν} {p q : Predicate}

theorem ofValue_toValue (a : Truth) : Truth.ofValue a.toValue = a := by
  cases a <;> rfl

/-- A conjunction is true where both its members are. -/
theorem trueAt_conj (t : Table ν) (p q : Predicate) (row : Row) :
    (conj p q).trueAt t row = (p.trueAt t row && q.trueAt t row) := by
  have hand (a b : Truth) : (Truth.and a b == some true) = (a == some true && b == some true) := by
    rcases a with _ | _ | _ <;> rcases b with _ | _ | _ <;> rfl
  rw [trueAt, valueAt, ofValue_toValue, hand]
  rfl

/-- A conjunction can be evaluated when both its members can. -/
theorem evaluable_conj : (conj p q).Evaluable t ↔ p.Evaluable t ∧ q.Evaluable t := by
  constructor
  · intro h
    obtain ⟨hp, hpboolean, hq, hqboolean⟩ := computable_conj_iff.1 h.toComputable
    exact ⟨⟨hp, hpboolean⟩, hq, hqboolean⟩
  · rintro ⟨hp, hq⟩
    exact ⟨computable_conj_iff.2 ⟨hp.toComputable, hp.boolean, hq.toComputable, hq.boolean⟩,
      .inl rfl⟩

end Predicate

namespace Graph

/-- The graph with the elements of one kind on which a predicate is true. -/
def filterElements (g : Graph) : Element → Predicate → Except PredicateError Graph
  | .vertex => g.filterVertices
  | .edge => g.filterEdges

variable {g g' g'' : Graph} {kind : Element} {keep keep' : Row → Bool} {p q : Predicate}

/-! ## Narrowing twice -/

/-- A graph is made of its two relations. -/
theorem eq_of_tables (h : ∀ kind, g.relations.table kind = g'.relations.table kind) : g = g' := by
  have hvertices : g.vertices = g'.vertices := h .vertex
  have hedges : g.edges = g'.edges := h .edge
  cases g
  cases g'
  cases hvertices
  cases hedges
  rfl

namespace Narrows

theorem unique (h : g'.Narrows g kind keep) (h' : g''.Narrows g kind keep) : g' = g'' := by
  refine eq_of_tables fun kind' => ?_
  by_cases hkind : kind' = kind
  · rw [hkind, h.fewer, h'.fewer]
  · rw [h.same kind' hkind, h'.same kind' hkind]

/-- Narrowing twice keeps what passes both tests. -/
theorem trans (h : g'.Narrows g kind keep) (h' : g''.Narrows g' kind keep') :
    g''.Narrows g kind fun row => keep row && keep' row where
  same kind' hkind := (h'.same kind' hkind).trans (h.same kind' hkind)
  fewer := by
    rw [h'.fewer, h.fewer]
    simp only [Table.filterRows, List.filter_filter, Bool.and_comm]

end Narrows

/-! ## Filters -/

/-- A filter succeeds when its predicate can be evaluated over the elements, and then narrows the
graph to those on which it is true. -/
theorem filterElements_succeeds (g : Graph) (kind : Element) (p : Predicate) :
    SucceedsIff (g.filterElements kind p) (p.Evaluable (g.relations.table kind))
      fun g' => g'.Narrows g kind (p.trueAt (g.relations.table kind)) := by
  cases kind with
  | vertex => exact filterVertices_succeeds g p
  | edge => exact filterEdges_succeeds g p

theorem filterElements_of_evaluable (h : p.Evaluable (g.relations.table kind)) :
    ∃ g', g.filterElements kind p = .ok g' ∧
      g'.Narrows g kind (p.trueAt (g.relations.table kind)) :=
  (g.filterElements_succeeds kind p).of_cond h

theorem narrows_of_filterElements (h : g.filterElements kind p = .ok g') :
    p.Evaluable (g.relations.table kind) ∧
      g'.Narrows g kind (p.trueAt (g.relations.table kind)) :=
  (g.filterElements_succeeds kind p).of_ok h

/-- On what is left of a graph, a predicate can be evaluated if it can on all of it, and is true on
the same elements. -/
theorem Narrows.filterElements (h : g'.Narrows g kind keep)
    (heval : q.Evaluable (g.relations.table kind)) :
    ∃ g'', g'.filterElements kind q = .ok g'' ∧
      g''.Narrows g kind fun row => keep row && q.trueAt (g.relations.table kind) row := by
  have hheadings : (g'.relations.table kind).headings = (g.relations.table kind).headings := by
    rw [h.fewer]
    rfl
  have hrows : ∀ row ∈ (g'.relations.table kind).rows, row ∈ (g.relations.table kind).rows := by
    rw [h.fewer]
    exact fun row hrow => (List.mem_filter.1 hrow).1
  obtain ⟨g'', hfilter, hnarrows⟩ := filterElements_of_evaluable (heval.of_subset hheadings hrows)
  rw [funext fun row => Predicate.trueAt_congr hheadings q row] at hnarrows
  exact ⟨g'', hfilter, h.trans hnarrows⟩

/-- One filter after another keeps the elements on which both predicates are true. -/
theorem filterElements_filterElements (hp : p.Evaluable (g.relations.table kind))
    (hq : q.Evaluable (g.relations.table kind)) :
    ∃ g', (g.filterElements kind p >>= fun h => h.filterElements kind q) = .ok g' ∧
      g'.Narrows g kind fun row =>
        p.trueAt (g.relations.table kind) row && q.trueAt (g.relations.table kind) row := by
  obtain ⟨h, hfilter, hnarrows⟩ := filterElements_of_evaluable hp
  obtain ⟨g', hfilter', hnarrows'⟩ := hnarrows.filterElements hq
  exact ⟨g', bind_eq_ok_iff.2 ⟨h, hfilter, hfilter'⟩, hnarrows'⟩

/-- Two vertices and two edges, some without a weight. -/
def sparseGraph : Graph where
  vertices := .ofColumns [(idColumn, { kind := .int, cells := [.int 1, .int 2] }),
    ("weight", { kind := .mixed, cells := [.int 3, .null] })]
  edges := .ofColumns [(srcColumn, { kind := .int, cells := [.int 1, .int 2] }),
    (dstColumn, { kind := .int, cells := [.int 2, .int 2] }),
    ("weight", { kind := .mixed, cells := [.int 1, .int 5] })]
  nodup_vertices := by decide +kernel
  nodup_edges := by decide +kernel
  id_mem := by decide +kernel
  src_mem := by decide +kernel
  dst_mem := by decide +kernel
  id_not_null := by decide +kernel
  nodup_id := by decide +kernel

/-- The predicate that the weight is known. -/
def weighed : Predicate := .isNull (.column "weight") true

/-- The predicate that the weight is greater than two. -/
def heavy : Predicate := .compare .gt (.column "weight") (.constant (.int 2))

end Graph

end GraphMotif
