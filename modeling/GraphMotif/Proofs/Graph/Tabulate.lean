import GraphMotif.Proofs.Graph.Keys
import GraphMotif.Proofs.Plan.Refinement

/-!
# Frames of assignments

A frame tabulates the assignments that meet a condition: it has a row for each of them, the rows of
its elements one after the other, every column under the tag of its element. Joining such a frame
with the relation of one more element tabulates the assignments of both that also fulfil the
equalities; filters and anti-joins narrow the condition.
-/

namespace GraphMotif

/-- Elements of which none occurs twice have tags that tell them apart. -/
structure Tagging (tag : Site → String) (sites : List Site) : Prop where
  nodup : sites.Nodup
  isTag : ∀ s ∈ sites, IsTag (tag s)
  inj : ∀ s ∈ sites, ∀ s' ∈ sites, tag s = tag s' → s = s'

namespace Tagging

variable {tag : Site → String} {sites sites' : List Site}

theorem of_sublist (h : Tagging tag sites) (hsub : sites'.Sublist sites) : Tagging tag sites' where
  nodup := h.nodup.sublist hsub
  isTag s hs := h.isTag s (hsub.mem hs)
  inj s hs s' hs' := h.inj s (hsub.mem hs) s' (hsub.mem hs')

/-- A column belongs to one element. -/
theorem qualified_inj (h : Tagging tag sites) {s s' : Site} (hs : s ∈ sites) (hs' : s' ∈ sites)
    {column column' : String} :
    qualified (tag s) column = qualified (tag s') column' ↔ s = s' ∧ column = column' := by
  rw [GraphMotif.qualified_inj (h.isTag s hs) (h.isTag s' hs')]
  exact and_congr_left fun _ => ⟨h.inj s hs s' hs', fun heq => heq ▸ rfl⟩

theorem notMem_of_concat {s : Site} (h : Tagging tag (sites ++ [s])) : s ∉ sites := fun hs =>
  (List.nodup_append.1 h.nodup).2.2 s hs s (List.mem_singleton.2 rfl) rfl

end Tagging

/-- The equality between columns that a demand becomes. -/
def Link.equality (tag : Site → String) (k : Link) : Equality where
  left := qualified (tag k.left) k.leftColumn
  right := qualified (tag k.right) k.rightColumn
  nullSafe := k.nullSafe

namespace Graph

variable (g : Graph) (p : Pattern) (tag : Site → String)

/-- The columns of an element under its tag. -/
def block (s : Site) : List String := (g.relations.table s.kind).names.map (qualified (tag s))

/-- The relation of an element under its tag. -/
def scanFrame (s : Site) : Frame :=
  .scan (g.relations.table s.kind) (tag s) (g.relations.table s.kind).names

/-- A demand on elements of two lists, in columns that they have and that the plan of a pattern
compares. -/
structure Relates (sites sites' : List Site) (k : Link) : Prop where
  left : k.left ∈ sites
  right : k.right ∈ sites'
  leftColumn : k.leftColumn ∈ (g.relations.table k.left.kind).names
  rightColumn : k.rightColumn ∈ (g.relations.table k.right.kind).names
  comparable : Comparable p k.left k.leftColumn k.right k.rightColumn

/-- A frame has a row for every assignment that meets a condition, and columns stored as the plan of
a pattern may store them. -/
structure Tabulates (f : Frame) (sites : List Site) (cond : Assignment → Bool) : Prop where
  names : f.names = sites.flatMap (g.block tag)
  rows : f.rows = ((g.assignments sites).filter cond).map fun a => sites.flatMap a
  stored : ∀ s ∈ sites, ∀ column ∈ (g.relations.table s.kind).names,
    g.Stored p s column (f.kind (qualified (tag s) column))
  depends : DependsOn cond {s | s ∈ sites}

variable {g p tag}
variable {f lf : Frame} {sites : List Site} {cond : Assignment → Bool} {s : Site} {a : Assignment}
  {links : List Link}

/-! ## Cells -/

/-- The cell of an element's column in the row of an assignment. -/
theorem cell_flatMap (htag : Tagging tag sites)
    (hlength : ∀ s ∈ sites, (a s).length = (g.relations.table s.kind).names.length) (hs : s ∈ sites)
    {column : String} (hcolumn : column ∈ (g.relations.table s.kind).names) :
    Row.cell (sites.flatMap a)
        ((sites.flatMap (g.block tag)).idxOf (qualified (tag s) column)) =
      (g.relations.table s.kind).cellAt (a s) column := by
  induction sites with
  | nil => exact absurd hs List.not_mem_nil
  | cons first sites ih =>
    obtain ⟨hfirst, hrest⟩ := List.forall_mem_cons.1 hlength
    rw [List.flatMap_cons, List.flatMap_cons]
    -- the cell is in the first block, or the block is left out of both lists
    by_cases heq : s = first
    · subst heq
      have hmem : qualified (tag s) column ∈ g.block tag s := List.mem_map_of_mem hcolumn
      have hidx : (g.block tag s).idxOf (qualified (tag s) column) =
          (g.relations.table s.kind).names.idxOf column :=
        idxOf_map_of_injective (qualified_injective (tag s)) _ column
      rw [List.idxOf_append_of_mem hmem, hidx,
        Row.cell_append_left (hfirst ▸ List.idxOf_lt_length_of_mem hcolumn)]
      rfl
    · have hs' : s ∈ sites := (List.mem_cons.1 hs).resolve_left heq
      have hnotMem : qualified (tag s) column ∉ g.block tag first := by
        intro hmem
        obtain ⟨column', -, heq'⟩ := List.mem_map.1 hmem
        exact heq ((htag.qualified_inj List.mem_cons_self hs).1 heq').1.symm
      have hblock : (g.block tag first).length = (a first).length := by
        rw [block, List.length_map, hfirst]
      rw [List.idxOf_append_of_notMem hnotMem, hblock, Row.cell_append_right]
      exact ih (htag.of_sublist (List.sublist_cons_self ..)) hrest hs'

theorem Tabulates.cell_eq (h : g.Tabulates p tag f sites cond) (htag : Tagging tag sites)
    (ha : a ∈ g.assignments sites) (hs : s ∈ sites) {column : String}
    (hcolumn : column ∈ (g.relations.table s.kind).names) :
    f.cell (sites.flatMap a) (qualified (tag s) column) =
      (g.relations.table s.kind).cellAt (a s) column := by
  rw [Frame.cell, h.names]
  exact cell_flatMap htag (fun s hs => g.length_of_mem_assignments ha hs) hs hcolumn

/-! ## Scans -/

/-- The scan of a whole relation has its rows. -/
theorem rows_scan (kind : Element) (tag : String) :
    (Frame.scan (g.relations.table kind) tag (g.relations.table kind).names).rows =
      (g.relations.table kind).rows := by
  rw [Frame.scan]
  refine (List.map_congr_left fun row hrow => ?_).trans (List.map_id' _)
  exact Table.map_cellAt_names (g.nodup_names kind) hrow

theorem rows_scanFrame (s : Site) : (g.scanFrame tag s).rows = (g.relations.table s.kind).rows :=
  rows_scan s.kind (tag s)

/-- A scan tabulates the assignments of one element. -/
theorem scanFrame_tabulates (s : Site) :
    g.Tabulates p tag (g.scanFrame tag s) [s] fun _ => true where
  names := by
    rw [List.flatMap_singleton]
    rfl
  rows := by
    have hassignments : g.assignments [s] = (g.relations.table s.kind).rows.map fun row =>
        Function.update (fun _ => []) s row := by
      rw [← List.nil_append [s], assignments_concat]
      exact List.flatMap_singleton ..
    rw [rows_scanFrame, hassignments, List.filter_true, List.map_map]
    refine ((List.map_congr_left fun row _ => ?_).trans (List.map_id' _)).symm
    rw [Function.comp_apply, List.flatMap_singleton, Function.update_self]
  stored s' hs' column hcolumn := by
    obtain rfl := List.mem_singleton.1 hs'
    exact .inl (Frame.kind_scan _ _ hcolumn)
  depends _ _ _ := rfl

/-! ## Demands -/

theorem cell_scanFrame (s : Site) (row : Row) (column : String) :
    (g.scanFrame tag s).cell row (qualified (tag s) column) =
      (g.relations.table s.kind).cellAt row column := by
  have hidx : (g.scanFrame tag s).names.idxOf (qualified (tag s) column) =
      (g.relations.table s.kind).names.idxOf column :=
    idxOf_map_of_injective (qualified_injective (tag s)) _ column
  rw [Frame.cell, hidx]
  rfl

/-- An equality holds when the demand is fulfilled, in whatever way the columns are stored. -/
theorem holds_eq_of_stored (hsteady : g.SteadyKeys p) {k : Link} {sites sites' : List Site}
    (hk : g.Relates p sites sites' k) {left right : Frame} {l r : Row}
    (hl : left.cell l (k.equality tag).left =
      (g.relations.table k.left.kind).cellAt (a k.left) k.leftColumn)
    (hr : right.cell r (k.equality tag).right =
      (g.relations.table k.right.kind).cellAt (a k.right) k.rightColumn)
    (hstored : g.Stored p k.left k.leftColumn (left.kind (k.equality tag).left))
    (hstored' : g.Stored p k.right k.rightColumn (right.kind (k.equality tag).right))
    (hrow : a k.left ∈ (g.relations.table k.left.kind).rows)
    (hrow' : a k.right ∈ (g.relations.table k.right.kind).rows) :
    left.holds right l r (k.equality tag) = g.holds a k := by
  rw [Frame.holds, hl, hr, hsteady.equal_eq hk.comparable hstored hstored' hrow hrow']
  rfl

/-- While a frame is matched, its columns are stored as the plan may store them, too. -/
theorem Tabulates.stored_meeting (h : g.Tabulates p tag lf sites cond)
    (htag : Tagging tag (sites ++ [s])) (hlinks : ∀ k ∈ links, g.Relates p sites [s] k) {s' : Site}
    (hs' : s' ∈ sites) {column : String}
    (hcolumn : column ∈ (g.relations.table s'.kind).names) :
    g.Stored p s' column ((lf.meeting (g.scanFrame tag s) (links.map (Link.equality tag))).kind
      (qualified (tag s') column)) := by
  have hstored := h.stored s' hs' column hcolumn
  rw [Frame.meeting]
  simp only
  split
  · -- the column is the left one of a key: a match may have made it mixed
    next e hfind =>
    obtain ⟨k, hk, rfl⟩ := List.mem_map.1 (mem_of_mem_keyEqualities
      (List.mem_of_find?_eq_some hfind))
    have hleft : (k.equality tag).left = qualified (tag s') column := by
      simpa using List.find?_some hfind
    have hrelates := hlinks k hk
    obtain ⟨hsite, hcolumn'⟩ := ((htag.of_sublist (List.sublist_append_left ..)).qualified_inj
      hrelates.left hs').1 hleft
    have hright : k.right = s := List.mem_singleton.1 hrelates.right
    have hcomparable := hrelates.comparable
    have hmem := hrelates.rightColumn
    rw [hsite, hcolumn', hright] at hcomparable
    rw [hright] at hmem
    have hkind : (g.scanFrame tag s).kind (k.equality tag).right =
        (g.relations.table s.kind).kindAt k.rightColumn := by
      rw [Link.equality, hright]
      exact Frame.kind_scan _ _ hmem
    rw [hkind]
    exact hstored.matched hcomparable
  · exact hstored

/-- A row of a frame agrees with one of a scan when the assignment that has both fulfils the
demands. -/
theorem Tabulates.agree_eq (h : g.Tabulates p tag lf sites cond) (htag : Tagging tag (sites ++ [s]))
    (hsteady : g.SteadyKeys p) (hlinks : ∀ k ∈ links, g.Relates p sites [s] k)
    (ha : a ∈ g.assignments sites) {row : Row} (hrow : row ∈ (g.relations.table s.kind).rows) :
    lf.agree (g.scanFrame tag s) (links.map (Link.equality tag)) (sites.flatMap a) row =
      links.all (g.holds (Function.update a s row)) := by
  rw [Frame.agree, List.all_map]
  refine all_congr_of_mem fun k hk => ?_
  have hrelates := hlinks k hk
  have hleft : k.left ≠ s := fun heq => htag.notMem_of_concat (heq ▸ hrelates.left)
  have hright : k.right = s := List.mem_singleton.1 hrelates.right
  have hmem := hrelates.rightColumn
  rw [hright] at hmem
  refine holds_eq_of_stored hsteady hrelates ?_ ?_ ?_ ?_ ?_ ?_
  · rw [Function.update_of_ne hleft]
    exact h.cell_eq (htag.of_sublist (List.sublist_append_left ..)) ha hrelates.left
      hrelates.leftColumn
  · rw [Link.equality, hright, Function.update_self]
    exact cell_scanFrame s row k.rightColumn
  · exact h.stored_meeting htag hlinks hrelates.left hrelates.leftColumn
  · rw [Link.equality, hright]
    exact .inl (Frame.kind_scan _ _ hmem)
  · rw [Function.update_of_ne hleft]
    exact g.mem_rows_of_mem_assignments ha _ hrelates.left
  · rw [hright, Function.update_self]
    exact hrow

/-! ## Operators -/

theorem update_eq_of_mem {s' : Site} (hs : s ∉ sites) (hs' : s' ∈ sites) (a : Assignment)
    (row : Row) : Function.update a s row s' = a s' :=
  Function.update_of_ne (ne_of_mem_of_not_mem hs' hs) row a

/-- A condition on some elements does not change when another one gets a row. -/
theorem Tabulates.cond_update (h : g.Tabulates p tag f sites cond) (hs : s ∉ sites) (a : Assignment)
    (row : Row) : cond (Function.update a s row) = cond a :=
  h.depends fun _ hs' => update_eq_of_mem hs hs' a row

/-- The columns of an element that is not there are not in the frame. -/
theorem Tabulates.notMem_names (h : g.Tabulates p tag f sites cond)
    (htag : Tagging tag (sites ++ [s])) (column : String) : qualified (tag s) column ∉ f.names := by
  intro hmem
  rw [h.names] at hmem
  obtain ⟨s', hs', hmem⟩ := List.mem_flatMap.1 hmem
  obtain ⟨column', -, heq⟩ := List.mem_map.1 hmem
  have hsite := ((htag.qualified_inj (List.mem_append_left _ hs') List.mem_concat_self).1 heq).1
  exact htag.notMem_of_concat (hsite ▸ hs')

theorem flatMap_update (hs : s ∉ sites) (a : Assignment) (row : Row) :
    sites.flatMap (Function.update a s row) = sites.flatMap a :=
  List.flatMap_congr fun _ hs' => update_eq_of_mem hs hs' a row

theorem dependsOn_and_links {sites sites' : List Site} (hcond : DependsOn cond {s | s ∈ sites})
    (hsub : ∀ s ∈ sites, s ∈ sites')
    (hlinks : ∀ k ∈ links, k.left ∈ sites' ∧ k.right ∈ sites') :
    DependsOn (fun a => cond a && links.all (g.holds a)) {s | s ∈ sites'} := by
  intro a a' hagree
  have hall : links.all (g.holds a) = links.all (g.holds a') := all_congr_of_mem fun k hk =>
    g.dependsOn_holds k _ (hlinks k hk).1 (hlinks k hk).2 hagree
  simp only [hall, hcond fun s hs => hagree s (hsub s hs)]

/-- A join with the relation of one more element. -/
theorem Tabulates.join (h : g.Tabulates p tag lf sites cond) (htag : Tagging tag (sites ++ [s]))
    (hsteady : g.SteadyKeys p) (hlinks : ∀ k ∈ links, g.Relates p sites [s] k) :
    g.Tabulates p tag (lf.join (g.scanFrame tag s) (links.map (Link.equality tag))) (sites ++ [s])
      fun a => cond a && links.all (g.holds a) where
  names := by
    rw [Frame.join, h.names, List.flatMap_append, List.flatMap_singleton]
    rfl
  rows := by
    change lf.rows.flatMap _ = _
    rw [h.rows, rows_scanFrame, List.flatMap_map, assignments_concat, List.filter_flatMap,
      List.map_flatMap, flatMap_filter]
    -- row by row: an assignment is joined with the rows that fulfil the demands with it
    refine List.flatMap_congr fun a ha => ?_
    have hs := htag.notMem_of_concat
    rw [List.filter_map, List.map_map]
    cases hcond : cond a with
    | false => simp [Function.comp_def, h.cond_update hs, hcond]
    | true =>
      have hfilter : (g.relations.table s.kind).rows.filter (lf.agree (g.scanFrame tag s)
          (links.map (Link.equality tag)) (sites.flatMap a)) =
          (g.relations.table s.kind).rows.filter ((fun a => cond a && links.all (g.holds a)) ∘
            fun row => Function.update a s row) := List.filter_congr fun row hrow => by
        rw [h.agree_eq htag hsteady hlinks ha hrow, Function.comp_apply, h.cond_update hs, hcond,
          Bool.true_and]
      rw [if_pos rfl, hfilter]
      refine List.map_congr_left fun row _ => ?_
      rw [Function.comp_apply, List.flatMap_append, flatMap_update hs, List.flatMap_singleton,
        Function.update_self]
  stored s' hs' column hcolumn := by
    have hcolumns {s' : Site} (hs' : s' ∈ sites) {column : String}
        (hcolumn : column ∈ (g.relations.table s'.kind).names) :
        qualified (tag s') column ∈ lf.names := by
      rw [h.names]
      exact List.mem_flatMap.2 ⟨s', hs', List.mem_map_of_mem hcolumn⟩
    simp only [Frame.join]
    rcases List.mem_append.1 hs' with hmem | hmem
    · rw [if_pos (hcolumns hmem hcolumn)]
      exact h.stored_meeting htag hlinks hmem hcolumn
    · obtain rfl := List.mem_singleton.1 hmem
      rw [if_neg (h.notMem_names htag column)]
      exact .inl (Frame.kind_scan _ _ hcolumn)
  depends := dependsOn_and_links h.depends (fun s hs => List.mem_append_left _ hs) fun k hk =>
    ⟨List.mem_append_left _ (hlinks k hk).left, List.mem_append_right _ (hlinks k hk).right⟩

/-- Other rows of a frame, those that meet one condition more. -/
theorem Tabulates.filterRows (h : g.Tabulates p tag f sites cond) {keep : Row → Bool}
    {more : Assignment → Bool} (hdepends : DependsOn more {s | s ∈ sites})
    (hkeep : ∀ a ∈ g.assignments sites, keep (sites.flatMap a) = more a) :
    g.Tabulates p tag { f with rows := f.rows.filter keep } sites fun a => cond a && more a where
  names := h.names
  rows := by
    change f.rows.filter keep = _
    have hfilter : ((g.assignments sites).filter cond).filter (keep ∘ fun a => sites.flatMap a) =
        ((g.assignments sites).filter cond).filter more := List.filter_congr fun a ha => by
      rw [Function.comp_apply, hkeep a (List.mem_filter.1 ha).1]
    rw [h.rows, List.filter_map, hfilter, List.filter_filter]
    exact congrArg _ (List.filter_congr fun a _ => Bool.and_comm ..)
  stored := h.stored
  depends a a' hagree := by
    simp only [h.depends hagree, hdepends hagree]

/-- A filter on demands between elements that are there. -/
theorem Tabulates.filter (h : g.Tabulates p tag f sites cond) (htag : Tagging tag sites)
    (hsteady : g.SteadyKeys p) (hlinks : ∀ k ∈ links, g.Relates p sites sites k) :
    g.Tabulates p tag (f.filter (links.map (Link.equality tag))) sites
      fun a => cond a && links.all (g.holds a) := by
  refine h.filterRows (fun a a' hagree => all_congr_of_mem fun k hk =>
    g.dependsOn_holds k _ (hlinks k hk).left (hlinks k hk).right hagree) fun a ha => ?_
  rw [List.all_map]
  refine all_congr_of_mem fun k hk => ?_
  have hrelates := hlinks k hk
  exact holds_eq_of_stored hsteady hrelates
    (h.cell_eq htag ha hrelates.left hrelates.leftColumn)
    (h.cell_eq htag ha hrelates.right hrelates.rightColumn)
    (h.stored _ hrelates.left _ hrelates.leftColumn)
    (h.stored _ hrelates.right _ hrelates.rightColumn)
    (g.mem_rows_of_mem_assignments ha _ hrelates.left)
    (g.mem_rows_of_mem_assignments ha _ hrelates.right)

/-- An anti-join with the relation of one more element. -/
theorem Tabulates.antiJoin (h : g.Tabulates p tag lf sites cond)
    (htag : Tagging tag (sites ++ [s])) (hsteady : g.SteadyKeys p)
    (hlinks : ∀ k ∈ links, g.Relates p sites [s] k) :
    g.Tabulates p tag (lf.antiJoin (g.scanFrame tag s) (links.map (Link.equality tag))) sites
      fun a => cond a && !(g.relations.table s.kind).rows.any fun row =>
        links.all (g.holds (Function.update a s row)) := by
  refine h.filterRows (fun a a' hagree => ?_) fun a ha => ?_
  · refine congrArg (fun b => !b) (any_congr_of_mem fun row _ => all_congr_of_mem fun k hk => ?_)
    refine g.dependsOn_holds k {s' | s' ∈ sites ++ [s]} (List.mem_append_left _ (hlinks k hk).left)
      (List.mem_append_right _ (hlinks k hk).right) fun s' hs' => ?_
    by_cases heq : s' = s
    · subst heq
      rw [Function.update_self, Function.update_self]
    · rw [Function.update_of_ne heq, Function.update_of_ne heq]
      exact hagree s' ((List.mem_append.1 hs').resolve_right fun h => heq (List.mem_singleton.1 h))
  · rw [rows_scanFrame]
    exact congrArg (fun b => !b) (any_congr_of_mem fun row hrow =>
      h.agree_eq htag hsteady hlinks ha hrow)

end Graph

end GraphMotif
