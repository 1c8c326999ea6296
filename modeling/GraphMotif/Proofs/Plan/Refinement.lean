import GraphMotif.Plan.Evaluate
import GraphMotif.Proofs.Plan.Matching
import GraphMotif.Proofs.Plan.Tags

/-!
# Evaluation refines nested loops

Every operator turns tables that realize frames into a table that realizes the frame of the nested
loops, or stops where numbers would have to be matched with texts. By recursion on the plan, so does
the evaluation of a whole plan, and a projection at its root picks the columns of the result.
-/

namespace GraphMotif

/-- A computation that stops for keys that cannot be compared exactly if there is a clash, and else
gives a table that realizes a frame. -/
def Yields (x : Except EvalError (Table Label)) (clash : Prop) (f : Frame) : Prop :=
  (clash ∧ ∃ a b, x = .error (.incomparableKeys a b)) ∨
    (¬clash ∧ ∃ t, x = .ok t ∧ t.Realizes f)

theorem Yields.of_realizes {t : Table Label} {clash : Prop} {f : Frame} (hclash : ¬clash)
    (h : t.Realizes f) : Yields (.ok t) clash f := .inr ⟨hclash, t, rfl, h⟩

/-- An operator on two inputs stops if one of the inputs does or if its own keys clash. -/
theorem Yields.bind₂ {x y : Except EvalError (Table Label)} {clashLeft clashRight clash : Prop}
    {lf rf f : Frame} {op : Table Label → Table Label → Except EvalError (Table Label)}
    (hx : Yields x clashLeft lf) (hy : Yields y clashRight rf)
    (hop : ∀ left right, left.Realizes lf → right.Realizes rf → Yields (op left right) clash f) :
    Yields (do op (← x) (← y)) (clash ∨ clashLeft ∨ clashRight) f := by
  rcases hx with ⟨hc, a, b, rfl⟩ | ⟨hc, left, rfl, hl⟩
  · exact .inl ⟨.inr (.inl hc), a, b, rfl⟩
  rcases hy with ⟨hd, a, b, rfl⟩ | ⟨hd, right, rfl, hr⟩
  · exact .inl ⟨.inr (.inr hd), a, b, rfl⟩
  rcases hop left right hl hr with ⟨he, herror⟩ | ⟨he, hok⟩
  · exact .inl ⟨.inl he, herror⟩
  · exact .inr ⟨fun h => h.elim he fun h => h.elim hc hd, hok⟩

/-! ## Leaves -/

theorem Table.realizes_noRows (columns : List String) (kind : String → ColumnKind) :
    (noRows columns).Realizes { names := columns, kind, rows := [] } where
  names := by
    rw [names, noRows, List.map_map]
    rfl
  rows := rfl
  kind h := absurd rfl h

/-- A scan stores its columns as the table does. -/
theorem Frame.kind_scan (t : Table String) (tag : String) {columns : List String} {column : String}
    (h : column ∈ columns) : (Frame.scan t tag columns).kind (qualified tag column) =
      t.kindAt column := by
  have hfind : columns.find? (qualified tag · = qualified tag column) = some column :=
    find?_eq_some_of_unique h (decide_eq_true rfl) fun _ _ heq =>
      qualified_injective tag (of_decide_eq_true heq)
  simp only [Frame.scan, hfind]

/-- A scan whose columns are there gives them, under the tag. -/
theorem Table.scanned_yields (t : Table String) (element : Element) (tag : String)
    {columns : List String} (h : ∀ column ∈ columns, column ∈ t.names) :
    Yields (t.scanned element tag columns) False (.scan t tag columns) := by
  have hmissing : (columns.filter fun column => !t.names.contains column) = [] :=
    List.filter_eq_nil_iff.2 fun column hcolumn => by simp [h column hcolumn]
  have hpicks : columns.filterMap (fun column =>
      (t.position? column).map (Label.plain (qualified tag column), ·)) =
        columns.map fun column => (Label.plain (qualified tag column), t.names.idxOf column) := by
    rw [← List.filterMap_eq_map]
    exact List.filterMap_congr fun column hcolumn => by
      rw [t.position?_eq_some (h column hcolumn)]
      rfl
  have hscanned : t.scanned element tag columns = .ok (t.pick (columns.map fun column =>
      (Label.plain (qualified tag column), t.names.idxOf column))) := by
    rw [scanned, hmissing, hpicks]
    rfl
  rw [hscanned]
  refine .of_realizes not_false ⟨?_, ?_, fun _ name hname => ?_⟩
  · rw [names, pick, List.map_map, List.map_map, Frame.scan, List.map_map]
    rfl
  · rw [pick, Frame.scan]
    refine List.map_congr_left fun row _ => ?_
    rw [List.map_map]
    rfl
  · obtain ⟨column, hcolumn, rfl⟩ := List.mem_map.1 hname
    have hidx : (Frame.scan t tag columns).names.idxOf (qualified tag column) =
        columns.idxOf column := idxOf_map_of_injective (qualified_injective tag) columns column
    rw [Frame.kind_scan t tag hcolumn, hidx, kind_columnAt, pick, List.getElem?_map, List.getElem?_map,
      List.getElem?_idxOf hcolumn]
    rfl

/-! ## Operators on two inputs -/

theorem joinedHeadings_nil (headings : List (Heading Label)) :
    joinedHeadings [] headings = headings :=
  List.ext_getElem? fun i => by
    rw [joinedHeadings, List.getElem?_mapIdx]
    exact Option.map_id'

theorem names_joinedHeadings (keys : List Meeting) (headings : List (Heading Label)) :
    (joinedHeadings keys headings).map (·.name) = headings.map (·.name) := by
  refine List.ext_getElem? fun i => ?_
  rw [joinedHeadings, List.getElem?_map, List.getElem?_map, List.getElem?_mapIdx, Option.map_map]
  refine congrArg (fun f => Option.map f headings[i]?) (funext fun heading => ?_)
  rw [Function.comp_apply]
  split <;> rfl

namespace Table.Realizes

variable {left right : Table Label} {lf rf : Frame} {es : List Equality}

/-- The left rows that take part in a match are those without a null in a strict key. -/
theorem leftRows_eq (hl : left.Realizes lf) :
    Matching.leftRows ((keyEqualities es).map (Equality.meetingAt left right lf rf)) left =
      lf.keyed (·.left) es := by
  rw [Matching.leftRows, Frame.keyed, hl.rows]
  refine List.filter_congr fun row _ => ?_
  rw [List.all_map]
  rfl

/-- The right rows that take part in a match are those without a null in a strict key. -/
theorem rightRows_eq (hr : right.Realizes rf) :
    Matching.rightRows ((keyEqualities es).map (Equality.meetingAt left right lf rf)) right =
      rf.keyed (·.right) es := by
  rw [Matching.rightRows, Frame.keyed, hr.rows]
  refine List.filter_congr fun row _ => ?_
  rw [List.all_map]
  rfl

/-- The keys of two tables clash exactly if those of their frames do. -/
theorem clashes_iff (hl : left.Realizes lf) (hr : right.Realizes rf)
    (hleft : ∀ e ∈ es, e.left ∈ lf.names) (hright : ∀ e ∈ es, e.right ∈ rf.names) :
    let keys := (keyEqualities es).map (Equality.meetingAt left right lf rf)
    (∃ m ∈ keys, (Matching.rowsMeet keys left right &&
        m.clashes (Matching.leftRows keys left) (Matching.rightRows keys right)) = true) ↔
      lf.Clash rf es := by
  intro keys
  have hmeet : Matching.rowsMeet keys left right = true ↔
      lf.keyed (·.left) es ≠ [] ∧ rf.keyed (·.right) es ≠ [] := by
    rw [Matching.rowsMeet, hl.leftRows_eq, hr.rightRows_eq]
    simp
  have hclash : lf.keyed (·.left) es ≠ [] → rf.keyed (·.right) es ≠ [] →
      ∀ e ∈ keyEqualities es, ((e.meetingAt left right lf rf).clashes
          (Matching.leftRows keys left) (Matching.rightRows keys right) = true ↔
        ((lf.kind e.left).isNumeric ∧ rf.kind e.right = .mixed ∧
          holdsTexts ((rf.keyed (·.right) es).map (rf.cell · e.right))) ∨
        (lf.kind e.left = .mixed ∧ (rf.kind e.right).isNumeric ∧
          holdsTexts ((lf.keyed (·.left) es).map (lf.cell · e.left)))) := by
    intro hlkeyed hrkeyed e he
    -- where rows take part, the tables store the kinds of the frames
    have hlrows : lf.rows ≠ [] := fun h => hlkeyed (by rw [Frame.keyed, h, List.filter_nil])
    have hrrows : rf.rows ≠ [] := fun h => hrkeyed (by rw [Frame.keyed, h, List.filter_nil])
    have hes := mem_of_mem_keyEqualities he
    rw [hl.leftRows_eq, hr.rightRows_eq, Meeting.clashes, Equality.meetingAt,
      hl.kind hlrows _ (hleft e hes), hr.kind hrrows _ (hright e hes), Bool.or_eq_true,
      Bool.and_eq_true, Bool.and_eq_true, Bool.and_eq_true, Bool.and_eq_true, beq_iff_eq,
      beq_iff_eq, and_assoc, and_assoc]
    rfl
  constructor
  · rintro ⟨m, hm, h⟩
    obtain ⟨hrows, hm'⟩ := Bool.and_eq_true _ _ ▸ h
    obtain ⟨e, he, rfl⟩ := List.mem_map.1 hm
    obtain ⟨hlkeyed, hrkeyed⟩ := hmeet.1 hrows
    exact ⟨hlkeyed, hrkeyed, e, he, (hclash hlkeyed hrkeyed e he).1 hm'⟩
  · rintro ⟨hlkeyed, hrkeyed, e, he, h⟩
    refine ⟨_, List.mem_map_of_mem he, ?_⟩
    rw [Bool.and_eq_true]
    exact ⟨hmeet.2 ⟨hlkeyed, hrkeyed⟩, (hclash hlkeyed hrkeyed e he).2 h⟩

/-- A matching of tables that realize frames is built unless the frames clash. -/
theorem matching_cases (hl : left.Realizes lf) (hr : right.Realizes rf)
    (hleft : ∀ e ∈ es, e.left ∈ lf.names) (hright : ∀ e ∈ es, e.right ∈ rf.names) :
    (lf.Clash rf es ∧
        ∃ a b, Matching.ofEqualities left right es = .error (.incomparableKeys a b)) ∨
      (¬lf.Clash rf es ∧ Matching.ofEqualities left right es =
        .ok (Matching.byMeetings left right es (Equality.meetingAt left right lf rf))) := by
  have hiff := hl.clashes_iff hr hleft hright
  rcases Matching.ofEqualities_eq hl hr hleft hright with ⟨hclash, herror⟩ | ⟨hclash, hok⟩
  · exact .inl ⟨hiff.1 hclash, herror⟩
  · refine .inr ⟨fun h => ?_, hok⟩
    obtain ⟨m, hm, hm'⟩ := hiff.2 h
    exact absurd hm' (Bool.eq_false_iff.1 (hclash m hm))

/-- A left column is stored as the match on its key has made it. -/
theorem kind_joinedHeadings (hl : left.Realizes lf) (hr : right.Realizes rf)
    (hleft : ∀ e ∈ es, e.left ∈ lf.names) (hright : ∀ e ∈ es, e.right ∈ rf.names)
    (hlrows : lf.rows ≠ []) (hrrows : rf.rows ≠ []) {name : String} (hname : name ∈ lf.names) :
    (((joinedHeadings ((keyEqualities es).map (Equality.meetingAt left right lf rf))
      left.headings)[lf.names.idxOf name]?).map (·.kind)).getD .mixed =
        (lf.meeting rf es).kind name := by
  have hkind := hl.kind hlrows name hname
  have hlt : lf.names.idxOf name < left.headings.length := by
    rw [← left.length_names, hl.names, List.length_map]
    exact List.idxOf_lt_length_of_mem hname
  rw [Table.kind_columnAt, List.getElem?_eq_getElem hlt] at hkind
  rw [joinedHeadings, List.getElem?_mapIdx, find?_meetingAt hleft, Frame.meeting,
    List.getElem?_eq_getElem hlt]
  cases hfind : (keyEqualities es).find? (·.left = name) with
  | none =>
    simp only [hfind]
    exact hkind
  | some e =>
    have hes := mem_of_mem_keyEqualities (List.mem_of_find?_eq_some hfind)
    have heq : e.left = name := by simpa using List.find?_some hfind
    have hjoined := joinedKind_meetingAt hl hr hlrows hrrows (hleft e hes) (hright e hes)
    rw [heq] at hjoined
    simp only [hfind]
    exact hjoined

/-- A table with the columns of two tables side by side, the left ones as the match on the keys has
made them, and with the rows of the nested loops. -/
theorem of_joined (hl : left.Realizes lf) (hr : right.Realizes rf)
    (hleft : ∀ e ∈ es, e.left ∈ lf.names) (hright : ∀ e ∈ es, e.right ∈ rf.names)
    {t : Table Label} (keys : List Meeting)
    (hheadings : t.headings = joinedHeadings keys left.headings ++ right.headings)
    (hrows : t.rows = (lf.join rf es).rows)
    (hkeys : (lf.join rf es).rows ≠ [] →
      keys = (keyEqualities es).map (Equality.meetingAt left right lf rf)) :
    t.Realizes (lf.join rf es) := by
  refine ⟨?_, hrows, fun hne name hname => ?_⟩
  · rw [Table.names, hheadings, List.map_append, names_joinedHeadings, ← Table.names,
      ← Table.names, hl.names, hr.names, Frame.join, List.map_append]
  · -- a joined row comes from a row on either side
    obtain ⟨row, hrow⟩ := List.exists_mem_of_ne_nil _ hne
    obtain ⟨l, hlmem, hrow⟩ := List.mem_flatMap.1 hrow
    obtain ⟨r, hrmem, -⟩ := List.mem_map.1 hrow
    have hlrows : lf.rows ≠ [] := List.ne_nil_of_mem hlmem
    have hrrows : rf.rows ≠ [] := List.ne_nil_of_mem (List.mem_filter.1 hrmem).1
    have hlength : (joinedHeadings keys left.headings).length = lf.names.length := by
      rw [length_joinedHeadings, ← left.length_names, hl.names, List.length_map]
    rw [Table.kind_columnAt, hheadings]
    by_cases hmem : name ∈ lf.names
    · have hlt : lf.names.idxOf name < lf.names.length := List.idxOf_lt_length_of_mem hmem
      simp only [Frame.join, if_pos hmem, List.idxOf_append_of_mem hmem]
      rw [List.getElem?_append_left (hlength ▸ hlt), hkeys hne]
      exact kind_joinedHeadings hl hr hleft hright hlrows hrrows hmem
    · -- a right column keeps its kind
      have hkind := hr.kind hrrows name ((List.mem_append.1 hname).resolve_left hmem)
      simp only [Frame.join, if_neg hmem, List.idxOf_append_of_notMem hmem]
      rw [List.getElem?_append_right (hlength ▸ Nat.le_add_right ..), hlength,
        Nat.add_sub_cancel_left]
      exact hkind

/-- Where the nested loops find a pair, rows take part in the match. -/
theorem rowsMeet_of_agree (hl : left.Realizes lf) (hr : right.Realizes rf)
    (hleft : ∀ e ∈ es, e.left ∈ lf.names) (hright : ∀ e ∈ es, e.right ∈ rf.names) {l r : Row}
    (hlmem : l ∈ lf.rows) (hrmem : r ∈ rf.rows.filter (lf.agree rf es l)) :
    Matching.rowsMeet ((keyEqualities es).map (Equality.meetingAt left right lf rf)) left right =
      true := by
  rw [← rowsFor_eq hl hr hleft hright hlmem, Matching.byMeetings, Matching.rowsFor_ofMeetings,
    List.mem_filter, Bool.and_eq_true] at hrmem
  exact Matching.rowsMeet_of_agrees (hl.rows ▸ hlmem) hrmem.1 hrmem.2.1

theorem join_yields (hl : left.Realizes lf) (hr : right.Realizes rf)
    (hleft : ∀ e ∈ es, e.left ∈ lf.names) (hright : ∀ e ∈ es, e.right ∈ rf.names) :
    Yields (left.join right es) (lf.Clash rf es) (lf.join rf es) := by
  cases hes : es.isEmpty with
  | true =>
    -- without equalities all pairs are taken, and nothing can clash
    obtain rfl := List.isEmpty_iff.1 hes
    refine .of_realizes (fun ⟨_, _, e, he, _⟩ => absurd he List.not_mem_nil) ?_
    refine hl.of_joined hr hleft hright [] ?_ ?_ fun _ => rfl
    · rw [Table.cross, joinedHeadings_nil]
    · change left.rows.flatMap _ = lf.rows.flatMap _
      rw [hl.rows]
      refine List.flatMap_congr fun l _ => congrArg _ ?_
      rw [hr.rows]
      exact (List.filter_true _).symm
  | false =>
    rw [Table.join, hes]
    rcases hl.matching_cases hr hleft hright with ⟨hclash, a, b, herror⟩ | ⟨hclash, hok⟩
    · rw [herror]
      exact .inl ⟨hclash, a, b, rfl⟩
    · rw [hok]
      refine .of_realizes hclash (hl.of_joined hr hleft hright _ rfl ?_ fun hne => ?_)
      · change left.rows.flatMap _ = lf.rows.flatMap _
        rw [hl.rows]
        exact List.flatMap_congr fun l hmem => by rw [rowsFor_eq hl hr hleft hright hmem]
      · obtain ⟨row, hrow⟩ := List.exists_mem_of_ne_nil _ hne
        obtain ⟨l, hlmem, hrow⟩ := List.mem_flatMap.1 hrow
        obtain ⟨r, hrmem, -⟩ := List.mem_map.1 hrow
        exact if_pos (rowsMeet_of_agree hl hr hleft hright hlmem hrmem)

/-- The left rows that no right row agrees with, out of a table of the same columns. -/
theorem of_filtered (hl : left.Realizes lf) {t : Table Label} {p : Row → Bool}
    (hheadings : t.headings = left.headings) (hrows : t.rows = lf.rows.filter p) :
    t.Realizes { lf with rows := lf.rows.filter p } where
  names := by rw [Table.names, hheadings, ← Table.names, hl.names]
  rows := hrows
  kind hne name hname := by
    rw [Table.kind_columnAt, hheadings, ← Table.kind_columnAt]
    exact hl.kind (fun h => hne (by rw [h, List.filter_nil])) name hname

/-- An anti-join without equalities asks whether there is a right row; it takes a table without
columns for one without rows, which must then be so. -/
theorem antiJoin_yields (hl : left.Realizes lf) (hr : right.Realizes rf)
    (hleft : ∀ e ∈ es, e.left ∈ lf.names) (hright : ∀ e ∈ es, e.right ∈ rf.names)
    (hcolumns : rf.names = [] → rf.rows = []) :
    Yields (left.antiJoin right es) (lf.Clash rf es) (lf.antiJoin rf es) := by
  cases hes : es.isEmpty with
  | true =>
    obtain rfl := List.isEmpty_iff.1 hes
    have hempty : (right.rows.isEmpty || right.headings.isEmpty) = rf.rows.isEmpty := by
      rw [hr.rows]
      cases hrows : rf.rows.isEmpty with
      | true => rfl
      | false =>
        rw [Bool.false_or, ← List.isEmpty_map (f := (·.name)), ← Table.names, hr.names,
          List.isEmpty_map]
        exact List.isEmpty_eq_false_iff.2 fun h => List.isEmpty_eq_false_iff.1 hrows (hcolumns h)
    refine .of_realizes ?_ ?_
    · rintro ⟨_, _, e, he, -⟩
      exact absurd he List.not_mem_nil
    rw [hempty]
    refine hl.of_filtered ?_ ?_
    · split <;> rfl
    · cases hrows : rf.rows with
      | nil =>
        rw [List.isEmpty_nil, if_pos rfl, hl.rows]
        exact (List.filter_true _).symm
      | cons r rows =>
        rw [List.isEmpty_cons, if_neg Bool.false_ne_true]
        exact (List.filter_false _).symm
  | false =>
    rw [Table.antiJoin, hes]
    rcases hl.matching_cases hr hleft hright with ⟨hclash, a, b, herror⟩ | ⟨hclash, hok⟩
    · rw [herror]
      exact .inl ⟨hclash, a, b, rfl⟩
    · rw [hok]
      refine .of_realizes hclash (hl.of_filtered rfl ?_)
      change left.rows.filter _ = _
      rw [hl.rows]
      exact List.filter_congr fun l hmem => by
        rw [rowsFor_eq hl hr hleft hright hmem, isEmpty_filter]

/-! ## Operators on one input -/

variable {t : Table Label} {f : Frame}

theorem filterEqual_realizes (h : t.Realizes f) (hleft : ∀ e ∈ es, e.left ∈ f.names)
    (hright : ∀ e ∈ es, e.right ∈ f.names) :
    ∃ t', t.filterEqual es = .ok t' ∧ t'.Realizes (f.filter es) := by
  have hmeetings : es.mapM (Equality.meeting t t) = .ok (es.map (Equality.meetingAt t t f f)) :=
    mapM_eq_ok_map fun e he => Equality.meeting_eq h h (hleft e he) (hright e he)
  refine ⟨t.filterRows fun row => (es.map (Equality.meetingAt t t f f)).all (·.agrees row row),
    by rw [Table.filterEqual, hmeetings]; rfl, h.of_filtered rfl ?_⟩
  change t.rows.filter _ = _
  rw [h.rows]
  refine List.filter_congr fun row hrow => ?_
  rw [List.all_map]
  refine all_congr_of_mem fun e he => ?_
  have hrows : f.rows ≠ [] := List.ne_nil_of_mem hrow
  rw [Function.comp_apply, ← agrees_meetingAt t t f rfl,
    ← h.kind hrows _ (hleft e he), ← h.kind hrows _ (hright e he)]
  rfl

/-- A projection picks the columns of its bundles, each under the name of its element and its
attribute. -/
theorem projectTo_eq (h : t.Realizes f) {outputs : List Output}
    (hcolumns : ∀ o ∈ outputs, ∀ column ∈ o.columns, column ∈ f.names) :
    ∃ t', t.projectTo outputs = .ok t' ∧
      t'.names = outputs.flatMap (fun o =>
        (o.attributes.zip o.columns).map fun (name, _) => .bundled o.name name) ∧
      t'.rows = f.rows.map fun row => outputs.flatMap fun o =>
        (o.attributes.zip o.columns).map fun (_, column) => f.cell row column := by
  have hproject : t.projectTo outputs =
      .ok (t.pick ((outputs.flatMap fun o => (o.attributes.zip o.columns).map (o.name, ·)).map
        fun item => (.bundled item.1 item.2.1, f.names.idxOf item.2.2))) := by
    rw [Table.projectTo, mapM_eq_ok_map (g := fun item : String × String × String =>
      (Label.bundled item.1 item.2.1, f.names.idxOf item.2.2))]
    · rfl
    · rintro ⟨name, attributeName, column⟩ hmem
      obtain ⟨o, ho, hmem⟩ := List.mem_flatMap.1 hmem
      obtain ⟨pair, hpair, heq⟩ := List.mem_map.1 hmem
      obtain ⟨rfl, rfl⟩ := Prod.mk.inj heq
      simp only [h.plainColumn_eq (hcolumns o ho _ (List.of_mem_zip hpair).2)]
      rfl
  refine ⟨_, hproject, ?_, ?_⟩
  · rw [Table.names, Table.pick, List.map_map, List.map_map, List.map_flatMap]
    exact List.flatMap_congr fun o _ => List.map_map ..
  · change t.rows.map _ = f.rows.map _
    rw [h.rows]
    refine List.map_congr_left fun row _ => ?_
    rw [List.map_map, List.map_flatMap]
    exact List.flatMap_congr fun o _ => List.map_map ..

end Table.Realizes

end GraphMotif
