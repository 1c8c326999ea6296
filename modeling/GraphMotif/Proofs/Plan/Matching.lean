import GraphMotif.Proofs.Except
import GraphMotif.Proofs.Plan.NestedLoops
import GraphMotif.Proofs.Table.Position
import Mathlib.Data.List.Find
import Mathlib.Data.List.Nodup
import Mathlib.Tactic.Set

/-!
# Matching by keys is nested loops

A table realizes a frame when it has its columns and rows. Joining two tables by keys finds for
every left row the right rows that the nested loops find (`rowsFor_eq`): the keys and what is
checked afterwards are all equalities, a row with a null in a strict key agrees with nothing, and
the kind that a column has after the match does not change what the match was about.
-/

namespace GraphMotif

/-- A table has the columns of a frame, stored as the frame says if there are rows, and its rows. -/
structure Table.Realizes (t : Table Label) (f : Frame) : Prop where
  names : t.names = f.names.map .plain
  rows : t.rows = f.rows
  kind : f.rows ≠ [] → ∀ name ∈ f.names, (t.columnAt (f.names.idxOf name)).kind = f.kind name

/-! ## Splitting equalities -/

section Split

variable (seenLeft seenRight : List String) (equalities : List Equality)

theorem splitEqualities_perm :
    ((splitEqualities seenLeft seenRight equalities).1 ++
      (splitEqualities seenLeft seenRight equalities).2).Perm equalities := by
  induction equalities generalizing seenLeft seenRight with
  | nil => exact .nil
  | cons e es ih =>
    simp only [splitEqualities]
    split
    · exact List.perm_middle.trans ((ih _ _).cons e)
    · exact (ih _ _).cons e

/-- No two keys use one left column. -/
theorem nodup_map_left_splitEqualities :
    ((splitEqualities seenLeft seenRight equalities).1.map (·.left)).Nodup ∧
      ∀ e ∈ (splitEqualities seenLeft seenRight equalities).1, e.left ∉ seenLeft := by
  induction equalities generalizing seenLeft seenRight with
  | nil => exact ⟨List.nodup_nil, fun _ h => absurd h List.not_mem_nil⟩
  | cons e es ih =>
    simp only [splitEqualities]
    split
    · exact ih _ _
    · next hseen =>
      obtain ⟨hnodup, hfresh⟩ := ih (e.left :: seenLeft) (e.right :: seenRight)
      refine ⟨?_, ?_⟩
      · rw [List.map_cons, List.nodup_cons]
        refine ⟨fun hmem => ?_, hnodup⟩
        obtain ⟨e', he', heq⟩ := List.mem_map.1 hmem
        exact hfresh e' he' (heq ▸ List.mem_cons_self)
      · refine List.forall_mem_cons.2 ⟨fun hmem => hseen ?_, fun e' he' hmem => ?_⟩
        · simp [hmem]
        · exact hfresh e' he' (List.mem_cons_of_mem _ hmem)

end Split

/-- The equalities of a join that use a column again. -/
def otherEqualities (equalities : List Equality) : List Equality :=
  (splitEqualities [] [] equalities).2

theorem all_keyEqualities_and_others (equalities : List Equality) (p : Equality → Bool) :
    ((keyEqualities equalities).all p && (otherEqualities equalities).all p) =
      equalities.all p := by
  rw [← List.all_append]
  exact (splitEqualities_perm [] [] equalities).all_eq

theorem mem_of_mem_keyEqualities {equalities : List Equality} {e : Equality}
    (h : e ∈ keyEqualities equalities) : e ∈ equalities :=
  (splitEqualities_perm [] [] equalities).mem_iff.1 (List.mem_append_left _ h)

theorem mem_of_mem_otherEqualities {equalities : List Equality} {e : Equality}
    (h : e ∈ otherEqualities equalities) : e ∈ equalities :=
  (splitEqualities_perm [] [] equalities).mem_iff.1 (List.mem_append_right _ h)

/-- A key is the one that its left column belongs to. -/
theorem find?_keyEqualities {equalities : List Equality} {e : Equality}
    (h : e ∈ keyEqualities equalities) :
    (keyEqualities equalities).find? (·.left = e.left) = some e :=
  find?_eq_some_of_unique h (decide_eq_true rfl) fun _ hmem heq =>
    List.inj_on_of_nodup_map (nodup_map_left_splitEqualities [] [] equalities).1 hmem h
      (of_decide_eq_true heq)

/-- The keys of a longer list begin with those of its first part. -/
theorem exists_keyEqualities_append (equalities others : List Equality) :
    ∃ rest, (∀ e ∈ rest, e ∈ others) ∧
      keyEqualities (equalities ++ others) = keyEqualities equalities ++ rest := by
  have hsplit (seenLeft seenRight : List String) : ∃ rest, (∀ e ∈ rest, e ∈ others) ∧
      (splitEqualities seenLeft seenRight (equalities ++ others)).1 =
        (splitEqualities seenLeft seenRight equalities).1 ++ rest := by
    induction equalities generalizing seenLeft seenRight with
    | nil =>
      refine ⟨(splitEqualities seenLeft seenRight others).1, fun e he => ?_, rfl⟩
      exact (splitEqualities_perm seenLeft seenRight others).mem_iff.1 (List.mem_append_left _ he)
    | cons e es ih =>
      simp only [List.cons_append, splitEqualities]
      split
      · exact ih _ _
      · obtain ⟨rest, hrest, heq⟩ := ih (e.left :: seenLeft) (e.right :: seenRight)
        exact ⟨rest, hrest, congrArg _ heq⟩
  exact hsplit [] []

/-! ## Meetings -/

/-- Two rows agree in a key exactly if both take part in the match and have one key. -/
theorem Meeting.agrees_eq (m : Meeting) (l r : Row) :
    m.agrees l r =
      (m.admitsLeft l && m.admitsRight r && ((m.rightValue r).key == (m.leftValue l).key)) := by
  have hleft : (m.leftValue l).isNull = (l.cell m.left).isNull := ColumnKind.isNull_align ..
  have hright : (m.rightValue r).isNull = (r.cell m.right).isNull := ColumnKind.isNull_align ..
  have hkey : ∀ v : Value, (v.key == .null) = v.isNull := fun v => by
    rw [Bool.eq_iff_iff, beq_iff_eq, Value.key_eq_null_iff]
  simp only [Meeting.agrees, Meeting.admitsLeft, Meeting.admitsRight, Value.same]
  rw [← hleft, ← hright, ← hkey, ← hkey]
  -- a null is what has the key of a null, so only keys are left
  generalize (m.leftValue l).key = a
  generalize (m.rightValue r).key = b
  by_cases hab : a = b
  · subst hab
    cases m.nullSafe <;> simp
  · have hab' : (a == b) = false := beq_eq_false_iff_ne.2 hab
    have hba' : (b == a) = false := beq_eq_false_iff_ne.2 (Ne.symm hab)
    rw [hab', hba', Bool.and_false, Bool.and_false, Bool.false_or]
    cases ha : a == .null with
    | false => rw [Bool.and_false, Bool.false_and]
    | true =>
      have hb : (b == Value.Key.null) = false :=
        beq_eq_false_iff_ne.2 fun hb => hab ((beq_iff_eq.1 ha).trans hb.symm)
      rw [hb, Bool.and_false]

namespace Table.Realizes

variable {t left right : Table Label} {f lf rf : Frame}

theorem plainColumn_eq (h : t.Realizes f) {name : String} (hname : name ∈ f.names) :
    t.plainColumn name =
      .ok (f.names.idxOf name, (t.columnAt (f.names.idxOf name)).kind) := by
  have hmem : .plain name ∈ t.names := h.names ▸ List.mem_map_of_mem hname
  have hidx : t.names.idxOf (.plain name) = f.names.idxOf name := by
    rw [h.names, idxOf_map_of_injective fun _ _ => Label.plain.inj]
  rw [Table.plainColumn, t.position?_eq_some hmem, hidx]

end Table.Realizes

/-- The meeting of two columns that an equality names. -/
def Equality.meetingAt (left right : Table Label) (lf rf : Frame) (e : Equality) : Meeting where
  left := lf.names.idxOf e.left
  leftKind := (left.columnAt (lf.names.idxOf e.left)).kind
  right := rf.names.idxOf e.right
  rightKind := (right.columnAt (rf.names.idxOf e.right)).kind
  nullSafe := e.nullSafe

theorem Equality.meeting_eq {left right : Table Label} {lf rf : Frame} (hl : left.Realizes lf)
    (hr : right.Realizes rf) {e : Equality} (hleft : e.left ∈ lf.names)
    (hright : e.right ∈ rf.names) :
    e.meeting left right = .ok (e.meetingAt left right lf rf) := by
  rw [Equality.meeting, hl.plainColumn_eq hleft, hr.plainColumn_eq hright]
  rfl

/-- A meeting as a match on the keys leaves its left column. -/
def Meeting.after (keys : List Meeting) (m : Meeting) : Meeting :=
  { m with leftKind := Matching.kindAfter keys m.left m.leftKind }

/-- A meeting of two tables within the rows that a match on the keys puts side by side. -/
def Meeting.within (keys : List Meeting) (n : Nat) (m : Meeting) : Meeting :=
  { m.after keys with right := n + m.right }

theorem Meeting.agrees_within (keys : List Meeting) {m : Meeting} {l : Row} (h : m.left < l.length)
    (r : Row) :
    (m.within keys l.length).agrees (l ++ r) (l ++ r) = (m.after keys).agrees l r := by
  simp only [agrees, leftValue, rightValue, within, after, Row.cell_append_left h,
    Row.cell_append_right]

theorem Equality.left_lt_of_meeting {left right : Table Label} {e : Equality} {m : Meeting}
    (h : e.meeting left right = .ok m) : m.left < left.headings.length := by
  rw [Equality.meeting, Table.plainColumn, Table.plainColumn] at h
  cases hi : left.position? (.plain e.left) with
  | none =>
    rw [hi] at h
    cases h
  | some i =>
    cases hj : right.position? (.plain e.right) with
    | none =>
      rw [hi, hj] at h
      cases h
    | some j =>
      rw [hi, hj] at h
      obtain rfl := Except.ok.inj h
      exact (List.findIdx?_eq_some_iff_getElem.1 hi).1

/-- An equality of a column of the left table with one of the right table meets within the rows of a
match as it meets between the tables. -/
theorem Matching.meetingWithin_eq (keys : List Meeting) {left right : Table Label} {e : Equality}
    {m : Meeting} (h : e.meeting left right = .ok m) :
    meetingWithin keys left right e = .ok (m.within keys left.headings.length) := by
  rw [Equality.meeting] at h
  cases hi : left.plainColumn e.left with
  | error a =>
    rw [hi] at h
    cases h
  | ok i =>
    cases hj : right.plainColumn e.right with
    | error a =>
      rw [hi, hj] at h
      cases h
    | ok j =>
      rw [hi, hj] at h
      obtain rfl := Except.ok.inj h
      simp only [meetingWithin, leftColumn, rightColumn, hi, hj, Except.map]
      rfl

/-- The matching of two tables by equalities that meet as given. -/
def Matching.byMeetings (left right : Table Label) (es : List Equality) (g : Equality → Meeting) :
    Matching right :=
  let keys := (keyEqualities es).map g
  ofMeetings left right keys ((otherEqualities es).map fun e =>
    (g e).within (metKeys keys left right) left.headings.length)

/-- A matching of columns that are there is built unless some key clashes. -/
theorem Matching.ofEqualities_eq_of_meeting {left right : Table Label} {es : List Equality}
    {g : Equality → Meeting} (hg : ∀ e ∈ es, e.meeting left right = .ok (g e)) :
    let keys := (keyEqualities es).map g
    let clash (m : Meeting) : Bool :=
      rowsMeet keys left right && m.clashes (leftRows keys left) (rightRows keys right)
    ((∃ m ∈ keys, clash m = true) ∧
        ∃ a b, ofEqualities left right es = .error (.incomparableKeys a b)) ∨
      ((∀ m ∈ keys, clash m = false) ∧
        ofEqualities left right es = .ok (byMeetings left right es g)) := by
  intro keys clash
  have hkeys : (splitEqualities [] [] es).1.mapM (Equality.meeting left right) = .ok keys :=
    mapM_eq_ok_map fun e he => hg e (mem_of_mem_keyEqualities he)
  have hothers : (splitEqualities [] [] es).2.mapM
      (meetingWithin (metKeys keys left right) left right) =
      .ok ((otherEqualities es).map fun e =>
        (g e).within (metKeys keys left right) left.headings.length) :=
    mapM_eq_ok_map fun e he => meetingWithin_eq _ (hg e (mem_of_mem_otherEqualities he))
  have hof : ofEqualities left right es =
      (((keyEqualities es).zip keys).find? fun x => clash x.2).elim
        (.ok (byMeetings left right es g))
        fun x => .error (.incomparableKeys x.1.left x.1.right) := by
    unfold ofEqualities
    simp only [hkeys, hothers, bind, Except.bind]
    split
    · next e m hfind =>
      have hfound : ((keyEqualities es).zip keys).find? (fun x => clash x.2) = some (e, m) := hfind
      rw [hfound]
      rfl
    · next hfind =>
      have hnone : ((keyEqualities es).zip keys).find? (fun x => clash x.2) = none := hfind
      rw [hnone]
      rfl
  have hzip : (keyEqualities es).zip keys = (keyEqualities es).map fun e => (e, g e) := by
    rw [← List.map_prod_left_eq_zip]
  rw [hof, hzip]
  cases hfind : ((keyEqualities es).map fun e => (e, g e)).find? fun x => clash x.2 with
  | some x =>
    refine .inl ⟨?_, _, _, rfl⟩
    obtain ⟨e, he, heq⟩ := List.mem_map.1 (List.mem_of_find?_eq_some hfind)
    obtain rfl := heq
    have hclash := List.find?_some hfind
    exact ⟨_, List.mem_map_of_mem he, hclash⟩
  | none =>
    refine .inr ⟨fun m hm => ?_, rfl⟩
    obtain ⟨e, he, rfl⟩ := List.mem_map.1 hm
    rw [← Bool.not_eq_true]
    exact List.find?_eq_none.1 hfind _ (List.mem_map_of_mem he)

/-- A matching of tables that realize frames is built unless some key clashes. -/
theorem Matching.ofEqualities_eq {left right : Table Label} {lf rf : Frame}
    (hl : left.Realizes lf) (hr : right.Realizes rf) {es : List Equality}
    (hleft : ∀ e ∈ es, e.left ∈ lf.names) (hright : ∀ e ∈ es, e.right ∈ rf.names) :
    let keys := (keyEqualities es).map (Equality.meetingAt left right lf rf)
    let clash (m : Meeting) : Bool :=
      rowsMeet keys left right && m.clashes (leftRows keys left) (rightRows keys right)
    ((∃ m ∈ keys, clash m = true) ∧
        ∃ a b, ofEqualities left right es = .error (.incomparableKeys a b)) ∨
      ((∀ m ∈ keys, clash m = false) ∧ ofEqualities left right es =
        .ok (byMeetings left right es (Equality.meetingAt left right lf rf))) :=
  ofEqualities_eq_of_meeting fun e he => Equality.meeting_eq hl hr (hleft e he) (hright e he)

/-! ## The rows of a match -/

/-- Rows that agree in all keys take part in the match. -/
theorem Matching.rowsMeet_of_agrees {left right : Table Label} {keys : List Meeting} {l r : Row}
    (hl : l ∈ left.rows) (hr : r ∈ right.rows) (h : keys.all (·.agrees l r) = true) :
    rowsMeet keys left right = true := by
  have hadmits : ∀ k ∈ keys, k.admitsLeft l = true ∧ k.admitsRight r = true := fun k hk => by
    have hk := List.all_eq_true.1 h k hk
    rw [k.agrees_eq, Bool.and_eq_true, Bool.and_eq_true] at hk
    exact hk.1
  have hlmem : l ∈ leftRows keys left :=
    List.mem_filter.2 ⟨hl, List.all_eq_true.2 fun k hk => (hadmits k hk).1⟩
  have hrmem : r ∈ rightRows keys right :=
    List.mem_filter.2 ⟨hr, List.all_eq_true.2 fun k hk => (hadmits k hk).2⟩
  rw [rowsMeet, List.isEmpty_eq_false_iff.2 (List.ne_nil_of_mem hlmem),
    List.isEmpty_eq_false_iff.2 (List.ne_nil_of_mem hrmem)]
  rfl

/-- A left row matches the right rows that agree with it in the keys and in all else. -/
theorem Matching.rowsFor_ofMeetings (left right : Table Label) (keys others : List Meeting)
    (l : Row) :
    (ofMeetings left right keys others).rowsFor l = right.rows.filter fun r =>
      keys.all (·.agrees l r) && others.all (·.agrees (l ++ r) (l ++ r)) := by
  -- rows agree in all keys when both take part and have the same keys
  have hkeys : ∀ r, keys.all (·.agrees l r) =
      (keys.all (·.admitsLeft l) && keys.all (·.admitsRight r) &&
        decide (keys.map (fun k => (k.rightValue r).key) =
          keys.map fun k => (k.leftValue l).key)) := fun r => by
    induction keys with
    | nil => rfl
    | cons k keys ih =>
      rw [List.all_cons, ih, k.agrees_eq, Bool.eq_iff_iff]
      simp only [List.all_cons, List.map_cons, List.cons.injEq, Bool.and_eq_true, beq_iff_eq,
        decide_eq_true_eq]
      constructor
      · rintro ⟨⟨⟨hl, hr⟩, hk⟩, ⟨hls, hrs⟩, hks⟩
        exact ⟨⟨⟨hl, hls⟩, hr, hrs⟩, hk, hks⟩
      · rintro ⟨⟨⟨hl, hls⟩, hr, hrs⟩, hk, hks⟩
        exact ⟨⟨⟨hl, hr⟩, hk⟩, ⟨hls, hrs⟩, hks⟩
  have hfind : ∀ key, (ofMeetings left right keys others).index.find key =
      (rightRows keys right).filter fun r =>
        keys.map (fun k => (k.rightValue r).key) = key := fun key => RowIndex.find_build ..
  simp only [rowsFor, hfind, rightRows, List.filter_filter, hkeys]
  cases hadmits : keys.all (·.admitsLeft l) with
  | false =>
    rw [show (ofMeetings left right keys others).keys = keys from rfl, hadmits]
    simp
  | true =>
    rw [show (ofMeetings left right keys others).keys = keys from rfl, hadmits, if_pos rfl]
    refine List.filter_congr fun r _ => ?_
    rw [show (ofMeetings left right keys others).others = others from rfl]
    simp only [Bool.true_and, Bool.and_comm, Bool.and_left_comm]

/-- By equalities, a left row matches the right rows that agree with it in the keys as the columns
are stored, and in all else as the match on the keys leaves the columns. -/
theorem Matching.rowsFor_byMeetings {left right : Table Label} {es : List Equality}
    {g : Equality → Meeting} (hg : ∀ e ∈ es, e.meeting left right = .ok (g e)) {l : Row}
    (hl : l ∈ left.rows) :
    (byMeetings left right es g).rowsFor l = right.rows.filter fun r =>
      (keyEqualities es).all (fun e => (g e).agrees l r) &&
        (otherEqualities es).all fun e => ((g e).after ((keyEqualities es).map g)).agrees l r := by
  rw [byMeetings, rowsFor_ofMeetings]
  refine List.filter_congr fun r hr => ?_
  have hkeys : ((keyEqualities es).map g).all (·.agrees l r) =
      (keyEqualities es).all fun e => (g e).agrees l r := List.all_map
  rw [hkeys]
  cases hagree : (keyEqualities es).all fun e => (g e).agrees l r with
  | false => rfl
  | true =>
    -- these rows take part, so the match has changed the columns
    have hmet : metKeys ((keyEqualities es).map g) left right = (keyEqualities es).map g :=
      if_pos (rowsMeet_of_agrees hl hr (hkeys.trans hagree))
    rw [Bool.true_and, Bool.true_and, hmet, ← left.rectangular l hl, List.all_map]
    refine all_congr_of_mem fun e he => Meeting.agrees_within _ ?_ r
    rw [left.rectangular l hl]
    exact Equality.left_lt_of_meeting (hg e (mem_of_mem_otherEqualities he))

namespace Table.Realizes

variable {left right : Table Label} {lf rf : Frame} {es : List Equality}

/-- The kind of the left column of a key after the match. -/
theorem joinedKind_meetingAt (hl : left.Realizes lf) (hr : right.Realizes rf)
    (hlrows : lf.rows ≠ []) (hrrows : rf.rows ≠ []) {e : Equality} (hleft : e.left ∈ lf.names)
    (hright : e.right ∈ rf.names) :
    (e.meetingAt left right lf rf).joinedKind =
      (lf.kind e.left).matched (rf.kind e.right) := by
  rw [Meeting.joinedKind, ColumnKind.matched, Equality.meetingAt, hl.kind hlrows _ hleft,
    hr.kind hrrows _ hright]

/-- The key of a left column is found by its position as by its name. -/
theorem find?_meetingAt (hleft : ∀ e ∈ es, e.left ∈ lf.names) (name : String) :
    ((keyEqualities es).map (Equality.meetingAt left right lf rf)).find?
        (·.left = lf.names.idxOf name) =
      ((keyEqualities es).find? (·.left = name)).map (Equality.meetingAt left right lf rf) := by
  rw [List.find?_map]
  refine congrArg _ (List.find?_congr fun k hk => ?_)
  have hmem := hleft k (mem_of_mem_keyEqualities hk)
  rw [Function.comp_apply, Equality.meetingAt, decide_eq_decide]
  exact List.idxOf_inj hmem

/-- What a match makes of the kind of a left column. -/
theorem after_meetingAt (hl : left.Realizes lf) (hr : right.Realizes rf)
    (hlrows : lf.rows ≠ []) (hrrows : rf.rows ≠ []) (hleft : ∀ e ∈ es, e.left ∈ lf.names)
    (hright : ∀ e ∈ es, e.right ∈ rf.names) {e : Equality} (he : e ∈ es) :
    (e.meetingAt left right lf rf).after
        ((keyEqualities es).map (Equality.meetingAt left right lf rf)) =
      { e.meetingAt left right lf rf with
        leftKind := (lf.meeting rf es).kind e.left
        rightKind := rf.kind e.right } := by
  have hlkind : (e.meetingAt left right lf rf).leftKind = lf.kind e.left :=
    hl.kind hlrows _ (hleft e he)
  have hrkind : (e.meetingAt left right lf rf).rightKind = rf.kind e.right :=
    hr.kind hrrows _ (hright e he)
  rw [Meeting.after, Matching.kindAfter,
    show (e.meetingAt left right lf rf).left = lf.names.idxOf e.left from rfl, find?_meetingAt hleft]
  simp only [Frame.meeting]
  cases hk : (keyEqualities es).find? (·.left = e.left) with
  | none =>
    simp only [Option.map_none, Option.getD_none, ← hlkind, ← hrkind]
    rfl
  | some k =>
    have hmem := mem_of_mem_keyEqualities (List.mem_of_find?_eq_some hk)
    have heq : k.left = e.left := by simpa using List.find?_some hk
    simp only [Option.map_some, Option.getD_some, ← hrkind]
    rw [joinedKind_meetingAt hl hr hlrows hrrows (hleft k hmem) (hright k hmem), heq]
    rfl

/-- Rows agree in the meeting of an equality when the equality holds between them, each column being
of the kind that it has in the meeting. -/
theorem agrees_meetingAt (left right : Table Label) (lf' : Frame) (hnames : lf'.names = lf.names)
    (e : Equality) (l r : Row) :
    Meeting.agrees { e.meetingAt left right lf rf with
        leftKind := lf'.kind e.left
        rightKind := rf.kind e.right } l r = lf'.holds rf l r e := by
  simp only [Meeting.agrees, Meeting.leftValue, Meeting.rightValue, ColumnKind.isNull_align,
    Frame.holds, ColumnKind.equal, Frame.cell, hnames, Equality.meetingAt]

/-- Matching by keys finds what the nested loops find. -/
theorem rowsFor_eq (hl : left.Realizes lf) (hr : right.Realizes rf)
    (hleft : ∀ e ∈ es, e.left ∈ lf.names) (hright : ∀ e ∈ es, e.right ∈ rf.names) {l : Row}
    (hmem : l ∈ lf.rows) :
    (Matching.byMeetings left right es (Equality.meetingAt left right lf rf)).rowsFor l =
      rf.rows.filter (lf.agree rf es l) := by
  rw [Matching.rowsFor_byMeetings
    (fun e he => Equality.meeting_eq hl hr (hleft e he) (hright e he)) (hl.rows ▸ hmem), hr.rows]
  refine List.filter_congr fun r hrmem => ?_
  have hlrows : lf.rows ≠ [] := List.ne_nil_of_mem hmem
  have hrrows : rf.rows ≠ [] := List.ne_nil_of_mem hrmem
  rw [Frame.agree, ← all_keyEqualities_and_others es]
  congr 1
  · refine all_congr_of_mem fun e he => ?_
    have hes := mem_of_mem_keyEqualities he
    -- a key compares its columns as they were, which its own match does not change
    have hholds : (lf.meeting rf es).holds rf l r e = lf.holds rf l r e := by
      simp only [Frame.holds, Frame.meeting, find?_keyEqualities he, ColumnKind.matched_equal,
        Frame.cell]
    rw [hholds, ← agrees_meetingAt left right lf rfl,
      ← hl.kind hlrows _ (hleft e hes), ← hr.kind hrrows _ (hright e hes)]
    rfl
  · refine all_congr_of_mem fun e he => ?_
    rw [after_meetingAt hl hr hlrows hrrows hleft hright (mem_of_mem_otherEqualities he)]
    exact agrees_meetingAt left right (lf.meeting rf es) rfl e l r

end Table.Realizes

end GraphMotif
