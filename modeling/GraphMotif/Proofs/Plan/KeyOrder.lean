import GraphMotif.Proofs.Plan.Refinement
import GraphMotif.Proofs.Value.Rounding
import Mathlib.Algebra.Group.Int.Defs

/-!
# The order of the equalities of a join

Which equalities of a join are its keys depends on the order in which they are listed. A key compares
its columns as they are stored. What is checked after the match finds the left column of a key as
the match has left it, and if that is mixed, then cells meet by value. So the order shows only where
rows agree in the one way and not in the other (`Table.Steady`); otherwise a match finds the right
rows that agree in all equalities, whichever of them are keys (`rowsFor_of_steady`). The order also
decides which columns are matched as keys, and so whether numbers are matched with texts, and where
the columns of an equality are looked up: a key finds its left column in the left table only, what is
checked after the match finds it in the joined rows (`Table.SidesApart`).
-/

namespace GraphMotif

namespace Meeting

/-- Whether two cells agree by value, however their columns are stored. -/
def agreesByValue (m : Meeting) (left right : Row) : Bool :=
  let a := left.cell m.left
  let b := right.cell m.right
  a.same b || (m.nullSafe && a.isNull && b.isNull)

theorem agrees_mixed (m : Meeting) (l r : Row) :
    Meeting.agrees { m with leftKind := .mixed } l r = m.agreesByValue l r := by
  have hsame := ColumnKind.mixed_equal m.rightKind (l.cell m.left) (r.cell m.right)
  rw [ColumnKind.equal] at hsame
  simp only [agrees, leftValue, rightValue, ColumnKind.isNull_align, hsame, agreesByValue]

/-- A match leaves its left column as it was or makes it mixed. -/
theorem joinedKind_cases (m : Meeting) : m.joinedKind = m.leftKind ∨ m.joinedKind = .mixed := by
  unfold joinedKind
  split
  · exact .inl rfl
  · exact .inr rfl

end Meeting

/-! ## Columns that are there -/

section Columns

variable {left right : Table Label} {e : Equality} {es es' : List Equality} {m : Meeting}

/-- The meetings that equalities describe between two tables, of those that name columns of both. -/
def Table.meetings (left right : Table Label) (es : List Equality) : List Meeting :=
  es.filterMap fun e => (e.meeting left right).toOption

/-- An equality describes a meeting of the columns that it names, stored as the tables store them,
unless one of them is not there. -/
theorem Equality.meeting_cases (left right : Table Label) (e : Equality) :
    (∃ m, e.meeting left right = .ok m ∧ m.leftKind = (left.columnAt m.left).kind) ∨
      ∃ a, e.meeting left right = .error (.unknownColumn a) := by
  rw [Equality.meeting, Table.plainColumn, Table.plainColumn]
  cases left.position? (.plain e.left) with
  | none => exact .inr ⟨_, rfl⟩
  | some i =>
    cases right.position? (.plain e.right) with
    | none => exact .inr ⟨_, rfl⟩
    | some j => exact .inl ⟨_, rfl, rfl⟩

theorem Equality.leftKind_of_meeting (h : e.meeting left right = .ok m) :
    m.leftKind = (left.columnAt m.left).kind := by
  obtain ⟨m', hm', hkind⟩ | ⟨a, ha⟩ := e.meeting_cases left right
  · obtain rfl := Except.ok.inj (h.symm.trans hm')
    exact hkind
  · rw [h] at ha
    exact absurd ha nofun

/-- Columns are looked up until one is not there. -/
theorem mapM_cases {f : Equality → Except EvalError Meeting} (es : List Equality)
    (h : ∀ e ∈ es, (∃ m, f e = .ok m) ∨ ∃ a, f e = .error (.unknownColumn a)) :
    ((∃ ms, es.mapM f = .ok ms) ∧ ∀ e ∈ es, ∃ m, f e = .ok m) ∨
      ∃ a, es.mapM f = .error (.unknownColumn a) := by
  induction es with
  | nil => exact .inl ⟨⟨[], rfl⟩, fun _ he => absurd he List.not_mem_nil⟩
  | cons e es ih =>
    obtain ⟨he, hes⟩ := List.forall_mem_cons.1 h
    rw [List.mapM_cons]
    obtain ⟨m, hm⟩ | ⟨a, ha⟩ := he
    · rw [hm]
      obtain ⟨⟨ms, hms⟩, hall⟩ | ⟨a, ha⟩ := ih hes
      · exact .inl ⟨⟨m :: ms, by rw [hms]; rfl⟩, List.forall_mem_cons.2 ⟨⟨m, hm⟩, hall⟩⟩
      · exact .inr ⟨a, by rw [ha]; rfl⟩
    · exact .inr ⟨a, by rw [ha]; rfl⟩

/-- No equality names a column of the right table on its left or one of the left table on its
right. -/
def Table.SidesApart (left right : Table Label) (es : List Equality) : Prop :=
  ∀ e ∈ es, .plain e.left ∉ right.names ∧ .plain e.right ∉ left.names

instance (left right : Table Label) (es : List Equality) : Decidable (left.SidesApart right es) :=
  inferInstanceAs <| Decidable <|
    ∀ e ∈ es, Label.plain e.left ∉ right.names ∧ Label.plain e.right ∉ left.names

theorem Table.plainColumn_eq_error {t : Table Label} {name : String} (h : .plain name ∉ t.names) :
    t.plainColumn name = .error (.unknownColumn name) := by
  rw [plainColumn, t.position?_eq_none h]

/-- A column that is not in the table of its side is not in the rows of a match, either. -/
theorem Matching.meetingWithin_eq_error (keys : List Meeting) {a : String}
    (hleft : .plain e.left ∉ right.names) (hright : .plain e.right ∉ left.names)
    (h : e.meeting left right = .error (.unknownColumn a)) :
    ∃ a, meetingWithin keys left right e = .error (.unknownColumn a) := by
  have hleft := Table.plainColumn_eq_error hleft
  have hright := Table.plainColumn_eq_error hright
  rw [Equality.meeting] at h
  cases hi : left.plainColumn e.left with
  | error b =>
    refine ⟨e.left, ?_⟩
    simp only [meetingWithin, leftColumn, rightColumn, hi, hleft, Except.map]
    rfl
  | ok i =>
    cases hj : right.plainColumn e.right with
    | error b =>
      refine ⟨e.right, ?_⟩
      simp only [meetingWithin, leftColumn, rightColumn, hi, hj, hright, Except.map]
      rfl
    | ok j =>
      rw [hi, hj] at h
      cases h

/-- A match on a column that is not there fails. -/
theorem Matching.ofEqualities_of_unknown (hapart : left.SidesApart right es)
    (h : ¬∀ e ∈ es, ∃ m, e.meeting left right = .ok m) :
    (∃ a, ofEqualities left right es = .error (.unknownColumn a)) ∨
      ∃ a b, ofEqualities left right es = .error (.incomparableKeys a b) := by
  have hmeeting : ∀ e : Equality, (∃ m, e.meeting left right = .ok m) ∨
      ∃ a, e.meeting left right = .error (.unknownColumn a) := fun e =>
    (e.meeting_cases left right).imp_left fun ⟨m, hm, _⟩ => ⟨m, hm⟩
  obtain ⟨⟨keys, hkeys⟩, hall⟩ | ⟨a, ha⟩ :=
    mapM_cases (splitEqualities [] [] es).1 fun e _ => hmeeting e
  · have hwithin : ∀ e ∈ (splitEqualities [] [] es).2,
        (∃ m, e.meeting left right = .ok m) ∧
            (∃ m, meetingWithin (metKeys keys left right) left right e = .ok m) ∨
          ∃ a, meetingWithin (metKeys keys left right) left right e =
            .error (.unknownColumn a) := fun e he => by
      obtain ⟨m, hm⟩ | ⟨a, ha⟩ := hmeeting e
      · exact .inl ⟨⟨m, hm⟩, _, meetingWithin_eq _ hm⟩
      · obtain ⟨hleft, hright⟩ := hapart e (mem_of_mem_otherEqualities he)
        exact .inr (meetingWithin_eq_error _ hleft hright ha)
    obtain ⟨-, hall'⟩ | ⟨a, ha⟩ := mapM_cases (splitEqualities [] [] es).2 fun e he =>
      (hwithin e he).imp_left And.right
    · -- all columns are there
      refine absurd (fun e he => ?_) h
      rw [← (splitEqualities_perm [] [] es).mem_iff, List.mem_append] at he
      refine he.elim (hall e) fun he => (hwithin e he).elim And.left ?_
      rintro ⟨a, ha⟩
      obtain ⟨m, hm⟩ := hall' e he
      rw [hm] at ha
      cases ha
    · unfold ofEqualities
      simp only [hkeys, ha, bind, Except.bind]
      split
      · exact .inr ⟨_, _, rfl⟩
      · exact .inl ⟨a, rfl⟩
  · refine .inl ⟨a, ?_⟩
    unfold ofEqualities
    simp only [ha, bind, Except.bind]

theorem Table.meetings_eq_map {g : Equality → Meeting}
    (hg : ∀ e ∈ es, e.meeting left right = .ok (g e)) : left.meetings right es = es.map g := by
  rw [meetings, ← List.filterMap_eq_map]
  exact List.filterMap_congr fun e he => by rw [hg e he]; rfl

theorem Table.meetings_perm (h : es.Perm es') :
    (left.meetings right es).Perm (left.meetings right es') := h.filterMap _

end Columns

/-! ## The rows of a match in any order -/

/-- Two rows that agree in all equalities, as the columns are stored or by value, do so in both ways
in every equality whose left column some equality makes mixed. -/
def Table.Steady (left right : Table Label) (es : List Equality) : Prop :=
  ∀ l ∈ left.rows, ∀ r ∈ right.rows,
    (∀ m ∈ left.meetings right es, m.agrees l r = true ∨ m.agreesByValue l r = true) →
      ∀ m ∈ left.meetings right es, ∀ k ∈ left.meetings right es,
        k.left = m.left → k.joinedKind = .mixed → m.agrees l r = m.agreesByValue l r

instance (left right : Table Label) (es : List Equality) : Decidable (left.Steady right es) :=
  inferInstanceAs <| Decidable <| ∀ l ∈ left.rows, ∀ r ∈ right.rows,
    (∀ m ∈ left.meetings right es, m.agrees l r = true ∨ m.agreesByValue l r = true) →
      ∀ m ∈ left.meetings right es, ∀ k ∈ left.meetings right es,
        k.left = m.left → k.joinedKind = .mixed → m.agrees l r = m.agreesByValue l r

namespace Matching

variable {left right : Table Label} {es es' : List Equality}

/-- After a match, a left column is as it was, or mixed if the match of some key makes it so. -/
theorem after_cases (keys : List Meeting) (m : Meeting)
    (h : ∀ k ∈ keys, k.left = m.left → k.leftKind = m.leftKind) :
    m.after keys = m ∨
      (∃ k ∈ keys, k.left = m.left ∧ k.joinedKind = .mixed) ∧
        m.after keys = { m with leftKind := .mixed } := by
  cases hfind : keys.find? (·.left = m.left) with
  | none => exact .inl (by rw [Meeting.after, kindAfter, hfind]; rfl)
  | some k =>
    have hk := List.mem_of_find?_eq_some hfind
    have hleft : k.left = m.left := by simpa using List.find?_some hfind
    have hafter : m.after keys = { m with leftKind := k.joinedKind } := by
      rw [Meeting.after, kindAfter, hfind]
      rfl
    obtain hkind | hkind := k.joinedKind_cases
    · exact .inl (by rw [hafter, hkind, h k hk hleft])
    · exact .inr ⟨⟨k, hk, hleft, hkind⟩, by rw [hafter, hkind]⟩

/-- An equality that is checked afterwards finds the left column of a key as the key left it. -/
theorem after_keyEqualities_cases {g : Equality → Meeting} {e : Equality}
    (hg : ∀ e ∈ es, e.meeting left right = .ok (g e)) (he : e ∈ otherEqualities es) :
    (g e).after ((keyEqualities es).map g) = g e ∨
      (∃ k ∈ es.map g, k.left = (g e).left ∧ k.joinedKind = .mixed) ∧
        (g e).after ((keyEqualities es).map g) = { g e with leftKind := .mixed } := by
  refine (after_cases _ _ ?_).imp_right fun ⟨⟨k, hk, hmixed⟩, heq⟩ => ⟨⟨k, ?_, hmixed⟩, heq⟩
  · intro k hk hleft
    obtain ⟨e', he', rfl⟩ := List.mem_map.1 hk
    rw [Equality.leftKind_of_meeting (hg e' (mem_of_mem_keyEqualities he')), hleft,
      Equality.leftKind_of_meeting (hg e (mem_of_mem_otherEqualities he))]
  · obtain ⟨e', he', rfl⟩ := List.mem_map.1 hk
    exact List.mem_map_of_mem (mem_of_mem_keyEqualities he')

/-- Where the order does not show, a left row matches the right rows that agree with it in all
equalities. -/
theorem rowsFor_of_steady {g : Equality → Meeting} (hg : ∀ e ∈ es, e.meeting left right = .ok (g e))
    (hsteady : left.Steady right es) {l : Row} (hl : l ∈ left.rows) :
    (byMeetings left right es g).rowsFor l =
      right.rows.filter fun r => (left.meetings right es).all (·.agrees l r) := by
  rw [rowsFor_byMeetings hg hl]
  refine List.filter_congr fun r hr => ?_
  have hsteady := hsteady l hl r hr
  rw [Table.meetings_eq_map hg] at hsteady ⊢
  rw [Bool.eq_iff_iff, Bool.and_eq_true]
  constructor
  · rintro ⟨hkeys, hothers⟩
    rw [List.all_eq_true] at hkeys hothers
    have hways : ∀ e ∈ es, (g e).agrees l r = true ∨ (g e).agreesByValue l r = true ∧
        ∃ k ∈ es.map g, k.left = (g e).left ∧ k.joinedKind = .mixed := by
      intro e he
      rw [← (splitEqualities_perm [] [] es).mem_iff, List.mem_append] at he
      obtain he | he := he
      · exact .inl (hkeys e he)
      · have hagrees := hothers e he
        obtain heq | ⟨hmixed, heq⟩ := after_keyEqualities_cases hg he
        · exact .inl (heq ▸ hagrees)
        · rw [heq, Meeting.agrees_mixed] at hagrees
          exact .inr ⟨hagrees, hmixed⟩
    refine List.all_eq_true.2 (List.forall_mem_map.2 fun e he => ?_)
    obtain hagrees | ⟨hvalue, k, hk, hleft, hmixed⟩ := hways e he
    · exact hagrees
    · rw [hsteady (List.forall_mem_map.2 fun e he => (hways e he).imp_right (·.1)) (g e)
        (List.mem_map_of_mem he) k hk hleft hmixed]
      exact hvalue
  · intro hall
    rw [List.all_eq_true] at hall
    refine ⟨List.all_eq_true.2 fun e he => ?_, List.all_eq_true.2 fun e he => ?_⟩
    · exact hall _ (List.mem_map_of_mem (mem_of_mem_keyEqualities he))
    · have hmem := List.mem_map_of_mem (f := g) (mem_of_mem_otherEqualities he)
      obtain heq | ⟨⟨k, hk, hleft, hmixed⟩, heq⟩ := after_keyEqualities_cases hg he
      · rw [heq]
        exact hall _ hmem
      · rw [heq, Meeting.agrees_mixed, ← hsteady (fun m hm => .inl (hall m hm)) (g e) hmem k hk hleft
          hmixed]
        exact hall _ hmem

/-- A match by equalities fails for keys that cannot be compared or for a column that is not there,
or it finds the right rows that agree in all equalities. -/
theorem ofEqualities_cases (hapart : left.SidesApart right es) (hsteady : left.Steady right es) :
    (∃ a b, ofEqualities left right es = .error (.incomparableKeys a b)) ∨
      (¬(∀ e ∈ es, ∃ m, e.meeting left right = .ok m) ∧
        ∃ a, ofEqualities left right es = .error (.unknownColumn a)) ∨
      (∀ e ∈ es, ∃ m, e.meeting left right = .ok m) ∧
        ∃ m, ofEqualities left right es = .ok m ∧ ∀ l ∈ left.rows, m.rowsFor l =
          right.rows.filter fun r => (left.meetings right es).all (·.agrees l r) := by
  by_cases hknown : ∀ e ∈ es, ∃ m, e.meeting left right = .ok m
  · let g (e : Equality) : Meeting := (e.meeting left right).toOption.getD ⟨0, .mixed, 0, .mixed, false⟩
    have hg : ∀ e ∈ es, e.meeting left right = .ok (g e) := fun e he => by
      obtain ⟨m, hm⟩ := hknown e he
      simp only [g, hm, Except.toOption, Option.getD_some]
    obtain ⟨-, herror⟩ | ⟨-, hok⟩ := ofEqualities_eq_of_meeting hg
    · exact .inl herror
    · exact .inr (.inr ⟨hknown, _, hok, fun l hl => rowsFor_of_steady hg hsteady hl⟩)
  · obtain hunknown | hclash := ofEqualities_of_unknown hapart hknown
    · exact .inr (.inl ⟨hknown, hunknown⟩)
    · exact .inl hclash

end Matching

/-- An evaluation stops because numbers would have to be matched with texts. -/
def StopsAtKeys (x : Except EvalError (Table Label)) : Prop :=
  ∃ a b, x = .error (.incomparableKeys a b)

/-- Two evaluations fail in the same way, both for a column that is not there or with one error, or
they give the same columns and the same rows, each as often. -/
def Alike (x y : Except EvalError (Table Label)) : Prop :=
  (∃ a b, x = .error (.unknownColumn a) ∧ y = .error (.unknownColumn b)) ∨
    (∃ e, x = .error e ∧ y = .error e) ∨
    ∃ t t', x = .ok t ∧ y = .ok t' ∧ t'.names = t.names ∧ t'.rows.Perm t.rows

namespace Table

variable {left right : Table Label} {es es' : List Equality}

theorem Steady.of_perm (h : left.Steady right es) (hperm : es.Perm es') :
    left.Steady right es' := by
  have hmem : ∀ m, m ∈ left.meetings right es' ↔ m ∈ left.meetings right es := fun m =>
    (meetings_perm hperm).symm.mem_iff
  intro l hl r hr hways m hm k hk
  exact h l hl r hr (fun m hm => hways m ((hmem m).2 hm)) m ((hmem m).1 hm) k ((hmem k).1 hk)

/-- What is made of a match comes out alike in any order, if it is made of the rows that match. -/
theorem alike_of_perm (hperm : es.Perm es') (hapart : left.SidesApart right es)
    (hsteady : left.Steady right es) {f : Matching right → Table Label}
    (hf : ∀ m m', (∀ l ∈ left.rows, m'.rowsFor l = m.rowsFor l) →
      (f m').names = (f m).names ∧ (f m').rows.Perm (f m).rows) :
    StopsAtKeys ((Matching.ofEqualities left right es).map f) ∨
      StopsAtKeys ((Matching.ofEqualities left right es').map f) ∨
        Alike ((Matching.ofEqualities left right es).map f)
          ((Matching.ofEqualities left right es').map f) := by
  have hknown : (∀ e ∈ es', ∃ m, e.meeting left right = .ok m) ↔
      ∀ e ∈ es, ∃ m, e.meeting left right = .ok m :=
    forall_congr' fun e => by rw [hperm.mem_iff]
  have hapart' : left.SidesApart right es' := fun e he => hapart e (hperm.mem_iff.2 he)
  obtain ⟨a, b, h⟩ | ⟨hun, a, h⟩ | ⟨hall, m, h, hrows⟩ := Matching.ofEqualities_cases hapart hsteady
  · exact .inl ⟨a, b, by rw [h]; rfl⟩
  · obtain ⟨a', b', h'⟩ | ⟨-, a', h'⟩ | ⟨hall', -⟩ :=
      Matching.ofEqualities_cases hapart' (hsteady.of_perm hperm)
    · exact .inr (.inl ⟨a', b', by rw [h']; rfl⟩)
    · exact .inr (.inr (.inl ⟨a, a', by rw [h]; rfl, by rw [h']; rfl⟩))
    · exact absurd (hknown.1 hall') hun
  · obtain ⟨a', b', h'⟩ | ⟨hun', -⟩ | ⟨-, m', h', hrows'⟩ :=
      Matching.ofEqualities_cases hapart' (hsteady.of_perm hperm)
    · exact .inr (.inl ⟨a', b', by rw [h']; rfl⟩)
    · exact absurd (hknown.2 hall) hun'
    · obtain ⟨hnames, hperm'⟩ := hf m m' fun l hl => by
        rw [hrows l hl, hrows' l hl]
        exact List.filter_congr fun r _ => (meetings_perm hperm).symm.all_eq
      exact .inr (.inr (.inr (.inr ⟨f m, f m', by rw [h]; rfl, by rw [h']; rfl, hnames, hperm'⟩)))

/-- Two tables are joined alike by equalities in any order. -/
theorem join_perm (hperm : es.Perm es') (hapart : left.SidesApart right es)
    (hsteady : left.Steady right es) :
    StopsAtKeys (left.join right es) ∨ StopsAtKeys (left.join right es') ∨
      Alike (left.join right es) (left.join right es') := by
  rw [join, join, hperm.isEmpty_eq]
  split
  · exact .inr (.inr (.inr (.inr ⟨_, _, rfl, rfl, rfl, .refl _⟩)))
  · refine alike_of_perm hperm hapart hsteady fun m m' h => ⟨?_, ?_⟩
    · simp only [names, Matching.leftHeadings, List.map_append, names_joinedHeadings]
    · exact .of_eq (List.flatMap_congr fun l hl => by rw [h l hl])

/-- An anti-join leaves the same rows by equalities in any order. -/
theorem antiJoin_perm (hperm : es.Perm es') (hapart : left.SidesApart right es)
    (hsteady : left.Steady right es) :
    StopsAtKeys (left.antiJoin right es) ∨ StopsAtKeys (left.antiJoin right es') ∨
      Alike (left.antiJoin right es) (left.antiJoin right es') := by
  rw [antiJoin, antiJoin, hperm.isEmpty_eq]
  split
  · exact .inr (.inr (.inr (.inr ⟨_, _, rfl, rfl, rfl, .refl _⟩)))
  · refine alike_of_perm hperm hapart hsteady fun m m' h => ⟨rfl, ?_⟩
    exact .of_eq (List.filter_congr fun l hl => by rw [h l hl])

end Table

namespace Plan

/-- Two vertices and two edges whose starts are stored as binary64 numbers. The second edge starts
at a number next to the second identity, and its end is a text. -/
def spreadRelations : Relations where
  vertices := .ofColumns [(idColumn, { kind := .int, cells := [.int 1, .int (2 ^ 53 + 1)] })]
  edges := .ofColumns
    [(srcColumn, { kind := .float, cells := [.float (.ofInt 1), .float (.ofInt (2 ^ 53))] }),
     (dstColumn, { kind := .mixed, cells := [.int 1, .text "x"] })]

/-- The vertices. -/
def vertexScan : Plan := .scan .vertex "v" [idColumn]

/-- The edges. -/
def edgeScan : Plan := .scan .edge "e" [srcColumn, dstColumn]

/-- A vertex is the start of an edge. -/
def atStart : Equality := { left := qualified "v" idColumn, right := qualified "e" srcColumn }

/-- A vertex is the end of an edge. -/
def atEnd : Equality := { left := qualified "v" idColumn, right := qualified "e" dstColumn }

theorem apart_and_steady_spreadRelations (lt rt : Table Label)
    (hl : vertexScan.eval spreadRelations = .ok lt) (hr : edgeScan.eval spreadRelations = .ok rt) :
    lt.SidesApart rt [atStart, atEnd] ∧ lt.Steady rt [atStart, atEnd] := by
  have hall : ((vertexScan.eval spreadRelations).toOption.all fun lt =>
      (edgeScan.eval spreadRelations).toOption.all fun rt =>
        decide (lt.SidesApart rt [atStart, atEnd] ∧ lt.Steady rt [atStart, atEnd])) = true := by
    decide +kernel
  rw [hl, hr] at hall
  exact of_decide_eq_true hall

theorem perm_atStart_atEnd : [atStart, atEnd].Perm [atEnd, atStart] := .swap ..

/-- How many rows a plan gives, if it is evaluated. -/
def rowCount (r : Relations) (p : Plan) : Option Nat := (p.eval r).toOption.map (·.rows.length)

/-- An identity, an edge that starts at the binary64 number next to it and ends at it; the end is
stored in a mixed column. -/
def nearRelations : Relations where
  vertices := .ofColumns [(idColumn, { kind := .int, cells := [.int (2 ^ 53 + 1)] })]
  edges := .ofColumns
    [(srcColumn, { kind := .float, cells := [.float (.ofInt (2 ^ 53))] }),
     (dstColumn, { kind := .mixed, cells := [.int (2 ^ 53 + 1)] })]

/-- An identity and an edge that starts at it and ends at a text. -/
def textRelations : Relations where
  vertices := .ofColumns [(idColumn, { kind := .int, cells := [.int 1] })]
  edges := .ofColumns
    [(srcColumn, { kind := .int, cells := [.int 1] }),
     (dstColumn, { kind := .mixed, cells := [.text "x"] })]

/-- An identity and an edge that starts and ends at it. -/
def loopRelations : Relations where
  vertices := .ofColumns [(idColumn, { kind := .int, cells := [.int 1] })]
  edges := .ofColumns
    [(srcColumn, { kind := .int, cells := [.int 1] }),
     (dstColumn, { kind := .int, cells := [.int 1] })]

/-- The end of an edge is its start. Between the vertices and the edges, the left column is not a
column of the left table. -/
def endAtStart : Equality := { left := qualified "e" dstColumn, right := qualified "e" srcColumn }

end Plan

end GraphMotif
