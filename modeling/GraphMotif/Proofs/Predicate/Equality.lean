import GraphMotif.Predicate.Condition
import GraphMotif.Predicate.Parse
import GraphMotif.Proofs.Predicate.Evaluation
import GraphMotif.Proofs.Value.Order

/-!
# Equal predicates

Equal predicates differ in their constants only, and there no more than a truth value differs from
the number that it is equal to. Comparisons and null tests do not see this difference. What stands
for a truth value has to be one though, so of two equal predicates one may have a mask while the
other fails: where a truth value is asked for, the one has a truth value and the other has a number.
-/

namespace GraphMotif

/-! ## Values of one normal form -/

namespace Value

variable {a a' b b' : Value}

theorem quantity?_congr (h : a.key = b.key) : a.quantity? = b.quantity? := by
  refine Option.ext fun q => ?_
  rw [← key_eq_number_iff, ← key_eq_number_iff, h]

theorem mixes_congr (h : a.key = a'.key) (h' : b.key = b'.key) : a.mixes b = a'.mixes b' := by
  rw [mixes, mixes, isNull_congr h, isNull_congr h', isText_congr h, isText_congr h']

/-- The order of two values depends only on normal forms. -/
theorem compare?_congr (h : a.key = a'.key) (h' : b.key = b'.key) :
    a.compare? b = a'.compare? b' := by
  have htexts {v w v' w' : Value} (hv : v.key = v'.key) (hw : w.key = w'.key)
      (htexts : ∃ s t, v = text s ∧ w = text t) : ∃ s t, (v = text s ∧ w = text t) ∧
        v' = text s ∧ w' = text t := by
    obtain ⟨s, t, rfl, rfl⟩ := htexts
    obtain ⟨s', rfl⟩ := isText_iff.1 ((isText_congr hv).symm.trans rfl)
    obtain ⟨t', rfl⟩ := isText_iff.1 ((isText_congr hw).symm.trans rfl)
    cases Key.text.inj hv
    cases Key.text.inj hw
    exact ⟨s, t, ⟨rfl, rfl⟩, rfl, rfl⟩
  rcases texts_or_compare?_eq a b with htext | ⟨hab, -⟩
  · obtain ⟨s, t, ⟨rfl, rfl⟩, rfl, rfl⟩ := htexts h h' htext
    rfl
  · rcases texts_or_compare?_eq a' b' with htext | ⟨hab', -⟩
    · obtain ⟨s, t, ⟨rfl, rfl⟩, rfl, rfl⟩ := htexts h.symm h'.symm htext
      rfl
    · rw [hab, hab', quantity?_congr h, quantity?_congr h']

theorem bool_inj {x y : Bool} (h : (bool x).key = (bool y).key) : x = y := by
  have hone : (2 ^ quantumBits : Int) ≠ 0 := Int.ne_of_gt (Int.pow_pos (by decide))
  have hquanta : (if x then (2 ^ quantumBits : Int) else 0) = if y then 2 ^ quantumBits else 0 :=
    Quantity.finite.inj (Key.number.inj h)
  generalize (2 ^ quantumBits : Int) = quanta at hone hquanta
  cases x <;> cases y
  · rfl
  · exact absurd hquanta.symm hone
  · exact absurd hquanta hone
  · rfl

/-- Truth values of one normal form are one truth value, and a null is unknown. -/
theorem ofValue_congr (h : a.key = b.key) (ha : a.isNull = true ∨ a.isBool = true)
    (hb : b.isNull = true ∨ b.isBool = true) : Truth.ofValue a = Truth.ofValue b := by
  have hnull {v : Value} (hv : v.isNull = true) : Truth.ofValue v = none := by
    cases v with
    | bool b => exact absurd hv nofun
    | _ => rfl
  by_cases hanull : a.isNull = true
  · rw [hnull hanull, hnull ((isNull_congr h).symm.trans hanull)]
  · have hbnull : ¬b.isNull = true := fun hbnull => hanull ((isNull_congr h).trans hbnull)
    cases a with
    | bool x =>
      cases b with
      | bool y => exact congrArg some (bool_inj h)
      | _ => exact absurd (hb.resolve_left hbnull) nofun
    | _ => exact absurd (ha.resolve_left hanull) nofun

end Value

theorem Comparison.holds?_congr (op : Comparison) {a a' b b' : Value} (h : a.key = a'.key)
    (h' : b.key = b'.key) : op.holds? a b = op.holds? a' b' := by
  cases op with
  | eq => exact congrArg some (Value.same_congr h h')
  | ne => exact congrArg (fun same => some (!same)) (Value.same_congr h h')
  | _ => simp only [holds?, Value.compare?_congr h h']

theorem Truth.isNull_or_isBool (a : Truth) : a.toValue.isNull = true ∨ a.toValue.isBool = true := by
  cases a with
  | none => exact .inl rfl
  | some b => exact .inr rfl

namespace Predicate

theorem compareStored_congr (op : Comparison) (kind kind' : ColumnKind) {a a' b b' : Value}
    (h : a.key = a'.key) (h' : b.key = b'.key) :
    compareStored op kind kind' a b = compareStored op kind kind' a' b' := by
  rw [compareStored, compareStored, Value.isNull_congr h, Value.isNull_congr h',
    op.holds?_congr (kind.key_align_congr kind' h) (kind'.key_align_congr kind h')]

/-! ## Predicates that differ in constants -/

/-- Two predicates are alike but for constants of one normal form. -/
inductive Alike : Predicate → Predicate → Prop where
  | column (name : String) : Alike (column name) (column name)
  | constant {v w : Value} (h : v.key = w.key) : Alike (constant v) (constant w)
  | compare (op : Comparison) {l l' r r' : Predicate} (hl : Alike l l') (hr : Alike r r') :
      Alike (compare op l r) (compare op l' r')
  | conj {l l' r r' : Predicate} (hl : Alike l l') (hr : Alike r r') : Alike (conj l r) (conj l' r')
  | disj {l l' r r' : Predicate} (hl : Alike l l') (hr : Alike r r') : Alike (disj l r) (disj l' r')
  | neg {p p' : Predicate} (h : Alike p p') : Alike (neg p) (neg p')
  | isNull {p p' : Predicate} (negated : Bool) (h : Alike p p') :
      Alike (isNull p negated) (isNull p' negated)

theorem key_eq_of_equalConstants {v w : Value} (h : equalConstants v w = true) : v.key = w.key := by
  unfold equalConstants at h
  split at h
  · rfl
  · exact (Value.same_iff.1 h).2.2

/-- Equal predicates are alike. -/
theorem alike_of_equal {p q : Predicate} (h : p.equal q = true) : Alike p q := by
  induction p generalizing q with
  | column name =>
    cases q with
    | column name' => exact beq_iff_eq.1 h ▸ .column name
    | _ => exact absurd h nofun
  | constant v =>
    cases q with
    | constant w => exact .constant (key_eq_of_equalConstants h)
    | _ => exact absurd h nofun
  | compare op l r ihl ihr =>
    cases q with
    | compare op' l' r' =>
      simp only [equal, Bool.and_eq_true, beq_iff_eq] at h
      obtain ⟨⟨rfl, hl⟩, hr⟩ := h
      exact .compare op (ihl hl) (ihr hr)
    | _ => exact absurd h nofun
  | conj l r ihl ihr =>
    cases q with
    | conj l' r' =>
      obtain ⟨hl, hr⟩ := Bool.and_eq_true_iff.1 h
      exact .conj (ihl hl) (ihr hr)
    | _ => exact absurd h nofun
  | disj l r ihl ihr =>
    cases q with
    | disj l' r' =>
      obtain ⟨hl, hr⟩ := Bool.and_eq_true_iff.1 h
      exact .disj (ihl hl) (ihr hr)
    | _ => exact absurd h nofun
  | neg p ih =>
    cases q with
    | neg p' => exact .neg (ih h)
    | _ => exact absurd h nofun
  | isNull p negated ih =>
    cases q with
    | isNull p' negated' =>
      obtain ⟨hnegated, hp⟩ := Bool.and_eq_true_iff.1 h
      exact beq_iff_eq.1 hnegated ▸ .isNull negated (ih hp)
    | _ => exact absurd h nofun

/-- A constant of a predicate stands for a truth value: a connective connects it, or it is the
predicate. -/
def StandsForTruth (p : Predicate) (v : Value) : Prop :=
  p = constant v ∨ ∃ q ∈ p.subterms, constant v ∈ q.connected

/-- The constants of a predicate that stand for truth values are truth values or nulls. -/
def HoldsTruths (p : Predicate) : Prop :=
  ∀ v, p.StandsForTruth v → v.isNull = true ∨ v.isBool = true

section Table

variable {ν : Type} [DecidableEq ν] [ColumnName ν] {t : Table ν} {p q l l' r r' : Predicate}

theorem isBoolean_constant_iff {v : Value} :
    (constant v).IsBoolean t ↔ t.rows = [] ∨ v.isNull = true ∨ v.isBool = true := by
  constructor
  · rintro (hkind | hvalues)
    · exact absurd hkind nofun
    · cases hrows : t.rows with
      | nil => exact .inl rfl
      | cons row rows => exact .inr (hvalues row (hrows ▸ List.mem_cons_self))
  · rintro (hrows | hv)
    · refine .inr fun row hrow => absurd hrow ?_
      rw [hrows]
      exact List.not_mem_nil
    · exact .inr fun _ _ => hv

/-- The constants that the connectives of a predicate connect stand for truth values. -/
def ConnectsTruths (t : Table ν) (p : Predicate) : Prop :=
  ∀ q ∈ p.subterms, ∀ v, constant v ∈ q.connected → (constant v).IsBoolean t

namespace ConnectsTruths

theorem connected (h : ConnectsTruths t p) (v : Value) (hv : constant v ∈ p.connected) :
    (constant v).IsBoolean t :=
  h p (mem_subterms_iff.2 (.inl rfl)) v hv

theorem operand (h : ConnectsTruths t p) (hq : q ∈ p.operands) : ConnectsTruths t q :=
  fun s hs => h s (mem_subterms_iff.2 (.inr ⟨q, hq, hs⟩))

end ConnectsTruths

namespace Alike

theorem symm (h : Alike p q) : Alike q p := by
  induction h with
  | column name => exact .column name
  | constant h => exact .constant h.symm
  | compare op _ _ ihl ihr => exact .compare op ihl ihr
  | conj _ _ ihl ihr => exact .conj ihl ihr
  | disj _ _ ihl ihr => exact .disj ihl ihr
  | neg _ ih => exact .neg ih
  | isNull negated _ ih => exact .isNull negated ih

theorem storage_eq (h : Alike p q) (t : Table ν) : p.storage t = q.storage t := by
  cases h <;> rfl

/-- Two operands have values of one normal form on every row. -/
def KeysEq (t : Table ν) (p q : Predicate) : Prop :=
  ∀ row ∈ t.rows, (p.valueAt t row).key = (q.valueAt t row).key

/-- What an operator computes is a truth value or unknown. -/
theorem isBoolean_of_storage (hkind : p.storage t = .bool) (hcolumn : ∀ name, p ≠ .column name)
    (row : Row) : (p.valueAt t row).isNull = true ∨ (p.valueAt t row).isBool = true := by
  cases p with
  | column name => exact absurd rfl (hcolumn name)
  | constant v => exact absurd hkind nofun
  | isNull p negated => exact .inr rfl
  | _ => exact Truth.isNull_or_isBool _

/-- Where two operands that are alike stand for truth values, these are the same. -/
theorem truths_eq (h : Alike p q) (hkeys : KeysEq t p q) (hp : p.IsBoolean t)
    (hq : ∀ v, q = Predicate.constant v → (Predicate.constant v).IsBoolean t) :
    q.IsBoolean t ∧ ∀ row ∈ t.rows,
      Truth.ofValue (p.valueAt t row) = Truth.ofValue (q.valueAt t row) := by
  cases h with
  | column name => exact ⟨hp, fun _ _ => rfl⟩
  | constant h =>
    have hq := hq _ rfl
    refine ⟨hq, fun row hrow => ?_⟩
    have hne : t.rows ≠ [] := List.ne_nil_of_mem hrow
    exact Value.ofValue_congr h ((isBoolean_constant_iff.1 hp).resolve_left hne)
      ((isBoolean_constant_iff.1 hq).resolve_left hne)
  | _ =>
    refine ⟨.inl rfl, fun row hrow => Value.ofValue_congr (hkeys row hrow) ?_ ?_⟩
    · exact isBoolean_of_storage rfl (by rintro _ ⟨⟩) row
    · exact isBoolean_of_storage rfl (by rintro _ ⟨⟩) row

/-- The operands of two connectives that are alike stand for the same truth values. -/
theorem connected_truths (hl : Alike l l') (hr : Alike r r')
    (hlkeys : KeysEq t l l') (hrkeys : KeysEq t r r') (hlp : l.IsBoolean t) (hrp : r.IsBoolean t)
    (hq : ∀ v, Predicate.constant v ∈ [l', r'] → (Predicate.constant v).IsBoolean t) :
    l'.IsBoolean t ∧ r'.IsBoolean t ∧ ∀ row ∈ t.rows,
      Truth.ofValue (l.valueAt t row) = Truth.ofValue (l'.valueAt t row) ∧
        Truth.ofValue (r.valueAt t row) = Truth.ofValue (r'.valueAt t row) := by
  obtain ⟨hl', hltruths⟩ := hl.truths_eq hlkeys hlp fun v heq => hq v (heq ▸ List.mem_cons_self)
  obtain ⟨hr', hrtruths⟩ := hr.truths_eq hrkeys hrp fun v heq => hq v (heq ▸ by simp)
  exact ⟨hl', hr', fun row hrow => ⟨hltruths row hrow, hrtruths row hrow⟩⟩

/-- What a predicate can be computed over, a predicate alike can, if the constants that its
connectives connect are truth values there; and the values of both are of one normal form. -/
theorem computable (h : Alike p q) (hp : p.Computable t) (hq : ConnectsTruths t q) :
    q.Computable t ∧ KeysEq t p q := by
  induction h with
  | column name => exact ⟨hp, fun _ _ => rfl⟩
  | constant h => exact ⟨computable_constant _, fun _ _ => h⟩
  | @compare op l l' r r' hl hr ihl ihr =>
    obtain ⟨hpl, hpr, hordered⟩ := computable_compare_iff.1 hp
    obtain ⟨hl', hlkeys⟩ := ihl hpl (hq.operand (by simp [operands]))
    obtain ⟨hr', hrkeys⟩ := ihr hpr (hq.operand (by simp [operands]))
    refine ⟨computable_compare_iff.2 ⟨hl', hr', fun hop row hrow => ?_⟩, fun row hrow => ?_⟩
    · rw [← Value.mixes_congr (hlkeys row hrow) (hrkeys row hrow)]
      exact hordered hop row hrow
    · rw [valueAt, valueAt, hl.storage_eq, hr.storage_eq,
        compareStored_congr op _ _ (hlkeys row hrow) (hrkeys row hrow)]
  | @conj l l' r r' hl hr ihl ihr =>
    obtain ⟨hpl, hlp, hpr, hrp⟩ := computable_conj_iff.1 hp
    obtain ⟨hl', hlkeys⟩ := ihl hpl (hq.operand (by simp [operands]))
    obtain ⟨hr', hrkeys⟩ := ihr hpr (hq.operand (by simp [operands]))
    obtain ⟨hlq, hrq, htruths⟩ := connected_truths hl hr hlkeys hrkeys hlp hrp hq.connected
    refine ⟨computable_conj_iff.2 ⟨hl', hlq, hr', hrq⟩, fun row hrow => ?_⟩
    rw [valueAt, valueAt, (htruths row hrow).1, (htruths row hrow).2]
  | @disj l l' r r' hl hr ihl ihr =>
    obtain ⟨hpl, hlp, hpr, hrp⟩ := computable_disj_iff.1 hp
    obtain ⟨hl', hlkeys⟩ := ihl hpl (hq.operand (by simp [operands]))
    obtain ⟨hr', hrkeys⟩ := ihr hpr (hq.operand (by simp [operands]))
    obtain ⟨hlq, hrq, htruths⟩ := connected_truths hl hr hlkeys hrkeys hlp hrp hq.connected
    refine ⟨computable_disj_iff.2 ⟨hl', hlq, hr', hrq⟩, fun row hrow => ?_⟩
    rw [valueAt, valueAt, (htruths row hrow).1, (htruths row hrow).2]
  | @neg p p' h ih =>
    obtain ⟨hpp, hboolean⟩ := computable_neg_iff.1 hp
    obtain ⟨hp', hkeys⟩ := ih hpp (hq.operand (by simp [operands]))
    obtain ⟨hboolean', htruths⟩ := h.truths_eq hkeys hboolean
      fun v heq => hq.connected v (heq ▸ List.mem_singleton_self p')
    refine ⟨computable_neg_iff.2 ⟨hp', hboolean'⟩, fun row hrow => ?_⟩
    rw [valueAt, valueAt, htruths row hrow]
  | @isNull p p' negated h ih =>
    obtain ⟨hp', hkeys⟩ := ih (computable_isNull_iff.1 hp) (hq.operand (by simp [operands]))
    refine ⟨computable_isNull_iff.2 hp', fun row hrow => ?_⟩
    rw [valueAt, valueAt, Value.isNull_congr (hkeys row hrow)]

/-- Where a predicate can be evaluated, a predicate alike can be exactly if its constants that stand
for truth values are such, as long as there is a row; and it is true on the same rows. -/
theorem evaluable (h : Alike p q) (hp : p.Evaluable t) (hq : t.rows = [] ∨ q.HoldsTruths) :
    q.Evaluable t ∧ t.rows.map (q.trueAt t) = t.rows.map (p.trueAt t) := by
  have htruth (v : Value) (hv : q.StandsForTruth v) : (Predicate.constant v).IsBoolean t :=
    isBoolean_constant_iff.2 (hq.imp_right fun hq => hq v hv)
  obtain ⟨hcomputable, hkeys⟩ := h.computable hp.toComputable fun s hs v hv =>
    htruth v (.inr ⟨s, hs, hv⟩)
  obtain ⟨hboolean, htruths⟩ := h.truths_eq hkeys hp.boolean fun v heq => htruth v (.inl heq)
  refine ⟨⟨hcomputable, hboolean⟩, List.map_congr_left fun row hrow => ?_⟩
  rw [trueAt, trueAt, htruths row hrow]

end Alike

/-- Over a table with rows, a predicate can be evaluated only if its constants that stand for truth
values are such. -/
theorem Evaluable.holdsTruths (h : p.Evaluable t) (hrows : t.rows ≠ []) : p.HoldsTruths := by
  intro v hv
  have hboolean : (constant v).IsBoolean t := by
    rcases hv with rfl | ⟨q, hq, hv⟩
    · exact h.boolean
    · exact h.connected q hq _ hv
  exact (isBoolean_constant_iff.1 hboolean).resolve_left hrows

end Table

/-- The ages of three persons, one of them unknown. -/
def knownAges : Table String where
  headings := [⟨"age", .float⟩]
  rows := [[.float (.ofInt 31)], [.null], [.float (.ofInt 17)]]
  rectangular := by simp

/-- Those are old enough whose age is some number at least. -/
def oldEnough (age : Value) : Predicate :=
  conj (compare .ge (column "age") (constant age)) (neg (constant (.bool false)))

theorem holdsTruths_oldEnough (age : Value) : (oldEnough age).HoldsTruths := by
  intro v hv
  obtain rfl : v = .bool false := by
    simpa [oldEnough, StandsForTruth, subterms, connected] using hv
  exact .inr rfl

end Predicate

end GraphMotif
