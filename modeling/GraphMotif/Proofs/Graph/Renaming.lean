import GraphMotif.Graph.Find
import GraphMotif.Proofs.Plan.Renaming

/-!
# Results under other names

Whatever the names of a pattern are, they only appear in the result: under other names, be they like
the columns of a plan or empty, the same plan is evaluated, and its result has the same rows under
the other names.
-/

namespace GraphMotif

/-- The label of the same attribute of an element with another name. -/
def Label.rename (f : String → String) : Label → Label
  | .plain name => .plain name
  | .bundled element attributeName => .bundled (f element) attributeName

/-- The result with other names for its elements. -/
def Table.relabel (f : String → String) (t : Table Label) : Table Label where
  headings := t.headings.map fun h => { h with name := h.name.rename f }
  rows := t.rows
  rectangular row hrow := by rw [List.length_map, t.rectangular row hrow]

/-- Steps that correspond to each other, item by item. -/
theorem mapM_map_eq {ε α α' β β' : Type} {step : α → Except ε β} {step' : α' → Except ε β'}
    {item : α → α'} {result : β → β'} {xs : List α}
    (h : ∀ x, step' (item x) = (step x).map result) :
    (xs.map item).mapM step' = (xs.mapM step).map (List.map result) := by
  induction xs with
  | nil => rfl
  | cons x xs ih =>
    rw [List.map_cons, List.mapM_cons, List.mapM_cons, ih, h]
    cases step x with
    | error e => rfl
    | ok b => cases xs.mapM step <;> rfl

/-- The attributes of outputs, each with the name of its element and its column in the plan. -/
def outputItems (outputs : List Output) : List (String × String × String) :=
  outputs.flatMap fun o => (o.attributes.zip o.columns).map (o.name, ·)

theorem outputItems_rename (outputs : List Output) (f : String → String) :
    outputItems (outputs.map (Output.rename f)) =
      (outputItems outputs).map fun item => (f item.1, item.2) := by
  rw [outputItems, outputItems, List.flatMap_map, List.map_flatMap]
  refine List.flatMap_congr fun o _ => ?_
  rw [List.map_map]
  rfl

namespace Table

/-- Where an attribute is found in a table, with its label in the result. -/
def outputPick (t : Table Label) (item : String × String × String) :
    Except EvalError (Label × Nat) :=
  (t.plainColumn item.2.2).map fun column => (.bundled item.1 item.2.1, column.1)

theorem projectTo_eq (t : Table Label) (outputs : List Output) :
    t.projectTo outputs = ((outputItems outputs).mapM t.outputPick).map t.pick := by
  have hpick : (fun item : String × String × String => t.plainColumn item.2.2 >>= fun column =>
      pure (Label.bundled item.1 item.2.1, column.1)) = t.outputPick := by
    funext item
    rw [outputPick]
    cases t.plainColumn item.2.2 <;> rfl
  refine (congrArg (fun pick => (outputItems outputs).mapM pick >>= _) hpick).trans ?_
  cases (outputItems outputs).mapM t.outputPick <;> rfl

/-- Outputs under other names are the columns of the outputs under these names. -/
theorem projectTo_rename (t : Table Label) (outputs : List Output) (f : String → String) :
    t.projectTo (outputs.map (Output.rename f)) = (t.projectTo outputs).map (relabel f) := by
  have hitem (item : String × String × String) : t.outputPick (f item.1, item.2) =
      (t.outputPick item).map fun (label, i) => (label.rename f, i) := by
    rw [outputPick, outputPick]
    cases t.plainColumn item.2.2 <;> rfl
  rw [projectTo_eq, projectTo_eq, outputItems_rename, mapM_map_eq hitem]
  cases (outputItems outputs).mapM t.outputPick with
  | error e => rfl
  | ok picks =>
    refine congrArg Except.ok ?_
    simp only [pick, relabel, List.map_map]
    rfl

end Table

namespace Graph

variable {g : Graph} {p : Pattern} {f : String → String}

/-- The names of a pattern are not captured by the columns of its plans. Under other names, as long
as different names stay different, it is resolved exactly if it is, to the same bindings; it has a
plan exactly if it has one, the same but for the names of the outputs and the text; and its result
is the same but for the names. -/
theorem rename_hygienic (h : p.InjectsNames f) :
    (p.rename f).resolve.toOption = p.resolve.toOption.map (Resolution.rename f) ∧
      (∀ s : Schema, (s.compilePattern (p.rename f)).toOption =
        (s.compilePattern p).toOption.map (MatchPlan.rename f (p.rename f))) ∧
      ∀ g : Graph,
        (∃ e e', g.find p = .error (.compile e) ∧ g.find (p.rename f) = .error (.compile e')) ∨
          (∃ plan, g.compile p = .ok plan) ∧
            g.find (p.rename f) = (g.find p).map (Table.relabel f) := by
  refine ⟨Pattern.resolve_rename h, fun s => s.compilePattern_rename h, fun g => ?_⟩
  have hcompile := g.schema.compilePattern_rename h
  cases hplan : g.schema.compilePattern p with
  | error e =>
    rw [hplan] at hcompile
    cases hplan' : g.schema.compilePattern (p.rename f) with
    | error e' => exact .inl ⟨e, e', by rw [find, compile, hplan]; rfl, by rw [find, compile, hplan']; rfl⟩
    | ok plan' =>
      rw [hplan'] at hcompile
      exact absurd hcompile nofun
  | ok plan =>
    refine .inr ⟨⟨plan, hplan⟩, ?_⟩
    rw [hplan] at hcompile
    cases hplan' : g.schema.compilePattern (p.rename f) with
    | error e' =>
      rw [hplan'] at hcompile
      exact absurd hcompile nofun
    | ok plan' =>
      rw [hplan'] at hcompile
      obtain rfl := Option.some.inj hcompile
      have heval : (plan.rename f (p.rename f)).root.eval g.relations =
          (plan.root.eval g.relations).map (Table.relabel f) := by
        show plan.child.eval g.relations >>= _ = Except.map _ (plan.child.eval g.relations >>= _)
        cases plan.child.eval g.relations with
        | error e => rfl
        | ok t => exact t.projectTo_rename plan.outputs f
      rw [find, find, compile, compile, hplan, hplan']
      show Except.mapError _ ((plan.rename f (p.rename f)).root.eval g.relations) =
        Except.map _ (Except.mapError _ (plan.root.eval g.relations))
      rw [heval]
      cases plan.root.eval g.relations <;> rfl

/-- An edge with its two ends. -/
def linkPattern : Pattern where
  clauses := [.edge { src := some "a", edge := some "e", dst := some "b", negated := false }]

/-- Names like those of the columns of plans, and the empty name. -/
def columnNames (name : String) : String :=
  if name = "a" then "e1" else if name = "e" then "v0::id" else ""

theorem injectsNames_columnNames : linkPattern.InjectsNames columnNames := by
  have hslots : ∀ s ∈ linkPattern.slots, ∀ s' ∈ linkPattern.slots,
      s.map columnNames = s'.map columnNames → s = s' := by decide +kernel
  exact fun name hname name' hname' heq =>
    Option.some.inj (hslots _ hname _ hname' (congrArg some heq))

/-- Names like those of columns are not captured. -/
theorem rename_hygienic_linkPattern :
    linkPattern.InjectsNames columnNames ∧
      (linkPattern.rename columnNames).resolve.toOption =
        linkPattern.resolve.toOption.map (Resolution.rename columnNames) ∧
      (∀ s : Schema, (s.compilePattern (linkPattern.rename columnNames)).toOption =
        (s.compilePattern linkPattern).toOption.map
          (MatchPlan.rename columnNames (linkPattern.rename columnNames))) ∧
      ∀ g : Graph,
        (∃ e e', g.find linkPattern = .error (.compile e) ∧
          g.find (linkPattern.rename columnNames) = .error (.compile e')) ∨
          (∃ plan, g.compile linkPattern = .ok plan) ∧
            g.find (linkPattern.rename columnNames) =
              (g.find linkPattern).map (Table.relabel columnNames) :=
  ⟨injectsNames_columnNames, rename_hygienic injectsNames_columnNames⟩

end Graph

end GraphMotif
