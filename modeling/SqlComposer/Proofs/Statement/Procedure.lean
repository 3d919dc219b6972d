import SqlComposer.Proofs.Outline.Text
import SqlComposer.Statement.Procedure

/-!
# The text of a procedure call

An output is declared, passed and returned, so it leaves three parts among those of the parameters.
They are gathered by their tags again when the call is written, each time in the order of the calls.
-/
namespace SqlComposer

/-- A source as a procedure call writes it: a literal, or an expression over bare columns. -/
def ParameterSource.text (d : Dialect) : ParameterSource → String
  | .value v => d.written v none
  | .deferred x => d.written x.result none
  | .expr e =>
    match e.evaluate.value with
    | some v => d.written v none
    | none => e.written d ColumnRef.field

theorem Scope.render_within_of_bare {v : View} (hv : v.qualify = false) (scope : Scope)
    (f : ColumnRef) : (scope.within f).render v = f.field := by
  have hqualifier : (scope.within f).qualifier? v = none := by
    rw [ColumnRef.qualifier?, if_neg (Bool.not_eq_true _ ▸ hv)]
  rw [ColumnRef.render, hqualifier, within]
  cases f.tableAlias <;> cases f.entity <;> rfl

namespace Parameter

variable {v : View} {p : Parameter}

theorem value_bare (hv : v.qualify = false) (hp : p.declared = none) :
    (p.bare v).value = p.source.text v.dialect := by
  rw [bare, Reading.value_bind, value?, hp]
  cases p.source with
  | value | deferred => rfl
  | expr e =>
    simp only [ParameterSource.text]
    cases e.evaluate.value with
    | some => rfl
    | none =>
      change atomsText v (Scope.atoms {} e).value = _
      rw [Scope.atomsText_atoms]
      exact congrArg (Expr.written v.dialect · e)
        (funext fun f => Scope.render_within_of_bare hv {} f)

theorem value_render_named {name : String} (hv : v.qualify = false) (hp : p.declared = none)
    (hname : p.name = some name) (hne : name ≠ "") :
    (p.render v).value = name ++ "=" ++ p.source.text v.dialect := by
  rw [render, Reading.value_bind, hname, value_bare hv hp]
  simp only [if_neg hne]
  rfl

theorem value_render_unnamed (hv : v.qualify = false) (hp : p.declared = none)
    (hname : p.name = none) : (p.render v).value = p.source.text v.dialect := by
  rw [render, Reading.value_bind, hname, value_bare hv hp]
  rfl

end Parameter

def Tree.Writes (v : View) (t : Tree) (entries : List (Tag × String)) : Prop :=
  ∀ tag, (Part.renderAll v (t.partsOf tag)).outcome =
    .ok ((entries.filter fun e => e.1 == tag).map fun e => ⟨e.2, false⟩)

theorem Tree.Writes.add {v : View} {t : Tree} {entries : List (Tag × String)}
    (h : t.Writes v entries) {p : Part} {s : String} (hp : (p.render v).outcome = .ok s)
    (hleaf : p.isGroup = false) : (t.add p).Writes v (entries ++ [(p.tag, s)]) := by
  intro tag
  have hparts : (t.add p).partsOf tag = t.partsOf tag ++ [p].filter fun q => q.tag == tag :=
    List.filter_append ..
  rw [hparts, Part.outcome_renderAll_append, h tag, List.filter_append, List.map_append,
    List.filter_singleton, List.filter_singleton]
  cases htag : p.tag == tag with
  | true =>
    rw [cond_true, cond_true, Part.renderAll, Rendering.outcome_bind, hp]
    simp [Part.renderAll, hleaf]
    rfl
  | false => rfl

namespace Procedure

def bareName (name : String) : String :=
  String.ofList (name.toList.dropWhile fun c => c == '@')

inductive Call where
  | parameter (name : Option String) (source : ParameterSource)
  | output (name : String) (type : ColumnType) (initial : Option Value)

namespace Call

def apply (q : Procedure) : Call → Except Fault Procedure
  | .parameter name source => .ok (q.parameter name source)
  | .output name type initial => q.output name type initial

def IsNamed : Call → Prop
  | .parameter .. => True
  | .output name .. => bareName name ≠ ""

instance : DecidablePred IsNamed
  | .parameter .. => inferInstanceAs (Decidable True)
  | .output .. => inferInstanceAs (Decidable (_ ≠ _))

def line? : Call → Option String
  | .parameter .. => none
  | .output name type initial =>
    let line := "DECLARE @" ++ bareName name ++ " " ++ Dialect.sqlServer.typeKeyword type
    match initial.bind fun v => Dialect.sqlServer.literal? v (some type) with
    | some literal => some (line ++ " = " ++ literal)
    | none => some line

/-- What stands behind the name of the procedure. -/
def item : Call → String
  | .parameter none source => source.text .sqlServer
  | .parameter (some name) source => variableName name ++ "=" ++ source.text .sqlServer
  | .output name .. => "@" ++ bareName name ++ "=@" ++ bareName name ++ " OUTPUT"

def column? : Call → Option String
  | .parameter .. => none
  | .output name .. => some ("@" ++ bareName name ++ " AS " ++ bareName name)

def entries (call : Call) : List (Tag × String) :=
  (call.line?.map (Tag.outputDeclaration, ·)).toList ++ [(.parameter, call.item)] ++
    (call.column?.map (Tag.outputColumn, ·)).toList

end Call

/-- The statement that the calls make. -/
def callsText (name : String) (calls : List Call) : String :=
  Text.joinWith "" ((calls.filterMap Call.line?).map (· ++ "\n")) ++
    "EXEC " ++ name ++ " " ++ Text.joinWith ", " (calls.map Call.item) ++
    match calls.filterMap Call.column? with
    | [] => ""
    | columns => "\nSELECT " ++ Text.joinWith ", " columns

def run (c : Compiler) (name : String) (calls : List Call) : Except Fault Procedure := do
  calls.foldlM Call.apply (← named c name)

theorem variableName_ne_empty (name : String) : variableName name ≠ "" := by
  rw [variableName]
  split_ifs with h
  · rintro rfl
    cases h
  · simp

structure Gathers (q : Procedure) (c : Compiler) (name : String) (calls : List Call) : Prop where
  compiler : q.compiler = c
  shape : q.draft.shape = .procedure name
  writes : ∀ v : View, v.dialect = .sqlServer → v.qualify = false →
    q.draft.Writes v (calls.flatMap Call.entries)

variable {q q' : Procedure} {c : Compiler} {name : String} {calls : List Call} {call : Call}

theorem Gathers.parameter (h : q.Gathers c name calls) (key : Option String)
    (source : ParameterSource) :
    (q.parameter key source).Gathers c name (calls ++ [Call.parameter key source]) where
  compiler := h.compiler
  shape := h.shape
  writes v hdialect hqualify := by
    rw [List.flatMap_append, List.flatMap_singleton]
    refine (h.writes v hdialect hqualify).add (congrArg Except.ok ?_) rfl
    cases key with
    | none =>
      rw [Call.item, ← hdialect]
      exact Parameter.value_render_unnamed hqualify rfl rfl
    | some key =>
      rw [Call.item, ← hdialect]
      exact Parameter.value_render_named hqualify rfl rfl (variableName_ne_empty key)

theorem Gathers.output (h : q.Gathers c name calls) {key : String} (hkey : bareName key ≠ "")
    (type : ColumnType) (initial : Option Value) :
    ∃ q', q.output key type initial = .ok q' ∧
      q'.Gathers c name (calls ++ [Call.output key type initial]) := by
  refine ⟨_, if_neg hkey, h.compiler, h.shape, fun v hdialect hqualify => ?_⟩
  have hline : Call.line? (.output key type initial) =
      some (declaration (bareName key) type initial v) := by
    rw [Call.line?, declaration, hdialect]
    cases initial.bind fun v => Dialect.sqlServer.literal? v (some type) <;> rfl
  rw [List.flatMap_append, List.flatMap_singleton, Call.entries, hline]
  have hdeclared := (h.writes v hdialect hqualify).add
    (p := .late q.draft.nextKey .outputDeclaration (declaration (bareName key) type initial)) rfl rfl
  rw [← List.append_assoc, ← List.append_assoc]
  exact (hdeclared.add (p := .text _ .parameter _) rfl rfl).add (p := .text _ .outputColumn _) rfl rfl

theorem Gathers.step (h : q.Gathers c name calls) (hcall : call.IsNamed) :
    ∃ q', call.apply q = .ok q' ∧ q'.Gathers c name (calls ++ [call]) := by
  cases call with
  | parameter key source => exact ⟨_, rfl, h.parameter key source⟩
  | output key type initial => exact h.output hcall type initial

theorem Gathers.after (h : q.Gathers c name calls) {more : List Call}
    (hmore : ∀ call ∈ more, call.IsNamed) :
    ∃ q', more.foldlM Call.apply q = .ok q' ∧ q'.Gathers c name (calls ++ more) := by
  induction more generalizing q calls with
  | nil => exact ⟨q, rfl, by rwa [List.append_nil]⟩
  | cons call more ih =>
    rw [List.forall_mem_cons] at hmore
    obtain ⟨q', hq', hstep⟩ := h.step hmore.1
    obtain ⟨q'', hq'', hafter⟩ := ih hstep hmore.2
    rw [List.append_assoc] at hafter
    refine ⟨q'', ?_, hafter⟩
    rw [List.foldlM_cons, hq']
    exact hq''

theorem gathers_run (c : Compiler) (hname : Text.allBlank name = false)
    (hcalls : ∀ call ∈ calls, call.IsNamed) :
    ∃ q, run c name calls = .ok q ∧ q.Gathers c name calls := by
  have hstart : Gathers { draft := .procedure name, compiler := c } c name [] :=
    ⟨rfl, rfl, fun _ _ _ _ => rfl⟩
  obtain ⟨q, hq, h⟩ := hstart.after hcalls
  refine ⟨q, ?_, h⟩
  rw [run, named, if_neg (by simp [hname])]
  exact hq

/-! ### Gathering by tag -/

def Call.texts (tag : Tag) (call : Call) : List String :=
  (call.entries.filter fun e => e.1 == tag).map Prod.snd

theorem Call.texts_declaration (call : Call) :
    call.texts .outputDeclaration = call.line?.toList := by
  cases hline : call.line? <;> cases hcolumn : call.column? <;>
    simp [texts, entries, hline, hcolumn]

theorem Call.texts_parameter (call : Call) : call.texts .parameter = [call.item] := by
  cases hline : call.line? <;> cases hcolumn : call.column? <;>
    simp [texts, entries, hline, hcolumn]

theorem Call.texts_column (call : Call) : call.texts .outputColumn = call.column?.toList := by
  cases hline : call.line? <;> cases hcolumn : call.column? <;>
    simp [texts, entries, hline, hcolumn]

theorem Gathers.texts (h : q.Gathers c name calls) {v : View} (hdialect : v.dialect = .sqlServer)
    (hqualify : v.qualify = false) (tag : Tag) :
    ∃ pieces, (Part.renderAll v (q.draft.partsOf tag)).outcome = .ok pieces ∧
      pieces.map Piece.text = calls.flatMap (Call.texts tag) := by
  refine ⟨_, h.writes v hdialect hqualify tag, ?_⟩
  rw [List.map_map, List.filter_flatMap, List.map_flatMap]
  rfl

theorem Call.ne_empty_of_line? {s : String} (h : call.line? = some s) : s ≠ "" := by
  cases call with
  | parameter => cases h
  | output name type initial =>
    rw [line?] at h
    split at h <;> cases h <;> simp

theorem Call.ne_empty_of_column? {s : String} (h : call.column? = some s) : s ≠ "" := by
  cases call with
  | parameter => cases h
  | output name type initial =>
    cases h
    simp

theorem nonEmpty_of_ne_empty {pieces : List Piece} (h : ∀ s ∈ pieces.map Piece.text, s ≠ "") :
    Compiler.nonEmpty pieces = pieces.map Piece.text :=
  List.filter_eq_self.2 fun s hs => decide_eq_true (h s hs)

theorem Gathers.outcome_compile (h : q.Gathers c name calls) (hdialect : c.dialect = .sqlServer) :
    q.compile.outcome.map Compiled.sql = .ok (callsText name calls) := by
  have hview : (q.draft.view c.dialect false).dialect = .sqlServer := hdialect
  obtain ⟨declarations, hdeclarations, hlines⟩ := h.texts hview rfl .outputDeclaration
  obtain ⟨parameters, hparameters, hitems⟩ := h.texts hview rfl .parameter
  obtain ⟨outputs, houtputs, hcolumns⟩ := h.texts hview rfl .outputColumn
  rw [funext Call.texts_declaration, ← List.filterMap_eq_flatMap_toList] at hlines
  rw [funext Call.texts_parameter, ← List.map_eq_flatMap] at hitems
  rw [funext Call.texts_column, ← List.filterMap_eq_flatMap_toList] at hcolumns
  have hsql : (q.compiler.procedureSql q.draft.toTree name).outcome =
      .ok (Compiler.callText name declarations parameters outputs) := by
    rw [h.compiler, Compiler.procedureSql, if_pos (hdialect ▸ rfl)]
    simp only [Rendering.outcome_bind, hdeclarations, hparameters, houtputs]
    rfl
  have hcompile : q.compile.outcome =
      .ok ⟨Compiler.callText name declarations parameters outputs, q.draft.toTree⟩ := by
    rw [compile, Compiler.compile, Compiler.sql, h.shape, Rendering.outcome_bind, hsql]
    rfl
  have hdeclared : Compiler.nonEmpty declarations = calls.filterMap Call.line? := by
    rw [nonEmpty_of_ne_empty, hlines]
    rw [hlines]
    intro s hs
    obtain ⟨call, -, hcall⟩ := List.mem_filterMap.1 hs
    exact Call.ne_empty_of_line? hcall
  have hreturned : Compiler.nonEmpty outputs = calls.filterMap Call.column? := by
    rw [nonEmpty_of_ne_empty, hcolumns]
    rw [hcolumns]
    intro s hs
    obtain ⟨call, -, hcall⟩ := List.mem_filterMap.1 hs
    exact Call.ne_empty_of_column? hcall
  rw [hcompile, Except.map, Compiler.callText, hdeclared, hreturned, hitems]
  rfl

theorem Gathers.compile_sqlite (h : q.Gathers c name calls) (hdialect : c.dialect = .sqlite) :
    q.compile.outcome = .error (.unsupported "SQLite" "stored procedures") ∧
      q.compile.run.reads = [] := by
  have hsql : q.compiler.procedureSql q.draft.toTree name =
      throw (.unsupported "SQLite" "stored procedures") := by
    rw [h.compiler, Compiler.procedureSql, hdialect]
    rfl
  rw [compile, Compiler.compile, Compiler.sql, h.shape]
  simp only [hsql]
  exact ⟨rfl, rfl⟩

/-- Parameters and outputs in any order make one call: a line for every output that is declared,
the items in order and one line that returns the outputs. SQLite has no procedures, and no deferred
value is read to find that out. -/
theorem run_writes_calls (c : Compiler) (name : String) (calls : List Call)
    (hname : Text.allBlank name = false) (hcalls : ∀ call ∈ calls, call.IsNamed) :
    ∃ q, run c name calls = .ok q ∧
      (c.dialect = .sqlServer →
        q.compile.outcome.map Compiled.sql = .ok (callsText name calls)) ∧
      (c.dialect = .sqlite →
        q.compile.outcome = .error (.unsupported "SQLite" "stored procedures") ∧
          q.compile.run.reads = []) := by
  obtain ⟨q, hq, h⟩ := gathers_run c hname hcalls
  exact ⟨q, hq, h.outcome_compile, h.compile_sqlite⟩

theorem run_writes_calls_employeeSales :
    let calls : List Call :=
      [.output "@Total" .decimal none, .parameter (some "Year") (.value (.int 1997)),
        .output "Region" .string (some (.string "West")),
        .parameter none (.expr (.binary .add (.deferred ⟨0, 0, .int 3⟩) (.constant (.int 4))))]
    ∃ q, run { dialect := .sqlServer } "EmployeeSales" calls = .ok q ∧
      q.compile.outcome.map Compiled.sql = .ok
        ("DECLARE @Total decimal(18,2)\nDECLARE @Region nvarchar(max) = 'West'\n" ++
          "EXEC EmployeeSales @Total=@Total OUTPUT, @Year=1997, @Region=@Region OUTPUT, 7\n" ++
          "SELECT @Total AS Total, @Region AS Region") := by
  intro calls
  obtain ⟨q, hq, hsql, -⟩ :=
    run_writes_calls { dialect := .sqlServer } "EmployeeSales" calls (by decide) (by decide)
  exact ⟨q, hq, (hsql rfl).trans (congrArg Except.ok (by decide +kernel))⟩

end Procedure

end SqlComposer
