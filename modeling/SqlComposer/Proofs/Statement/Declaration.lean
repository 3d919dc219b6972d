import SqlComposer.Proofs.Statement.Procedure
import SqlComposer.Proofs.Value.Literal

/-!
# Initial values of outputs

The line that declares an output begins it with its initial value, written as a parameter writes it,
if that value has a literal. Raw text has none and is left out of the line, where a parameter writes
it as it stands.
-/
namespace SqlComposer.Procedure

def positional (type : ColumnType) (value : Value) : Parameter :=
  { source := .value value, declared := some type }

theorem render_positional (v : View) (type : ColumnType) (value : Value) :
    ((positional type value).render v).value = v.dialect.written value (some type) := rfl

def plainLine (name : String) (type : ColumnType) : String :=
  "DECLARE @" ++ bareName name ++ " " ++ Dialect.sqlServer.typeKeyword type

/-- A line declares an output of this name and type that begins with this value. -/
structure Declares (line name : String) (type : ColumnType) (initial : Option Value) : Prop where
  absent : initial = none → line = plainLine name type
  raw : ∀ s, initial = some (.raw s) → line = plainLine name type
  /-- the value stands behind the type as a parameter writes it, or not at all -/
  started : ∀ (v : View) (value : Value), v.dialect = .sqlServer → initial = some value →
    (line = plainLine name type ++ " = " ++ ((positional type value).render v).value ↔
      ∀ s, value ≠ .raw s)

theorem ne_append_started (s t : String) : s ≠ s ++ " = " ++ t := by
  rw [String.append_assoc]
  intro h
  have hlength := congrArg String.length h
  simp only [String.length_append] at hlength
  have hsign : " = ".length = 3 := by decide
  omega

theorem line?_output (name : String) (type : ColumnType) (initial : Option Value) :
    ∃ line, (Call.output name type initial).line? = some line ∧ Declares line name type initial := by
  have hplain (h : initial.bind (fun v => Dialect.sqlServer.literal? v (some type)) = none) :
      (Call.output name type initial).line? = some (plainLine name type) := by
    simp only [Call.line?, h]
    rfl
  cases initial with
  | none =>
    refine ⟨_, hplain rfl, fun _ => rfl, fun _ h => ?_, fun _ _ _ h => ?_⟩
    · cases h
    · cases h
  | some value =>
    by_cases hraw : ∃ s, value = .raw s
    · obtain ⟨s, rfl⟩ := hraw
      refine ⟨_, hplain rfl, fun _ => rfl, fun _ _ => rfl, fun v value _ hvalue => ?_⟩
      obtain rfl := Option.some.inj hvalue
      exact iff_of_false (ne_append_started _ _) fun h => h s rfl
    · have hvalue : ∀ s, value ≠ .raw s := fun s hs => hraw ⟨s, hs⟩
      obtain ⟨literal, hliteral⟩ := Option.isSome_iff_exists.1
        (Dialect.literal?_isSome hvalue .sqlServer (some type))
      refine ⟨plainLine name type ++ " = " ++ literal, ?_, fun h => ?_, ?_, ?_⟩
      · simp only [Call.line?, Option.bind_some, hliteral]
        rfl
      · cases h
      · exact fun s hs => absurd (Option.some.inj hs) (hvalue s)
      · intro v value' hv hvalue'
        obtain rfl := Option.some.inj hvalue'
        rw [render_positional, hv, Dialect.written, hliteral]
        exact iff_of_true rfl hvalue

def linesText (calls : List Call) : String :=
  Text.joinWith "" ((calls.filterMap Call.line?).map (· ++ "\n"))

theorem callsText_of_line? {call : Call} {line : String} (h : call.line? = some line)
    (name : String) (before after : List Call) :
    ∃ rest, callsText name (before ++ call :: after) =
      linesText before ++ line ++ "\n" ++ rest := by
  have hlines : linesText (before ++ call :: after) =
      linesText before ++ (line ++ "\n" ++ linesText after) := by
    rw [← String.toList_inj]
    simp [linesText, Text.toList_joinWith_empty, h]
  obtain ⟨rest, hrest⟩ : ∃ rest, callsText name (before ++ call :: after) =
      linesText (before ++ call :: after) ++ rest := by
    simp only [callsText, linesText, String.append_assoc]
    exact ⟨_, rfl⟩
  refine ⟨linesText after ++ rest, ?_⟩
  rw [hrest, hlines]
  simp only [String.append_assoc]

theorem run_append (c : Compiler) (name : String) (calls more : List Call) :
    run c name (calls ++ more) = run c name calls >>= fun q => more.foldlM Call.apply q := by
  simp only [run, List.foldlM_append, bind_assoc]

theorem run_output_unnamed (c : Compiler) {procedure : String}
    (hprocedure : Text.allBlank procedure = false) {before : List Call}
    (hbefore : ∀ call ∈ before, call.IsNamed) {name : String} (hname : bareName name = "")
    (type : ColumnType) (initial : Option Value) (after : List Call) :
    run c procedure (before ++ .output name type initial :: after) =
      .error (.missingArgument "name" "an output parameter needs a name") := by
  obtain ⟨q, hq, -⟩ := gathers_run c hprocedure hbefore
  have houtput : q.output name type initial =
      .error (.missingArgument "name" "an output parameter needs a name") := if_pos hname
  rw [run_append, hq]
  change q.output name type initial >>= _ = _
  rw [houtput]
  rfl

/-- An output without a name is refused. Any other is declared by one line behind those of the
earlier outputs. The line begins the output with its initial value, as a parameter writes the value
in a call, unless there is none or the value is raw text, which is lost. -/
theorem outputs_begin_with_literals (c : Compiler) (hdialect : c.dialect = .sqlServer)
    {procedure : String} (hprocedure : Text.allBlank procedure = false) {before after : List Call}
    (hbefore : ∀ call ∈ before, call.IsNamed) (hafter : ∀ call ∈ after, call.IsNamed)
    (name : String) (type : ColumnType) (initial : Option Value) :
    if bareName name = "" then
      run c procedure (before ++ .output name type initial :: after) =
        .error (.missingArgument "name" "an output parameter needs a name")
    else ∃ q line rest,
      run c procedure (before ++ .output name type initial :: after) = .ok q ∧
      q.compile.outcome.map Compiled.sql = .ok (linesText before ++ line ++ "\n" ++ rest) ∧
      Declares line name type initial := by
  split_ifs with hname
  · exact run_output_unnamed c hprocedure hbefore hname type initial after
  · have hcalls : ∀ call ∈ before ++ .output name type initial :: after, call.IsNamed :=
      List.forall_mem_append.2 ⟨hbefore, List.forall_mem_cons.2 ⟨hname, hafter⟩⟩
    obtain ⟨q, hq, h⟩ := gathers_run c hprocedure hcalls
    obtain ⟨line, hline, hdeclares⟩ := line?_output name type initial
    obtain ⟨rest, hrest⟩ := callsText_of_line? hline procedure before after
    exact ⟨q, line, rest, hq, (h.outcome_compile hdialect).trans (congrArg _ hrest), hdeclares⟩

theorem outputs_begin_with_literals_sales :
    let year : Call := .parameter none (.value (.int 1997))
    let region : Call := .output "@Region" .string (some (.string "West"))
    ∃ q line rest, run { dialect := .sqlServer } "Sales"
        ([year] ++ .output "Exact" .bool (some (.int 5)) :: [region]) = .ok q ∧
      q.compile.outcome.map Compiled.sql = .ok (linesText [year] ++ line ++ "\n" ++ rest) ∧
      line = "DECLARE @Exact bit = 1" := by
  intro year region
  have hname : Text.allBlank "Sales" = false := by decide
  have hbefore : ∀ call ∈ [year], call.IsNamed := by decide
  have hafter : ∀ call ∈ [region], call.IsNamed := by decide
  obtain ⟨q, line, rest, hq, hsql, hline⟩ := outputs_begin_with_literals { dialect := .sqlServer } rfl
    hname hbefore hafter "Exact" .bool (some (.int 5))
  let v : View := ⟨.sqlServer, false, [], [], [], none⟩
  exact ⟨q, line, rest, hq, hsql, (hline.started v (.int 5) rfl rfl).2 nofun⟩

/-- A parameter writes the raw text that the declaration of an output leaves out. -/
theorem raw_initial_value_lost :
    let now : Value := .raw "GETDATE()"
    let v : View := ⟨.sqlServer, false, [], [], [], none⟩
    ((positional .dateTime now).render v).value = "GETDATE()" ∧
      ∃ q, run { dialect := .sqlServer } "SalesByYear" [.output "Total" .dateTime (some now)] =
          .ok q ∧
        q.compile.outcome.map Compiled.sql = .ok
          ("DECLARE @Total datetime\nEXEC SalesByYear @Total=@Total OUTPUT\n" ++
            "SELECT @Total AS Total") := by
  intro now v
  have hname : Text.allBlank "SalesByYear" = false := by decide
  have hcalls : ∀ call ∈ [Call.output "Total" .dateTime (some now)], call.IsNamed := by decide
  obtain ⟨q, hq, h⟩ := gathers_run { dialect := .sqlServer } hname hcalls
  exact ⟨rfl, q, hq, (h.outcome_compile rfl).trans (congrArg Except.ok (by decide))⟩

end SqlComposer.Procedure
