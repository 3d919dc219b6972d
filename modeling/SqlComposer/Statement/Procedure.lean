import SqlComposer.Compiler
import SqlComposer.Draft

/-!
# Procedure calls

Parameters in order, by position or by name, and output parameters, each of which is declared
ahead of the call and returned behind it.
-/
namespace SqlComposer

structure Procedure where
  draft : Draft
  compiler : Compiler

namespace Procedure

def named (c : Compiler) (name : String) : Except Fault Procedure :=
  if Text.allBlank name then
    .error (.missingArgument "procedure" "a procedure name is required")
  else .ok { draft := .procedure name, compiler := c }

/-- A variable's name begins with `@`. -/
def variableName (name : String) : String :=
  if name.toList.head? = some '@' then name else "@" ++ name

def parameter (q : Procedure) (name : Option String) (source : ParameterSource) : Procedure :=
  let p : Parameter := { source, name := name.map variableName }
  { q with draft :=
      q.draft.spend 1 (q.draft.add (.parameter q.draft.nextKey .parameter p)) }

/-- The line that declares an output parameter. A value without a literal is not written. -/
def declaration (name : String) (type : ColumnType) (initial : Option Value) (v : View) : String :=
  let line := "DECLARE @" ++ name ++ " " ++ v.dialect.typeKeyword type
  match initial.bind fun value => v.dialect.literal? value (some type) with
  | some literal => line ++ " = " ++ literal
  | none => line

/-- An output parameter, returned as a column of its name. -/
def output (q : Procedure) (name : String) (type : ColumnType) (initial : Option Value) :
    Except Fault Procedure :=
  let bare := String.ofList (name.toList.dropWhile fun c => c == '@')
  if bare = "" then .error (.missingArgument "name" "an output parameter needs a name")
  else
    let d := q.draft
    let d := d.spend 1 (d.add (.late d.nextKey .outputDeclaration (declaration bare type initial)))
    let d := d.addText .parameter ("@" ++ bare ++ "=@" ++ bare ++ " OUTPUT")
    .ok { q with draft := d.addText .outputColumn ("@" ++ bare ++ " AS " ++ bare) }

def compile (q : Procedure) : Rendering Compiled :=
  q.compiler.compile q.draft.toTree

end Procedure

end SqlComposer
