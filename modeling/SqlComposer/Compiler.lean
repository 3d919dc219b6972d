import SqlComposer.Part.Render
import SqlComposer.Tree

/-!
# Compilation

One pass from a tree to SQL text. A statement is its top-level parts joined as fragments, without
line breaks. A procedure call is a line for every output parameter, the call itself and one line
that returns the outputs; its columns are never qualified.
-/
namespace SqlComposer

structure Compiler where
  dialect : Dialect := .sqlite
  /-- whether columns are written with their table -/
  qualify : Bool := true
  deriving DecidableEq, Repr

/-- A finished statement and the tree it was written from. -/
structure Compiled where
  sql : String
  tree : Tree

namespace Compiler

def joinPieces (pieces : List Piece) : String :=
  pieces.foldl (fun sql p => Text.appendFragment sql (Text.dropLineBreaks p.text)) ""

def statementSql (c : Compiler) (t : Tree) : Rendering String := do
  return joinPieces (← Part.renderAll (t.view c.dialect c.qualify) t.parts)

def nonEmpty (pieces : List Piece) : List String :=
  (pieces.map Piece.text).filter fun s => s ≠ ""

def callText (name : String) (declarations parameters outputs : List Piece) : String :=
  Text.joinWith "" ((nonEmpty declarations).map (· ++ "\n")) ++
    "EXEC " ++ name ++ " " ++ Text.joinWith ", " (parameters.map Piece.text) ++
    (match nonEmpty outputs with
      | [] => ""
      | texts => "\nSELECT " ++ Text.joinWith ", " texts)

def procedureSql (c : Compiler) (t : Tree) (name : String) : Rendering String :=
  if c.dialect.supportsProcedures then do
    let v := t.view c.dialect false
    let declarations ← Part.renderAll v (t.partsOf .outputDeclaration)
    let parameters ← Part.renderAll v (t.partsOf .parameter)
    let outputs ← Part.renderAll v (t.partsOf .outputColumn)
    return callText name declarations parameters outputs
  else throw (.unsupported c.dialect.name "stored procedures")

def sql (c : Compiler) (t : Tree) : Rendering String :=
  match t.shape with
  | .statement => c.statementSql t
  | .procedure name => c.procedureSql t name

def compile (c : Compiler) (t : Tree) : Rendering Compiled := do
  return ⟨← c.sql t, t⟩

end Compiler

end SqlComposer
