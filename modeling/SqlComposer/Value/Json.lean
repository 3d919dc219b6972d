import SqlComposer.Calendar.Reading
import SqlComposer.Json.Number
import SqlComposer.Json.Text
import SqlComposer.Schema
import SqlComposer.Text

/-!
# Values and rows as JSON

A value is an object with its kind as the only name, as in an object that holds `5` under `Int`;
`NULL` is its kind alone. Reading is the inverse, with JSON's blanks allowed between the tokens.
-/
namespace SqlComposer

open Text (Scan)

namespace Value

def kind : Value → String
  | .null => "Null"
  | .bool _ => "Bool"
  | .int _ => "Int"
  | .float _ => "Float"
  | .decimal _ => "Decimal"
  | .string _ => "String"
  | .dateTime _ => "DateTime"
  | .date _ => "Date"
  | .uuid _ => "Uuid"
  | .raw _ => "Raw"

def jsonContent : Value → String
  | .null => "null"
  | .bool b => boolText b
  | .int n => intText n
  | .float x => Json.floatLayout.write x
  | .decimal s | .string s | .raw s => Json.stringText s
  | .dateTime t => Json.stringText t.isoText
  | .date d => Json.stringText d.text
  | .uuid u => Json.stringText u.text

def json (v : Value) : String :=
  match v with
  | .null => Json.stringText v.kind
  | _ => "\x7b" ++ Json.stringText v.kind ++ ":" ++ v.jsonContent ++ "\x7d"

end Value

namespace Json

def isBlank (c : Char) : Bool :=
  c == ' ' || c == '\n' || c == '\t' || c == '\r'

def skipBlanks (cs : List Char) : List Char :=
  cs.dropWhile isBlank

def token (c : Char) : Scan Unit := fun cs =>
  match skipBlanks cs with
  | d :: rest => if c = d then some ((), rest) else none
  | [] => none

def string : Scan String := fun cs => do
  let (_, cs) ← token '"' cs
  let (body, cs) ← stringBody cs
  pure (String.ofList body, cs)

def word (w : String) : Scan Unit := fun cs =>
  if w.toList.isPrefixOf cs then some ((), cs.drop w.length) else none

inductive Scalar where
  | null
  | bool (b : Bool)
  | number (n : Number)
  | string (s : String)

def scalar : Scan Scalar := fun cs =>
  let cs := skipBlanks cs
  match cs with
  | 'n' :: _ => (word "null" cs).map fun (_, rest) => (.null, rest)
  | 't' :: _ => (word "true" cs).map fun (_, rest) => (.bool true, rest)
  | 'f' :: _ => (word "false" cs).map fun (_, rest) => (.bool false, rest)
  | '"' :: _ => (string cs).map fun (s, rest) => (.string s, rest)
  | _ => (number cs).map fun (n, rest) => (.number n, rest)

def valueOf? (kind : String) (content : Scalar) : Option Value :=
  match kind, content with
  | "Null", .null => some .null
  | "Bool", .bool b => some (.bool b)
  | "Int", .number (.whole n) => Value.ofInt? n
  | "Float", .number (.whole n) =>
    some (.float (if n < 0 then -n.natAbs.toUInt64.toFloat else n.natAbs.toUInt64.toFloat))
  | "Float", .number (.double x) => some (.float x)
  | "Decimal", .string s => some (.decimal s)
  | "String", .string s => some (.string s)
  | "Raw", .string s => some (.raw s)
  | "DateTime", .string s => (Calendar.Timestamp.read? s).map Value.dateTime
  | "Date", .string s => (Calendar.Date.read? s).map Value.date
  | "Uuid", .string s => (Uuid.read? s).map Value.uuid
  | _, _ => none

def tagged : Scan Value := fun cs => do
  let (_, cs) ← token '\x7b' cs
  let (kind, cs) ← string cs
  let (_, cs) ← token ':' cs
  let (content, cs) ← scalar cs
  let (_, cs) ← token '\x7d' cs
  let v ← valueOf? kind content
  pure (v, skipBlanks cs)

def bare : Scan Value := fun cs => do
  let (kind, cs) ← string cs
  if kind = "Null" then pure (Value.null, skipBlanks cs) else none

end Json

def Value.ofJson? (s : String) : Option Value :=
  Text.Scan.complete? Json.tagged s <|> Text.Scan.complete? Json.bare s

def Row.json (r : Row) : String :=
  let column (c : String × Value) : String :=
    "[" ++ Json.stringText c.1 ++ "," ++ c.2.json ++ "]"
  "\x7b" ++ Json.stringText "columns" ++ ":[" ++
    Text.joinWith "," (r.columns.map column) ++ "]\x7d"

end SqlComposer
