import SqlComposer.Calendar.Timestamp
import SqlComposer.ColumnType
import SqlComposer.Decimal.Layout
import SqlComposer.Text
import SqlComposer.Uuid

/-!
# Values

What is bound into a statement or read from a row. Integers have 64 bits; a decimal keeps its
text; raw text is written into a statement as it stands.
-/
namespace SqlComposer

inductive Value where
  | null
  | bool (b : Bool)
  | int (n : Int64)
  | float (x : Float)
  | decimal (text : String)
  | string (text : String)
  | dateTime (t : Calendar.Timestamp)
  | date (d : Calendar.Date)
  | uuid (u : Uuid)
  | raw (text : String)

namespace Value

def ofInt? (n : Int) : Option Value :=
  if Int64.minValue.toInt ≤ n ∧ n ≤ Int64.maxValue.toInt then some (.int (Int64.ofInt n))
  else none

def isNull : Value → Bool
  | .null => true
  | _ => false

/-- Doubles are written without an exponent, whatever their size, and of two equally short and
equally near decimals the greater is taken. -/
def floatLayout : Decimal.Layout where
  plain := fun _ => true
  wholePoint := false
  tie := .awayFromZero
  nan := "NaN"
  infinity := "inf"
  negativeInfinity := "-inf"

def boolText (b : Bool) : String :=
  if b then "true" else "false"

def intText (n : Int64) : String :=
  toString n.toInt

def text : Value → String
  | .null => "NULL"
  | .bool b => boolText b
  | .int n => intText n
  | .float x => floatLayout.write x
  | .decimal s => s
  | .string s => s
  | .dateTime t => t.text ' '
  | .date d => d.text
  | .uuid u => u.text
  | .raw s => s

/-- The value and its kind as a programmer writes them down. Text is taken to be printable. -/
def debugText : Value → String
  | .null => "Null"
  | .bool b => "Bool(" ++ boolText b ++ ")"
  | .int n => "Int(" ++ intText n ++ ")"
  | .float x => "Float(" ++ floatLayout.write x ++ ")"
  | .decimal s => "Decimal(" ++ Text.escaped s ++ ")"
  | .string s => "String(" ++ Text.escaped s ++ ")"
  | .dateTime t => "DateTime(" ++ t.isoText ++ ")"
  | .date d => "Date(" ++ d.text ++ ")"
  | .uuid u => "Uuid(" ++ u.text ++ ")"
  | .raw s => "Raw(" ++ Text.escaped s ++ ")"

/-- Equality of values of one kind. Doubles compare as numbers: the two zeros are equal and a NaN
differs from itself. -/
def same : Value → Value → Bool
  | .null, .null => true
  | .bool a, .bool b => a == b
  | .int a, .int b => a == b
  | .float a, .float b => a == b
  | .decimal a, .decimal b => a == b
  | .string a, .string b => a == b
  | .dateTime a, .dateTime b => a == b
  | .date a, .date b => a == b
  | .uuid a, .uuid b => a == b
  | .raw a, .raw b => a == b
  | _, _ => false

def columnType? : Value → Option ColumnType
  | .null | .raw _ => none
  | .bool _ => some .bool
  | .int _ => some .bigInt
  | .float _ => some .float
  | .decimal _ => some .decimal
  | .string _ => some .string
  | .dateTime _ => some .dateTime
  | .date _ => some .date
  | .uuid _ => some .guid

end Value

/-- Turns a value read from a row into the value handed to the caller. -/
structure Converter where
  apply : Value → Value

end SqlComposer
