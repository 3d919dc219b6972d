/-!
# Texts

The characters of a text and how it is written: without regard to case, between quotes, in the
fragments of a statement. A text is read by scanners.
-/
namespace SqlComposer.Text

/-! ### Case and blanks -/

-- only the letters from A to Z have two cases; every other character stands for itself
def lowered (s : String) : String :=
  String.ofList (s.toList.map Char.toLower)

def sameName (s t : String) : Bool :=
  lowered s == lowered t

/-- The code points with the Unicode property White_Space, as closed ranges that ascend. -/
def blankRanges : List (Nat × Nat) :=
  [(0x09, 0x0D), (0x20, 0x20), (0x85, 0x85), (0xA0, 0xA0), (0x1680, 0x1680),
   (0x2000, 0x200A), (0x2028, 0x2029), (0x202F, 0x202F), (0x205F, 0x205F), (0x3000, 0x3000)]

def isBlank (c : Char) : Bool :=
  blankRanges.any fun range => range.1 ≤ c.toNat && c.toNat ≤ range.2

def skipBlanks (cs : List Char) : List Char :=
  cs.dropWhile isBlank

def allBlank (s : String) : Bool :=
  s.toList.all isBlank

/-! ### Literals

A literal stands between apostrophes, and an apostrophe inside it is written twice. Between double
quotes, a quote, a backslash and every control character are escaped.
-/

def doubled : List Char → List Char
  | [] => []
  | c :: rest => if c = '\'' then '\'' :: '\'' :: doubled rest else c :: doubled rest

def quoted (s : String) : String :=
  String.ofList ('\'' :: (doubled s.toList ++ ['\'']))

def escapeOf (c : Char) : List Char :=
  if c = '"' then ['\\', '"']
  else if c = '\\' then ['\\', '\\']
  else if c = '\n' then ['\\', 'n']
  else if c = '\r' then ['\\', 'r']
  else if c = '\t' then ['\\', 't']
  else if c.toNat = 0 then ['\\', '0']
  else if c.toNat < 0x20 ∨ c.toNat = 0x7F then
    '\\' :: 'u' :: '\x7b' :: (Nat.toDigits 16 c.toNat ++ ['\x7d'])
  else [c]

def escaped (s : String) : String :=
  String.ofList ('"' :: (s.toList.flatMap escapeOf ++ ['"']))

/-! ### Fragments of a statement

Fragments are joined with a separator inside a list and with single spaces at the top of a
statement, where a space is written only between two words that would otherwise touch. No
fragment brings a line break into the statement.
-/

def isLineBreak (c : Char) : Bool :=
  c == '\r' || c == '\n'

def dropLineBreaks (s : String) : String :=
  String.ofList (s.toList.filter fun c => !isLineBreak c)

def joinWith (separator : String) : List String → String
  | [] => ""
  | [s] => s
  | s :: t :: rest => s ++ separator ++ joinWith separator (t :: rest)

def needsSpace (sql fragment : String) : Bool :=
  match sql.toList.getLast? with
  | none => false
  | some last => !isBlank last && last != '(' && fragment.toList.head? != some ')'

/-- Append a fragment, with one space where two words would touch. -/
def appendFragment (sql fragment : String) : String :=
  if fragment = "" then sql
  else if needsSpace sql fragment then sql ++ " " ++ fragment
  else sql ++ fragment

/-! ### Scanners -/

/-- A scanner reads a first part of a text and returns what it read beside what is left. -/
abbrev Scan (α : Type) := List Char → Option (α × List Char)

/-- The whole text has to be read. -/
def Scan.complete? {α : Type} (scan : Scan α) (s : String) : Option α :=
  match scan s.toList with
  | some (a, []) => some a
  | _ => none

def digitsValue (digits : List Char) : Nat :=
  digits.foldl (fun n c => 10 * n + (c.toNat - '0'.toNat)) 0

def hexDigit? (c : Char) : Option Nat :=
  if '0' ≤ c ∧ c ≤ '9' then some (c.toNat - '0'.toNat)
  else if 'a' ≤ c ∧ c ≤ 'f' then some (c.toNat - 'a'.toNat + 10)
  else if 'A' ≤ c ∧ c ≤ 'F' then some (c.toNat - 'A'.toNat + 10)
  else none

/-- The number written by digits of a base up to sixteen. -/
def valueInBase? (base : Nat) (digits : List Char) : Option Nat := do
  let values ← digits.mapM hexDigit?
  if values.all (· < base) then some (values.foldl (fun n d => base * n + d) 0) else none

end SqlComposer.Text
