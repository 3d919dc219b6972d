import SqlComposer.Toml.Growth
import SqlComposer.Toml.Quoted
import SqlComposer.Toml.Scalar

/-!
# Reading a TOML document

A document is a sequence of lines: blank ones, comments, headers and keys with their values. Keys
belong to the table of the last header. Neither a dotted key nor a value is nested in itself more
than 79 deep.
-/
namespace SqlComposer.Toml

open SqlComposer.Text (Scan)

def deepest : Nat := 79

def skipSpace (cs : List Char) : List Char :=
  cs.dropWhile isSpace

/-- The text behind the end of a line, in front of which blanks and a comment may stand. -/
def lineEnd? (cs : List Char) : Option (List Char) :=
  let rest :=
    match skipSpace cs with
    | '#' :: rest => rest.dropWhile isPlain
    | rest => rest
  match rest with
  | [] => some []
  | rest => afterBreak? rest

/-- Skip blanks, line breaks and comments; `comment` while inside of one. -/
def skipGap (comment : Bool) : List Char → List Char
  | [] => []
  | '\n' :: rest => skipGap false rest
  | '\r' :: '\n' :: rest => skipGap false rest
  | c :: rest =>
    if comment && isPlain c then skipGap true rest
    else if isSpace c then skipGap false rest
    else if c == '#' then skipGap true rest
    else c :: rest

def isBareChar (c : Char) : Bool := c.isAlphanum || c == '-' || c == '_'

def simpleKey : Scan String := fun cs =>
  let bare := cs.takeWhile isBareChar
  if bare = [] then lineString cs else some (String.ofList bare, cs.drop bare.length)

/-- At most so many keys with points between them: those on the way and the last one. -/
def dottedKeys : Nat → Scan (List String × String)
  | 0, _ => none
  | most + 1, cs => do
    let (key, cs) ← simpleKey (skipSpace cs)
    match skipSpace cs with
    | '.' :: rest =>
      let ((path, last), rest) ← dottedKeys most rest
      pure ((key :: path, last), rest)
    | rest => pure (([], key), rest)

def keys : Scan (List String × String) := dottedKeys deepest

/-- The items of an array behind its opening bracket. A comma may follow the last item. -/
def items (value : Scan Toml) : Nat → Scan (List Toml)
  | 0, _ => none
  | fuel + 1, cs =>
    match skipGap false cs with
    | ']' :: rest => some ([], rest)
    | cs => do
      let (v, cs) ← value cs
      match skipGap false cs with
      | ',' :: rest =>
        let (vs, rest) ← items value fuel rest
        pure (v :: vs, rest)
      | ']' :: rest => pure ([v], rest)
      | _ => none

/-- Keys and values behind the ones read so far, up to a closing brace. -/
def inlineFields (value : Scan Toml) : Nat → Fields → Scan Fields
  | 0, _, _ => none
  | fuel + 1, fields, cs => do
    match ← keys cs with
    | ((path, key), '=' :: cs) =>
      let (v, cs) ← value (skipSpace cs)
      let fields ← assign v key path fields
      match skipSpace cs with
      | ',' :: rest => inlineFields value fuel fields rest
      | '\x7d' :: rest => pure (fields, rest)
      | _ => none
    | _ => none

/-- A table in braces behind the opening one, on one line and without a comma at its end. -/
def inlineTable (value : Scan Toml) : Scan Fields := fun cs =>
  match skipSpace cs with
  | '\x7d' :: rest => some ([], rest)
  | cs => inlineFields value (cs.length + 1) [] cs

def atom : Scan Toml := fun cs =>
  ((string cs).map fun (s, rest) => (.text s, rest)).or (scalar cs)

/-- A value in which arrays and tables are nested at most so deep. -/
def value : Nat → Scan Toml
  | 0 => atom
  | depth + 1 => fun cs =>
    match cs with
    | '[' :: rest => (items (value depth) (rest.length + 1) rest).map fun (vs, rest) =>
        (.array vs, rest)
    | '\x7b' :: rest => (inlineTable (value depth) rest).map fun (fields, rest) =>
        (.table .inline fields, rest)
    | _ => atom cs

def assignment : Scan ((List String × String) × Toml) := fun cs => do
  match ← keys cs with
  | (key, '=' :: cs) =>
    let (v, cs) ← value deepest (skipSpace cs)
    pure ((key, v), ← lineEnd? cs)
  | _ => none

/-- A header behind its opening brackets, up to the end of the line. -/
def header (closing : List Char) : Scan (List String × String) := fun cs => do
  let (key, cs) ← keys cs
  if closing.isPrefixOf cs then pure (key, ← lineEnd? (cs.drop closing.length)) else none

/-- Go on at a line, with the path of the last header and the document so far. -/
def lines : Nat → List String → Fields → List Char → Option Fields
  | 0, _, _, _ => none
  | fuel + 1, current, root, cs =>
    match skipSpace cs with
    | [] => some root
    | '[' :: '[' :: rest => do
      let ((path, key), rest) ← header [']', ']'] rest
      lines fuel (path ++ [key]) (← openItem path key root) rest
    | '[' :: rest => do
      let ((path, key), rest) ← header [']'] rest
      lines fuel (path ++ [key]) (← openTable path key root) rest
    | cs =>
      match lineEnd? cs with
      | some rest => lines fuel current root rest
      | none => do
        let (((path, key), v), rest) ← assignment cs
        lines fuel current (← within (assign v key path) current root) rest

def fields? (s : String) : Option Fields :=
  let cs := s.toList
  let cs := if cs.head? = some '\ufeff' then cs.tail else cs
  lines (cs.length + 1) [] [] cs

def read (s : String) : Except Fault Toml :=
  match fields? s with
  | some fields => .ok (.table .header fields)
  | none => .error (fault "the text is not a TOML document")

end SqlComposer.Toml
