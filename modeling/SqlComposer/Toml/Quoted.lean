import SqlComposer.Text

/-!
# TOML strings

A string stands between quotes, with escapes, or between apostrophes, without. Three of either
enclose a text of several lines: a line break right behind the opening is dropped, up to two more
quotes may stand in front of the closing ones, and a backslash at the end of a line takes the
break and all blanks behind it away.
-/
namespace SqlComposer.Toml

open SqlComposer.Text (Scan valueInBase?)

def isSpace (c : Char) : Bool := c == ' ' || c == '\t'

/-- Every character but the control characters, of which the tab alone is allowed. -/
def isPlain (c : Char) : Bool := c == '\t' || (0x20 ≤ c.toNat && c.toNat != 0x7F)

def afterBreak? : List Char → Option (List Char)
  | '\n' :: rest => some rest
  | '\r' :: '\n' :: rest => some rest
  | _ => none

def dropBreak (cs : List Char) : List Char :=
  (afterBreak? cs).getD cs

def escaped? (c : Char) : Option Char :=
  if c = '"' ∨ c = '\\' then some c
  else if c = 'b' then some (Char.ofNat 8)
  else if c = 'f' then some (Char.ofNat 12)
  else if c = 'n' then some '\n'
  else if c = 'r' then some '\r'
  else if c = 't' then some '\t'
  else none

/-- The character whose number these hexadecimal digits write. -/
def numbered? (digits : List Char) : Option Char := do
  let n ← valueInBase? 16 digits
  if n.isValidChar then some (Char.ofNat n) else none

def before (c : Char) (read : Option (List Char × List Char)) : Option (List Char × List Char) :=
  read.map fun (cs, rest) => (c :: cs, rest)

def basicBody : Scan (List Char)
  | [] => none
  | '"' :: rest => some ([], rest)
  | '\\' :: 'u' :: a :: b :: c :: d :: rest => do
    before (← numbered? [a, b, c, d]) (basicBody rest)
  | '\\' :: 'U' :: a :: b :: c :: d :: e :: f :: g :: h :: rest => do
    before (← numbered? [a, b, c, d, e, f, g, h]) (basicBody rest)
  | '\\' :: e :: rest => do before (← escaped? e) (basicBody rest)
  | c :: rest => if isPlain c && c != '\\' then before c (basicBody rest) else none

def literalBody : Scan (List Char)
  | [] => none
  | '\'' :: rest => some ([], rest)
  | c :: rest => if isPlain c then before c (literalBody rest) else none

/-- Whether nothing but blanks stands in front of the next line break. -/
def endsLine (cs : List Char) : Bool :=
  (afterBreak? (cs.dropWhile isSpace)).isSome

/-- The rest of a string of several lines behind its opening quotes; `folding` while blanks and
line breaks are taken away. -/
def basicLines (folding : Bool) : Scan (List Char)
  | [] => none
  | '"' :: '"' :: '"' :: '"' :: '"' :: rest => some (['"', '"'], rest)
  | '"' :: '"' :: '"' :: '"' :: rest => some (['"'], rest)
  | '"' :: '"' :: '"' :: rest => some ([], rest)
  | '\\' :: 'u' :: a :: b :: c :: d :: rest => do
    before (← numbered? [a, b, c, d]) (basicLines false rest)
  | '\\' :: 'U' :: a :: b :: c :: d :: e :: f :: g :: h :: rest => do
    before (← numbered? [a, b, c, d, e, f, g, h]) (basicLines false rest)
  | '\\' :: e :: rest =>
    if endsLine (e :: rest) then basicLines true (e :: rest)
    else do before (← escaped? e) (basicLines false rest)
  | '\r' :: '\n' :: rest =>
    if folding then basicLines true rest else before '\n' (basicLines false rest)
  | '\n' :: rest =>
    if folding then basicLines true rest else before '\n' (basicLines false rest)
  | c :: rest =>
    if folding && isSpace c then basicLines true rest
    else if isPlain c && c != '\\' then before c (basicLines false rest)
    else none

/-- The rest of a string of several lines behind its opening apostrophes. -/
def literalLines : Scan (List Char)
  | [] => none
  | '\'' :: '\'' :: '\'' :: '\'' :: '\'' :: rest => some (['\'', '\''], rest)
  | '\'' :: '\'' :: '\'' :: '\'' :: rest => some (['\''], rest)
  | '\'' :: '\'' :: '\'' :: rest => some ([], rest)
  | '\r' :: '\n' :: rest => before '\n' (literalLines rest)
  | '\n' :: rest => before '\n' (literalLines rest)
  | c :: rest => if isPlain c then before c (literalLines rest) else none

/-- A string on one line. -/
def lineString : Scan String := fun cs =>
  match cs with
  | '"' :: rest => (basicBody rest).map fun (s, rest) => (String.ofList s, rest)
  | '\'' :: rest => (literalBody rest).map fun (s, rest) => (String.ofList s, rest)
  | _ => none

def string : Scan String := fun cs =>
  match cs with
  | '"' :: '"' :: '"' :: rest =>
    (basicLines false (dropBreak rest)).map fun (s, rest) => (String.ofList s, rest)
  | '\'' :: '\'' :: '\'' :: rest =>
    (literalLines (dropBreak rest)).map fun (s, rest) => (String.ofList s, rest)
  | _ => lineString cs

end SqlComposer.Toml
