import SqlComposer.Text

/-!
# JSON strings

A string is written with the short escapes where there is one and `\u00XX` for every other control
character; all else stands for itself. Reading takes every escape, and a character beyond the
first plane may be escaped as a pair of surrogates.
-/
namespace SqlComposer.Json

open SqlComposer.Text (Scan valueInBase?)

def hexDigits (width n : Nat) : List Char :=
  let digits := Nat.toDigits 16 n
  List.replicate (width - digits.length) '0' ++ digits

def escape (c : Char) : List Char :=
  if c = '"' then ['\\', '"']
  else if c = '\\' then ['\\', '\\']
  else if c = '\n' then ['\\', 'n']
  else if c = '\r' then ['\\', 'r']
  else if c = '\t' then ['\\', 't']
  else if c.toNat = 8 then ['\\', 'b']
  else if c.toNat = 12 then ['\\', 'f']
  else if c.toNat < 0x20 then '\\' :: 'u' :: hexDigits 4 c.toNat
  else [c]

def stringText (s : String) : String :=
  String.ofList ('"' :: (s.toList.flatMap escape ++ ['"']))

def unescape? (c : Char) : Option Char :=
  if c = '"' ∨ c = '\\' ∨ c = '/' then some c
  else if c = 'b' then some (Char.ofNat 8)
  else if c = 'f' then some (Char.ofNat 12)
  else if c = 'n' then some '\n'
  else if c = 'r' then some '\r'
  else if c = 't' then some '\t'
  else none

def isHighSurrogate (n : Nat) : Bool := 0xD800 ≤ n && n ≤ 0xDBFF

def isLowSurrogate (n : Nat) : Bool := 0xDC00 ≤ n && n ≤ 0xDFFF

def pairChar (high low : Nat) : Char :=
  Char.ofNat (0x10000 + (high - 0xD800) * 0x400 + (low - 0xDC00))

/-- The rest of a string whose opening quote has been read. -/
def stringBody : Scan (List Char)
  | [] => none
  | '"' :: rest => some ([], rest)
  | '\\' :: 'u' :: a :: b :: c :: d :: rest =>
    match valueInBase? 16 [a, b, c, d] with
    | none => none
    | some unit =>
      if isLowSurrogate unit then none
      else if isHighSurrogate unit then
        match rest with
        | '\\' :: 'u' :: e :: f :: g :: h :: rest =>
          match valueInBase? 16 [e, f, g, h] with
          | some low =>
            if isLowSurrogate low then
              (stringBody rest).map fun (cs, rest) => (pairChar unit low :: cs, rest)
            else none
          | none => none
        | _ => none
      else (stringBody rest).map fun (cs, rest) => (Char.ofNat unit :: cs, rest)
  | '\\' :: e :: rest =>
    match unescape? e with
    | some c => (stringBody rest).map fun (cs, rest) => (c :: cs, rest)
    | none => none
  | c :: rest =>
    if c.toNat < 0x20 ∨ c = '\\' then none
    else (stringBody rest).map fun (cs, rest) => (c :: cs, rest)

end SqlComposer.Json
