import SqlComposer.Text

/-!
# Identifiers of 128 bits

Written in lower case with hyphens, as 8, 4, 4, 4 and 12 hexadecimal digits.
-/
namespace SqlComposer

structure Uuid where
  bits : BitVec 128
  deriving DecidableEq, Repr

namespace Uuid

/-- Where the hyphens of the written form stand among the 32 digits. -/
def groups : List Nat := [8, 4, 4, 4, 12]

def hyphenated : List Nat → List Char → List Char
  | [], rest => rest
  | [n], rest => rest.take n
  | n :: more, rest => rest.take n ++ '-' :: hyphenated more (rest.drop n)

def text (u : Uuid) : String :=
  let digits := Nat.toDigits 16 u.bits.toNat
  String.ofList (hyphenated groups (List.replicate (32 - digits.length) '0' ++ digits))

/-- Remove the hyphens, each of which has to stand in its place. -/
def unhyphenated? : List Nat → List Char → Option (List Char)
  | [], [] => some []
  | [], _ => none
  | [n], rest => if rest.length = n then some rest else none
  | n :: more, rest =>
    match rest.drop n with
    | '-' :: after => (unhyphenated? more after).map (rest.take n ++ ·)
    | _ => none

/-- The digits of an identifier, which may be bare, hyphenated, hyphenated in braces or hyphenated
behind `urn:uuid:`. -/
def digits? (s : String) : Option (List Char) :=
  let cs := s.toList
  let urn := "urn:uuid:".toList
  if cs.length = 32 then some cs
  else if cs.length = 36 then unhyphenated? groups cs
  else if cs.length = 38 ∧ cs.head? = some '\x7b' ∧ cs.getLast? = some '\x7d' then
    unhyphenated? groups (cs.tail.take 36)
  else if cs.length = 45 ∧ cs.take 9 = urn then unhyphenated? groups (cs.drop 9)
  else none

def read? (s : String) : Option Uuid := do
  let digits ← digits? s
  let n ← Text.valueInBase? 16 digits
  pure ⟨BitVec.ofNat 128 n⟩

end Uuid

end SqlComposer
