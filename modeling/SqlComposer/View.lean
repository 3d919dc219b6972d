import SqlComposer.Dialect

/-!
# What a part sees of its statement

A part is written with the dialect, the alias table and the tags of the whole statement in view.
-/
namespace SqlComposer

/-- The identity of a part, different for any two parts of a statement. -/
abbrev Key := Nat

/-- The first alias that each entity was given. -/
abbrev AliasTable := List (String × String)

namespace AliasTable

def find? (table : AliasTable) (entity : String) : Option String :=
  table.lookup entity

/-- An entity keeps the first alias it was given. -/
def set (table : AliasTable) (entity tableAlias : String) : AliasTable :=
  if (find? table entity).isSome then table else table ++ [(entity, tableAlias)]

end AliasTable

structure View where
  dialect : Dialect
  /-- whether columns are written with their table -/
  qualify : Bool
  aliases : AliasTable
  /-- the tags of the top-level parts -/
  tags : List Tag
  /-- the tags of all parts, depth first -/
  allTags : List Tag
  /-- the last item of a table definition, which no comma follows -/
  lastTableItem : Option Key

end SqlComposer
