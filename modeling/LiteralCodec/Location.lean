/-!
# Locations

Where something stands in a source: a line and a column, both counted from one. Columns count UTF-8
bytes. Things that come from no source have no location.

Operations: the texts of locations and of what has one.
-/

namespace LiteralCodec

/-- A line and a column. -/
structure Location where
  line : Nat
  column : Nat
  deriving DecidableEq, Repr

/-- A location as it stands in a message. -/
def Location.text (loc : Location) : String :=
  "(line: " ++ toString loc.line ++ ", col: " ++ toString loc.column ++ ")"

/-- A text behind the location it is about. -/
def Location.label (loc : Option Location) (text : String) : String :=
  match loc with
  | none => "@<unknown location>: " ++ text
  | some loc => "@" ++ loc.text ++ ": " ++ text

/-- Something with the location it stands at, if it has one. -/
structure Located (α : Type) where
  loc : Option Location
  item : α
  deriving DecidableEq, Repr

/-- A word of a source, or a text that could be one. -/
abbrev Token := Located String

/-- A token as it stands in a message. -/
def Token.text (token : Token) : String := Location.label token.loc token.item

end LiteralCodec
