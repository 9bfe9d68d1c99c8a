import PositionalRecord.Text.Quoted

/-!
# Documents

The text of a structured value is a document: atoms, quoted characters, labelled parts, and
bracketed groups of parts. A document has two layouts. The compact one writes everything on one
line, with a comma and a blank between parts. The indented one gives each part of a group a line of
its own, four blanks further in than the group and with a comma at its end. A group without parts
is just its brackets.
-/

namespace PositionalRecord

/-- A text with its structure. -/
inductive Doc
  | atom (text : String)
  | quoted (quote : Char) (content : List Char)
  | labelled (label : String) (body : Doc)
  | group (opening closing : String) (padded : Bool) (items : List Doc)

namespace Doc

def string (content : String) : Doc := .quoted Quoted.double content.toList

def char (content : Char) : Doc := .quoted Quoted.single [content]

/-- A list in square brackets. -/
def list (items : List Doc) : Doc := .group "[" "]" false items

/-- A map: entries in braces. -/
def entries (items : List (Nat × Doc)) : Doc :=
  .group "\x7b" "\x7d" false (items.map fun item ↦ .labelled (toString item.1) item.2)

def pair (left right : Doc) : Doc := .group "(" ")" false [left, right]

/-- A name applied to one part. -/
def applied (name : String) (body : Doc) : Doc := .group (name ++ "(") ")" false [body]

/-- A name with named fields in braces, which blanks keep apart from the fields. -/
def fields (name : String) (items : List (String × Doc)) : Doc :=
  .group (name ++ " \x7b") "\x7d" true (items.map fun item ↦ .labelled item.1 item.2)

variable (isUnprintable : Char → Bool)

/-! ## The compact layout -/

mutual

def compact : Doc → String
  | .atom text => text
  | .quoted quote content => Quoted.enclose isUnprintable quote content
  | .labelled label body => label ++ ": " ++ compact body
  | .group opening closing padded items =>
    let blank := if padded && !items.isEmpty then " " else ""
    opening ++ blank ++ ", ".intercalate (compactEach items) ++ blank ++ closing

def compactEach : List Doc → List String
  | [] => []
  | item :: rest => compact item :: compactEach rest

end

/-! ## The indented layout -/

/-- The blanks that open a line at a depth. -/
def margin (depth : Nat) : String := String.ofList (List.replicate (4 * depth) ' ')

mutual

/-- The document inside `depth` groups, from the middle of a line. -/
def indentedAt (depth : Nat) : Doc → String
  | .atom text => text
  | .quoted quote content => Quoted.enclose isUnprintable quote content
  | .labelled label body => label ++ ": " ++ indentedAt depth body
  | .group opening closing _ items =>
    if items.isEmpty then opening ++ closing
    else opening ++ "\n" ++ linesAt (depth + 1) items ++ margin depth ++ closing

/-- The parts of a group, one after the other on their own lines. -/
def linesAt (depth : Nat) : List Doc → String
  | [] => ""
  | item :: rest => margin depth ++ indentedAt depth item ++ ",\n" ++ linesAt depth rest

end

end Doc

/-! ## Either layout -/

/-- How a document is laid out, and which characters are written by their number. -/
structure Layout where
  isIndented : Bool
  isUnprintable : Char → Bool

def Doc.render (layout : Layout) (doc : Doc) : String :=
  if layout.isIndented then doc.indentedAt layout.isUnprintable 0
  else doc.compact layout.isUnprintable

end PositionalRecord
