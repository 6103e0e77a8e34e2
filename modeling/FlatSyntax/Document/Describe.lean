import FlatSyntax.Document.Datum
import FlatSyntax.Text.Quoted

/-!
# Descriptions

Short texts that say what a view, a sequence, a union, a name slot or a document is and where it is,
without reading any further.
-/

namespace FlatSyntax

/-- A name and named numbers in braces, with dots for what is left out. -/
def describeParts (name : String) (parts : List String) : String :=
  name ++ " \x7b " ++ String.join (parts.map (· ++ ", ")) ++ ".. \x7d"

/-- What an item is and where it is. -/
def Item.describe {τ : Type} (item : Item τ) : String :=
  match item.place with
  | .view kind pos => describeParts kind.name [s!"pos: {pos}"]
  | .sequence element pos =>
    describeParts "NodeVec" ["element: " ++ Text.listed element.name, s!"pos: {pos}",
      s!"ptr: {item.extent.base}", s!"len: {item.extent.count}"]

/-- The two ends of a source range. -/
def Span.describe (s : Span) : String := s!"Span \x7b start: {s.start}, end: {s.stop} \x7d"

/-- What a datum with a view or a sequence in it is, and what a name slot holds. -/
def Datum.describe? {τ : Type} : Datum (Item τ) → Option String
  | .object item => some item.describe
  | .variant _ v item => some (s!"{v.name}({item.describe})")
  | .slot _ c .nothing => some c.name
  | .slot _ c (.range s) => some (s!"{c.name}({s.describe})")
  | .slot _ c (.name item) => some (s!"{c.name}({item.describe})")
  | _ => none

/-- The sizes of a document, as the beginning of the description of its session. -/
def Document.describe (doc : Document) : String :=
  s!"Ast \x7b buffer_len: {doc.size}, source_len: {doc.sourceLength}, " ++
    s!"source_is_ascii: {doc.sourceIsAscii}"

end FlatSyntax
