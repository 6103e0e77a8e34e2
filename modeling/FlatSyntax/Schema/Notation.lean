import FlatSyntax.Schema.Catalogue

/-!
# The notation of layouts

A layout is written as a name, or as a wrapper around another layout: `Boxed<Str>`,
`Seq<Option<BindingPattern>>`. There are no blanks.
-/

namespace FlatSyntax.Layout

/-- The layouts that a name alone denotes. -/
def named : List Layout :=
  [.byte, .word, .double, .flag, .span, .regExpFlags, .text] ++
  NodeKind.all.map Layout.node ++ RecordKind.all.map Layout.record ++
  UnionKind.all.map Layout.union ++ ChoiceKind.all.map Layout.choice ++ SlotKind.all.map Layout.slot

/-- The layout with the given name. -/
def ofName? (name : String) : Option Layout := named.find? fun layout => layout.name == name

/-- The wrapper with the given name. -/
def wrapper? : String → Option (Layout → Layout)
  | "Boxed" => some .boxed
  | "Seq" => some .sequence
  | "Option" => some .optional
  | _ => none

/-- Reads a layout split at its opening brackets: all parts but the last name wrappers, and the last
is a name closed by as many brackets as were opened before it. -/
def ofParts? (opened : Nat) : List String → Option Layout
  | [] => none
  | [last] => do
    let chars := last.toList
    guard (chars.dropWhile (· != '>') = List.replicate opened '>')
    ofName? (String.ofList (chars.takeWhile (· != '>')))
  | part :: rest => do
    let wrap ← wrapper? part
    return wrap (← ofParts? (opened + 1) rest)

/-- The layout denoted by a notation. -/
def ofNotation? (notated : String) : Option Layout := ofParts? 0 (notated.splitOn "<")

end FlatSyntax.Layout

namespace FlatSyntax.ViewKind

/-- The view with the given name. -/
def ofName? (name : String) : Option ViewKind :=
  (NodeKind.all.map ViewKind.node ++ RecordKind.all.map ViewKind.record).find? fun kind =>
    kind.name == name

end FlatSyntax.ViewKind
