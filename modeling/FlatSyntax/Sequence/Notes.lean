import FlatSyntax.Fault
import FlatSyntax.Text.Index
import FlatSyntax.Value.Basic

/-!
# Notes on a sequence

The elements of a sequence and its length are fixed, but values can be noted beside them: under an
index past the end, or under a name. A name that is the decimal text of an index is that index, and
`length` is taken.
-/

namespace FlatSyntax

/-- A key of a sequence. -/
inductive SequenceKey where
  /-- An element, or a note past the end. -/
  | index (n : Nat)
  /-- The length. -/
  | length
  /-- A note under a name. -/
  | named (name : String)
  deriving DecidableEq, Repr

namespace SequenceKey

/-- The order of keys: indices by size, then the length, then names. -/
def less : SequenceKey → SequenceKey → Bool
  | .index m, .index n => m < n
  | .index _, _ => true
  | .length, .named _ => true
  | .named s, .named t => s < t
  | _, _ => false

instance : LT SequenceKey := ⟨fun a b => less a b = true⟩

instance : DecidableLT SequenceKey := fun a b => inferInstanceAs (Decidable (less a b = true))

/-- The text of a key. -/
def text : SequenceKey → String
  | .index n => toString n
  | .length => "length"
  | .named name => name

end SequenceKey

/-- What a key of a sequence allows. -/
structure Permissions where
  /-- Whether a value can be assigned. -/
  writable : Bool
  /-- Whether the key is listed among the elements. -/
  enumerable : Bool
  /-- Whether the key can be taken away or redefined. -/
  configurable : Bool
  deriving DecidableEq, Repr

namespace Permissions

/-- An element can be seen only. -/
def element : Permissions := ⟨false, true, false⟩

/-- The length cannot even be seen among the elements. -/
def length : Permissions := ⟨false, false, false⟩

/-- A note can be changed. -/
def note : Permissions := ⟨true, true, true⟩

end Permissions

/-- A change of a sequence that is asked for. -/
inductive Edit where
  /-- Assigns to an index. -/
  | set (index : UInt64) (value : Value)
  /-- Assigns to a key given by name. -/
  | setNamed (name : String) (value : Value)
  /-- Assigns to the length. -/
  | setLength (length : UInt64)
  /-- Adds an element at the end. -/
  | push (value : Value)
  /-- Takes the last element away. -/
  | pop
  /-- Adds an element before another. -/
  | insert (index : UInt64) (value : Value)
  /-- Takes an element away. -/
  | remove (index : UInt64)
  /-- Reverses in place. -/
  | reverse
  /-- Sorts in place. -/
  | sort

/-- The notes beside a sequence, sorted by key. -/
abbrev Notes := List (SequenceKey × Value)

namespace Notes

/-- Assigns to an index of a sequence of `count` elements. -/
def set (count : Nat) (notes : Notes) (index : Nat) (value : Value) : Except Fault Notes :=
  if index < count then .error (.immutableSequence (.set index))
  else .ok (Entries.insert (.index index) value notes)

/-- Assigns to a key given by name. -/
def setNamed (count : Nat) (notes : Notes) (name : String) (value : Value) : Except Fault Notes :=
  if name = "length" then .error (.immutableSequence .setLength)
  else
    match Text.index? name with
    | some index => set count notes index value
    | none => .ok (Entries.insert (.named name) value notes)

/-- Makes a change, if it is an assignment beside the elements; any other is refused. -/
def edit (count : Nat) (notes : Notes) : Edit → Except Fault Notes
  | .set index value => notes.set count index.toNat value
  | .setNamed name value => notes.setNamed count name value
  | .setLength _ => .error (.immutableSequence .setLength)
  | .push _ => .error (.immutableSequence .push)
  | .pop => .error (.immutableSequence .pop)
  | .insert _ _ => .error (.immutableSequence .insert)
  | .remove _ => .error (.immutableSequence .remove)
  | .reverse => .error (.immutableSequence .reverse)
  | .sort => .error (.immutableSequence .sort)

/-- The note under a key. -/
def get? (notes : Notes) (key : SequenceKey) : Option Value := Entries.get? notes key

/-- The keys of a sequence of `count` elements: the elements, the notes past the end, the length,
and the notes under names. -/
def keys (count : Nat) (notes : Notes) : List SequenceKey :=
  let noted := notes.map Prod.fst
  (List.range count).map .index ++ noted.filter (fun key => key matches .index _) ++ [.length] ++
    noted.filter (fun key => key matches .named _)

/-- What a key allows, if the sequence has it. -/
def permissions? (count : Nat) (notes : Notes) (key : SequenceKey) : Option Permissions :=
  match key with
  | .length => some .length
  | .index n =>
    if n < count then some .element
    else if (notes.get? key).isSome then some .note else none
  | .named _ => if (notes.get? key).isSome then some .note else none

end Notes

end FlatSyntax
