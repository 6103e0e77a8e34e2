/-!
# Faults

Everything that can go wrong while reading, walking, annotating or registering, and how it is
worded. Faults of reading carry the numbers that prove them: the range that was asked for and the
size of the region it should lie in, or the tag that no variant has.
-/

namespace FlatSyntax

/-- A change of a sequence that was refused. -/
inductive Mutation where
  /-- Assignment to an index that holds an element. -/
  | set (index : Nat)
  /-- Assignment to the length. -/
  | setLength
  /-- Adding an element at the end. -/
  | push
  /-- Taking the last element away. -/
  | pop
  /-- Adding an element before another. -/
  | insert
  /-- Taking an element away. -/
  | remove
  /-- Reversing in place. -/
  | reverse
  /-- Sorting in place. -/
  | sort
  deriving DecidableEq, Repr

/-- What was attempted, as a verb phrase. -/
def Mutation.text : Mutation → String
  | .set index => s!"set index {index}"
  | .setLength => "set length"
  | .push => "push"
  | .pop => "pop"
  | .insert => "insert"
  | .remove => "remove"
  | .reverse => "reverse"
  | .sort => "sort"

/-- What went wrong. -/
inductive Fault where
  /-- A token or a sequence of one session was used with another. -/
  | foreignSession
  /-- A tag byte that no variant of the union, choice or name slot has. -/
  | unexpectedTag (type : String) (tag : UInt8)
  /-- Sequences cannot be changed. -/
  | immutableSequence (attempt : Mutation)
  /-- A visitor key names no node kind. -/
  | unknownKind (name : String)
  /-- A visitor key is not a name, or a name followed by the suffix for leaving. -/
  | malformedKey (key : String)
  /-- A range that does not lie in its region. -/
  | outOfBounds (offset length size : Nat)
  /-- An optional field of a type whose absence has no encoding. -/
  | noAbsence (field type : String)
  /-- Nesting went past the limit. -/
  | tooDeep (limit : Nat)
  deriving DecidableEq, Repr

/-- The wording of a fault. -/
def Fault.message : Fault → String
  | .foreignSession => "object belongs to a different decode session"
  | .unexpectedTag type tag => s!"unexpected discriminant {tag.toNat} for {type}"
  | .immutableSequence attempt => s!"cannot {attempt.text} on a node sequence"
  | .unknownKind name => s!"unknown node kind `{name}` in visitor"
  | .malformedKey key => s!"malformed visitor key `{key}`, expected `Kind` or `Kind:exit`"
  | .outOfBounds offset length size =>
      s!"{length} bytes at offset {offset} lie outside a region of {size} bytes"
  | .noAbsence field type =>
      s!"field `{field}` is optional but `{type}` has no encoding for an absent value"
  | .tooDeep limit => s!"tree nests deeper than {limit} levels"

end FlatSyntax
