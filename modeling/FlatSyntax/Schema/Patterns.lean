import FlatSyntax.Schema.Layout

/-!
# Patterns

What stands to the left of an assignment, and what a declaration, a parameter or a `catch` binds.
-/

namespace FlatSyntax.Shape

open FlatSyntax.Field

/-- An array pattern that is assigned to, `[a, b] = value`. -/
def arrayAssignmentTarget : Shape where
  size := 32
  fields := [
    child "elements" 8 (.sequence (.optional (.union .assignmentTargetMaybeDefault)))]

/-- An object pattern that is assigned to, `({ a, b } = value)`. -/
def objectAssignmentTarget : Shape where
  size := 32
  fields := [
    child "properties" 8 (.sequence (.union .assignmentTargetProperty))]

/-- A target with a default value. -/
def assignmentTargetWithDefault : Shape where
  size := 40
  fields := [
    child "left" 8 (.union .assignmentTarget),
    child "right" 24 (.union .expression)]

/-- A shorthand property `{ key = value }` of an object target. -/
def assignmentTargetPropertyIdentifier : Shape where
  size := 56
  fields := [
    child "key" 8 (.node .identifierReference),
    child "value" 40 (.optional (.union .expression))]

/-- A property `{ key: value }` of an object target. -/
def assignmentTargetPropertyProperty : Shape where
  size := 48
  fields := [
    child "key" 8 (.union .propertyKey),
    child "value" 24 (.union .assignmentTargetMaybeDefault),
    detail "computed" 40 .flag]

/-- What is bound: a name, an object or array pattern, or a pattern with a default. -/
def bindingPattern : Shape where
  size := 32
  absence := .reservedTag 24 2
  fields := [
    child "kind" 0 (.union .bindingPatternKind),
    detail "optional" 24 .flag]

/-- A pattern with a default value. -/
def assignmentPattern : Shape where
  size := 56
  fields := [
    child "left" 8 (.record .bindingPattern),
    child "right" 40 (.union .expression)]

/-- An object pattern that is bound, `{ a, b: c }`. -/
def objectPattern : Shape where
  size := 32
  fields := [
    child "properties" 8 (.sequence (.node .bindingProperty))]

/-- A property of an object pattern. -/
def bindingProperty : Shape where
  size := 64
  fields := [
    child "key" 8 (.union .propertyKey),
    child "value" 24 (.record .bindingPattern),
    detail "shorthand" 56 .flag,
    detail "computed" 57 .flag]

/-- An array pattern that is bound, `[a, , b]`. -/
def arrayPattern : Shape where
  size := 32
  fields := [
    child "elements" 8 (.sequence (.optional (.record .bindingPattern)))]

/-- One parameter with its decorators. -/
def formalParameter : Shape where
  size := 72
  fields := [
    child "decorators" 8 (.sequence (.node .decorator)),
    child "pattern" 32 (.record .bindingPattern)]

/-- What a `catch` clause binds. -/
def catchParameter : Shape where
  size := 40
  absence := .reservedTag 32 2
  fields := [
    child "pattern" 8 (.record .bindingPattern)]

end FlatSyntax.Shape
