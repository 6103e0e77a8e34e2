import FlatSyntax.Schema.Layout

/-!
# Literals and identifiers

The leaves of the tree: literals with the text they were written as, template literals with their
chunks, and the five kinds of identifier.
-/

namespace FlatSyntax.Shape

open FlatSyntax.Field

/-- A literal `true` or `false`. -/
def booleanLiteral : Shape where
  size := 12
  fields := [
    detail "value" 8 .flag]

/-- The literal `null`. -/
def nullLiteral : Shape where
  size := 8

/-- A number such as `1`, `0x1f` or `1e3`: its value and the text it was written as. -/
def numericLiteral : Shape where
  size := 32
  fields := [
    detail "value" 8 .double,
    detail "raw" 16 (.optional .text)]

/-- A string literal: its value with escapes resolved and the text it was written as. -/
def stringLiteral : Shape where
  size := 48
  absence := .reservedTag 40 2
  fields := [
    detail "value" 8 .text,
    detail "raw" 24 (.optional .text)]

/-- A big integer such as `10n`. -/
def bigIntLiteral : Shape where
  size := 40
  fields := [
    detail "value" 8 .text,
    detail "raw" 24 (.optional .text)]

/-- A regular expression literal, `/pattern/flags`. -/
def regExpLiteral : Shape where
  size := 56
  fields := [
    detail "regex" 8 (.record .regExp),
    detail "raw" 40 (.optional .text)]

/-- The pattern and the flags of a regular expression. -/
def regExp : Shape where
  size := 32
  fields := [
    detail "pattern" 0 (.record .regExpPattern),
    detail "flags" 24 .regExpFlags]

/-- The text of a regular expression pattern, without the slashes. -/
def regExpPattern : Shape where
  size := 16
  fields := [
    detail "pattern" 0 .text]

/-- A template literal: the static chunks and the expressions between them. -/
def templateLiteral : Shape where
  size := 56
  fields := [
    child "quasis" 8 (.sequence (.node .templateElement)),
    child "expressions" 32 (.sequence (.union .expression))]

/-- A template literal with a tag in front. -/
def taggedTemplateExpression : Shape where
  size := 88
  fields := [
    child "tag" 8 (.union .expression),
    child "quasi" 32 (.node .templateLiteral)]

/-- One static chunk of a template literal. -/
def templateElement : Shape where
  size := 48
  fields := [
    detail "value" 8 (.record .templateElementValue),
    detail "tail" 40 .flag]

/-- The raw and the cooked text of a chunk; there is no cooked text if an escape is invalid. -/
def templateElementValue : Shape where
  size := 32
  fields := [
    detail "raw" 0 .text,
    detail "cooked" 16 (.optional .text)]

/-- A name that is neither bound nor looked up, such as `a` in `x.a`. -/
def identifierName : Shape where
  size := 24
  fields := [
    detail "name" 8 .text]

/-- A name that refers to a binding. -/
def identifierReference : Shape where
  size := 24
  fields := [
    detail "name" 8 .text]

/-- A name that introduces a binding. -/
def bindingIdentifier : Shape where
  size := 24
  absence := .nullPointer 8
  fields := [
    detail "name" 8 .text]

/-- A label, as in `foo:`, `break foo` and `continue foo`. -/
def labelIdentifier : Shape where
  size := 24
  absence := .nullPointer 8
  fields := [
    detail "name" 8 .text]

/-- A private name, `#name`. -/
def privateIdentifier : Shape where
  size := 24
  fields := [
    detail "name" 8 .text]

end FlatSyntax.Shape
