import FlatSyntax.Schema.Layout

/-!
# Markup

Elements, fragments, attributes and text of markup embedded in expressions.
-/

namespace FlatSyntax.Shape

open FlatSyntax.Field

/-- An element with its children. -/
def jsxElement : Shape where
  size := 48
  fields := [
    child "openingElement" 8 (.boxed (.node .jsxOpeningElement)),
    child "children" 16 (.sequence (.union .jsxChild)),
    child "closingElement" 40 (.optional (.boxed (.node .jsxClosingElement)))]

/-- The opening tag of an element. -/
def jsxOpeningElement : Shape where
  size := 56
  fields := [
    child "name" 8 (.union .jsxElementName),
    child "attributes" 32 (.sequence (.union .jsxAttributeItem))]

/-- The closing tag of an element. -/
def jsxClosingElement : Shape where
  size := 24
  fields := [
    child "name" 8 (.union .jsxElementName)]

/-- A fragment with its children. -/
def jsxFragment : Shape where
  size := 48
  fields := [
    child "openingFragment" 8 (.node .jsxOpeningFragment),
    child "children" 16 (.sequence (.union .jsxChild)),
    child "closingFragment" 40 (.node .jsxClosingFragment)]

/-- The opening tag of a fragment. -/
def jsxOpeningFragment : Shape where
  size := 8

/-- The closing tag of a fragment. -/
def jsxClosingFragment : Shape where
  size := 8

/-- A name with a namespace. -/
def jsxNamespacedName : Shape where
  size := 56
  fields := [
    child "namespace" 8 (.node .jsxIdentifier),
    child "name" 32 (.node .jsxIdentifier)]

/-- A dotted element name. -/
def jsxMemberExpression : Shape where
  size := 48
  fields := [
    child "object" 8 (.union .jsxMemberExpressionObject),
    child "property" 24 (.node .jsxIdentifier)]

/-- An expression in braces. -/
def jsxExpressionContainer : Shape where
  size := 24
  fields := [
    child "expression" 8 (.union .jsxExpression)]

/-- The empty expression between two braces. -/
def jsxEmptyExpression : Shape where
  size := 8

/-- An attribute with an optional value. -/
def jsxAttribute : Shape where
  size := 40
  fields := [
    child "name" 8 (.union .jsxAttributeName),
    child "value" 24 (.optional (.union .jsxAttributeValue))]

/-- A spread among the attributes. -/
def jsxSpreadAttribute : Shape where
  size := 24
  fields := [
    child "argument" 8 (.union .expression)]

/-- A name of an element or an attribute. -/
def jsxIdentifier : Shape where
  size := 24
  fields := [
    detail "name" 8 .text]

/-- A spread among the children. -/
def jsxSpreadChild : Shape where
  size := 24
  fields := [
    child "expression" 8 (.union .expression)]

/-- Text between tags. -/
def jsxText : Shape where
  size := 40
  fields := [
    detail "value" 8 .text,
    detail "raw" 24 (.optional .text)]

end FlatSyntax.Shape
