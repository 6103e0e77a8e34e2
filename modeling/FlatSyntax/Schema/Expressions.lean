import FlatSyntax.Schema.Layout

/-!
# Expressions

Expressions other than literals, identifiers, functions and classes: members, calls, operators and
the wrappers around them.
-/

namespace FlatSyntax.Shape

open FlatSyntax.Field

/-- The expression `this`. -/
def thisExpression : Shape where
  size := 8

/-- The keyword `super`. -/
def super : Shape where
  size := 8

/-- An array literal, `[a, , ...b]`. -/
def arrayExpression : Shape where
  size := 32
  fields := [
    child "elements" 8 (.sequence (.union .arrayExpressionElement))]

/-- A hole in an array literal. -/
def elision : Shape where
  size := 8

/-- An object literal, `{ a, b: c, ...d }`. -/
def objectExpression : Shape where
  size := 32
  fields := [
    child "properties" 8 (.sequence (.union .objectPropertyKind))]

/-- A property of an object literal; methods and accessors count as properties. -/
def objectProperty : Shape where
  size := 48
  fields := [
    detail "kind" 40 (.choice .propertyKind),
    child "key" 8 (.union .propertyKey),
    child "value" 24 (.union .expression),
    detail "method" 41 .flag,
    detail "shorthand" 42 .flag,
    detail "computed" 43 .flag]

/-- Member access by expression, `object[property]`. -/
def computedMemberExpression : Shape where
  size := 48
  fields := [
    child "object" 8 (.union .expression),
    child "property" 24 (.union .expression),
    detail "optional" 40 .flag]

/-- Member access by name, `object.property`. -/
def staticMemberExpression : Shape where
  size := 56
  fields := [
    child "object" 8 (.union .expression),
    child "property" 24 (.node .identifierName),
    detail "optional" 48 .flag]

/-- Member access by private name, `object.#property`. -/
def privateFieldExpression : Shape where
  size := 56
  fields := [
    child "object" 8 (.union .expression),
    child "property" 24 (.node .privateIdentifier),
    detail "optional" 48 .flag]

/-- A call, `callee(...arguments)` or `callee?.()`. -/
def callExpression : Shape where
  size := 64
  fields := [
    child "callee" 8 (.union .expression),
    child "arguments" 32 (.sequence (.union .argument)),
    detail "optional" 56 .flag]

/-- An instantiation, `new callee(...arguments)`. -/
def newExpression : Shape where
  size := 56
  fields := [
    child "callee" 8 (.union .expression),
    child "arguments" 32 (.sequence (.union .argument))]

/-- The expressions `new.target` and `import.meta`. -/
def metaProperty : Shape where
  size := 56
  fields := [
    child "meta" 8 (.node .identifierName),
    child "property" 32 (.node .identifierName)]

/-- A spread, `...argument`. -/
def spreadElement : Shape where
  size := 24
  fields := [
    child "argument" 8 (.union .expression)]

/-- An increment or decrement before or after its argument. -/
def updateExpression : Shape where
  size := 32
  fields := [
    detail "operator" 24 (.choice .updateOperator),
    detail "prefix" 25 .flag,
    child "argument" 8 (.union .simpleAssignmentTarget)]

/-- A unary operator such as `typeof` or `!`. -/
def unaryExpression : Shape where
  size := 32
  fields := [
    detail "operator" 24 (.choice .unaryOperator),
    child "argument" 8 (.union .expression)]

/-- An arithmetic, comparison or bitwise operator between two expressions. -/
def binaryExpression : Shape where
  size := 48
  fields := [
    child "left" 8 (.union .expression),
    detail "operator" 40 (.choice .binaryOperator),
    child "right" 24 (.union .expression)]

/-- A test for a private name, `#field in object`. -/
def privateInExpression : Shape where
  size := 48
  fields := [
    child "left" 8 (.node .privateIdentifier),
    child "right" 32 (.union .expression)]

/-- The operators `||`, `&&` and `??`. -/
def logicalExpression : Shape where
  size := 48
  fields := [
    child "left" 8 (.union .expression),
    detail "operator" 40 (.choice .logicalOperator),
    child "right" 24 (.union .expression)]

/-- A conditional, `test ? consequent : alternate`. -/
def conditionalExpression : Shape where
  size := 56
  fields := [
    child "test" 8 (.union .expression),
    child "consequent" 24 (.union .expression),
    child "alternate" 40 (.union .expression)]

/-- An assignment, plain or compound. -/
def assignmentExpression : Shape where
  size := 48
  fields := [
    detail "operator" 40 (.choice .assignmentOperator),
    child "left" 8 (.union .assignmentTarget),
    child "right" 24 (.union .expression)]

/-- Expressions separated by commas. -/
def sequenceExpression : Shape where
  size := 32
  fields := [
    child "expressions" 8 (.sequence (.union .expression))]

/-- An `await`. -/
def awaitExpression : Shape where
  size := 24
  fields := [
    child "argument" 8 (.union .expression)]

/-- A `yield` or `yield*`. -/
def yieldExpression : Shape where
  size := 32
  fields := [
    detail "delegate" 24 .flag,
    child "argument" 8 (.optional (.union .expression))]

/-- The root of an optional chain, `a?.b.c`. -/
def chainExpression : Shape where
  size := 24
  fields := [
    child "expression" 8 (.union .chainElement)]

/-- An expression in parentheses. -/
def parenthesizedExpression : Shape where
  size := 24
  fields := [
    child "expression" 8 (.union .expression)]

/-- A dynamic import, `import(source, options)`. -/
def importExpression : Shape where
  size := 48
  fields := [
    child "source" 8 (.union .expression),
    child "options" 24 (.optional (.union .expression)),
    detail "phase" 40 (.optional (.choice .importPhase))]

/-- An intrinsic call, `%Name(...arguments)`. -/
def v8IntrinsicExpression : Shape where
  size := 56
  fields := [
    child "name" 8 (.node .identifierName),
    child "arguments" 32 (.sequence (.union .argument))]

end FlatSyntax.Shape
