import FlatSyntax.Schema.Layout

/-!
# Functions and classes

Functions with their parameter lists and bodies, and classes with their members.
-/

namespace FlatSyntax.Shape

open FlatSyntax.Field

/-- A function; its `"type"` says whether it is a declaration or an expression. -/
def function : Shape where
  size := 88
  fields := [
    detail "type" 84 (.choice .functionType),
    child "id" 8 (.optional (.node .bindingIdentifier)),
    detail "generator" 85 .flag,
    detail "async" 86 .flag,
    detail "declare" 87 .flag,
    child "params" 56 (.boxed (.node .formalParameters)),
    child "body" 72 (.optional (.boxed (.node .functionBody)))]

/-- The parameter list of a function. -/
def formalParameters : Shape where
  size := 48
  fields := [
    detail "kind" 40 (.choice .formalParameterKind),
    child "items" 8 (.sequence (.record .formalParameter))]

/-- The body of a function. -/
def functionBody : Shape where
  size := 56
  fields := [
    child "body" 32 (.sequence (.union .statement))]

/-- An arrow function. If `expression` is set, the body is a single expression statement. -/
def arrowFunctionExpression : Shape where
  size := 48
  fields := [
    detail "expression" 44 .flag,
    detail "async" 45 .flag,
    child "params" 16 (.boxed (.node .formalParameters)),
    child "body" 32 (.boxed (.node .functionBody))]

/-- A class; its `"type"` says whether it is a declaration or an expression. -/
def classNode : Shape where
  size := 136
  fields := [
    detail "type" 132 (.choice .classType),
    child "decorators" 8 (.sequence (.node .decorator)),
    child "id" 32 (.optional (.node .bindingIdentifier)),
    child "superClass" 72 (.optional (.union .expression)),
    child "body" 120 (.boxed (.node .classBody)),
    detail "abstract" 133 .flag,
    detail "declare" 134 .flag]

/-- The body of a class. -/
def classBody : Shape where
  size := 32
  fields := [
    child "body" 8 (.sequence (.union .classElement))]

/-- A method, getter, setter or constructor of a class. -/
def methodDefinition : Shape where
  size := 64
  fields := [
    detail "type" 56 (.choice .methodDefinitionType),
    child "decorators" 8 (.sequence (.node .decorator)),
    child "key" 32 (.union .propertyKey),
    child "value" 48 (.boxed (.node .function)),
    detail "kind" 57 (.choice .methodDefinitionKind),
    detail "computed" 58 .flag,
    detail "static" 59 .flag,
    detail "override" 60 .flag,
    detail "optional" 61 .flag]

/-- A field of a class. -/
def propertyDefinition : Shape where
  size := 88
  fields := [
    detail "type" 72 (.choice .propertyDefinitionType),
    child "decorators" 8 (.sequence (.node .decorator)),
    child "key" 32 (.union .propertyKey),
    child "value" 56 (.optional (.union .expression)),
    detail "computed" 73 .flag,
    detail "static" 74 .flag,
    detail "declare" 75 .flag,
    detail "override" 76 .flag,
    detail "optional" 77 .flag,
    detail "definite" 78 .flag,
    detail "readonly" 79 .flag]

/-- A static initialisation block. -/
def staticBlock : Shape where
  size := 32
  fields := [
    child "body" 8 (.sequence (.union .statement))]

/-- A field written with `accessor`. -/
def accessorProperty : Shape where
  size := 80
  fields := [
    detail "type" 72 (.choice .accessorPropertyType),
    child "decorators" 8 (.sequence (.node .decorator)),
    child "key" 32 (.union .propertyKey),
    child "value" 56 (.optional (.union .expression)),
    detail "computed" 73 .flag,
    detail "static" 74 .flag,
    detail "override" 75 .flag,
    detail "definite" 76 .flag]

/-- A decorator, `@expression`. -/
def decorator : Shape where
  size := 24
  fields := [
    child "expression" 8 (.union .expression)]

end FlatSyntax.Shape
