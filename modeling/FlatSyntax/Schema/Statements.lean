import FlatSyntax.Schema.Layout

/-!
# Statements

The program and its statements.
-/

namespace FlatSyntax.Shape

open FlatSyntax.Field

/-- The root node of a source file. -/
def program : Shape where
  size := 128
  fields := [
    detail "sourceType" 124 (.record .sourceType),
    child "hashbang" 48 (.optional (.node .hashbang)),
    child "body" 96 (.sequence (.union .statement))]

/-- The interpreter line at the very start of a file. -/
def hashbang : Shape where
  size := 24
  absence := .nullPointer 8
  fields := [
    detail "value" 8 .text]

/-- A block of statements. -/
def blockStatement : Shape where
  size := 32
  fields := [
    child "body" 8 (.sequence (.union .statement))]

/-- A declaration with `var`, `let`, `const`, `using` or `await using`. -/
def variableDeclaration : Shape where
  size := 40
  fields := [
    detail "kind" 32 (.choice .variableDeclarationKind),
    child "declarations" 8 (.sequence (.node .variableDeclarator)),
    detail "declare" 33 .flag]

/-- One binding of a declaration with its initial value. -/
def variableDeclarator : Shape where
  size := 64
  fields := [
    child "id" 8 (.record .bindingPattern),
    child "init" 40 (.optional (.union .expression)),
    detail "definite" 57 .flag]

/-- A lone semicolon. -/
def emptyStatement : Shape where
  size := 8

/-- An expression that stands as a statement. -/
def expressionStatement : Shape where
  size := 24
  fields := [
    child "expression" 8 (.union .expression)]

/-- An `if` with an optional `else`. -/
def ifStatement : Shape where
  size := 56
  fields := [
    child "test" 8 (.union .expression),
    child "consequent" 24 (.union .statement),
    child "alternate" 40 (.optional (.union .statement))]

/-- A `do … while` loop. -/
def doWhileStatement : Shape where
  size := 40
  fields := [
    child "body" 8 (.union .statement),
    child "test" 24 (.union .expression)]

/-- A `while` loop. -/
def whileStatement : Shape where
  size := 40
  fields := [
    child "test" 8 (.union .expression),
    child "body" 24 (.union .statement)]

/-- A `for` loop with three clauses. -/
def forStatement : Shape where
  size := 72
  fields := [
    child "init" 8 (.optional (.union .forStatementInit)),
    child "test" 24 (.optional (.union .expression)),
    child "update" 40 (.optional (.union .expression)),
    child "body" 56 (.union .statement)]

/-- A `for … in` loop. -/
def forInStatement : Shape where
  size := 56
  fields := [
    child "left" 8 (.union .forStatementLeft),
    child "right" 24 (.union .expression),
    child "body" 40 (.union .statement)]

/-- A `for … of` loop, asynchronous if `await` is set. -/
def forOfStatement : Shape where
  size := 64
  fields := [
    detail "await" 60 .flag,
    child "left" 8 (.union .forStatementLeft),
    child "right" 24 (.union .expression),
    child "body" 40 (.union .statement)]

/-- A `continue`. -/
def continueStatement : Shape where
  size := 32
  fields := [
    child "label" 8 (.optional (.node .labelIdentifier))]

/-- A `break`. -/
def breakStatement : Shape where
  size := 32
  fields := [
    child "label" 8 (.optional (.node .labelIdentifier))]

/-- A `return`. -/
def returnStatement : Shape where
  size := 24
  fields := [
    child "argument" 8 (.optional (.union .expression))]

/-- A `with` statement. -/
def withStatement : Shape where
  size := 40
  fields := [
    child "object" 8 (.union .expression),
    child "body" 24 (.union .statement)]

/-- A `switch`. -/
def switchStatement : Shape where
  size := 48
  fields := [
    child "discriminant" 8 (.union .expression),
    child "cases" 24 (.sequence (.node .switchCase))]

/-- One case of a `switch`; the default has no test. -/
def switchCase : Shape where
  size := 48
  fields := [
    child "test" 8 (.optional (.union .expression)),
    child "consequent" 24 (.sequence (.union .statement))]

/-- A statement with a label. -/
def labeledStatement : Shape where
  size := 48
  fields := [
    child "label" 8 (.node .labelIdentifier),
    child "body" 32 (.union .statement)]

/-- A `throw`. -/
def throwStatement : Shape where
  size := 24
  fields := [
    child "argument" 8 (.union .expression)]

/-- A `try` with a handler, a finalizer or both. -/
def tryStatement : Shape where
  size := 32
  fields := [
    child "block" 8 (.boxed (.node .blockStatement)),
    child "handler" 16 (.optional (.boxed (.node .catchClause))),
    child "finalizer" 24 (.optional (.boxed (.node .blockStatement)))]

/-- The handler of a `try`. -/
def catchClause : Shape where
  size := 56
  fields := [
    child "param" 8 (.optional (.record .catchParameter)),
    child "body" 48 (.boxed (.node .blockStatement))]

/-- The statement `debugger`. -/
def debuggerStatement : Shape where
  size := 8

end FlatSyntax.Shape
