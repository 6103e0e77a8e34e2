import FlatSyntax.Schema.Layout

/-!
# The root record

The record every buffer starts from, with the program, its comments, its module record and the
diagnostics reported for it.
-/

namespace FlatSyntax.Shape

open FlatSyntax.Field

/-- The root record. -/
def root : Shape where
  size := 280
  fields := [
    child "program" 0 (.node .program),
    detail "comments" 128 (.sequence (.record .comment)),
    detail "module" 152 (.record .ecmaScriptModule),
    detail "errors" 256 (.sequence (.record .diagnostic))]

/-- Whether the source is a script or a module. -/
def sourceType : Shape where
  size := 2
  fields := [
    detail "sourceType" 1 (.choice .moduleKind)]

/-- A comment. -/
def comment : Shape where
  size := 16
  fields := [
    detail "start" 0 .word,
    detail "end" 4 .word,
    detail "type" 12 (.choice .commentKind)]

/-- A diagnostic. -/
def diagnostic : Shape where
  size := 80
  fields := [
    detail "severity" 72 (.choice .severity),
    detail "message" 0 .text,
    detail "labels" 16 (.sequence (.record .diagnosticLabel)),
    detail "helpMessage" 40 (.optional .text),
    detail "codeframe" 56 .text]

/-- A labelled source range of a diagnostic. -/
def diagnosticLabel : Shape where
  size := 24
  fields := [
    detail "message" 8 (.optional .text),
    detail "start" 0 .word,
    detail "end" 4 .word]

end FlatSyntax.Shape
