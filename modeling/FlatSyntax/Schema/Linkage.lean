import FlatSyntax.Schema.Layout

/-!
# Imports and exports

Import and export declarations, and the module record that lists what they import and export.
-/

namespace FlatSyntax.Shape

open FlatSyntax.Field

/-- An import declaration. -/
def importDeclaration : Shape where
  size := 96
  fields := [
    child "specifiers" 8 (.optional (.sequence (.union .importDeclarationSpecifier))),
    child "source" 32 (.node .stringLiteral),
    detail "phase" 88 (.optional (.choice .importPhase)),
    child "attributes" 80 (.optional (.boxed (.record .withClause))),
    detail "importKind" 89 (.choice .importOrExportKind)]

/-- An imported name with its local name. -/
def importSpecifier : Shape where
  size := 104
  fields := [
    child "imported" 8 (.union .moduleExportName),
    child "local" 64 (.node .bindingIdentifier),
    detail "importKind" 96 (.choice .importOrExportKind)]

/-- The local name of a default import. -/
def importDefaultSpecifier : Shape where
  size := 32
  fields := [
    child "local" 8 (.node .bindingIdentifier)]

/-- The local name of a namespace import. -/
def importNamespaceSpecifier : Shape where
  size := 32
  fields := [
    child "local" 8 (.node .bindingIdentifier)]

/-- The attributes of an import or export. -/
def withClause : Shape where
  size := 56
  fields := [
    child "attributes" 32 (.sequence (.node .importAttribute))]

/-- One attribute of an import or export. -/
def importAttribute : Shape where
  size := 112
  fields := [
    child "key" 8 (.union .importAttributeKey),
    child "value" 64 (.node .stringLiteral)]

/-- An export of a declaration or of a list of names. -/
def exportNamedDeclaration : Shape where
  size := 112
  fields := [
    child "declaration" 8 (.optional (.union .declaration)),
    child "specifiers" 24 (.sequence (.node .exportSpecifier)),
    child "source" 48 (.optional (.node .stringLiteral)),
    detail "exportKind" 104 (.choice .importOrExportKind),
    child "attributes" 96 (.optional (.boxed (.record .withClause)))]

/-- A default export. -/
def exportDefaultDeclaration : Shape where
  size := 80
  fields := [
    child "declaration" 64 (.union .exportDefaultDeclarationKind)]

/-- A re-export of everything. -/
def exportAllDeclaration : Shape where
  size := 128
  fields := [
    child "exported" 8 (.optional (.union .moduleExportName)),
    child "source" 64 (.node .stringLiteral),
    child "attributes" 112 (.optional (.boxed (.record .withClause))),
    detail "exportKind" 120 (.choice .importOrExportKind)]

/-- A local name with the name it is exported under. -/
def exportSpecifier : Shape where
  size := 128
  fields := [
    child "local" 8 (.union .moduleExportName),
    child "exported" 64 (.union .moduleExportName),
    detail "exportKind" 120 (.choice .importOrExportKind)]

/-- The module record: what the source imports and exports. -/
def ecmaScriptModule : Shape where
  size := 104
  fields := [
    detail "hasModuleSyntax" 96 .flag,
    detail "staticImports" 0 (.sequence (.record .staticImport)),
    detail "staticExports" 24 (.sequence (.record .staticExport)),
    detail "dynamicImports" 48 (.sequence (.record .dynamicImport)),
    detail "importMetas" 72 (.sequence .span)]

/-- One import declaration of the module record. -/
def staticImport : Shape where
  size := 56
  fields := [
    detail "start" 0 .word,
    detail "end" 4 .word,
    detail "moduleRequest" 8 (.record .nameSpan),
    detail "entries" 32 (.sequence (.record .importEntry))]

/-- One export declaration of the module record. -/
def staticExport : Shape where
  size := 32
  fields := [
    detail "start" 0 .word,
    detail "end" 4 .word,
    detail "entries" 8 (.sequence (.record .exportEntry))]

/-- One binding that an import declaration introduces. -/
def importEntry : Shape where
  size := 96
  fields := [
    detail "importName" 32 (.slot .importImportName),
    detail "localName" 64 (.record .nameSpan),
    detail "isType" 88 .flag]

/-- One name that an export declaration exports. -/
def exportEntry : Shape where
  size := 144
  fields := [
    detail "start" 0 .word,
    detail "end" 4 .word,
    detail "moduleRequest" 16 (.optional (.record .nameSpan)),
    detail "importName" 40 (.slot .exportImportName),
    detail "exportName" 72 (.slot .exportExportName),
    detail "localName" 104 (.slot .exportLocalName),
    detail "isType" 136 .flag]

/-- A dynamic import in the source. -/
def dynamicImport : Shape where
  size := 16
  fields := [
    detail "start" 0 .word,
    detail "end" 4 .word,
    detail "moduleRequest" 8 .span]

/-- A name and the source range it was read from. -/
def nameSpan : Shape where
  size := 24
  absence := .nullPointer 8
  fields := [
    detail "value" 8 .text,
    detail "start" 0 .word,
    detail "end" 4 .word]

end FlatSyntax.Shape
