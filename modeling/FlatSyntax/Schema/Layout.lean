import FlatSyntax.Kind.Basic

/-!
# Layouts

How a value lies in the buffer. A layout is a piece of data: scalars, text, one-byte choices, views
(nodes and records), tagged unions and name slots, and the three ways a value can be referred to,
by pointer, as a run of elements, or as optional. The tables that say what each kind looks like are
in the modules beside this one; everything that reads the buffer interprets layouts.

Every cycle of the schema passes through a node kind, which a layout mentions by name only, so a
layout is a finite tree and reading one is structural recursion.
-/

namespace FlatSyntax

/-- The kind of a record: a view without a tag and span of its own. -/
inductive RecordKind where
  | root | sourceType | comment | diagnostic | diagnosticLabel | regExp | regExpPattern
  | templateElementValue | catchParameter | bindingPattern | formalParameter | withClause
  | ecmaScriptModule | staticImport | staticExport | importEntry | exportEntry | dynamicImport
  | nameSpan
  deriving DecidableEq, Repr

/-- A union: a tag byte that selects one of several nodes. -/
inductive UnionKind where
  | expression | arrayExpressionElement | objectPropertyKind | propertyKey | argument
  | assignmentTarget | simpleAssignmentTarget | assignmentTargetMaybeDefault
  | assignmentTargetProperty | chainElement | statement | declaration | forStatementInit
  | forStatementLeft | bindingPatternKind | classElement | importDeclarationSpecifier
  | importAttributeKey | exportDefaultDeclarationKind | moduleExportName | jsxElementName
  | jsxMemberExpressionObject | jsxExpression | jsxAttributeItem | jsxAttributeName
  | jsxAttributeValue | jsxChild
  deriving DecidableEq, Repr

/-- A choice: one byte that stands for one of a few spellings. -/
inductive ChoiceKind where
  | commentKind | moduleKind | severity | assignmentOperator | binaryOperator | logicalOperator
  | unaryOperator | updateOperator | propertyKind | variableDeclarationKind | functionType
  | formalParameterKind | classType | methodDefinitionType | propertyDefinitionType
  | methodDefinitionKind | accessorPropertyType | importPhase | importOrExportKind
  deriving DecidableEq, Repr

/-- A name slot of the module record: a tag byte and, for some tags, a name or a source range. -/
inductive SlotKind where
  | importImportName | exportImportName | exportExportName | exportLocalName
  deriving DecidableEq, Repr

/-- The kind of a view: a node or a record. -/
inductive ViewKind where
  /-- A node, tagged with its kind and spanning a range of the source. -/
  | node (kind : NodeKind)
  /-- A record. -/
  | record (kind : RecordKind)
  deriving DecidableEq, Repr

/-- How a value lies in the buffer. -/
inductive Layout where
  /-- One byte. -/
  | byte
  /-- Four bytes, least significant first. -/
  | word
  /-- A double-precision number in eight bytes, least significant first. -/
  | double
  /-- One byte; true iff it is 1. -/
  | flag
  /-- A source range: two words. -/
  | span
  /-- The flags of a regular expression, one bit each. -/
  | regExpFlags
  /-- A string: a pointer and a length. -/
  | text
  /-- One of a few spellings. -/
  | choice (kind : ChoiceKind)
  /-- A view, stored in place. -/
  | view (kind : ViewKind)
  /-- A tagged union. -/
  | union (kind : UnionKind)
  /-- A name slot. -/
  | slot (kind : SlotKind)
  /-- A pointer to a value stored elsewhere. -/
  | boxed (target : Layout)
  /-- A pointer and a length for a run of elements. -/
  | sequence (element : Layout)
  /-- A value that may be absent. -/
  | optional (value : Layout)
  deriving DecidableEq, Repr

/-- A node, stored in place. -/
@[match_pattern] abbrev Layout.node (kind : NodeKind) : Layout := .view (.node kind)

/-- A record, stored in place. -/
@[match_pattern] abbrev Layout.record (kind : RecordKind) : Layout := .view (.record kind)

/-- How the absence of an optional value is encoded in the bytes of the value. -/
inductive Absence where
  /-- Eight zero bytes at an offset from the value. -/
  | nullPointer (offset : Nat)
  /-- A byte at an offset from the value that holds a tag no present value has there. -/
  | reservedTag (offset : Nat) (tag : UInt8)
  /-- A string header with eight zero bytes for the pointer and a zero length. -/
  | emptyText
  /-- The value cannot be absent. -/
  | unsupported
  deriving DecidableEq, Repr

/-- What a walk does with a field. -/
inductive Role where
  /-- The walk descends into the field. -/
  | child
  /-- The field is read only on request. -/
  | detail
  deriving DecidableEq, Repr

/-- A field of a view. -/
structure Field where
  /-- Whether a walk descends into the field. -/
  role : Role
  /-- The key of the field in the plain object. -/
  key : String
  /-- Where the field starts, from the start of the view. -/
  offset : Nat
  /-- How the field is read. -/
  layout : Layout
  deriving DecidableEq, Repr

/-- A field that walks descend into. -/
abbrev Field.child (key : String) (offset : Nat) (layout : Layout) : Field :=
  ⟨.child, key, offset, layout⟩

/-- A field that is read only on request. -/
abbrev Field.detail (key : String) (offset : Nat) (layout : Layout) : Field :=
  ⟨.detail, key, offset, layout⟩

/-- The shape of a view: its size in bytes, how its absence is encoded, and its fields in
declaration order. -/
structure Shape where
  /-- Bytes the view occupies. -/
  size : Nat
  /-- How an absent view is encoded. -/
  absence : Absence := .unsupported
  /-- The fields, in declaration order. -/
  fields : List Field := []
  deriving Repr

/-- A variant of a union. The payload is always a node. -/
structure Variant where
  /-- The name of the variant. -/
  name : String
  /-- The tag byte that selects it. -/
  tag : UInt8
  /-- The node it holds. -/
  node : NodeKind
  /-- Whether the node is stored in place; otherwise there is a pointer to it. -/
  inline : Bool := false
  deriving DecidableEq, Repr

/-- A variant named after the node that it points to. -/
abbrev Variant.pointer (tag : UInt8) (node : NodeKind) : Variant := ⟨node.name, tag, node, false⟩

/-- A variant named after the node that it stores in place. -/
abbrev Variant.inPlace (tag : UInt8) (node : NodeKind) : Variant := ⟨node.name, tag, node, true⟩

/-- One spelling of a choice. -/
structure Member where
  /-- The name of the member. -/
  name : String
  /-- The byte that stands for it. -/
  tag : UInt8
  /-- How it is spelled in plain values. -/
  text : String
  deriving DecidableEq, Repr

/-- What a name slot holds besides its tag. -/
inductive Payload where
  /-- Nothing. -/
  | nothing
  /-- A source range. -/
  | range
  /-- A name with its source range. -/
  | name
  deriving DecidableEq, Repr

/-- One case of a name slot. -/
structure SlotCase where
  /-- The name of the case. -/
  name : String
  /-- The byte that selects it. -/
  tag : UInt8
  /-- How it is spelled in plain values. -/
  text : String
  /-- What follows the tag. -/
  payload : Payload
  deriving DecidableEq, Repr

namespace RecordKind

/-- Every record, in declaration order. -/
def all : List RecordKind :=
  [.root, .sourceType, .comment, .diagnostic, .diagnosticLabel, .regExp, .regExpPattern,
   .templateElementValue, .catchParameter, .bindingPattern, .formalParameter, .withClause,
   .ecmaScriptModule, .staticImport, .staticExport, .importEntry, .exportEntry, .dynamicImport,
   .nameSpan]

/-- The name of a record. -/
def name : RecordKind → String
  | .root => "RawTransferData"
  | .sourceType => "SourceType"
  | .comment => "Comment"
  | .diagnostic => "Diagnostic"
  | .diagnosticLabel => "DiagnosticLabel"
  | .regExp => "RegExp"
  | .regExpPattern => "RegExpPattern"
  | .templateElementValue => "TemplateElementValue"
  | .catchParameter => "CatchParameter"
  | .bindingPattern => "BindingPattern"
  | .formalParameter => "FormalParameter"
  | .withClause => "WithClause"
  | .ecmaScriptModule => "EcmaScriptModule"
  | .staticImport => "StaticImport"
  | .staticExport => "StaticExport"
  | .importEntry => "ImportEntry"
  | .exportEntry => "ExportEntry"
  | .dynamicImport => "DynamicImport"
  | .nameSpan => "NameSpan"

end RecordKind

namespace UnionKind

/-- Every union, in declaration order. -/
def all : List UnionKind :=
  [.expression, .arrayExpressionElement, .objectPropertyKind, .propertyKey, .argument,
   .assignmentTarget, .simpleAssignmentTarget, .assignmentTargetMaybeDefault,
   .assignmentTargetProperty, .chainElement, .statement, .declaration, .forStatementInit,
   .forStatementLeft, .bindingPatternKind, .classElement, .importDeclarationSpecifier,
   .importAttributeKey, .exportDefaultDeclarationKind, .moduleExportName, .jsxElementName,
   .jsxMemberExpressionObject, .jsxExpression, .jsxAttributeItem, .jsxAttributeName,
   .jsxAttributeValue, .jsxChild]

/-- The name of a union. -/
def name : UnionKind → String
  | .expression => "Expression"
  | .arrayExpressionElement => "ArrayExpressionElement"
  | .objectPropertyKind => "ObjectPropertyKind"
  | .propertyKey => "PropertyKey"
  | .argument => "Argument"
  | .assignmentTarget => "AssignmentTarget"
  | .simpleAssignmentTarget => "SimpleAssignmentTarget"
  | .assignmentTargetMaybeDefault => "AssignmentTargetMaybeDefault"
  | .assignmentTargetProperty => "AssignmentTargetProperty"
  | .chainElement => "ChainElement"
  | .statement => "Statement"
  | .declaration => "Declaration"
  | .forStatementInit => "ForStatementInit"
  | .forStatementLeft => "ForStatementLeft"
  | .bindingPatternKind => "BindingPatternKind"
  | .classElement => "ClassElement"
  | .importDeclarationSpecifier => "ImportDeclarationSpecifier"
  | .importAttributeKey => "ImportAttributeKey"
  | .exportDefaultDeclarationKind => "ExportDefaultDeclarationKind"
  | .moduleExportName => "ModuleExportName"
  | .jsxElementName => "JSXElementName"
  | .jsxMemberExpressionObject => "JSXMemberExpressionObject"
  | .jsxExpression => "JSXExpression"
  | .jsxAttributeItem => "JSXAttributeItem"
  | .jsxAttributeName => "JSXAttributeName"
  | .jsxAttributeValue => "JSXAttributeValue"
  | .jsxChild => "JSXChild"

end UnionKind

namespace ChoiceKind

/-- Every choice, in declaration order. -/
def all : List ChoiceKind :=
  [.commentKind, .moduleKind, .severity, .assignmentOperator, .binaryOperator, .logicalOperator,
   .unaryOperator, .updateOperator, .propertyKind, .variableDeclarationKind, .functionType,
   .formalParameterKind, .classType, .methodDefinitionType, .propertyDefinitionType,
   .methodDefinitionKind, .accessorPropertyType, .importPhase, .importOrExportKind]

/-- The name of a choice. -/
def name : ChoiceKind → String
  | .commentKind => "CommentKind"
  | .moduleKind => "ModuleKind"
  | .severity => "Severity"
  | .assignmentOperator => "AssignmentOperator"
  | .binaryOperator => "BinaryOperator"
  | .logicalOperator => "LogicalOperator"
  | .unaryOperator => "UnaryOperator"
  | .updateOperator => "UpdateOperator"
  | .propertyKind => "PropertyKind"
  | .variableDeclarationKind => "VariableDeclarationKind"
  | .functionType => "FunctionType"
  | .formalParameterKind => "FormalParameterKind"
  | .classType => "ClassType"
  | .methodDefinitionType => "MethodDefinitionType"
  | .propertyDefinitionType => "PropertyDefinitionType"
  | .methodDefinitionKind => "MethodDefinitionKind"
  | .accessorPropertyType => "AccessorPropertyType"
  | .importPhase => "ImportPhase"
  | .importOrExportKind => "ImportOrExportKind"

end ChoiceKind

namespace SlotKind

/-- Every name slot, in declaration order. -/
def all : List SlotKind :=
  [.importImportName, .exportImportName, .exportExportName, .exportLocalName]

/-- The name of a name slot. -/
def name : SlotKind → String
  | .importImportName => "ImportImportName"
  | .exportImportName => "ExportImportName"
  | .exportExportName => "ExportExportName"
  | .exportLocalName => "ExportLocalName"

end SlotKind

/-- The name of a view. -/
def ViewKind.name : ViewKind → String
  | .node kind => kind.name
  | .record kind => kind.name

end FlatSyntax
