import FlatSyntax.Schema.Choices
import FlatSyntax.Schema.Definitions
import FlatSyntax.Schema.Expressions
import FlatSyntax.Schema.Linkage
import FlatSyntax.Schema.Markup
import FlatSyntax.Schema.Patterns
import FlatSyntax.Schema.Slots
import FlatSyntax.Schema.Statements
import FlatSyntax.Schema.Tokens
import FlatSyntax.Schema.Transfer
import FlatSyntax.Schema.Unions

/-!
# The catalogue

The shape of every view, and what follows from the tables for every layout: its name, the bytes it
occupies in place, how its absence is encoded, and whether a view keeps it once it has been read.
-/

namespace FlatSyntax

/-- The shape of a node. -/
def NodeKind.shape : NodeKind → Shape
  | .booleanLiteral => .booleanLiteral
  | .nullLiteral => .nullLiteral
  | .numericLiteral => .numericLiteral
  | .stringLiteral => .stringLiteral
  | .bigIntLiteral => .bigIntLiteral
  | .regExpLiteral => .regExpLiteral
  | .templateLiteral => .templateLiteral
  | .taggedTemplateExpression => .taggedTemplateExpression
  | .templateElement => .templateElement
  | .identifierName => .identifierName
  | .identifierReference => .identifierReference
  | .bindingIdentifier => .bindingIdentifier
  | .labelIdentifier => .labelIdentifier
  | .privateIdentifier => .privateIdentifier
  | .thisExpression => .thisExpression
  | .super => .super
  | .arrayExpression => .arrayExpression
  | .elision => .elision
  | .objectExpression => .objectExpression
  | .objectProperty => .objectProperty
  | .computedMemberExpression => .computedMemberExpression
  | .staticMemberExpression => .staticMemberExpression
  | .privateFieldExpression => .privateFieldExpression
  | .callExpression => .callExpression
  | .newExpression => .newExpression
  | .metaProperty => .metaProperty
  | .spreadElement => .spreadElement
  | .updateExpression => .updateExpression
  | .unaryExpression => .unaryExpression
  | .binaryExpression => .binaryExpression
  | .privateInExpression => .privateInExpression
  | .logicalExpression => .logicalExpression
  | .conditionalExpression => .conditionalExpression
  | .assignmentExpression => .assignmentExpression
  | .arrayAssignmentTarget => .arrayAssignmentTarget
  | .objectAssignmentTarget => .objectAssignmentTarget
  | .assignmentTargetWithDefault => .assignmentTargetWithDefault
  | .assignmentTargetPropertyIdentifier => .assignmentTargetPropertyIdentifier
  | .assignmentTargetPropertyProperty => .assignmentTargetPropertyProperty
  | .sequenceExpression => .sequenceExpression
  | .awaitExpression => .awaitExpression
  | .yieldExpression => .yieldExpression
  | .chainExpression => .chainExpression
  | .parenthesizedExpression => .parenthesizedExpression
  | .importExpression => .importExpression
  | .v8IntrinsicExpression => .v8IntrinsicExpression
  | .program => .program
  | .hashbang => .hashbang
  | .blockStatement => .blockStatement
  | .variableDeclaration => .variableDeclaration
  | .variableDeclarator => .variableDeclarator
  | .emptyStatement => .emptyStatement
  | .expressionStatement => .expressionStatement
  | .ifStatement => .ifStatement
  | .doWhileStatement => .doWhileStatement
  | .whileStatement => .whileStatement
  | .forStatement => .forStatement
  | .forInStatement => .forInStatement
  | .forOfStatement => .forOfStatement
  | .continueStatement => .continueStatement
  | .breakStatement => .breakStatement
  | .returnStatement => .returnStatement
  | .withStatement => .withStatement
  | .switchStatement => .switchStatement
  | .switchCase => .switchCase
  | .labeledStatement => .labeledStatement
  | .throwStatement => .throwStatement
  | .tryStatement => .tryStatement
  | .catchClause => .catchClause
  | .debuggerStatement => .debuggerStatement
  | .assignmentPattern => .assignmentPattern
  | .objectPattern => .objectPattern
  | .bindingProperty => .bindingProperty
  | .arrayPattern => .arrayPattern
  | .function => .function
  | .formalParameters => .formalParameters
  | .functionBody => .functionBody
  | .arrowFunctionExpression => .arrowFunctionExpression
  | .classNode => .classNode
  | .classBody => .classBody
  | .methodDefinition => .methodDefinition
  | .propertyDefinition => .propertyDefinition
  | .staticBlock => .staticBlock
  | .accessorProperty => .accessorProperty
  | .decorator => .decorator
  | .importDeclaration => .importDeclaration
  | .importSpecifier => .importSpecifier
  | .importDefaultSpecifier => .importDefaultSpecifier
  | .importNamespaceSpecifier => .importNamespaceSpecifier
  | .importAttribute => .importAttribute
  | .exportNamedDeclaration => .exportNamedDeclaration
  | .exportDefaultDeclaration => .exportDefaultDeclaration
  | .exportAllDeclaration => .exportAllDeclaration
  | .exportSpecifier => .exportSpecifier
  | .jsxElement => .jsxElement
  | .jsxOpeningElement => .jsxOpeningElement
  | .jsxClosingElement => .jsxClosingElement
  | .jsxFragment => .jsxFragment
  | .jsxOpeningFragment => .jsxOpeningFragment
  | .jsxClosingFragment => .jsxClosingFragment
  | .jsxNamespacedName => .jsxNamespacedName
  | .jsxMemberExpression => .jsxMemberExpression
  | .jsxExpressionContainer => .jsxExpressionContainer
  | .jsxEmptyExpression => .jsxEmptyExpression
  | .jsxAttribute => .jsxAttribute
  | .jsxSpreadAttribute => .jsxSpreadAttribute
  | .jsxIdentifier => .jsxIdentifier
  | .jsxSpreadChild => .jsxSpreadChild
  | .jsxText => .jsxText

/-- The shape of a record. -/
def RecordKind.shape : RecordKind → Shape
  | .root => .root
  | .sourceType => .sourceType
  | .comment => .comment
  | .diagnostic => .diagnostic
  | .diagnosticLabel => .diagnosticLabel
  | .regExp => .regExp
  | .regExpPattern => .regExpPattern
  | .templateElementValue => .templateElementValue
  | .catchParameter => .catchParameter
  | .bindingPattern => .bindingPattern
  | .formalParameter => .formalParameter
  | .withClause => .withClause
  | .ecmaScriptModule => .ecmaScriptModule
  | .staticImport => .staticImport
  | .staticExport => .staticExport
  | .importEntry => .importEntry
  | .exportEntry => .exportEntry
  | .dynamicImport => .dynamicImport
  | .nameSpan => .nameSpan

namespace ViewKind

/-- The shape of a view. -/
def shape : ViewKind → Shape
  | .node kind => kind.shape
  | .record kind => kind.shape

/-- The bytes a view occupies. -/
def size (kind : ViewKind) : Nat := kind.shape.size

/-- The fields of a view, in declaration order. -/
def fields (kind : ViewKind) : List Field := kind.shape.fields

/-- The fields that walks descend into, in declaration order. -/
def children (kind : ViewKind) : List Field := kind.fields.filter fun f => f.role == .child

end ViewKind

/-- The keys of the fields that walks descend into, in the order of the walk. -/
def NodeKind.visitKeys (kind : NodeKind) : List String :=
  (ViewKind.node kind).children.map Field.key

/-- The layout of a variant's payload: the node itself or a pointer to it. -/
def Variant.layout (v : Variant) : Layout :=
  if v.inline then .node v.node else .boxed (.node v.node)

/-- The bytes a variant's payload occupies. -/
def Variant.size (v : Variant) : Nat := if v.inline then (ViewKind.node v.node).size else 8

/-- The bytes a union occupies: eight for the tag, and room for the largest payload. -/
def UnionKind.size (kind : UnionKind) : Nat :=
  8 + kind.variants.foldl (fun largest v => max largest v.size) 0

namespace Layout

/-- The name of a layout. A pointer and an optional value are named after the value. -/
def name : Layout → String
  | .byte => "u8"
  | .word => "u32"
  | .double => "f64"
  | .flag => "bool"
  | .span => "Span"
  | .regExpFlags => "RegExpFlags"
  | .text => "Str"
  | .choice kind => kind.name
  | .view kind => kind.name
  | .union kind => kind.name
  | .slot kind => kind.name
  | .boxed target => target.name
  | .sequence _ => "Vec"
  | .optional value => value.name

/-- The bytes a value occupies in place. -/
def size : Layout → Nat
  | .byte | .flag | .regExpFlags | .choice _ => 1
  | .word => 4
  | .double | .span | .boxed _ => 8
  | .text => 16
  | .view kind => kind.size
  | .union kind => kind.size
  | .slot _ => 32
  | .sequence _ => 24
  | .optional value => value.size

/-- How an absent value is encoded. -/
def absence : Layout → Absence
  | .text => .emptyText
  | .choice kind => kind.absence
  | .view kind => kind.shape.absence
  | .union kind => kind.absence
  | .boxed _ | .sequence _ => .nullPointer 0
  | .byte | .word | .double | .flag | .span | .regExpFlags | .slot _ | .optional _ => .unsupported

/-- Whether a view keeps a field of this layout once it has been read. Scalars in place are cheaper
to read again. -/
def memoized : Layout → Bool
  | .byte | .word | .double | .flag | .span | .regExpFlags | .choice _ => false
  | .text | .view _ | .union _ | .slot _ | .boxed _ | .sequence _ | .optional _ => true

end Layout

end FlatSyntax
