import FlatSyntax.Schema.Layout

/-!
# Unions

The variants of each union. Several unions extend the expressions by variants of their own, and the
targets of assignments share the three kinds of member access; the tags of the shared variants are
the same everywhere.
-/

namespace FlatSyntax

namespace Variant

/-- The variants that every union of expressions has. -/
def expressions : List Variant :=
  [.pointer 0 .booleanLiteral, .pointer 1 .nullLiteral, .pointer 2 .numericLiteral,
   .pointer 3 .bigIntLiteral, .pointer 4 .regExpLiteral, .pointer 5 .stringLiteral,
   .pointer 6 .templateLiteral, .pointer 7 .identifierReference, .pointer 8 .metaProperty,
   .pointer 9 .super, .pointer 10 .arrayExpression, .pointer 11 .arrowFunctionExpression,
   .pointer 12 .assignmentExpression, .pointer 13 .awaitExpression, .pointer 14 .binaryExpression,
   .pointer 15 .callExpression, .pointer 16 .chainExpression, .pointer 17 .classNode,
   .pointer 18 .conditionalExpression, .pointer 19 .function, .pointer 20 .importExpression,
   .pointer 21 .logicalExpression, .pointer 22 .newExpression, .pointer 23 .objectExpression,
   .pointer 24 .parenthesizedExpression, .pointer 25 .sequenceExpression,
   .pointer 26 .taggedTemplateExpression, .pointer 27 .thisExpression,
   .pointer 28 .unaryExpression, .pointer 29 .updateExpression, .pointer 30 .yieldExpression,
   .pointer 31 .privateInExpression, .pointer 32 .jsxElement, .pointer 33 .jsxFragment,
   .pointer 39 .v8IntrinsicExpression, .pointer 48 .computedMemberExpression,
   .pointer 49 .staticMemberExpression, .pointer 50 .privateFieldExpression]

/-- Access to a member, which can be assigned to. -/
def members : List Variant :=
  [.pointer 48 .computedMemberExpression, .pointer 49 .staticMemberExpression,
   .pointer 50 .privateFieldExpression]

end Variant

namespace UnionKind

/-- The variants of a union, in declaration order. -/
def variants : UnionKind → List Variant
  | .expression =>
      Variant.expressions
  | .arrayExpressionElement =>
      Variant.expressions ++
      [.pointer 64 .spreadElement, .inPlace 65 .elision]
  | .objectPropertyKind =>
      [.pointer 0 .objectProperty, .pointer 1 .spreadElement]
  | .propertyKey =>
      Variant.expressions ++
      [.pointer 64 .identifierName, .pointer 65 .privateIdentifier]
  | .argument =>
      Variant.expressions ++
      [.pointer 64 .spreadElement]
  | .assignmentTarget =>
      [.pointer 0 .identifierReference, .pointer 8 .arrayAssignmentTarget,
       .pointer 9 .objectAssignmentTarget] ++
      Variant.members
  | .simpleAssignmentTarget =>
      [.pointer 0 .identifierReference] ++
      Variant.members
  | .assignmentTargetMaybeDefault =>
      [.pointer 0 .identifierReference, .pointer 8 .arrayAssignmentTarget,
       .pointer 9 .objectAssignmentTarget, .pointer 16 .assignmentTargetWithDefault] ++
      Variant.members
  | .assignmentTargetProperty =>
      [.pointer 0 .assignmentTargetPropertyIdentifier,
       .pointer 1 .assignmentTargetPropertyProperty]
  | .chainElement =>
      [.pointer 0 .callExpression] ++
      Variant.members
  | .statement =>
      [.pointer 0 .blockStatement, .pointer 1 .breakStatement, .pointer 2 .continueStatement,
       .pointer 3 .debuggerStatement, .pointer 4 .doWhileStatement, .pointer 5 .emptyStatement,
       .pointer 6 .expressionStatement, .pointer 7 .forInStatement, .pointer 8 .forOfStatement,
       .pointer 9 .forStatement, .pointer 10 .ifStatement, .pointer 11 .labeledStatement,
       .pointer 12 .returnStatement, .pointer 13 .switchStatement, .pointer 14 .throwStatement,
       .pointer 15 .tryStatement, .pointer 16 .whileStatement, .pointer 17 .withStatement,
       .pointer 32 .variableDeclaration, .pointer 33 .function, .pointer 34 .classNode,
       .pointer 64 .importDeclaration, .pointer 65 .exportAllDeclaration,
       .pointer 66 .exportDefaultDeclaration, .pointer 67 .exportNamedDeclaration]
  | .declaration =>
      [.pointer 32 .variableDeclaration, .pointer 33 .function, .pointer 34 .classNode]
  | .forStatementInit =>
      Variant.expressions ++
      [.pointer 64 .variableDeclaration]
  | .forStatementLeft =>
      [.pointer 0 .identifierReference, .pointer 8 .arrayAssignmentTarget,
       .pointer 9 .objectAssignmentTarget, .pointer 16 .variableDeclaration] ++
      Variant.members
  | .bindingPatternKind =>
      [.pointer 0 .bindingIdentifier, .pointer 1 .objectPattern, .pointer 2 .arrayPattern,
       .pointer 3 .assignmentPattern]
  | .classElement =>
      [.pointer 0 .staticBlock, .pointer 1 .methodDefinition, .pointer 2 .propertyDefinition,
       .pointer 3 .accessorProperty]
  | .importDeclarationSpecifier =>
      [.pointer 0 .importSpecifier, .pointer 1 .importDefaultSpecifier,
       .pointer 2 .importNamespaceSpecifier]
  | .importAttributeKey =>
      [.inPlace 0 .identifierName, .inPlace 1 .stringLiteral]
  | .exportDefaultDeclarationKind =>
      Variant.expressions ++
      [⟨"FunctionDeclaration", 64, .function, false⟩, ⟨"ClassDeclaration", 65, .classNode, false⟩]
  | .moduleExportName =>
      [.inPlace 0 .identifierName, .inPlace 1 .identifierReference, .inPlace 2 .stringLiteral]
  | .jsxElementName =>
      [.pointer 0 .jsxIdentifier, .pointer 1 .identifierReference, .pointer 2 .jsxNamespacedName,
       .pointer 3 .jsxMemberExpression, .pointer 4 .thisExpression]
  | .jsxMemberExpressionObject =>
      [.pointer 0 .identifierReference, .pointer 1 .jsxMemberExpression,
       .pointer 2 .thisExpression]
  | .jsxExpression =>
      Variant.expressions ++
      [.inPlace 64 .jsxEmptyExpression]
  | .jsxAttributeItem =>
      [.pointer 0 .jsxAttribute, .pointer 1 .jsxSpreadAttribute]
  | .jsxAttributeName =>
      [.pointer 0 .jsxIdentifier, .pointer 1 .jsxNamespacedName]
  | .jsxAttributeValue =>
      [.pointer 0 .stringLiteral, .pointer 1 .jsxExpressionContainer, .pointer 2 .jsxElement,
       .pointer 3 .jsxFragment]
  | .jsxChild =>
      [.pointer 0 .jsxText, .pointer 1 .jsxElement, .pointer 2 .jsxFragment,
       .pointer 3 .jsxExpressionContainer, .pointer 4 .jsxSpreadChild]

/-- How an absent union is encoded. -/
def absence : UnionKind → Absence
  | .expression => .reservedTag 0 51
  | .assignmentTargetMaybeDefault => .reservedTag 0 51
  | .statement => .reservedTag 0 70
  | .declaration => .reservedTag 0 31
  | .forStatementInit => .reservedTag 0 65
  | .moduleExportName => .reservedTag 0 3
  | .jsxAttributeValue => .reservedTag 0 4
  | _ => .unsupported

/-- The variant selected by a tag. -/
def variant? (kind : UnionKind) (tag : UInt8) : Option Variant :=
  kind.variants.find? fun v => v.tag == tag

end UnionKind

end FlatSyntax
