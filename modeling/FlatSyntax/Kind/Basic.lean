/-!
# Node kinds

The closed set of node kinds of the syntax tree, their names, and the reading of the `"type"` tag
that a plain node object carries.
-/

namespace FlatSyntax

/-- The kind of a node. The order of the constructors is the order in which sets of kinds are
listed. -/
inductive NodeKind where
  | booleanLiteral | nullLiteral | numericLiteral | stringLiteral | bigIntLiteral | regExpLiteral
  | templateLiteral | taggedTemplateExpression | templateElement | identifierName
  | identifierReference | bindingIdentifier | labelIdentifier | privateIdentifier | thisExpression
  | super | arrayExpression | elision | objectExpression | objectProperty
  | computedMemberExpression | staticMemberExpression | privateFieldExpression | callExpression
  | newExpression | metaProperty | spreadElement | updateExpression | unaryExpression
  | binaryExpression | privateInExpression | logicalExpression | conditionalExpression
  | assignmentExpression | arrayAssignmentTarget | objectAssignmentTarget
  | assignmentTargetWithDefault | assignmentTargetPropertyIdentifier
  | assignmentTargetPropertyProperty | sequenceExpression | awaitExpression | yieldExpression
  | chainExpression | parenthesizedExpression | importExpression | v8IntrinsicExpression | program
  | hashbang | blockStatement | variableDeclaration | variableDeclarator | emptyStatement
  | expressionStatement | ifStatement | doWhileStatement | whileStatement | forStatement
  | forInStatement | forOfStatement | continueStatement | breakStatement | returnStatement
  | withStatement | switchStatement | switchCase | labeledStatement | throwStatement
  | tryStatement | catchClause | debuggerStatement | assignmentPattern | objectPattern
  | bindingProperty | arrayPattern | function | formalParameters | functionBody
  | arrowFunctionExpression | classNode | classBody | methodDefinition | propertyDefinition
  | staticBlock | accessorProperty | decorator | importDeclaration | importSpecifier
  | importDefaultSpecifier | importNamespaceSpecifier | importAttribute | exportNamedDeclaration
  | exportDefaultDeclaration | exportAllDeclaration | exportSpecifier | jsxElement
  | jsxOpeningElement | jsxClosingElement | jsxFragment | jsxOpeningFragment | jsxClosingFragment
  | jsxNamespacedName | jsxMemberExpression | jsxExpressionContainer | jsxEmptyExpression
  | jsxAttribute | jsxSpreadAttribute | jsxIdentifier | jsxSpreadChild | jsxText
  deriving DecidableEq, Repr

namespace NodeKind

/-- Every kind, in declaration order. -/
def all : List NodeKind :=
  [.booleanLiteral, .nullLiteral, .numericLiteral, .stringLiteral, .bigIntLiteral, .regExpLiteral,
   .templateLiteral, .taggedTemplateExpression, .templateElement, .identifierName,
   .identifierReference, .bindingIdentifier, .labelIdentifier, .privateIdentifier,
   .thisExpression, .super, .arrayExpression, .elision, .objectExpression, .objectProperty,
   .computedMemberExpression, .staticMemberExpression, .privateFieldExpression, .callExpression,
   .newExpression, .metaProperty, .spreadElement, .updateExpression, .unaryExpression,
   .binaryExpression, .privateInExpression, .logicalExpression, .conditionalExpression,
   .assignmentExpression, .arrayAssignmentTarget, .objectAssignmentTarget,
   .assignmentTargetWithDefault, .assignmentTargetPropertyIdentifier,
   .assignmentTargetPropertyProperty, .sequenceExpression, .awaitExpression, .yieldExpression,
   .chainExpression, .parenthesizedExpression, .importExpression, .v8IntrinsicExpression,
   .program, .hashbang, .blockStatement, .variableDeclaration, .variableDeclarator,
   .emptyStatement, .expressionStatement, .ifStatement, .doWhileStatement, .whileStatement,
   .forStatement, .forInStatement, .forOfStatement, .continueStatement, .breakStatement,
   .returnStatement, .withStatement, .switchStatement, .switchCase, .labeledStatement,
   .throwStatement, .tryStatement, .catchClause, .debuggerStatement, .assignmentPattern,
   .objectPattern, .bindingProperty, .arrayPattern, .function, .formalParameters, .functionBody,
   .arrowFunctionExpression, .classNode, .classBody, .methodDefinition, .propertyDefinition,
   .staticBlock, .accessorProperty, .decorator, .importDeclaration, .importSpecifier,
   .importDefaultSpecifier, .importNamespaceSpecifier, .importAttribute, .exportNamedDeclaration,
   .exportDefaultDeclaration, .exportAllDeclaration, .exportSpecifier, .jsxElement,
   .jsxOpeningElement, .jsxClosingElement, .jsxFragment, .jsxOpeningFragment, .jsxClosingFragment,
   .jsxNamespacedName, .jsxMemberExpression, .jsxExpressionContainer, .jsxEmptyExpression,
   .jsxAttribute, .jsxSpreadAttribute, .jsxIdentifier, .jsxSpreadChild, .jsxText]

/-- The number of kinds. -/
def count : Nat := all.length

/-- The position of a kind in the declaration order. -/
def index (kind : NodeKind) : Nat := kind.ctorIdx

theorem index_lt_count (kind : NodeKind) : kind.index < count := by cases kind <;> decide

/-- The name of a kind, as written in visitor keys. -/
def name : NodeKind → String
  | .booleanLiteral => "BooleanLiteral"
  | .nullLiteral => "NullLiteral"
  | .numericLiteral => "NumericLiteral"
  | .stringLiteral => "StringLiteral"
  | .bigIntLiteral => "BigIntLiteral"
  | .regExpLiteral => "RegExpLiteral"
  | .templateLiteral => "TemplateLiteral"
  | .taggedTemplateExpression => "TaggedTemplateExpression"
  | .templateElement => "TemplateElement"
  | .identifierName => "IdentifierName"
  | .identifierReference => "IdentifierReference"
  | .bindingIdentifier => "BindingIdentifier"
  | .labelIdentifier => "LabelIdentifier"
  | .privateIdentifier => "PrivateIdentifier"
  | .thisExpression => "ThisExpression"
  | .super => "Super"
  | .arrayExpression => "ArrayExpression"
  | .elision => "Elision"
  | .objectExpression => "ObjectExpression"
  | .objectProperty => "ObjectProperty"
  | .computedMemberExpression => "ComputedMemberExpression"
  | .staticMemberExpression => "StaticMemberExpression"
  | .privateFieldExpression => "PrivateFieldExpression"
  | .callExpression => "CallExpression"
  | .newExpression => "NewExpression"
  | .metaProperty => "MetaProperty"
  | .spreadElement => "SpreadElement"
  | .updateExpression => "UpdateExpression"
  | .unaryExpression => "UnaryExpression"
  | .binaryExpression => "BinaryExpression"
  | .privateInExpression => "PrivateInExpression"
  | .logicalExpression => "LogicalExpression"
  | .conditionalExpression => "ConditionalExpression"
  | .assignmentExpression => "AssignmentExpression"
  | .arrayAssignmentTarget => "ArrayAssignmentTarget"
  | .objectAssignmentTarget => "ObjectAssignmentTarget"
  | .assignmentTargetWithDefault => "AssignmentTargetWithDefault"
  | .assignmentTargetPropertyIdentifier => "AssignmentTargetPropertyIdentifier"
  | .assignmentTargetPropertyProperty => "AssignmentTargetPropertyProperty"
  | .sequenceExpression => "SequenceExpression"
  | .awaitExpression => "AwaitExpression"
  | .yieldExpression => "YieldExpression"
  | .chainExpression => "ChainExpression"
  | .parenthesizedExpression => "ParenthesizedExpression"
  | .importExpression => "ImportExpression"
  | .v8IntrinsicExpression => "V8IntrinsicExpression"
  | .program => "Program"
  | .hashbang => "Hashbang"
  | .blockStatement => "BlockStatement"
  | .variableDeclaration => "VariableDeclaration"
  | .variableDeclarator => "VariableDeclarator"
  | .emptyStatement => "EmptyStatement"
  | .expressionStatement => "ExpressionStatement"
  | .ifStatement => "IfStatement"
  | .doWhileStatement => "DoWhileStatement"
  | .whileStatement => "WhileStatement"
  | .forStatement => "ForStatement"
  | .forInStatement => "ForInStatement"
  | .forOfStatement => "ForOfStatement"
  | .continueStatement => "ContinueStatement"
  | .breakStatement => "BreakStatement"
  | .returnStatement => "ReturnStatement"
  | .withStatement => "WithStatement"
  | .switchStatement => "SwitchStatement"
  | .switchCase => "SwitchCase"
  | .labeledStatement => "LabeledStatement"
  | .throwStatement => "ThrowStatement"
  | .tryStatement => "TryStatement"
  | .catchClause => "CatchClause"
  | .debuggerStatement => "DebuggerStatement"
  | .assignmentPattern => "AssignmentPattern"
  | .objectPattern => "ObjectPattern"
  | .bindingProperty => "BindingProperty"
  | .arrayPattern => "ArrayPattern"
  | .function => "Function"
  | .formalParameters => "FormalParameters"
  | .functionBody => "FunctionBody"
  | .arrowFunctionExpression => "ArrowFunctionExpression"
  | .classNode => "Class"
  | .classBody => "ClassBody"
  | .methodDefinition => "MethodDefinition"
  | .propertyDefinition => "PropertyDefinition"
  | .staticBlock => "StaticBlock"
  | .accessorProperty => "AccessorProperty"
  | .decorator => "Decorator"
  | .importDeclaration => "ImportDeclaration"
  | .importSpecifier => "ImportSpecifier"
  | .importDefaultSpecifier => "ImportDefaultSpecifier"
  | .importNamespaceSpecifier => "ImportNamespaceSpecifier"
  | .importAttribute => "ImportAttribute"
  | .exportNamedDeclaration => "ExportNamedDeclaration"
  | .exportDefaultDeclaration => "ExportDefaultDeclaration"
  | .exportAllDeclaration => "ExportAllDeclaration"
  | .exportSpecifier => "ExportSpecifier"
  | .jsxElement => "JSXElement"
  | .jsxOpeningElement => "JSXOpeningElement"
  | .jsxClosingElement => "JSXClosingElement"
  | .jsxFragment => "JSXFragment"
  | .jsxOpeningFragment => "JSXOpeningFragment"
  | .jsxClosingFragment => "JSXClosingFragment"
  | .jsxNamespacedName => "JSXNamespacedName"
  | .jsxMemberExpression => "JSXMemberExpression"
  | .jsxExpressionContainer => "JSXExpressionContainer"
  | .jsxEmptyExpression => "JSXEmptyExpression"
  | .jsxAttribute => "JSXAttribute"
  | .jsxSpreadAttribute => "JSXSpreadAttribute"
  | .jsxIdentifier => "JSXIdentifier"
  | .jsxSpreadChild => "JSXSpreadChild"
  | .jsxText => "JSXText"

/-- The kind with exactly the given name. -/
def ofName? (name : String) : Option NodeKind := all.find? fun kind => kind.name == name

/-- The kind named by the `"type"` tag of a plain node object. A node whose tag is one of its own
fields reports that field's value, so functions, classes and class members answer to several tags.
-/
def ofTag? (tag : String) : Option NodeKind :=
  match ofName? tag with
  | some kind => some kind
  | none =>
    match tag with
    | "FunctionDeclaration" | "FunctionExpression" | "TSDeclareFunction"
    | "TSEmptyBodyFunctionExpression" => some .function
    | "ClassDeclaration" | "ClassExpression" => some .classNode
    | "TSAbstractMethodDefinition" => some .methodDefinition
    | "TSAbstractPropertyDefinition" => some .propertyDefinition
    | "TSAbstractAccessorProperty" => some .accessorProperty
    | _ => none

end NodeKind

end FlatSyntax
