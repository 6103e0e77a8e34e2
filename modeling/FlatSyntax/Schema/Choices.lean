import FlatSyntax.Schema.Layout

/-!
# Choices

The members of each choice: the byte that stands for the member and its spelling in plain values.
-/

namespace FlatSyntax.ChoiceKind

/-- The members of a choice, in declaration order. -/
def members : ChoiceKind → List Member
  | .commentKind =>
      [⟨"Line", 0, "Line"⟩, ⟨"Block", 1, "Block"⟩]
  | .moduleKind =>
      [⟨"Script", 0, "script"⟩, ⟨"Module", 1, "module"⟩]
  | .severity =>
      [⟨"Error", 0, "Error"⟩, ⟨"Warning", 1, "Warning"⟩, ⟨"Advice", 2, "Advice"⟩]
  | .assignmentOperator =>
      [⟨"Assign", 0, "="⟩, ⟨"Addition", 1, "+="⟩, ⟨"Subtraction", 2, "-="⟩,
       ⟨"Multiplication", 3, "*="⟩, ⟨"Division", 4, "/="⟩, ⟨"Remainder", 5, "%="⟩,
       ⟨"Exponential", 6, "**="⟩, ⟨"ShiftLeft", 7, "<<="⟩, ⟨"ShiftRight", 8, ">>="⟩,
       ⟨"ShiftRightZeroFill", 9, ">>>="⟩, ⟨"BitwiseOr", 10, "|="⟩, ⟨"BitwiseXor", 11, "^="⟩,
       ⟨"BitwiseAnd", 12, "&="⟩, ⟨"LogicalOr", 13, "||="⟩, ⟨"LogicalAnd", 14, "&&="⟩,
       ⟨"LogicalNullish", 15, "??="⟩]
  | .binaryOperator =>
      [⟨"Equality", 0, "=="⟩, ⟨"Inequality", 1, "!="⟩, ⟨"StrictEquality", 2, "==="⟩,
       ⟨"StrictInequality", 3, "!=="⟩, ⟨"LessThan", 4, "<"⟩, ⟨"LessEqualThan", 5, "<="⟩,
       ⟨"GreaterThan", 6, ">"⟩, ⟨"GreaterEqualThan", 7, ">="⟩, ⟨"Addition", 8, "+"⟩,
       ⟨"Subtraction", 9, "-"⟩, ⟨"Multiplication", 10, "*"⟩, ⟨"Division", 11, "/"⟩,
       ⟨"Remainder", 12, "%"⟩, ⟨"Exponential", 13, "**"⟩, ⟨"ShiftLeft", 14, "<<"⟩,
       ⟨"ShiftRight", 15, ">>"⟩, ⟨"ShiftRightZeroFill", 16, ">>>"⟩, ⟨"BitwiseOr", 17, "|"⟩,
       ⟨"BitwiseXor", 18, "^"⟩, ⟨"BitwiseAnd", 19, "&"⟩, ⟨"In", 20, "in"⟩,
       ⟨"Instanceof", 21, "instanceof"⟩]
  | .logicalOperator =>
      [⟨"Or", 0, "||"⟩, ⟨"And", 1, "&&"⟩, ⟨"Coalesce", 2, "??"⟩]
  | .unaryOperator =>
      [⟨"UnaryPlus", 0, "+"⟩, ⟨"UnaryNegation", 1, "-"⟩, ⟨"LogicalNot", 2, "!"⟩,
       ⟨"BitwiseNot", 3, "~"⟩, ⟨"Typeof", 4, "typeof"⟩, ⟨"Void", 5, "void"⟩,
       ⟨"Delete", 6, "delete"⟩]
  | .updateOperator =>
      [⟨"Increment", 0, "++"⟩, ⟨"Decrement", 1, "--"⟩]
  | .propertyKind =>
      [⟨"Init", 0, "init"⟩, ⟨"Get", 1, "get"⟩, ⟨"Set", 2, "set"⟩]
  | .variableDeclarationKind =>
      [⟨"Var", 0, "var"⟩, ⟨"Let", 1, "let"⟩, ⟨"Const", 2, "const"⟩, ⟨"Using", 3, "using"⟩,
       ⟨"AwaitUsing", 4, "await using"⟩]
  | .functionType =>
      [⟨"FunctionDeclaration", 0, "FunctionDeclaration"⟩,
       ⟨"FunctionExpression", 1, "FunctionExpression"⟩,
       ⟨"TSDeclareFunction", 2, "TSDeclareFunction"⟩,
       ⟨"TSEmptyBodyFunctionExpression", 3, "TSEmptyBodyFunctionExpression"⟩]
  | .formalParameterKind =>
      [⟨"FormalParameter", 0, "FormalParameter"⟩,
       ⟨"UniqueFormalParameters", 1, "UniqueFormalParameters"⟩,
       ⟨"ArrowFormalParameters", 2, "ArrowFormalParameters"⟩, ⟨"Signature", 3, "Signature"⟩]
  | .classType =>
      [⟨"ClassDeclaration", 0, "ClassDeclaration"⟩, ⟨"ClassExpression", 1, "ClassExpression"⟩]
  | .methodDefinitionType =>
      [⟨"MethodDefinition", 0, "MethodDefinition"⟩,
       ⟨"TSAbstractMethodDefinition", 1, "TSAbstractMethodDefinition"⟩]
  | .propertyDefinitionType =>
      [⟨"PropertyDefinition", 0, "PropertyDefinition"⟩,
       ⟨"TSAbstractPropertyDefinition", 1, "TSAbstractPropertyDefinition"⟩]
  | .methodDefinitionKind =>
      [⟨"Constructor", 0, "constructor"⟩, ⟨"Method", 1, "method"⟩, ⟨"Get", 2, "get"⟩,
       ⟨"Set", 3, "set"⟩]
  | .accessorPropertyType =>
      [⟨"AccessorProperty", 0, "AccessorProperty"⟩,
       ⟨"TSAbstractAccessorProperty", 1, "TSAbstractAccessorProperty"⟩]
  | .importPhase =>
      [⟨"Source", 0, "source"⟩, ⟨"Defer", 1, "defer"⟩]
  | .importOrExportKind =>
      [⟨"Value", 0, "value"⟩, ⟨"Type", 1, "type"⟩]

/-- How an absent choice is encoded. -/
def absence : ChoiceKind → Absence
  | .importPhase => .reservedTag 0 2
  | _ => .unsupported

/-- The member that a byte stands for. -/
def member? (kind : ChoiceKind) (tag : UInt8) : Option Member :=
  kind.members.find? fun m => m.tag == tag

end FlatSyntax.ChoiceKind
