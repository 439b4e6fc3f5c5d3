import SourceTree.Node.Kind

/-!
The constructs of scripts that become nodes, by the names of the grammar. All other constructs are
transparent: what is inside them belongs to the nearest construct that becomes a node.
-/

namespace SourceTree.Script

def statementKinds : List String :=
  ["expression_statement", "return_statement", "if_statement", "for_statement", "for_in_statement",
    "while_statement", "do_statement", "switch_statement", "try_statement", "throw_statement",
    "break_statement", "continue_statement", "labeled_statement"]

def expressionKinds : List String :=
  ["assignment_expression", "augmented_assignment_expression", "binary_expression",
    "ternary_expression", "await_expression", "yield_expression", "unary_expression",
    "update_expression", "as_expression", "satisfies_expression"]

def kindOf? (construct : String) : Option NodeKind :=
  match construct with
  | "program" => some .program
  | "function_declaration" | "generator_function_declaration" | "function_expression"
  | "generator_function" | "function" | "function_signature" => some .function
  | "arrow_function" => some .arrowFunction
  | "method_definition" | "method_signature" | "abstract_method_signature" => some .method
  | "class_declaration" | "abstract_class_declaration" | "class" | "enum_declaration" =>
    some .classDecl
  | "interface_declaration" => some .interface
  | "type_alias_declaration" => some .typeAlias
  | "variable_declarator" => some .variableDecl
  | "required_parameter" | "optional_parameter" => some .parameter
  | "public_field_definition" | "field_definition" | "property_signature" => some .property
  | "import_statement" => some .importDecl
  | "export_statement" => some .exportDecl
  | "call_expression" | "new_expression" => some .callExpression
  | "statement_block" => some .block
  | "internal_module" | "module" => some .moduleDecl
  | "comment" => some .comment
  | "decorator" => some .decorator
  | other =>
    if statementKinds.contains other then some .statement
    else if expressionKinds.contains other then some .expression
    else none

/-- The tags of declarations that can be exported. -/
def isDeclaration : NodeKind → Bool
  | .function | .arrowFunction | .classDecl | .interface | .typeAlias | .variableDecl
  | .moduleDecl => true
  | _ => false

end SourceTree.Script
