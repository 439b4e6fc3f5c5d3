/-!
The closed set of tags that every language's constructs are mapped onto, and the visibility of a
declaration.
-/

namespace SourceTree

inductive NodeKind where
  | program | moduleDecl | function | arrowFunction | method | classDecl | interface | typeAlias
  | variableDecl | parameter | property | importDecl | exportDecl | callExpression | block | statement
  | expression | comment | decorator | struct | package | unknown
  deriving DecidableEq, Repr

namespace NodeKind

/-- All tags. -/
def all : List NodeKind :=
  [program, moduleDecl, function, arrowFunction, method, classDecl, interface, typeAlias, variableDecl,
    parameter, property, importDecl, exportDecl, callExpression, block, statement, expression,
    comment, decorator, struct, package, unknown]

/-- The written form of a tag. -/
def label : NodeKind → String
  | program => "program"
  | moduleDecl => "module"
  | function => "function"
  | arrowFunction => "arrow_function"
  | method => "method"
  | classDecl => "class"
  | interface => "interface"
  | typeAlias => "type_alias"
  | variableDecl => "variable"
  | parameter => "parameter"
  | property => "property"
  | importDecl => "import"
  | exportDecl => "export"
  | callExpression => "call_expression"
  | block => "block"
  | statement => "statement"
  | expression => "expression"
  | comment => "comment"
  | decorator => "decorator"
  | struct => "struct"
  | package => "package"
  | unknown => "unknown"

/-- Reads a tag back from its written form. -/
def ofLabel? (s : String) : Option NodeKind := all.find? fun k => k.label == s

/-- The tags that open a lexical scope. -/
def isScope : NodeKind → Bool
  | function | arrowFunction | method | classDecl | block | program => true
  | _ => false

end NodeKind

/-- Who may see a declaration. `package` is everything in the same package. -/
inductive Visibility where
  | pub | priv | prot | package
  deriving DecidableEq, Repr

namespace Visibility

def all : List Visibility := [pub, priv, prot, package]

def label : Visibility → String
  | pub => "public"
  | priv => "private"
  | prot => "protected"
  | package => "package"

def ofLabel? (s : String) : Option Visibility := all.find? fun v => v.label == s

end Visibility

end SourceTree
