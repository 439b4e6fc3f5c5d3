import SourceTree.Script.Grammar.Expression

/-!
Declarations and statements.
-/

namespace SourceTree.Script.Grammar

open Piece

/-! ### Variables -/

def declarator (r : Rules) : Piece :=
  node "variable_declarator" (role "name" r.binding ++ opt (typed (opt (punct "!") ++ typeMark r)) ++
    opt (initializer r))

/-- Whether the last of several declarators has a value. -/
def endsWithValue (declarators : List Construct) : Bool :=
  (declarators.getLast?.bind fun d => d.part? "value").isSome

def variableList (r : Rules) (kind : String) (keyword : Piece) : Piece := do
  let keyword ← keyword
  let declarators ← sepBy1 (declarator r) (punct ",")
  let stop ← semicolon (endsWithValue declarators)
  return Construct.wrap kind (keyword ++ declarators ++ stop)

def variableDeclaration (r : Rules) : Piece :=
  firstOf [
    variableList r "variable_declaration" (word "var"),
    variableList r "lexical_declaration" (role "kind" (word "let" <|> word "const"))]

/-- A resource that is given up at the end of its block. -/
def usingDeclaration (r : Rules) : Piece := do
  if (← read).isTyped then failure
  let keyword : Piece := do
    let keyword ← opt (word "await") ++ word "using"
    onLine (pure keyword)
  variableList r "using_declaration" (role "kind" keyword)

/-! ### Typed declarations -/

def interfaceDeclaration (r : Rules) : Piece :=
  node "interface_declaration" (word "interface" ++ role "name" identifier ++
    opt (typeParameters r) ++
    opt (node "extends_type_clause" (word "extends" ++ sepBy1 (role "type" r.type) (punct ","))) ++
    role "body" (objectType "interface_body" r))

def enumDeclaration (r : Rules) : Piece :=
  let item := role "name" (propertyName r) ++ opt (initializer r)
  node "enum_declaration" (opt (word "const") ++ word "enum" ++ role "name" identifier ++
    role "body" (node "enum_body" (bracketed "\x7b" item "\x7d")))

def typeAlias (r : Rules) : Piece :=
  node "type_alias_declaration" (word "type" ++ role "name" identifier ++ opt (typeParameters r) ++
    punct "=" ++ role "value" r.type ++ semicolon false)

def moduleTail (r : Rules) : Piece := role "name" (quotedText <|> dotted) ++ opt (body false r)

def moduleDeclaration (r : Rules) : Piece := node "module" (word "module" ++ moduleTail r)

def namespaceDeclaration (r : Rules) : Piece :=
  node "internal_module" (word "namespace" ++ onLine (moduleTail r))

/-- Another name for something. -/
def importAlias : Piece :=
  node "import_alias" (word "import" ++ identifier ++ punct "=" ++ dotted ++ semicolon false)

def typedDeclaration (r : Rules) : Piece :=
  typed (firstOf [interfaceDeclaration r, enumDeclaration r, typeAlias r, abstractClass r,
    moduleDeclaration r, importAlias])

/-! ### Declarations -/

/-- Any declaration; the flag tells whether an expression could stand in its place. -/
def declaration (asStatement : Bool) (r : Rules) : Piece :=
  firstOf [functionDeclaration asStatement r, classDeclaration asStatement r, typedDeclaration r,
    variableDeclaration r, usingDeclaration r]

def ambientDeclaration (r : Rules) : Piece :=
  let declared := firstOf [
    declaration false r,
    namespaceDeclaration r,
    word "global" ++ block false r,
    word "module" ++ punct "." ++ identifier ++ typeMark r ++ semicolon false]
  typed (node "ambient_declaration" (word "declare" ++ onLine declared))

/-! ### Imports and exports -/

/-- The module that something comes from. -/
def sourceClause : Piece := word "from" ++ role "source" quotedText

/-- What is said about a module. -/
def importAttribute (r : Rules) : Piece :=
  node "import_attribute" (onLine (word "with" <|> word "assert") ++ objectLiteral r)

/-- Names in braces, perhaps renamed or marked as types. -/
def specifierList (kind : String) : Piece :=
  node kind (bracketed "\x7b" (anyName "identifier" <|> quotedText) "\x7d")

def importClause : Piece :=
  let whole := node "namespace_import" (punct "*" ++ word "as" ++ identifier)
  let named := whole <|> specifierList "named_imports"
  node "import_clause" (named <|> (identifier ++ opt (punct "," ++ named)))

def requireClause : Piece :=
  node "import_require_clause" (identifier ++ punct "=" ++ word "require" ++ punct "(" ++
    role "source" quotedText ++ punct ")")

def importStatement (r : Rules) : Piece :=
  let target := firstOf [typed requireClause, importClause ++ sourceClause, role "source" quotedText]
  let marked := typed ((word "type" <|> word "typeof") ++ target)
  node "import_statement" (word "import" ++ (marked <|> target) ++ opt (importAttribute r) ++
    semicolon false)

/-- An expression that is exported, by default or as the whole module. -/
def exportedValue (r : Rules) : Piece := role "value" r.expression ++ semicolon true

/-- What is exported under its own or another name. -/
def exportedNames (r : Rules) : Piece :=
  let whole := punct "*" ++ opt (word "as" ++ (anyName "identifier" <|> quotedText))
  let attributes := opt (importAttribute r)
  opt (typed (word "type")) ++ ((whole ++ sourceClause ++ attributes) <|>
    (specifierList "export_clause" ++ opt (sourceClause ++ attributes))) ++ semicolon false

def exportStatement (r : Rules) : Piece :=
  node "export_statement" (many (decorator r) ++ word "export" ++ firstOf [
    exportedNames r,
    word "default" ++ (role "declaration" (declaration true r) <|> exportedValue r),
    typed (word "import" ++ identifier ++ punct "=" ++ dotted ++ semicolon false),
    typed (punct "=" ++ exportedValue r),
    typed (word "as" ++ word "namespace" ++ identifier ++ semicolon false),
    role "declaration" (firstOf [ambientDeclaration r, declaration false r,
      typed (namespaceDeclaration r)])])

/-! ### Control flow -/

def ifStatement (r : Rules) : Piece :=
  node "if_statement" (word "if" ++ role "condition" (parenthesized r) ++
    role "consequence" r.statement ++
    opt (role "alternative" (node "else_clause" (word "else" ++ r.statement))))

def switchStatement (r : Rules) : Piece :=
  let case := node "switch_case" (word "case" ++ expressions r ++ punct ":" ++ many r.statement)
  let other := node "switch_default" (word "default" ++ punct ":" ++ many r.statement)
  node "switch_statement" (word "switch" ++ role "value" (parenthesized r) ++
    role "body" (node "switch_body" (punct "\x7b" ++ many (case <|> other) ++ punct "\x7d")))

/-- A loop over a collection. -/
def forInStatement (r : Rules) : Piece :=
  let declared := role "kind" (firstOf [word "var", word "let", word "const"]) ++
    role "left" r.binding ++ opt (initializer r)
  let assigned := role "left" r.target
  node "for_in_statement" (word "for" ++ opt (word "await") ++ punct "(" ++ (declared <|> assigned) ++
    role "operator" (word "in" <|> word "of") ++ role "right" (expressions r) ++ punct ")" ++
    role "body" r.statement)

/-- A loop with a counter. -/
def forStatement (r : Rules) : Piece :=
  let start := firstOf [variableDeclaration r, expressions r ++ punct ";", punct ";"]
  node "for_statement" (word "for" ++ punct "(" ++ role "initializer" start ++
    role "condition" (opt (expressions r) ++ punct ";") ++
    role "increment" (opt (expressions r)) ++ punct ")" ++ role "body" r.statement)

def whileStatement (r : Rules) : Piece :=
  node "while_statement" (word "while" ++ role "condition" (parenthesized r) ++
    role "body" r.statement)

def doStatement (r : Rules) : Piece :=
  node "do_statement" (word "do" ++ role "body" r.statement ++ word "while" ++
    role "condition" (parenthesized r) ++ opt (semicolon false))

def tryStatement (r : Rules) : Piece :=
  let caught := punct "(" ++ role "parameter" r.binding ++ opt (typed (typeMark r)) ++ punct ")"
  node "try_statement" (word "try" ++ body false r ++
    opt (role "handler" (node "catch_clause" (word "catch" ++ opt caught ++ body false r))) ++
    opt (role "finalizer" (node "finally_clause" (word "finally" ++ body false r))))

/-- A jump, perhaps to a label. -/
def jumpStatement (kind keyword : String) : Piece :=
  node kind (word keyword ++ (semicolon false <|> (role "label" identifier ++ semicolon false)))

def returnStatement (r : Rules) : Piece :=
  node "return_statement" (word "return" ++ (semicolon false <|> (expressions r ++ semicolon true)))

def throwStatement (r : Rules) : Piece :=
  node "throw_statement" (word "throw" ++ expressions r ++ semicolon true)

def labeledStatement (r : Rules) : Piece :=
  node "labeled_statement" (role "label" identifier ++ punct ":" ++ role "body" r.statement)

/-- An expression as a statement. A namespace outside an export is one too. -/
def expressionStatement (r : Rules) : Piece :=
  node "expression_statement"
    ((typed (namespaceDeclaration r) ++ semicolon true) <|> (expressions r ++ semicolon true))

def statementRule (r : Rules) : Piece :=
  firstOf [
    punct ";",
    block false r,
    ifStatement r,
    forInStatement r,
    forStatement r,
    whileStatement r,
    doStatement r,
    switchStatement r,
    tryStatement r,
    returnStatement r,
    throwStatement r,
    jumpStatement "break_statement" "break",
    jumpStatement "continue_statement" "continue",
    node "debugger_statement" (word "debugger" ++ semicolon false),
    node "with_statement" (word "with" ++ parenthesized r ++ r.statement),
    importStatement r,
    exportStatement r,
    ambientDeclaration r,
    declaration true r,
    labeledStatement r,
    expressionStatement r]

end SourceTree.Script.Grammar
