import SourceTree.Go.Linkage
import SourceTree.Go.Tree
import SourceTree.Java.Linkage
import SourceTree.Java.Tree
import SourceTree.Python.Linkage
import SourceTree.Python.Tree
import SourceTree.Script.Grammar.Program
import SourceTree.Script.Linkage
import SourceTree.Script.Tree

/-!
Reading a source of any language, and what its tree says about imports, exports and symbols.
-/

namespace SourceTree.Language

/-- Reads a source, a script by way of the constructs that the reader gives; the path tells dialects
apart. -/
def parseWith? (reader : Script.ConcreteReader) (l : Language) (source : Text) (path : String) :
    Option ParsedFile :=
  match l with
  | .typescript | .javascript => Script.parse? reader l source path
  | .python => Python.parse? source path
  | .java => Java.parse? source path
  | .go => Go.parse? source path

/-- Reads a source, a script by the grammar of this library. -/
def parse? (l : Language) (source : Text) (path : String) : Option ParsedFile :=
  l.parseWith? Script.Grammar.concrete? source path

def imports (l : Language) (root : Node) : List Import :=
  match l with
  | .typescript | .javascript => Script.imports root
  | .python => Python.imports root
  | .java => Java.imports root
  | .go => Go.imports root

def exports (l : Language) (root : Node) : List Export :=
  match l with
  | .typescript | .javascript => Script.exports root
  | .python => Python.exports root
  | .java => Java.exports root
  | .go => Go.exports root

def symbolRules : Language → SymbolRules
  | .typescript | .javascript => Script.symbolRules
  | .python => Python.symbolRules
  | .java => Java.symbolRules
  | .go => Go.symbolRules

def symbols (l : Language) (root : Node) : List SymbolInfo := root.symbols l.symbolRules

end SourceTree.Language
