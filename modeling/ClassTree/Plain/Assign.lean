/-
# Assigning attributes by name

The attributes that declare an entity can be set one at a time, by name and
from plain data. Renaming an entity this way does not move it: it stays under
the key that it is stored under.

Key definitions: `Annot.assign?`, `FieldDecl.assign?`, `MethodDecl.assign?`,
`ComponentDecl.assign?`, `ModuleDecl.assign?`, `ClassDecl.assign?`.
-/
import ClassTree.Plain.Class

namespace ClassTree

/-- Sets an attribute of an annotation. -/
def Annot.assign? (a : Annot) (name : String) (value : Plain) : Option Annot :=
  match name with
  | "descriptor" => return { a with descriptor := ← ofPlain? value }
  | "visible" => return { a with visible := ← ofPlain? value }
  | _ => none

/-- Sets an attribute of a field. -/
def FieldDecl.assign? (f : FieldDecl) (name : String) (value : Plain) : Option FieldDecl :=
  match name with
  | "access" => return { f with access := ← ofPlain? value }
  | "name" => return { f with name := ← ofPlain? value }
  | "descriptor" => return { f with descriptor := ← ofPlain? value }
  | "signature" => return { f with signature := ← ofPlain? value }
  | "value" => return { f with value := ← ofPlain? value }
  | _ => none

/-- Sets an attribute of a record component. -/
def ComponentDecl.assign? (c : ComponentDecl) (name : String) (value : Plain) :
    Option ComponentDecl :=
  match name with
  | "name" => return { c with name := ← ofPlain? value }
  | "descriptor" => return { c with descriptor := ← ofPlain? value }
  | "signature" => return { c with signature := ← ofPlain? value }
  | _ => none

/-- Sets an attribute of a method. The default value and the body can only be
dropped. -/
def MethodDecl.assign? (m : MethodDecl) (name : String) (value : Plain) : Option MethodDecl :=
  match name with
  | "access" => return { m with access := ← ofPlain? value }
  | "name" => return { m with name := ← ofPlain? value }
  | "descriptor" => return { m with descriptor := ← ofPlain? value }
  | "signature" => return { m with signature := ← ofPlain? value }
  | "exceptions" => return { m with exceptions := ← ofPlain? value }
  | "annotation_default" => some { m with annotDefault := none }
  | "body" => some { m with code := none }
  | _ => none

/-- Sets an attribute of a module. -/
def ModuleDecl.assign? (m : ModuleDecl) (name : String) (value : Plain) : Option ModuleDecl :=
  match name with
  | "name" => return { m with name := ← ofPlain? value }
  | "access" => return { m with access := ← ofPlain? value }
  | "version" => return { m with version := ← ofPlain? value }
  | "main_class" => return { m with mainClass := ← ofPlain? value }
  | _ => none

/-- Sets an attribute of a class. The module and the outer class can only be
dropped. -/
def ClassDecl.assign? (c : ClassDecl) (name : String) (value : Plain) : Option ClassDecl :=
  match name with
  | "version" => return { c with version := ← ofPlain? value }
  | "access" => return { c with access := ← ofPlain? value }
  | "name" => return { c with name := ← ofPlain? value }
  | "signature" => return { c with signature := ← ofPlain? value }
  | "super_name" => return { c with superName := ← ofPlain? value }
  | "interfaces" => return { c with interfaces := ← ofPlain? value }
  | "source_file" => return { c with sourceFile := ← ofPlain? value }
  | "source_debug" => return { c with sourceDebug := ← ofPlain? value }
  | "nest_host" => return { c with nestHost := ← ofPlain? value }
  | "inner_classes" => return { c with innerClasses := ← ofPlain? value }
  | "module" => some { c with moduleInfo := none }
  | "outer_class" => some { c with outerClass := none }
  | _ => none

end ClassTree
