import GrammarGraph.Yaml.Schema

/-! # Configuration documents

A document is read into a value first; what is wanted of each part of it decides how it
is understood. So a plain word such as `true` is a text where a text is wanted, and a
boolean where a boolean is.
-/

namespace GrammarGraph

/-- A document; scalars without quotes are plain. A part left out is the plain empty text. -/
inductive Yaml where
  | plain (text : String)
  | quoted (text : String)
  | sequence (items : List Yaml)
  | mapping (entries : List (Yaml × Yaml))

namespace Yaml

/-- What stands for a part left out. -/
def missing : Yaml := plain ""

instance : Inhabited Yaml := ⟨missing⟩

def text? : Yaml → Option String
  | plain s | quoted s => some s
  | sequence _ | mapping _ => none

def bool? : Yaml → Option Bool
  | plain s => Schema.bool? s
  | _ => none

def word? : Yaml → Option UInt64
  | plain s => Schema.word? s
  | _ => none

/-- A text by its own form, whatever is wanted. -/
def ownText? : Yaml → Option String
  | plain s => if Schema.isText s then some s else none
  | quoted s => some s
  | sequence _ | mapping _ => none

def isNull : Yaml → Bool
  | plain s => Schema.isNull s
  | _ => false

/-- A value that may be left out. -/
def optional {α : Type} (read : Yaml → Option α) (y : Yaml) : Option (Option α) :=
  if y.isNull then some none else (read y).map some

@[simp] theorem optional_missing {α : Type} (read : Yaml → Option α) :
    optional read missing = some none := rfl

/-- The items of a sequence, each read alike. -/
def list? {α : Type} (read : Yaml → Option α) : Yaml → Option (List α)
  | sequence items => items.mapM read
  | plain "" => some []
  | _ => none

@[simp] theorem list?_missing {α : Type} (read : Yaml → Option α) :
    list? read missing = some [] := rfl

@[simp] theorem list?_sequence {α : Type} (read : Yaml → Option α) (items : List Yaml) :
    list? read (sequence items) = items.mapM read := rfl

/-- The entries of a mapping by their names, which `name` reads. -/
def entries? (name : Yaml → Option String) : Yaml → Option (List (String × Yaml))
  | mapping entries => entries.mapM fun (k, v) => (name k).map (·, v)
  | _ => none

/-- The fields of a record, which has none if it is left out. -/
def fields? (y : Yaml) : Option (List (String × Yaml)) :=
  match y with
  | plain "" => some []
  | y => y.entries? text?

@[simp] theorem fields?_missing : missing.fields? = some [] := rfl

/-- A field that must be given once. -/
def field? {α : Type} (fields : List (String × Yaml)) (name : String)
    (read : Yaml → Option α) : Option α :=
  match fields.filter (·.1 == name) with
  | [(_, y)] => read y
  | _ => none

/-- A field that may be given once. -/
def fieldOr {α : Type} (fields : List (String × Yaml)) (name : String) (read : Yaml → Option α)
    (other : α) : Option α :=
  match fields.filter (·.1 == name) with
  | [] => some other
  | [(_, y)] => read y
  | _ => none

@[simp] theorem fieldOr_nil {α : Type} (name : String) (read : Yaml → Option α) (other : α) :
    fieldOr [] name read other = some other := rfl

end Yaml

end GrammarGraph
