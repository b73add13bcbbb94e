import GrammarGraph.Token.Basic

/-! # Syntax trees

Rule instances become nodes named after their rule, tokens become leaves. Ids come from the
identifiers that a grammar gives to references and slots, and are empty otherwise.
-/

namespace GrammarGraph

structure Tree where
  name : String
  text : String
  id : String
  children : List Tree := []
  /-- The token that a leaf was made from. -/
  token : Option Token := none

namespace Tree

/-- A node of a name and text, without children. -/
def plain (name text : String) : Tree := ⟨name, text, "", [], none⟩

instance : Inhabited Tree := ⟨plain "" ""⟩

/-- The name of the leaves made from tokens. -/
def tokenName : String := "token"

def ofToken (t : Token) (id : String) : Tree := ⟨tokenName, t.text, id, [], some t⟩

def addChild (t : Tree) (child : Tree) : Tree := { t with children := t.children ++ [child] }

/-- The first child of a name. -/
def child? (t : Tree) (name : String) : Option Tree := t.children.find? (·.name == name)

def childrenNamed (t : Tree) (name : String) : List Tree := t.children.filter (·.name == name)

/-- Whether the node has an id, and this one. -/
def hasId (t : Tree) (id : String) : Bool := t.id != "" && t.id == id

/-- The first child with an id; the empty id is nobody's. -/
def childById? (t : Tree) (id : String) : Option Tree := t.children.find? (·.hasId id)

def childrenById (t : Tree) (id : String) : List Tree := t.children.filter (·.hasId id)

/-- Text of the first child with an id, or nothing. -/
def textById (t : Tree) (id : String) : String := ((t.childById? id).map (·.text)).getD ""

@[simp] theorem childById?_empty (t : Tree) : t.childById? "" = none := by
  simp only [childById?, List.find?_eq_none, hasId]
  intro c _
  by_cases h : c.id = "" <;> simp [h]

/-- The tree with another child at an index, and the child that was there. -/
def replaceChild (t : Tree) (index : Nat) (child : Tree) : Option Tree × Tree :=
  match t.children[index]? with
  | none => (none, t)
  | some old => (some old, { t with children := t.children.set index child })

mutual

/-- Equal names, texts, ids and children, whatever the tokens. -/
def sameShape : Tree → Tree → Bool
  | ⟨name, text, id, children, _⟩, other =>
    name == other.name && text == other.text && id == other.id && sameShapes children other.children

def sameShapes : List Tree → List Tree → Bool
  | [], [] => true
  | t :: ts, u :: us => sameShape t u && sameShapes ts us
  | _, _ => false

end

/-- Whether two nodes were made from the same token, or both from none. -/
def sameToken : Option Token → Option Token → Bool
  | none, none => true
  | some a, some b => a.same b
  | _, _ => false

mutual

/-- Equal also in the tokens. -/
def same : Tree → Tree → Bool
  | ⟨name, text, id, children, token⟩, other =>
    name == other.name && text == other.text && id == other.id && sameAll children other.children &&
      sameToken token other.token

def sameAll : List Tree → List Tree → Bool
  | [], [] => true
  | t :: ts, u :: us => same t u && sameAll ts us
  | _, _ => false

end

end Tree

end GrammarGraph
