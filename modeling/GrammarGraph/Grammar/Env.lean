import GrammarGraph.Token.Basic

/-! # Variables of a rule instance -/

namespace GrammarGraph

inductive Value where
  | bool (b : Bool)
  | int (n : Int64)
  | text (s : String)
deriving DecidableEq, Repr

namespace Value

def bool? : Value → Option Bool
  | bool b => some b
  | _ => none

def int? : Value → Option Int64
  | int n => some n
  | _ => none

def text? : Value → Option String
  | text s => some s
  | _ => none

end Value

/-- A finite map from names to values, kept sorted, so that equal maps are equal. -/
structure Env where
  vars : List (String × Value) := []
  sorted : vars.Pairwise (fun a b => a.1 < b.1) := by exact List.Pairwise.nil
deriving DecidableEq, Repr

namespace Env

private theorem lt_of_not_lt {a b : String} (h : ¬a < b) (hne : a ≠ b) : b < a :=
  String.not_le.mp fun h' => hne (String.le_antisymm h' (String.not_lt.mp h))

def empty : Env := {}

instance : Inhabited Env := ⟨empty⟩

/-- Bind a name in a sorted list, in the place of an older binding. -/
def insert (name : String) (value : Value) : List (String × Value) → List (String × Value)
  | [] => [(name, value)]
  | (n, v) :: rest =>
    if name < n then (name, value) :: (n, v) :: rest
    else if name = n then (name, value) :: rest
    else (n, v) :: insert name value rest

theorem mem_insert {name : String} {value : Value} {p : String × Value} :
    ∀ {vars : List (String × Value)}, p ∈ insert name value vars → p = (name, value) ∨ p ∈ vars
  | [], h => by simpa [insert] using h
  | (n, v) :: rest, h => by
    unfold insert at h
    split at h
    · simpa using h
    · split at h
      · rcases List.mem_cons.mp h with h | h
        · exact .inl h
        · exact .inr (List.mem_cons_of_mem _ h)
      · rcases List.mem_cons.mp h with h | h
        · exact .inr (h ▸ List.mem_cons_self)
        · exact (mem_insert h).imp id (List.mem_cons_of_mem _)

theorem sorted_insert {name : String} {value : Value} :
    ∀ {vars : List (String × Value)}, vars.Pairwise (fun a b => a.1 < b.1) →
      (insert name value vars).Pairwise (fun a b => a.1 < b.1)
  | [], _ => by simp [insert]
  | (n, v) :: rest, h => by
    obtain ⟨hn, hrest⟩ := List.pairwise_cons.mp h
    unfold insert
    split
    · rename_i hlt
      refine List.pairwise_cons.mpr ⟨fun p hp => ?_, h⟩
      rcases List.mem_cons.mp hp with rfl | hp
      · exact hlt
      · exact String.lt_trans hlt (hn p hp)
    · rename_i hlt
      split
      · rename_i heq
        subst heq
        exact List.pairwise_cons.mpr ⟨hn, hrest⟩
      · rename_i hne
        refine List.pairwise_cons.mpr ⟨fun p hp => ?_, sorted_insert hrest⟩
        rcases mem_insert hp with rfl | hp
        · exact lt_of_not_lt hlt hne
        · exact hn p hp

def get? (e : Env) (name : String) : Option Value := e.vars.lookup name

def set (e : Env) (name : String) (value : Value) : Env :=
  ⟨insert name value e.vars, sorted_insert e.sorted⟩

def remove (e : Env) (name : String) : Env :=
  ⟨e.vars.filter (·.1 != name), e.sorted.filter _⟩

def contains (e : Env) (name : String) : Bool := (e.get? name).isSome

def isEmpty (e : Env) : Bool := e.vars.isEmpty

end Env

/-- A pair of changes to the variables around a token slot: `apply` when the slot takes a token,
`undo` when the search backs out of it. -/
structure Hook where
  apply : Env → Token → Env
  undo : Env → Token → Env

/-- The hook takes back on `e` exactly what it did. -/
def Hook.Reverts (h : Hook) (e : Env) (t : Token) : Prop := h.undo (h.apply e t) t = e

end GrammarGraph
