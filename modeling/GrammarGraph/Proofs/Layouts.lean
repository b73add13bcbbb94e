import GrammarGraph.Proofs.WordByWord
import Mathlib.Tactic.IntervalCases

/-!
# The bodies of the grammar of definitions

The nodes of each body and their links, as a table of numbers (`Meta.layouts`).
-/

namespace GrammarGraph.Meta

/-- A node of a body: types and rules by their numbers, other nodes by their places in the body. -/
inductive Spot where
  | junction
  | slot (type : Nat) (ident : Option String)
  | start (rule : RuleId) (ident : Option String) (stop : Nat)
  | close (rule : RuleId) (ident : Option String)
deriving DecidableEq

/-- The nodes of a body, each with its links. -/
abbrev Layout := List (Spot × List Nat)

def Spot.kind : Spot → NodeKind
  | junction => .junction
  | slot type ident => .slot (typeAt type) ident none
  | start rule ident stop => .ruleStart rule ident stop
  | close rule ident => .ruleEnd rule ident

def Layout.graph (layout : Layout) : Graph :=
  ⟨(layout.map fun (spot, links) => ⟨spot.kind, links⟩).toArray⟩

def commentStyleLayout : Layout := [
  (.junction, [2, 5]), (.junction, []), (.slot 20 "line", [3]), (.slot 2 "begin", [4]),
  (.slot 11 none, [1]), (.slot 21 "block", [6]), (.slot 2 "begin", [7]), (.slot 2 "end", [8]),
  (.slot 11 none, [1])]

def enableLayout : Layout := [
  (.junction, [2]), (.junction, []), (.slot 22 none, [3]), (.slot 23 none, [4]),
  (.slot 11 none, [1])]

/-- One property. -/
def propertyLayout (key : Nat) : Layout := [
  (.junction, [11]), (.junction, []), (.junction, [4]), (.junction, [10, 12]),
  (.slot key "property", [5]), (.slot 7 none, [8]), (.slot 12 "value", [9]),
  (.slot 13 "value", [9]), (.junction, [6, 7]), (.junction, [3]), (.slot 8 none, [2]),
  (.slot 3 none, [2]), (.slot 4 none, [1])]

/-- Two properties. -/
def propertiesLayout (first second : Nat) : Layout := [
  (.junction, [17]), (.junction, []), (.junction, [4, 10]), (.junction, [16, 18]),
  (.slot first "property", [5]), (.slot 7 none, [8]), (.slot 12 "value", [9]),
  (.slot 13 "value", [9]), (.junction, [6, 7]), (.junction, [3]), (.slot second "property", [11]),
  (.slot 7 none, [14]), (.slot 12 "value", [15]), (.slot 13 "value", [15]), (.junction, [12, 13]),
  (.junction, [3]), (.slot 8 none, [2]), (.slot 3 none, [2]), (.slot 4 none, [1])]

/-- No property is allowed. -/
def noPropertyLayout : Layout := [
  (.junction, [5]), (.junction, []), (.junction, []), (.junction, [4, 6]), (.slot 8 none, [2]),
  (.slot 3 none, [2]), (.slot 4 none, [1])]

/-- The declaration of a type with properties. -/
def flaggedLayout (keyword : Nat) : Layout := [
  (.junction, [2]), (.junction, []), (.slot keyword none, [3]), (.slot 1 "id", [5]),
  (.slot 11 none, [1]), (.slot 2 "value", [8]), (.close 2 "properties", [9]),
  (.start 2 "properties" 6, []), (.junction, [7, 9]), (.junction, [4])]

/-- The declaration of a type with a text and without properties. -/
def valueLayout (keyword : Nat) : Layout := [
  (.junction, [2]), (.junction, []), (.slot keyword none, [3]), (.slot 1 "id", [5]),
  (.slot 11 none, [1]), (.slot 2 "value", [4])]

def literalLayout : Layout := [
  (.junction, [2]), (.junction, []), (.slot 19 none, [3]), (.slot 1 "id", [4]),
  (.slot 11 none, [1])]

def elementLayout : Layout := [
  (.junction, [6]), (.junction, []), (.slot 29 "id", [3]), (.slot 9 none, [5]), (.junction, [2]),
  (.junction, [7]), (.junction, [4, 7]), (.junction, [13]), (.slot 1 "token", [14]),
  (.slot 2 "keyword", [14]), (.slot 27 "rule", [14]), (.close 11 "group", [14]),
  (.start 11 "group" 11, []), (.junction, [8, 9, 10, 12]), (.junction, [20]),
  (.slot 30 "mult", [19]), (.slot 31 "mult", [19]), (.slot 32 "mult", [19]),
  (.junction, [15, 16, 17]), (.junction, [21]), (.junction, [18, 21]), (.junction, [1])]

def branchLayout : Layout := [
  (.junction, [4]), (.junction, []), (.close 9 none, [5, 3]), (.start 9 none 2, []),
  (.junction, [3]), (.junction, [1])]

def groupLayout : Layout := [
  (.junction, [2]), (.junction, []), (.slot 5 none, [4]), (.close 10 "branch", [10]),
  (.start 10 "branch" 3, []), (.slot 10 none, [7]), (.close 10 "branch", [9]),
  (.start 10 "branch" 6, []), (.junction, [5]), (.junction, [10]), (.junction, [8, 11]),
  (.junction, [12]), (.slot 6 none, [1])]

def ruleLayout : Layout := [
  (.junction, [3]), (.junction, []), (.slot 28 "root", [4]), (.junction, [2, 4]), (.junction, [5]),
  (.slot 27 "name", [6]), (.slot 9 none, [8]), (.close 10 "branch", [14]),
  (.start 10 "branch" 7, []), (.slot 10 none, [11]), (.close 10 "branch", [13]),
  (.start 10 "branch" 10, []), (.junction, [9]), (.junction, [14]), (.junction, [12, 15]),
  (.junction, [16]), (.slot 11 none, [1])]

def definitionLayout : Layout := [
  (.junction, [22]), (.junction, []), (.close 0 none, [21]), (.start 0 none 2, []),
  (.close 1 none, [21]), (.start 1 none 4, []), (.close 3 none, [21]), (.start 3 none 6, []),
  (.close 4 none, [21]), (.start 4 none 8, []), (.close 5 none, [21]), (.start 5 none 10, []),
  (.close 6 none, [21]), (.start 6 none 12, []), (.close 7 none, [21]), (.start 7 none 14, []),
  (.close 8 none, [21]), (.start 8 none 16, []), (.close 12 none, [21]), (.start 12 none 18, []),
  (.junction, [3, 5, 7, 9, 11, 13, 15, 17, 19]), (.junction, [22]), (.junction, [20, 23]),
  (.junction, [1])]

/-- What the body of a rule may be; that of properties depends on where it is visited. -/
def layouts : RuleId → List Layout
  | 0 => [commentStyleLayout]
  | 1 => [enableLayout]
  | 2 => [propertyLayout 25, propertiesLayout 24 26, noPropertyLayout]
  | 3 => [flaggedLayout 14]
  | 4 => [valueLayout 15]
  | 5 => [valueLayout 16]
  | 6 => [valueLayout 17]
  | 7 => [flaggedLayout 18]
  | 8 => [literalLayout]
  | 9 => [elementLayout]
  | 10 => [branchLayout]
  | 11 => [groupLayout]
  | 12 => [ruleLayout]
  | 13 => [definitionLayout]
  | _ => []

theorem template_properties (ctx : Context) :
    ∃ layout ∈ layouts propertiesRule, (propertiesBody ctx).template = layout.graph := by
  rw [propertiesBody, propertyNames]
  split
  · exact ⟨_, List.mem_cons_self, rfl⟩
  · split
    · exact ⟨_, List.mem_cons_of_mem _ List.mem_cons_self, rfl⟩
    · exact ⟨_, List.mem_cons_of_mem _ (List.mem_cons_of_mem _ List.mem_cons_self), rfl⟩

/-- Every rule has a body, and it is one of those in the tables. -/
theorem exists_layout {rule : RuleId} (h : rule < 14) :
    ∃ expand, grammar.expand? rule = some expand ∧
    ∀ ctx, ∃ layout ∈ layouts rule, (expand ctx).template = layout.graph := by
  by_cases hrule : rule = propertiesRule
  · subst hrule
    exact ⟨propertiesBody, rfl, template_properties⟩
  · interval_cases rule <;> first
      | exact absurd rfl hrule
      | exact ⟨_, rfl, fun _ => ⟨_, List.mem_cons_self, rfl⟩⟩

namespace Layout

variable {layout : Layout} {i : Nat} {spot : Spot} {links : List Nat}

theorem size_graph (layout : Layout) : layout.graph.size = layout.length := by
  simp [graph, Graph.size]

theorem nodes_graph (h : layout[i]? = some (spot, links)) :
    layout.graph.nodes[i]? = some ⟨spot.kind, links⟩ := by
  simp [graph, h]

theorem regular_graph (layout : Layout) : layout.graph.Regular := by
  intro id
  rw [Graph.kind]
  cases h : layout[id]? with
  | none => simp [graph, h, NodeKind.Regular]
  | some node =>
    obtain ⟨spot, links⟩ := node
    rw [nodes_graph h]
    cases spot <;> trivial

end Layout

section

variable {graph : Graph} {base i : Nat} {layout : Layout} {stop : NodeId} {spot : Spot}
  {links : List Nat}

theorem kind_of_holds (h : graph.Holds base layout.graph stop)
    (hi : layout[i]? = some (spot, links)) : graph.kind (base + i) = spot.kind.moved base :=
  h.kind i _ (Layout.nodes_graph hi)

theorem wired_of_holds (h : graph.Holds base layout.graph stop)
    (hi : layout[i]? = some (spot, links)) :
    graph.wired (base + i) = links.map (base + ·) ++ if i = 1 then [stop] else [] :=
  h.wired i _ (Layout.nodes_graph hi)

theorem lt_size_of_holds (h : graph.Holds base layout.graph stop) (hi : i < layout.length) :
    base + i < graph.size := by
  have hsize := h.size_le
  rw [Layout.size_graph] at hsize
  exact lt_of_lt_of_le (Nat.add_lt_add_left hi base) hsize

end

/-! ## Dead ends -/

/-- Whether a node of a body is a dead end for a word with types of the given numbers.  `closed`
tells that what is behind the body is one. -/
def shuts (may : List Nat) (closed : Bool) : Nat → Layout → Nat → Bool
  | 0, _, _ => false
  | fuel + 1, layout, i =>
    match layout[i]? with
    | none => false
    | some (.slot type _, _) => !may.contains (typeAt type).id
    | some (.start rule _ stop, _) =>
      rule < 14 && stop < layout.length && (layouts rule).all fun body =>
        shuts may false fuel body 0
    | some (_, links) =>
      if i = 1 then closed && links.isEmpty else !links.isEmpty &&
        links.all (shuts may closed fuel layout)

variable {may : List Nat} {next : Option String}

theorem shut_of_links {graph : Graph} {base i : Nat} {layout : Layout} {stop : NodeId} {spot : Spot}
    {links : List Nat} {closed : Bool} {P : Nat → Bool}
    (hplain : (spot.kind.moved base).isPlain = true) (hslot : (spot.kind.moved base).isSlot = false)
    (hholds : graph.Holds base layout.graph stop) (hclosed : closed = true → Shut graph next stop)
    (hi : layout[i]? = some (spot, links)) (hP : ∀ j, P j = true → Shut graph next (base + j))
    (h : (if i = 1 then closed && links.isEmpty else !links.isEmpty && links.all P) = true) :
    Shut graph next (base + i) := by
  have hk := kind_of_holds hholds hi
  have hwired := wired_of_holds hholds hi
  rw [← hk] at hplain hslot
  split at h
  · next hexit =>
    rw [Bool.and_eq_true, List.isEmpty_iff] at h
    rw [if_pos hexit, h.2, List.map_nil, List.nil_append] at hwired
    refine shut_of_wired hplain hslot (by rw [hwired]; exact nofun) ?_
    rw [hwired]
    exact List.forall_mem_singleton.mpr (hclosed h.1)
  · next hexit =>
    rw [Bool.and_eq_true, Bool.not_eq_true', List.isEmpty_eq_false_iff, List.all_eq_true] at h
    rw [if_neg hexit, List.append_nil] at hwired
    refine shut_of_wired hplain hslot (by rw [hwired]; simpa using h.1) ?_
    rw [hwired]
    exact List.forall_mem_map.mpr fun j hj => hP j (h.2 j hj)

theorem shut_of_shuts (hmay : Admits may next) : ∀ {fuel : Nat} {graph : Graph} {base i : Nat}
    {layout : Layout} {stop : NodeId} {closed : Bool}, graph.Holds base layout.graph stop →
    (closed = true → Shut graph next stop) → shuts may closed fuel layout i = true →
    Shut graph next (base + i)
  | 0, _, _, _, _, _, _, _, _, h => absurd h nofun
  | fuel + 1, graph, base, i, layout, stop, closed, hholds, hclosed, h => by
    rw [shuts] at h
    split at h
    · exact absurd h nofun
    · next type ident links hi =>
      refine shut_slot (kind_of_holds hholds hi) (known_typeAt type) ?_
      refine hmay.not_fits (known_typeAt type) ?_
      rwa [Bool.not_eq_true', ← Bool.not_eq_true, List.contains_iff_mem] at h
    · next rule ident stop' links hi =>
      simp only [Bool.and_eq_true, decide_eq_true_eq, List.all_eq_true] at h
      obtain ⟨expand, hexpand, hlayout⟩ := exists_layout h.1.1
      refine shut_rule (kind_of_holds hholds hi) (lt_size_of_holds hholds h.1.2) hexpand
        fun base' b ctx hb => ?_
      obtain ⟨body, hbody, heq⟩ := hlayout ctx
      rw [heq] at hb
      exact shut_of_shuts hmay hb (fun hfalse => absurd hfalse Bool.false_ne_true) (h.2 body hbody)
    · next spot links hslot hstart hi =>
      have hP : ∀ j, shuts may closed fuel layout j = true → Shut graph next (base + j) :=
        fun j hj => shut_of_shuts hmay hholds hclosed hj
      cases spot with
      | slot type ident => exact (hslot _ _ rfl).elim
      | start rule ident stop => exact (hstart _ _ _ rfl).elim
      | junction => exact shut_of_links rfl rfl hholds hclosed hi hP h
      | close => exact shut_of_links rfl rfl hholds hclosed hi hP h

end GrammarGraph.Meta
