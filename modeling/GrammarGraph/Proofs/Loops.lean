import GrammarGraph.Proofs.Turns
import GrammarGraph.Sample

/-!
# Loops are parsed

The language of the grammar of loops (`Sample.Loops.Phrase`), in which the choice between the two
sorts of loops is made by the first token.  From the node in front of the loops the search reads one
loop after the other and comes back to that node (`Sample.Loops.proceeds_phrase`), and where none is
left it goes on to the end.  So it reads every list of loops, and each is rewritten to what it
describes (`Sample.Loops.succeeds_phrases`).
-/

namespace GrammarGraph.Sample.Loops

open GrammarGraph.Search GrammarGraph.Path

/-! ## The language -/

/-- What a loop describes: the list, and the member at hand if that is named. -/
structure Loop where
  list : String
  element : Option String
deriving DecidableEq, Repr

namespace Loop

/-- Both are names that the pattern for identifiers accepts. -/
def IsNamed (l : Loop) : Prop :=
  identifier.kind.accepts l.list.toList = true ∧
    ∀ e ∈ l.element, identifier.kind.accepts e.toList = true

def words (l : Loop) : List String :=
  match l.element with
  | none => ["forall", l.list, "\x7b", "\x7d"]
  | some e => ["foreach", e, "in", l.list, "\x7b", "\x7d"]

/-- The node that the loop is rewritten to. -/
def tree (l : Loop) : Tree :=
  ⟨"for", "", "", .plain "list-var" l.list :: (l.element.map (Tree.plain "element-var")).toList,
    none⟩

end Loop

/-- The node of all loops. -/
def treeOfAll (loops : List Loop) : Tree := ⟨"loops", "", "", loops.map Loop.tree, none⟩

/-- The tokens in front of the braces. -/
inductive Header where
  | overAll (word list : Token)
  | overEach (word element within list : Token)

namespace Header

def tokens : Header → List Token
  | overAll word list => [word, list]
  | overEach word element within list => [word, element, within, list]

/-- Each token has the type of its place, whatever other types it has. -/
def IsTyped : Header → Prop
  | overAll word list => word.hasType forAll.id = true ∧ list.hasType identifier.id = true
  | overEach word element within list =>
    word.hasType forEach.id = true ∧ element.hasType identifier.id = true ∧
      within.hasType Loops.within.id = true ∧ list.hasType identifier.id = true

def loop : Header → Loop
  | overAll _ list => ⟨list.text, none⟩
  | overEach _ element _ list => ⟨list.text, some element.text⟩

def leaves : Header → List Tree
  | overAll word list => [.ofToken word "", .ofToken list "list"]
  | overEach word element within list =>
    [.ofToken word "", .ofToken element "element", .ofToken within "", .ofToken list "list"]

end Header

/-- The tokens of a loop. -/
structure Phrase where
  header : Header
  opening : Token
  closing : Token

namespace Phrase

def tokens (p : Phrase) : List Token := p.header.tokens ++ [p.opening, p.closing]

def IsTyped (p : Phrase) : Prop :=
  p.header.IsTyped ∧ p.opening.hasType left.id = true ∧ p.closing.hasType right.id = true

/-- What the tokens describe. -/
def loop (p : Phrase) : Loop := p.header.loop

end Phrase

/-! ## The grammar -/

def loopsBody : Body :=
  [.part (.rule 0), .chain [.entry, .part 0], .chain [.part 0, .entry], .chain [.entry, .exit]]

theorem expand_loops : grammar.expand? 1 = some fun _ => loopsBody := rfl

theorem expand_loop : grammar.expand? 0 = some fun _ => loopBody := rfl

theorem template_loops : loopsBody.template = ⟨#[
    ⟨.junction, [3, 1]⟩, ⟨.junction, []⟩, ⟨.ruleEnd 0 none, [0]⟩, ⟨.ruleStart 0 none 2, []⟩]⟩ := rfl

theorem template_loop : loopBody.template = ⟨#[
    ⟨.junction, [3, 5]⟩, ⟨.junction, []⟩, ⟨.junction, [9]⟩,
    ⟨.slot forAll none none, [4]⟩, ⟨.slot identifier (some "list") none, [2]⟩,
    ⟨.slot forEach none none, [6]⟩, ⟨.slot identifier (some "element") none, [7]⟩,
    ⟨.slot within none none, [8]⟩, ⟨.slot identifier (some "list") none, [2]⟩,
    ⟨.slot left none none, [10]⟩, ⟨.slot right none none, [1]⟩]⟩ := rfl

/-- The node of a loop that has been read is rewritten to what the loop describes. -/
theorem transformed_loop (p : Phrase) :
    Tree.transformed grammar .ast 0 ⟨"For", "", "",
        p.header.leaves ++ [.ofToken p.opening "", .ofToken p.closing ""], none⟩ = p.loop.tree := by
  obtain ⟨_ | _, _, _⟩ := p <;> rfl

theorem transformed_loops (t : Tree) : t.transformed grammar .ast 1 = t := rfl

/-- The two sorts of loops are told apart by the first token: it does not have the types of both. -/
def Decided (t : Token) : Prop := t.hasType forEach.id = true → t.hasType forAll.id = false

/-! ## Reading a loop -/

variable {full : Bool} {P : Search → Prop} {graph : Graph} {els : List PathElement}
  {tokens rest : List Token} {children outer : List Tree} {scopes : List Scope} {base : Nat}
  {header : Header} {opening closing : Token} {p : Phrase}

/-- The instance of the root rule. -/
def loopsSite : Instance := ⟨2, loopsBody.template, Graph.rootEnd⟩

/-- An instance of a loop. -/
def loopSite (base : Nat) : Instance := ⟨base, loopBody.template, 4⟩

/-- The node of all loops, which is open until the end. -/
def openLoops (children : List Tree) : Tree := ⟨"loops", "", "", children, none⟩

/-- The node of a loop that is being read. -/
def openLoop (children : List Tree) : Tree := ⟨"For", "", "", children, none⟩

/-- The path is in a loop. -/
abbrev Looped (base : Nat) (graph : Graph) (els : List PathElement) (seen : List Nat)
    (children outer : List Tree) (scopes : List Scope) : Prop :=
  Standing grammar .ast (loopSite base) graph els seen (openLoop children :: outer) scopes

/-- The search reads what stands in front of the braces, and comes to the node in front of them. -/
theorem proceeds_header (hheader : header.IsTyped) (hdecided : ∀ t ∈ header.tokens, Decided t)
    (h : Looped base graph (⟨base, none⟩ :: els) [0] [] outer scopes)
    (hnext : ∀ els', Looped base graph (⟨base + 2, none⟩ :: els') [2] header.leaves outer scopes →
      Proceeds grammar full P graph (⟨base + 2, none⟩ :: els') rest) :
    Proceeds grammar full P graph (⟨base, none⟩ :: els) (header.tokens ++ rest) := by
  cases header with
  | overAll word list =>
    obtain ⟨hword, hlist⟩ := hheader
    refine h.reads_take (h.turns (i := 0) (j := 3) rfl rfl (fun _ => rfl) (by decide)
      (List.nil_append _).symm fun _ hk => absurd hk List.not_mem_nil) rfl (by decide)
      hword fun h => ?_
    refine h.reads_take (h.turns_next 3 4 rfl rfl nofun (by decide)) rfl List.not_mem_nil
      hlist fun h => ?_
    exact h.reads_pass (h.turns_next 4 2 rfl rfl nofun (by decide)) rfl rfl
      List.not_mem_nil (hnext _)
  | overEach word element within list =>
    obtain ⟨hword, helement, hwithin, hlist⟩ := hheader
    -- The slot for the other sort of loop comes first.
    have hdead : ∀ k ∈ [3], Dead grammar (some word) graph (base + k) :=
      List.forall_mem_singleton.mpr (dead_slot (h.holds.kind 3 _ rfl)
        (hdecided word List.mem_cons_self hword))
    refine h.reads_take (h.turns (i := 0) (j := 5) rfl rfl (fun _ => rfl) (by decide) rfl hdead) rfl
      (by decide) hword fun h => ?_
    refine h.reads_take (h.turns_next 5 6 rfl rfl nofun (by decide)) rfl List.not_mem_nil
      helement fun h => ?_
    refine h.reads_take (h.turns_next 6 7 rfl rfl nofun (by decide)) rfl List.not_mem_nil
      hwithin fun h => ?_
    refine h.reads_take (h.turns_next 7 8 rfl rfl nofun (by decide)) rfl List.not_mem_nil
      hlist fun h => ?_
    exact h.reads_pass (h.turns_next 8 2 rfl rfl nofun (by decide)) rfl rfl
      List.not_mem_nil (hnext _)

/-- The path stands on the node in front of the next loop.  So far these nodes have been made. -/
structure Ready (graph : Graph) (els : List PathElement) (children : List Tree) : Prop where
  le : .ofGrammar grammar ≤ graph
  tip : ∃ rest, els = ⟨2, none⟩ :: rest
  standing : ∃ seen scopes, (∀ j ∈ [1, 3], j ∉ seen) ∧
    Standing grammar .ast loopsSite graph els seen [openLoops children] scopes
  started : ∀ m ∈ visited els, (graph.kind m).startedRule? ≠ some 0
  stop : Graph.rootEnd ∉ visited els

/-- Behind the braces the loop ends, and the search comes back to the node in front of the next
one. -/
theorem proceeds_braces (hopening : opening.hasType left.id = true)
    (hclosing : closing.hasType right.id = true) (hbase : 6 ≤ base)
    (hle : .ofGrammar grammar ≤ graph) (hloops : graph.Holds 2 loopsBody.template Graph.rootEnd)
    (h : Looped base graph (⟨base + 2, none⟩ :: els) [2] header.leaves [openLoops children] scopes)
    (hnext : ∀ els', Ready graph els' (children ++ [header.loop.tree]) →
      Proceeds grammar full P graph els' rest) :
    Proceeds grammar full P graph (⟨base + 2, none⟩ :: els) (opening :: closing :: rest) := by
  refine h.reads_take (h.turns_next 2 9 rfl rfl (fun _ => rfl) (by decide)) rfl (by decide)
    hopening fun h => ?_
  refine h.reads_take (h.turns_next 9 10 rfl rfl nofun (by decide)) rfl List.not_mem_nil
    hclosing fun h => ?_
  refine h.reads_pass (h.turns_next 10 1 rfl rfl nofun (by decide)) rfl rfl
    List.not_mem_nil fun h => ?_
  have hend : graph.kind 4 = .ruleEnd 0 none := hloops.kind 2 _ rfl
  have hexit : graph.kind (base + 1) = .junction := h.holds.kind 1 _ rfl
  have hentry : graph.kind 2 = .junction := hloops.kind 0 _ rfl
  have hvisited : visited (⟨base + 1, none⟩ :: ⟨base + 10, some closing⟩ ::
      ⟨base + 9, some opening⟩ :: ⟨base + 2, none⟩ :: els) = [base + 1] := by simp
  have hout : 4 ∉ [base + 1] := by
    rw [List.mem_singleton]
    omega
  refine h.reads_exit rfl hend (hvisited ▸ hout) fun hf => ?_
  have hs : Standing grammar .ast loopsSite graph (⟨4, none⟩ :: ⟨base + 1, none⟩ ::
      ⟨base + 10, some closing⟩ :: ⟨base + 9, some opening⟩ :: ⟨base + 2, none⟩ ::
      els) [2] [openLoops (children ++ [header.loop.tree])] (.exited :: scopes) := by
    refine ⟨?_, hloops, fun m hm => ?_⟩
    · have htree := transformed_loop ⟨header, opening, closing⟩
      rw [List.append_cons] at htree
      exact htree ▸ hf
    · rw [visited_cons_none, hvisited, List.mem_cons, List.mem_singleton] at hm
      rcases hm with rfl | rfl
      · exact .inr (.inr ⟨2, List.mem_cons_self, rfl⟩)
      · exact .inr (.inl (Nat.le_succ_of_le hbase))
  refine hs.reads_pass (hs.turns_next 2 0 rfl rfl (fun _ => rfl) (by decide)) rfl rfl
    (by decide) fun hs => ?_
  refine hnext _ ⟨hle, ⟨_, rfl⟩, ⟨[0, 2], _, by decide, hs⟩, fun m hm => ?_, ?_⟩
  · rw [visited_cons_none, visited_cons_none, hvisited, List.mem_cons, List.mem_cons,
      List.mem_singleton] at hm
    rcases hm with rfl | rfl | rfl
    · rw [show loopsSite.base + 0 = 2 from rfl, hentry]
      exact nofun
    · rw [hend]
      exact nofun
    · rw [hexit]
      exact nofun
  · rw [visited_cons_none, visited_cons_none, hvisited]
    simp [loopsSite, Graph.rootEnd]

/-- In front of a loop the search enters a fresh instance. -/
theorem Ready.proceeds_enter (h : Ready graph els children) (hnext : ∀ b els' scopes, graph ≤ b →
      Looped graph.size b (⟨graph.size, none⟩ :: els') [0] [] [openLoops children] scopes →
      Proceeds grammar full P b (⟨graph.size, none⟩ :: els') tokens) :
    Proceeds grammar full P graph els tokens := by
  obtain ⟨hle, ⟨els, rfl⟩, ⟨seen, scopes, hunseen, h⟩, hstarted, -⟩ := h
  have hk : graph.kind 5 = .ruleStart 0 none 4 := h.holds.kind 3 _ rfl
  have hfresh : revisitsIn graph 5 0 (⟨2, none⟩ :: els) = false := by
    refine Path.not_revisits (fun hmem => ?_) (fun rule hrule m hm => ?_) 0
    · rcases h.visited 5 hmem with hbelow | habove | ⟨j, hj, heq⟩
      · exact absurd hbelow (by decide)
      · exact absurd habove (by decide)
      · obtain rfl : j = 3 := (Nat.add_left_cancel heq).symm
        exact hunseen 3 (by decide) hj
    · rw [hk] at hrule
      obtain rfl := Option.some.inj hrule
      exact hstarted m hm
  refine .turn (h.turns (i := 0) (j := 3) rfl rfl (fun _ => rfl) (by decide)
    (List.nil_append _).symm fun _ hm => absurd hm List.not_mem_nil) hfresh ?_
  exact (h.toFooting.enter hk).reads_enter hk (h.lt_size (j := 2) rfl) expand_loop fun b hle =>
    hnext b _ _ hle

/-- A loop becomes a child of the node of all loops. -/
theorem proceeds_phrase (hp : p.IsTyped) (hdecided : ∀ t ∈ p.tokens, Decided t)
    (h : Ready graph els children) (hnext : ∀ b els', Ready b els' (children ++ [p.loop.tree]) →
      Proceeds grammar full P b els' rest) :
    Proceeds grammar full P graph els (p.tokens ++ rest) := by
  obtain ⟨hheader, hopening, hclosing⟩ := hp
  obtain ⟨_, _, _, hstanding⟩ := h.standing
  rw [Phrase.tokens, List.append_assoc]
  refine h.proceeds_enter fun b els' scopes hle hloop => ?_
  refine proceeds_header hheader (fun t ht => hdecided t (List.mem_append_left _ ht)) hloop
    fun els'' hloop => ?_
  exact proceeds_braces hopening hclosing hstanding.holds.size_le (le_trans h.le hle)
    (hstanding.holds.of_le hle) hloop (hnext b)

/-! ## Reading all loops -/

/-- Loops are read one after the other. -/
theorem proceeds_phrases {phrases : List Phrase} (hphrases : ∀ p ∈ phrases, p.IsTyped)
    (hdecided : ∀ p ∈ phrases, ∀ t ∈ p.tokens, Decided t) (h : Ready graph els children)
    (hnext : ∀ b els', Ready b els' (children ++ phrases.map (·.loop.tree)) →
      Proceeds grammar full P b els' rest) :
    Proceeds grammar full P graph els (phrases.flatMap (·.tokens) ++ rest) := by
  induction phrases generalizing graph els children with
  | nil => exact hnext graph els (by rwa [List.map_nil, List.append_nil])
  | cons p phrases ih =>
    rw [List.forall_mem_cons] at hphrases hdecided
    rw [List.flatMap_cons, List.append_assoc]
    refine proceeds_phrase hphrases.1 hdecided.1 h fun b els' h =>
      ih hphrases.2 hdecided.2 h fun c els'' h => ?_
    refine hnext c els'' ?_
    rwa [List.append_assoc] at h

/-- Without a token no loop can be read. -/
theorem dead_loop (hk : graph.kind 5 = .ruleStart 0 none 4) (hstop : 4 < graph.size) :
    Dead grammar none graph 5 := by
  refine dead_of_entry hk expand_loop fun b ctx hle => ?_
  have hholds := Graph.holds_addBody (lt_of_lt_of_le hstop hle.1) loopBody
  generalize (b.addBody loopBody 4).2 = c at hholds
  have hentry : c.kind b.size = .junction := hholds.kind 0 _ rfl
  have hwired : c.wired b.size = [b.size + 3, b.size + 5] := hholds.wired 0 _ rfl
  refine dead_of_wired (by rw [hentry]; rfl) (by rw [hentry]; rfl) (by rw [hwired]; simp) ?_
  rw [hwired, List.forall_mem_cons, List.forall_mem_singleton]
  exact ⟨dead_slot (hholds.kind 3 _ rfl) rfl, dead_slot (hholds.kind 5 _ rfl) rfl⟩

/-- Where no token is left the search goes on to the end, and the node of all loops is finished. -/
theorem Ready.proceeds_end (h : Ready graph els children) :
    Proceeds grammar full (fun s => Tree.reduce grammar s.graph .ast s.path = openLoops children)
      graph els [] := by
  obtain ⟨hle, ⟨els, rfl⟩, ⟨seen, scopes, hunseen, h⟩, -, hstop⟩ := h
  have hdead : ∀ k ∈ [3], Dead grammar none graph (2 + k) :=
    List.forall_mem_singleton.mpr (dead_loop (h.holds.kind 3 _ rfl) (h.lt_size (j := 2) rfl))
  refine h.reads_pass (j := 1) (h.turns (i := 0) rfl rfl (fun _ => rfl) (by decide) rfl hdead) rfl
    rfl (hunseen 1 (by decide)) fun h => ?_
  refine h.reads_end rfl hle rfl (fun hmem => ?_) (transformed_loops _)
  simp [loopsSite, Graph.rootEnd] at hmem hstop
  exact hstop hmem

/-- Whatever tokens loops have, the search reads them, and the path is rewritten to what they
describe. -/
theorem succeeds_phrases {phrases : List Phrase} (hphrases : ∀ p ∈ phrases, p.IsTyped)
    (hdecided : ∀ t ∈ phrases.flatMap (·.tokens), Decided t) (full : Bool) :
    Succeeds grammar full
      (fun s => Tree.reduce grammar s.graph .ast s.path = treeOfAll (phrases.map (·.loop)))
      (.ofGrammar grammar) [⟨Graph.root, none⟩] (phrases.flatMap (·.tokens)) := by
  have hroot : Footing grammar .ast (.ofGrammar grammar)
      [⟨1, none⟩] [openLoops []] [.active (grammar.ruleVars 1)] := by
    refine ⟨List.forall_mem_singleton.mpr Nat.one_lt_two,
      fun b hb => ⟨fun rest => ?_, rfl, fun _ => rfl⟩, rfl⟩
    have hk : b.kind 1 = .ruleStart 1 none 0 := Graph.kind_root hb
    rw [List.reverse_singleton, List.singleton_append, Tree.reduceFrom, hk]
    rfl
  refine Proceeds.succeeds (hroot.reads_enter rfl Nat.zero_lt_two expand_loops fun b hle h => ?_)
  have hstart : Ready b [⟨2, none⟩, ⟨1, none⟩] [] := by
    refine ⟨hle, ⟨_, rfl⟩, ⟨[0], _, by decide, h⟩, ?_, ?_⟩
    · have hentry : b.kind 2 = .junction := h.holds.kind 0 _ rfl
      have hstarts : b.kind 1 = .ruleStart 1 none 0 := Graph.kind_root hle
      show ∀ m ∈ [2, 1], (b.kind m).startedRule? ≠ some 0
      simp only [List.forall_mem_cons]
      rw [hentry, hstarts]
      exact ⟨by decide, by decide, fun _ hmem => absurd hmem List.not_mem_nil⟩
    · show 0 ∉ [2, 1]
      decide
  rw [← List.append_nil (phrases.flatMap _)]
  refine proceeds_phrases hphrases
    (fun p hp t ht => hdecided t (List.mem_flatMap.mpr ⟨p, hp, ht⟩)) hstart fun c els hready => ?_
  rw [treeOfAll, List.map_map]
  exact hready.proceeds_end

end GrammarGraph.Sample.Loops
