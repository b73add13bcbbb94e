import GrammarGraph.Proofs.Forecasts
import GrammarGraph.Proofs.Templates
import GrammarGraph.Proofs.Vocabulary

/-!
# Reading definitions word by word

How the search of the grammar of definitions goes on is told in terms of the words that are left
(`Meta.Reads`), whatever tokens stand for them.  What is open on the way, and what it is rewritten
to where it ends, does not depend on the tokens either.
-/

namespace GrammarGraph.Meta

open GrammarGraph.Search GrammarGraph.Path

/-! ## Words and tokens -/

/-- The token has the types that fit its text. -/
def Typed (t : Token) : Prop := ∀ type, Known type → t.hasType type.id = fits type.kind t.text

/-- The tokens stand for the words. -/
def Spells (tokens : List Token) (words : List String) : Prop :=
  List.Forall₂ (fun t word => t.text = word ∧ Typed t) tokens words

variable {goal : Tree} {graph a b : Graph} {els : List PathElement} {e : PathElement}
  {n m stop : NodeId} {i j base : Nat} {opened outer : List Tree} {top : Tree} {word : String}
  {words : List String} {next : Option String} {type : TokenType} {ident : Option String}
  {hook : Option Hook} {rule : RuleId} {token : Option Token} {expand : Context → Body}
  {body : Body} {t : Graph} {k : NodeKind} {links before behind : List NodeId}

/-! ## Dead ends -/

/-- The node is a dead end for the next word, or for the end of the text. -/
def Shut (graph : Graph) (next : Option String) (n : NodeId) : Prop :=
  ∀ token : Option Token, (∀ t ∈ token, Typed t) → token.map (·.text) = next →
    Dead grammar token graph n

theorem Shut.of_le (h : Shut a next n) (hle : a ≤ b) : Shut b next n :=
  fun token ht hn => (h token ht hn).of_le hle

theorem shut_slot (hk : graph.kind n = .slot type ident hook) (htype : Known type)
    (h : next.any (fits type.kind) = false) : Shut graph next n := by
  rintro token ht rfl
  refine dead_slot hk ?_
  cases token with
  | none => rfl
  | some t =>
    rw [Option.any_some, ht t rfl type htype]
    exact h

theorem shut_of_wired (hplain : (graph.kind n).isPlain = true)
    (hslot : (graph.kind n).isSlot = false) (hwired : graph.wired n ≠ [])
    (h : ∀ m ∈ graph.wired n, Shut graph next m) : Shut graph next n :=
  fun token ht hn => dead_of_wired hplain hslot hwired fun m hm => h m hm token ht hn

theorem shut_rule (hk : graph.kind n = .ruleStart rule ident stop) (hstop : stop < graph.size)
    (hexpand : grammar.expand? rule = some expand)
    (h : ∀ base b ctx, b.Holds base (expand ctx).template stop → Shut b next base) :
    Shut graph next n := by
  intro token ht hn
  refine dead_of_entry hk hexpand fun b ctx hle => ?_
  exact h b.size _ ctx (Graph.holds_addBody (lt_of_lt_of_le hstop hle.1) _) token ht hn

/-! ## One word at a time -/

/-- From the tip of the path the words that are left are read, and the whole is rewritten to
`goal`. -/
def Reads (goal : Tree) (graph : Graph) (els : List PathElement) (opened : List Tree)
    (words : List String) : Prop :=
  Stands grammar graph els opened → ∀ tokens, Spells tokens words →
    Proceeds grammar false (fun s => Tree.reduce grammar s.graph .ast s.path = goal)
      graph els tokens

/-- The same where the search has to step back first, if the next word is in vain. -/
def Recovers (goal : Tree) (graph : Graph) (els : List PathElement) (opened : List Tree)
    (words : List String) : Prop :=
  Stands grammar graph els opened → ∀ tokens, Spells tokens words →
    Succeeds grammar false (fun s => Tree.reduce grammar s.graph .ast s.path = goal)
      graph els tokens

/-- The same from the node, as the next one on the path. -/
def Enters (goal : Tree) (graph : Graph) (n : NodeId) (els : List PathElement) (opened : List Tree)
    (words : List String) : Prop :=
  Stands grammar graph els opened → ∀ tokens, Spells tokens words →
    Proceeds grammar false (fun s => Tree.reduce grammar s.graph .ast s.path = goal)
      graph (⟨n, none⟩ :: els) tokens

theorem Reads.recovers (h : Reads goal graph els opened words) :
    Recovers goal graph els opened words :=
  fun hs tokens htokens => (h hs tokens htokens).succeeds

/-- The next word of some is that of the tokens that stand for them. -/
theorem Spells.head {tokens : List Token} (h : Spells tokens words) :
    (∀ t ∈ tokens.head?, Typed t) ∧ tokens.head?.map (·.text) = words.head? := by
  cases h with
  | nil => exact ⟨nofun, rfl⟩
  | cons ht =>
    refine ⟨fun t' ht' => ?_, congrArg some ht.1⟩
    obtain rfl := Option.some.inj ht'
    exact ht.2

/-- The search goes on with a link of the tip, when the ones before it are dead ends. -/
theorem Reads.step (hwired : graph.wired e.node = before ++ n :: behind)
    (hshut : ∀ m ∈ before, Shut graph words.head? m) (hn : revisitsIn graph n 0 (e :: els) = false)
    (h : Enters goal graph n (e :: els) opened words) :
    Reads goal graph (e :: els) opened words := by
  intro hs tokens htokens
  obtain ⟨htyped, hhead⟩ := htokens.head
  exact (h hs tokens htokens).step (hs.left e rfl) hwired
    (fun m hm => hshut m hm _ htyped hhead graph (le_refl graph) _ hs.lt) hn

theorem Enters.junction (hn : n < graph.size) (hk : graph.kind n = .junction)
    (h : Reads goal graph (⟨n, none⟩ :: els) opened words) : Enters goal graph n els opened words :=
  fun hs => h (hs.junction hn hk)

theorem Enters.slot (hn : n < graph.size) (hk : graph.kind n = .slot type ident none)
    (htype : Known type) (hfits : fits type.kind word = true)
    (h : ∀ token : Token, token.text = word → Typed token →
      Recovers goal graph (⟨n, some token⟩ :: els) (top.addChild (.ofToken token (ident.getD "")) ::
      outer) words) : Enters goal graph n els (top :: outer) (word :: words) := by
  intro hs tokens htokens
  cases htokens with
  | @cons token _ tokens _ ht htokens =>
    refine .take hk ?_ (h token ht.1 ht.2 (hs.token hn hk token) tokens htokens)
    rw [ht.2 type htype, ht.1, hfits]

end GrammarGraph.Meta
