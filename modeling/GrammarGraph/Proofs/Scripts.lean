import GrammarGraph.Proofs.Classifying
import GrammarGraph.Proofs.Templates
import GrammarGraph.Sample

/-!
# Scripts

The language of the grammar of commands (`Sample.Commands.Script`): statements that are picked by
their first keyword, perhaps behind a word that makes the script strict, so that one of them is not
allowed.  The trees of scripts, the bodies of the two rules, and what the lexer tells of keywords.
-/

namespace GrammarGraph

/-- Where types have different numbers, a token with the number of a keyword is one of that
keyword. -/
theorem Token.ClassedBy.keyword?_eq {types : List TokenType} {token : Token} {type : TokenType}
    (h : token.ClassedBy types) (hids : ∀ t ∈ types, ∀ u ∈ types, t.id = u.id → t = u)
    (htype : type ∈ types) (hkeyword : type.kind.isKeyword = true)
    (ht : token.hasType type.id = true) : token.keyword? = type.kind.keyword? := by
  obtain ⟨other, hmem, hid⟩ := List.any_eq_true.mp ht
  have hother : other = type := hids other (h.truthful.mem other hmem) type htype (eq_of_beq hid)
  rw [hother] at hmem
  have hword : type.kind.isWord = false := by
    cases hk : type.kind <;> rw [hk] at hkeyword <;> first | rfl | cases hkeyword
  cases h with
  | alone _ htypes hmade =>
    obtain rfl := List.mem_singleton.mp (htypes ▸ hmem)
    cases hk : type.kind <;> rw [hk] at hkeyword hmade <;> first | exact hmade.elim | cases hkeyword
  | plain keyword htypes _ _ =>
    rw [htypes, List.mem_append, Option.mem_toList, List.mem_filter, hword, Bool.false_and] at hmem
    obtain rfl : keyword = some type := hmem.resolve_right fun hfilter =>
      Bool.false_ne_true hfilter.2
    rw [Token.keyword?, Token.keywordType?, htypes, Option.toList_some, List.singleton_append,
      List.find?_cons, hkeyword]
    rfl

namespace Sample.Commands

/-! ## The language -/

/-- The words that come before a name. -/
inductive Verb where
  | letWord
  | printWord
deriving DecidableEq, Repr

def Verb.type : Verb → TokenType
  | letWord => Commands.letWord
  | printWord => Commands.printWord

def Verb.key : Verb → String
  | letWord => "let"
  | printWord => "print"

/-- What a statement does, with the tokens for it: it names something, or it does what a
strict script must not do. -/
inductive Action where
  | naming (verb : Verb) (word name : Token)
  | unchecked (word : Token)

namespace Action

/-- The keyword that the statement is picked by. -/
def key : Action → String
  | naming verb _ _ => verb.key
  | unchecked _ => "unsafe"

def word : Action → Token
  | naming _ word _ | unchecked word => word

def tokens : Action → List Token
  | naming _ word name => [word, name]
  | unchecked word => [word]

/-- Each token has the type of its place, whatever other types it has. -/
def IsTyped : Action → Prop
  | naming verb word name => word.hasType verb.type.id = true ∧ name.hasType identifier.id = true
  | unchecked word => word.hasType unsafeWord.id = true

def isUnchecked : Action → Bool
  | naming .. => false
  | unchecked _ => true

def leaves : Action → List Tree
  | naming _ word name => [.ofToken word "", .ofToken name "name"]
  | unchecked word => [.ofToken word ""]

end Action

structure Statement where
  action : Action
  stop : Token

namespace Statement

def tokens (s : Statement) : List Token := s.action.tokens ++ [s.stop]

theorem head?_tokens (s : Statement) : s.tokens.head? = some s.action.word := by
  rw [tokens]
  cases s.action <;> rfl

def IsTyped (s : Statement) : Prop := s.action.IsTyped ∧ s.stop.hasType semicolon.id = true

/-- The node of an instance of the rule, with a leaf for each token. -/
def tree (s : Statement) : Tree :=
  ⟨"Command", "", "", s.action.leaves ++ [.ofToken s.stop ""], none⟩

end Statement

/-- The word that makes the script strict, if it is there, and statements. -/
structure Script where
  strictWord : Option Token
  statements : List Statement

namespace Script

def isStrict (s : Script) : Bool := s.strictWord.isSome

def tokens (s : Script) : List Token := s.strictWord.toList ++ s.statements.flatMap (·.tokens)

/-- The tokens have the types of their places, and what a strict script does not allow is not
there. -/
structure IsWellFormed (s : Script) : Prop where
  strict : ∀ t ∈ s.strictWord, t.hasType Commands.strict.id = true
  typed : ∀ c ∈ s.statements, c.IsTyped
  allowed : s.isStrict = true → ∀ c ∈ s.statements, c.action.isUnchecked = false

/-- The node of the root rule: a leaf for the word in front, then a node for each statement. -/
def tree (s : Script) : Tree :=
  ⟨"script", "", "", s.strictWord.toList.map (Tree.ofToken · "") ++ s.statements.map (·.tree), none⟩

end Script

/-! ## The grammar -/

def scriptBody : Body := [
  .part (.optional (.slot strict none (some setStrict))),
  .part (.many (.rule 0)),
  .chain [.entry, .part 0, .part 1, .exit]]

theorem expand_script : grammar.expand? 1 = some fun _ => scriptBody := rfl

theorem expand_command : grammar.expand? 0 = some fun _ => commandBody := rfl

theorem template_script : scriptBody.template = ⟨#[
    ⟨.junction, [3]⟩, ⟨.junction, []⟩,
    ⟨.slot strict none (some setStrict), [4]⟩, ⟨.junction, [2, 4]⟩, ⟨.junction, [7]⟩,
    ⟨.ruleEnd 0 none, [7]⟩, ⟨.ruleStart 0 none 5, []⟩, ⟨.junction, [6, 8]⟩, ⟨.junction, [1]⟩]⟩ :=
  rfl

theorem template_command : commandBody.template = ⟨#[
    ⟨.junction, [14]⟩, ⟨.junction, []⟩,
    ⟨.slot letWord none none, [3]⟩, ⟨.slot identifier (some "name") none, [5]⟩, ⟨.junction, [2]⟩,
    ⟨.junction, [13]⟩, ⟨.slot printWord none none, [7]⟩, ⟨.slot identifier (some "name") none, [9]⟩,
    ⟨.junction, [6]⟩, ⟨.junction, [13]⟩, ⟨.junction, [12]⟩, ⟨.gate lenient 10, []⟩,
    ⟨.slot unsafeWord none none, [13]⟩, ⟨.junction, [15]⟩,
    ⟨.switch [("unsafe", 11), ("print", 8), ("let", 4)] 13, []⟩,
    ⟨.slot semicolon none none, [1]⟩]⟩ := rfl

/-- No rule rewrites its nodes. -/
theorem transformed_eq (kind : TreeKind) {rule : RuleId} (hrule : rule < 2) (t : Tree) :
    t.transformed grammar kind rule = t := by
  obtain rfl | rfl := Nat.le_one_iff_eq_zero_or_eq_one.mp (Nat.le_of_lt_succ hrule)
  all_goals cases kind <;> rfl

/-! ## Tokens -/

theorem declared_types : ∀ type ∈ grammar.types.types, type.kind.Declared := by
  refine List.forall_mem_cons.mpr ⟨.word, ?_⟩
  simp only [List.forall_mem_cons]
  exact ⟨.keyword, .keyword, .keyword, .keyword, .separator, fun _ h => absurd h List.not_mem_nil⟩

/-- A token that has the type of a keyword has this keyword. -/
def Keyed (t : Token) : Prop :=
  ∀ type ∈ grammar.types.types, type.kind.isKeyword = true → t.hasType type.id = true →
    t.keyword? = type.kind.keyword?

theorem keyed_of_classedBy {t : Token} (h : t.ClassedBy grammar.types.types) : Keyed t := by
  refine fun type htype => h.keyword?_eq ?_ htype
  show ∀ t ∈ [identifier, strict, letWord, printWord, unsafeWord, semicolon],
    ∀ u ∈ [identifier, strict, letWord, printWord, unsafeWord, semicolon], t.id = u.id → t = u
  simp [identifier, strict, letWord, printWord, unsafeWord, semicolon]

namespace Keyed

variable {a : Action}

theorem keyword?_eq (h : Keyed a.word) (ha : a.IsTyped) : a.word.keyword? = some a.key := by
  have hmem : ∀ type ∈ [letWord, printWord, unsafeWord], type ∈ grammar.types.types := by
    show ∀ type ∈ [letWord, printWord, unsafeWord],
      type ∈ [identifier, strict, letWord, printWord, unsafeWord, semicolon]
    simp
  cases a with
  | naming verb word name => cases verb <;> exact h _ (hmem _ (by simp [Verb.type])) rfl ha.1
  | unchecked word => exact h _ (hmem _ (by simp)) rfl ha

/-- A statement does not begin with the word that can stand in front of all statements. -/
theorem hasType_strict (h : Keyed a.word) (ha : a.IsTyped) : a.word.hasType strict.id = false := by
  refine Bool.eq_false_iff.mpr fun ht => ?_
  have hstrict : a.word.keyword? = some "strict" :=
    h strict (List.mem_cons_of_mem _ List.mem_cons_self) rfl ht
  rw [h.keyword?_eq ha] at hstrict
  have hkey : a.key ≠ "strict" := by
    cases a with
    | naming verb word name =>
      show verb.key ≠ "strict"
      cases verb <;> decide
    | unchecked word =>
      show "unsafe" ≠ "strict"
      decide
  exact hkey (Option.some.inj hstrict)

end Keyed

end Sample.Commands

end GrammarGraph
