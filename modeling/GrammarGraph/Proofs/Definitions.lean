import GrammarGraph.Proofs.Linking
import GrammarGraph.Proofs.Sentences

/-!
# Trees of definitions

A branch of a definition reads as a regular expression over its items (`Item.exprOfBranch`).  A tree
fits an item if its name and id are those that the item asks for and the children of each node are,
in their order, what a word of one of the rule's branches asks for (`Definition.Fits`).  The grammar
of a definition generates just such trees (`Definition.Compiled.fits_of_generates`,
`Definition.Compiled.exists_generates`): a group adds no node, and the pieces that stand for the
branches have the same words (`Symbols.relates_branches`).
-/

namespace GrammarGraph

open Computability

/-! ## Words of related letters -/

section

variable {α β : Type} {R : α → β → Prop} {L L' : Language α} {M M' : Language β}

/-- Each word of the first language has a word of the second one with letters related to its own. -/
def Covers (R : α → β → Prop) (L : Language α) (M : Language β) : Prop :=
  ∀ u ∈ L, ∃ v ∈ M, List.Forall₂ R u v

namespace Covers

theorem one : Covers R 1 1 := by
  rintro u rfl
  exact ⟨[], Language.nil_mem_one, .nil⟩

theorem zero : Covers R 0 M := fun u hu => absurd hu (Language.notMem_zero u)

theorem char {a : α} {b : β} (h : R a b) : Covers R {[a]} {[b]} := by
  rintro u rfl
  exact ⟨[b], rfl, .cons h .nil⟩

theorem add (h : Covers R L M) (h' : Covers R L' M') : Covers R (L + L') (M + M') := by
  rintro u (hu | hu)
  · obtain ⟨v, hv, huv⟩ := h u hu
    exact ⟨v, .inl hv, huv⟩
  · obtain ⟨v, hv, huv⟩ := h' u hu
    exact ⟨v, .inr hv, huv⟩

theorem mul (h : Covers R L M) (h' : Covers R L' M') : Covers R (L * L') (M * M') := by
  intro u hu
  obtain ⟨u₁, hu₁, u₂, hu₂, rfl⟩ := Language.mem_mul.mp hu
  obtain ⟨v₁, hv₁, huv₁⟩ := h u₁ hu₁
  obtain ⟨v₂, hv₂, huv₂⟩ := h' u₂ hu₂
  exact ⟨v₁ ++ v₂, Language.append_mem_mul hv₁ hv₂, List.rel_append huv₁ huv₂⟩

theorem kstar (h : Covers R L M) : Covers R L∗ M∗ := by
  intro u hu
  obtain ⟨us, rfl, hus⟩ := Language.mem_kstar.mp hu
  clear hu
  induction us with
  | nil => exact ⟨[], Language.nil_mem_kstar M, .nil⟩
  | cons u us ih =>
    obtain ⟨hu, hus⟩ := List.forall_mem_cons.mp hus
    obtain ⟨v, hv, huv⟩ := h u hu
    obtain ⟨vs, hvs, huvs⟩ := ih hus
    refine ⟨v ++ vs, ?_, List.rel_append huv huvs⟩
    rw [← Language.one_add_self_mul_kstar_eq_kstar]
    exact .inr (Language.append_mem_mul hv hvs)

end Covers

end

/-- The words of the expressions correspond letter by letter. -/
structure Relates {α β : Type} (R : α → β → Prop) (r : RegularExpression α)
    (r' : RegularExpression β) : Prop where
  covers : Covers R r.matches' r'.matches'
  covered : Covers (flip R) r'.matches' r.matches'

namespace Relates

variable {α β : Type} {R : α → β → Prop} {r s : RegularExpression α} {r' s' : RegularExpression β}

theorem one : Relates R 1 1 := ⟨.one, .one⟩

theorem zero : Relates R 0 0 := ⟨.zero, .zero⟩

theorem char {a : α} {b : β} (h : R a b) : Relates R (.char a) (.char b) := ⟨.char h, .char h⟩

theorem add (h : Relates R r r') (h' : Relates R s s') : Relates R (r + s) (r' + s') :=
  ⟨h.covers.add h'.covers, h.covered.add h'.covered⟩

theorem mul (h : Relates R r r') (h' : Relates R s s') : Relates R (r * s) (r' * s') :=
  ⟨h.covers.mul h'.covers, h.covered.mul h'.covered⟩

theorem star (h : Relates R r r') : Relates R r.star r'.star := ⟨h.covers.kstar, h.covered.kstar⟩

theorem expr (h : Relates R r r') : ∀ m : Multiplicity, Relates R (m.expr r) (m.expr r')
  | .zeroOrOne => one.add h
  | .zeroOrMore => h.star
  | .oneOrMore => h.mul h.star

end Relates

/-! ## Branches as regular expressions -/

/-- What an item that is no group asks for, with its identifier. -/
structure Atom where
  ident : Option String
  target : Target
deriving DecidableEq

namespace Item

/-- The expression of an item that is repeated as it says. -/
def repeatedExpr (r : RegularExpression Atom) : Option Multiplicity → RegularExpression Atom
  | some m => m.expr r
  | none => r

mutual

/-- One of the branches. -/
def exprOfBranches : List Branch → RegularExpression Atom
  | [] => 0
  | b :: bs => exprOfBranch b + exprOfBranches bs

/-- One item behind the other. -/
def exprOfBranch : List Item → RegularExpression Atom
  | [] => 1
  | i :: is => expr i * exprOfBranch is

def expr : Item → RegularExpression Atom
  | single ident target m => repeatedExpr (.char ⟨ident, target⟩) m
  | group _ bs m => repeatedExpr (exprOfBranches bs) m

end

theorem mem_exprOfBranches {w : List Atom} : ∀ {bs : List Branch},
    w ∈ (exprOfBranches bs).matches' ↔ ∃ b ∈ bs, w ∈ (exprOfBranch b).matches'
  | [] => by
    rw [exprOfBranches]
    exact ⟨fun h => absurd h (Language.notMem_zero w), nofun⟩
  | b :: bs => by
    rw [exprOfBranches, RegularExpression.matches'_add, Language.mem_add, mem_exprOfBranches,
      List.exists_mem_cons_iff]

end Item

namespace Symbols

variable {s : Symbols}

/-- What an atom is wired as. -/
def label? (s : Symbols) (a : Atom) : Option Label :=
  match a.target with
  | .token name => (s.tokens.lookup name).map (.token · a.ident)
  | .keyword text => (s.keywords.lookup text).map (.token · a.ident)
  | .rule name => (s.rules.lookup name).map (.rule · a.ident)

/-- The label stands for the atom. -/
def Labels (s : Symbols) (a : Atom) (l : Label) : Prop := s.label? a = some l

theorem rightUnique_labels (s : Symbols) : Relator.RightUnique s.Labels :=
  fun _ _ _ h h' => Option.some.inj (h.symm.trans h')

theorem relates_target {ident : Option String} {target : Target} {p : Piece}
    (h : s.target ident target = .ok p) :
    p.Regular ∧ Relates s.Labels (.char ⟨ident, target⟩) p.expr := by
  unfold Symbols.target at h
  split at h
  all_goals
    split at h
    · next hlookup =>
      obtain rfl := Except.ok.inj h
      refine ⟨by simp [Piece.Regular], ?_⟩
      rw [Piece.expr]
      exact .char (by simp [Labels, label?, hlookup])
    · exact absurd h nofun

theorem relates_alternatives {r : RegularExpression Atom} {ps : List Piece}
    (hps : Piece.AllRegular ps) (h : Relates s.Labels r (Piece.exprAside ps)) :
    (alternatives ps).Regular ∧ Relates s.Labels r (alternatives ps).expr := by
  unfold alternatives
  split
  · next p =>
    rw [Piece.exprAside, Piece.exprAside] at h
    have hwords : (p.expr + 0).matches' = p.expr.matches' := by
      rw [RegularExpression.matches'_add, RegularExpression.matches'_zero, add_zero]
    obtain ⟨hcovers, hcovered⟩ := h
    rw [hwords] at hcovers hcovered
    exact ⟨hps.1, hcovers, hcovered⟩
  · next ps _ =>
    refine ⟨hps, ?_⟩
    rw [Piece.expr]
    exact h

theorem relates_repeated {r : RegularExpression Atom} {p : Piece} (hp : p.Regular)
    (h : Relates s.Labels r p.expr) (m : Option Multiplicity) :
    (repeated m p).Regular ∧ Relates s.Labels (Item.repeatedExpr r m) (repeated m p).expr := by
  cases m with
  | none => exact ⟨hp, h⟩
  | some m =>
    refine ⟨hp, ?_⟩
    rw [Item.repeatedExpr, repeated, Piece.expr]
    exact h.expr m

open Definition (exists_of_bind_eq_ok)

mutual

/-- The pieces for branches have the words of the branches. -/
theorem relates_branches : ∀ {bs : List Branch} {ps : List Piece}, s.branches bs = .ok ps →
    Piece.AllRegular ps ∧ Relates s.Labels (Item.exprOfBranches bs) (Piece.exprAside ps)
  | [], ps, h => by
    obtain rfl : [] = ps := Except.ok.inj h
    exact ⟨trivial, .zero⟩
  | b :: bs, ps, h => by
    rw [branches] at h
    obtain ⟨p, hp, h⟩ := exists_of_bind_eq_ok h
    obtain ⟨ps, hps, h⟩ := exists_of_bind_eq_ok h
    obtain rfl := Except.ok.inj h
    obtain ⟨hregular, hrelates⟩ := relates_items hp
    obtain ⟨hregular', hrelates'⟩ := relates_branches hps
    refine ⟨⟨hregular, hregular'⟩, ?_⟩
    rw [Item.exprOfBranches, Piece.exprAside, Piece.expr]
    exact hrelates.add hrelates'

theorem relates_items : ∀ {is : List Item} {ps : List Piece}, s.items is = .ok ps →
    Piece.AllRegular ps ∧ Relates s.Labels (Item.exprOfBranch is) (Piece.exprInTurn ps)
  | [], ps, h => by
    obtain rfl : [] = ps := Except.ok.inj h
    exact ⟨trivial, .one⟩
  | i :: is, ps, h => by
    rw [items] at h
    obtain ⟨p, hp, h⟩ := exists_of_bind_eq_ok h
    obtain ⟨ps, hps, h⟩ := exists_of_bind_eq_ok h
    obtain rfl := Except.ok.inj h
    obtain ⟨hregular, hrelates⟩ := relates_item hp
    obtain ⟨hregular', hrelates'⟩ := relates_items hps
    refine ⟨⟨hregular, hregular'⟩, ?_⟩
    rw [Item.exprOfBranch, Piece.exprInTurn]
    exact hrelates.mul hrelates'

theorem relates_item : ∀ {i : Item} {p : Piece}, s.item i = .ok p →
    p.Regular ∧ Relates s.Labels i.expr p.expr
  | .single ident target m, p, h => by
    rw [item] at h
    cases htarget : s.target ident target with
    | error e => rw [htarget] at h; exact absurd h nofun
    | ok q =>
      rw [htarget] at h
      obtain rfl := Except.ok.inj h
      obtain ⟨hregular, hrelates⟩ := relates_target htarget
      rw [Item.expr]
      exact relates_repeated hregular hrelates m
  | .group ident bs m, p, h => by
    rw [item] at h
    cases hbranches : s.branches bs with
    | error e => rw [hbranches] at h; exact absurd h nofun
    | ok ps =>
      rw [hbranches] at h
      obtain rfl := Except.ok.inj h
      obtain ⟨hregular, hrelates⟩ := relates_branches hbranches
      obtain ⟨hregular', hrelates'⟩ := relates_alternatives hregular hrelates
      rw [Item.expr]
      exact relates_repeated hregular' hrelates' m

end

end Symbols

namespace Definition

/-! ## What the grammar of a definition is -/

/-- What the names and quoted texts of a definition stand for, but for the rules. -/
def symbols (d : Definition) (read : PatternReader := Pattern.ofText?) :
    Except DefinitionError Symbols := do
  let (types, symbols) ← declareTokens d.tokens {} {} read
  return (declareQuoted (Item.quotedInBranches (d.rules.flatMap (·.branches))) types symbols).2

/-- The token type that a name or a quoted text stands for. -/
def type? (d : Definition) : Target → Option TokenType
  | .token name => d.symbols.toOption.bind (·.tokens.lookup name)
  | .keyword text => d.symbols.toOption.bind (·.keywords.lookup text)
  | .rule _ => none

/-- Where all tokens are declared, the first one got its type and the others are declared behind
it. -/
theorem exists_of_declareTokens_cons {decl : TokenDecl} {decls : List TokenDecl} {r r' : Registry}
    {s s' : Symbols} {read : PatternReader}
    (h : declareTokens (decl :: decls) r s read = .ok (r', s')) :
    ∃ t r₁ keywords, declare r decl.form read = .ok (t, r₁) ∧
      (keywords = match decl.form with
        | .keyword text true => s.keywords ++ [(text, t)]
        | _ => s.keywords) ∧
      declareTokens decls r₁ { s with tokens := s.tokens ++ [(decl.name, t)], keywords } read =
        .ok (r', s') := by
  rw [declareTokens] at h
  cases hdeclare : declare r decl.form read with
  | error e =>
    rw [hdeclare] at h
    cases h
  | ok out =>
    rw [hdeclare] at h
    dsimp only [Except.mapError, bind, Except.bind] at h
    split at h
    · cases h
    · exact ⟨_, _, _, rfl, rfl, h⟩

theorem rules_declareTokens {read : PatternReader} : ∀ {decls : List TokenDecl} {r r' : Registry}
    {s s' : Symbols}, declareTokens decls r s read = .ok (r', s') → s'.rules = s.rules
  | [], _, _, _, _, h => by
    cases h
    rfl
  | decl :: decls, r, r', s, s', h => by
    obtain ⟨_, _, _, -, -, hrest⟩ := exists_of_declareTokens_cons h
    exact (rules_declareTokens hrest :)

theorem rules_declareQuoted : ∀ (texts : List String) (r : Registry) (s : Symbols),
    (declareQuoted texts r s).2.rules = s.rules
  | [], _, _ => rfl
  | text :: texts, r, s => by
    rw [declareQuoted]
    split
    · exact rules_declareQuoted texts r s
    · exact rules_declareQuoted texts _ _

theorem forall₂_of_mapM_eq_ok {ε α β : Type} {f : α → Except ε β} : ∀ {xs : List α} {ys : List β},
    xs.mapM f = .ok ys → List.Forall₂ (fun x y => f x = .ok y) xs ys
  | [], ys, h => by
    obtain rfl : [] = ys := Except.ok.inj h
    exact .nil
  | x :: xs, ys, h => by
    rw [List.mapM_cons] at h
    obtain ⟨z, hz, h⟩ := exists_of_bind_eq_ok h
    obtain ⟨zs, hzs, h⟩ := exists_of_bind_eq_ok h
    obtain rfl : z :: zs = ys := Except.ok.inj h
    exact .cons hz (forall₂_of_mapM_eq_ok hzs)

/-- The rules get the numbers of their places. -/
theorem lookup_declareRules (name : String) (n : RuleId) :
    ∀ {decls : List RuleDecl} {id : RuleId} {s s' : Symbols}, declareRules decls id s = .ok s' →
    s'.tokens = s.tokens ∧ s'.keywords = s.keywords ∧ (s'.rules.lookup name = some n ↔
        s.rules.lookup name = some n ∨ ∃ k, decls[k]?.map (·.name) = some name ∧ n = id + k)
  | [], _, _, _, h => by
    obtain rfl := Except.ok.inj h
    simp
  | decl :: decls, id, s, s', h => by
    rw [declareRules] at h
    split at h
    · exact absurd h nofun
    · next hfree =>
      obtain ⟨htokens, hkeywords, hrules⟩ := lookup_declareRules name n h
      rw [Bool.or_eq_true, not_or, Bool.not_eq_true, Bool.not_eq_true, Option.isSome_eq_false_iff,
        Option.isSome_eq_false_iff, Option.isNone_iff_eq_none, Option.isNone_iff_eq_none] at hfree
      have hfirst : (s.rules ++ [(decl.name, id)]).lookup name = some n ↔
          s.rules.lookup name = some n ∨ (decl.name = name ∧ n = id) := by
        by_cases hname : decl.name = name
        · rw [List.lookup_append, ← hname, hfree.2]
          simp [eq_comm]
        · have hne : (name == decl.name) = false := beq_eq_false_iff_ne.mpr (Ne.symm hname)
          rw [List.lookup_append, List.lookup_cons, hne]
          simp [hname]
      refine ⟨htokens, hkeywords, hrules.trans ?_⟩
      rw [hfirst, or_assoc]
      refine or_congr_right ⟨?_, ?_⟩
      · rintro (⟨hname, rfl⟩ | ⟨k, hk, rfl⟩)
        · exact ⟨0, congrArg some hname, rfl⟩
        · exact ⟨k + 1, hk, Nat.succ_add_eq_add_succ id k⟩
      · rintro ⟨k, hk, rfl⟩
        cases k with
        | zero => exact .inl ⟨Option.some.inj hk, rfl⟩
        | succ k => exact .inr ⟨k, hk, (Nat.succ_add_eq_add_succ id k).symm⟩

/-- The grammar of a definition, with what its names stand for. -/
structure Compiled (d : Definition) (g : Grammar) (s : Symbols)
    (read : PatternReader := Pattern.ofText?) : Prop where
  tokens : ∃ s', d.symbols read = .ok s' ∧ s'.tokens = s.tokens ∧ s'.keywords = s.keywords
  rules : List.Forall₂ (fun decl rule => ruleOf s decl = .ok rule) d.rules g.rules
  numbers : ∀ name id, s.rules.lookup name = some id ↔ d.rules[id]?.map (·.name) = some name
  root : ∃ decl, d.rules.filter (·.root) = [decl] ∧ s.rules.lookup decl.name = some g.root
  ident : g.ident = none

theorem exists_compiled {d : Definition} {g : Grammar} {read : PatternReader}
    (h : d.grammar read = .ok g) : ∃ s, d.Compiled g s read := by
  obtain ⟨⟨types, symbols⟩, htokens, h⟩ := exists_of_bind_eq_ok h
  obtain ⟨root, hroot, h⟩ := exists_of_bind_eq_ok h
  obtain ⟨symbols', hsymbols, h⟩ := exists_of_bind_eq_ok h
  obtain ⟨rules, hrules, h⟩ := exists_of_bind_eq_ok h
  obtain ⟨decl, hdecl, rfl⟩ : ∃ decl, d.rules.filter (·.root) = [decl] ∧ decl.name = root := by
    unfold rootName at hroot
    split at hroot
    · exact absurd hroot nofun
    · next decl hfilter => exact ⟨decl, hfilter, Except.ok.inj hroot⟩
    · exact absurd hroot nofun
  cases hlookup : symbols'.rules.lookup decl.name with
  | none =>
    rw [hlookup] at h
    exact absurd h nofun
  | some id =>
    rw [hlookup] at h
    obtain rfl := Except.ok.inj h
    have hempty : (declareQuoted (Item.quotedInBranches (d.rules.flatMap (·.branches))) types
        symbols).2.rules = [] :=
      (rules_declareQuoted _ _ _).trans (rules_declareTokens htokens)
    have hnames : d.symbols read =
        .ok (declareQuoted (Item.quotedInBranches (d.rules.flatMap (·.branches))) types
          symbols).2 := by
      rw [Definition.symbols, htokens]
      rfl
    obtain ⟨hsame, hsame', -⟩ := lookup_declareRules "" 0 hsymbols
    refine ⟨symbols', ⟨_, hnames, hsame.symm, hsame'.symm⟩, forall₂_of_mapM_eq_ok hrules,
      fun name n => ?_, ⟨decl, hdecl, hlookup⟩, rfl⟩
    · rw [(lookup_declareRules name n hsymbols).2.2, hempty]
      simp

/-! ## Trees that fit -/

/-- The trees of a definition, by what their place in the tree around them asks for. -/
inductive Fits (d : Definition) : Atom → Tree → Prop
  /-- A token of the type that the name or the quoted text stands for. -/
  | token {a : Atom} {type : TokenType} {t : Token} : d.type? a.target = some type →
      t.hasType type.id = true → Fits d a (.ofToken t (a.ident.getD ""))
  /-- A node of a rule.  Its children are what a word of one of the branches asks for. -/
  | node {ident : Option String} {decl : RuleDecl} {branch : Branch} {word : List Atom}
      {children : List Tree} :
      decl ∈ d.rules → branch ∈ decl.branches → word ∈ (Item.exprOfBranch branch).matches' →
      word.length = children.length → (∀ p ∈ word.zip children, Fits d p.1 p.2) →
      Fits d ⟨ident, .rule decl.name⟩ ⟨decl.name, "", ident.getD "", children, none⟩

namespace Compiled

variable {d : Definition} {g : Grammar} {s : Symbols}

/-- A label that stands for an atom is a token of its type or the number of its rule. -/
theorem cases_label (h : d.Compiled g s) {a : Atom} {l : Label} (hl : s.Labels a l) :
    (∃ type, d.type? a.target = some type ∧ l = .token type a.ident) ∨
      ∃ decl id, a.target = .rule decl.name ∧ l = .rule id a.ident ∧ d.rules[id]? = some decl := by
  obtain ⟨s', hnames, htokens, hkeywords⟩ := h.tokens
  obtain ⟨ident, target⟩ := a
  unfold Symbols.Labels Symbols.label? at hl
  cases target with
  | token name =>
    obtain ⟨type, hlookup, rfl⟩ := Option.map_eq_some_iff.mp hl
    refine .inl ⟨type, ?_, rfl⟩
    rw [type?, hnames, Except.toOption, Option.bind_some, htokens, hlookup]
  | keyword text =>
    obtain ⟨type, hlookup, rfl⟩ := Option.map_eq_some_iff.mp hl
    refine .inl ⟨type, ?_, rfl⟩
    rw [type?, hnames, Except.toOption, Option.bind_some, hkeywords, hlookup]
  | rule name =>
    obtain ⟨id, hlookup, rfl⟩ := Option.map_eq_some_iff.mp hl
    obtain ⟨decl, hdecl, rfl⟩ := Option.map_eq_some_iff.mp ((h.numbers name id).mp hlookup)
    exact .inr ⟨decl, id, rfl, rfl, hdecl⟩

/-- The body of a rule has the words of its branches. -/
theorem exists_expand (h : d.Compiled g s) {id : RuleId} {decl : RuleDecl}
    (hdecl : d.rules[id]? = some decl) :
    ∃ p : Piece, g.rule? id = some { name := decl.name, expand := some fun _ => .ofPiece p } ∧
      p.Regular ∧ Relates s.Labels (Item.exprOfBranches decl.branches) p.expr := by
  obtain ⟨hlength, hrules⟩ := List.forall₂_iff_get.mp h.rules
  obtain ⟨hlt, rfl⟩ := List.getElem?_eq_some_iff.mp hdecl
  have hrule := hrules id hlt (hlength ▸ hlt)
  rw [ruleOf] at hrule
  cases hbranches : s.branches (d.rules.get ⟨id, hlt⟩).branches with
  | error e =>
    rw [hbranches] at hrule
    cases hrule
  | ok ps =>
    rw [hbranches] at hrule
    obtain ⟨hregular, hrelates⟩ := Symbols.relates_branches hbranches
    obtain ⟨hregular', hrelates'⟩ := Symbols.relates_alternatives hregular hrelates
    refine ⟨_, ?_, hregular', hrelates'⟩
    rw [Grammar.rule?, List.getElem?_eq_getElem (hlength ▸ hlt)]
    exact congrArg some (Except.ok.inj hrule).symm

/-- Every rule of the grammar is declared. -/
theorem exists_decl (h : d.Compiled g s) {id : RuleId} {rule : Rule}
    (hrule : g.rule? id = some rule) : ∃ decl, d.rules[id]? = some decl := by
  obtain ⟨hlt, -⟩ := List.getElem?_eq_some_iff.mp hrule
  rw [← h.rules.length_eq] at hlt
  exact ⟨_, List.getElem?_eq_getElem hlt⟩

theorem regular (h : d.Compiled g s) : g.Regular := by
  intro id expand hexpand
  obtain ⟨rule, hrule, hexpand⟩ := Option.bind_eq_some_iff.mp hexpand
  obtain ⟨decl, hdecl⟩ := h.exists_decl hrule
  obtain ⟨p, hp, hregular, -⟩ := h.exists_expand hdecl
  obtain rfl := Option.some.inj (hrule.symm.trans hp)
  exact ⟨p, hregular, (Option.some.inj hexpand).symm⟩

theorem transform?_eq_none (h : d.Compiled g s) (id : RuleId) : g.transform? id = none := by
  cases hrule : g.rule? id with
  | none => rw [Grammar.transform?, hrule, Option.bind_none]
  | some rule =>
    obtain ⟨decl, hdecl⟩ := h.exists_decl hrule
    obtain ⟨p, hp, -⟩ := h.exists_expand hdecl
    rw [Grammar.transform?, hp, Option.bind_some]

/-- The piece of a rule whose body is known. -/
theorem relates_expand (h : d.Compiled g s) {id : RuleId} {decl : RuleDecl} {p : Piece}
    (hdecl : d.rules[id]? = some decl) (hexpand : g.expand? id = some fun _ => .ofPiece p) :
    g.ruleName id = decl.name ∧ Relates s.Labels (Item.exprOfBranches decl.branches) p.expr := by
  obtain ⟨q, hq, -, hrelates⟩ := h.exists_expand hdecl
  rw [Grammar.expand?, hq, Option.bind_some] at hexpand
  have hbody := congrFun (Option.some.inj hexpand) ⟨{}, none⟩
  obtain ⟨hpart, -⟩ := List.cons.inj hbody
  obtain rfl := Clause.part.inj hpart
  exact ⟨by rw [Grammar.ruleName, hq]; rfl, hrelates⟩

theorem rule_eqs {id : RuleId} {rule : Rule} (h : g.rule? id = some rule) :
    g.expand? id = rule.expand ∧ g.ruleName id = rule.name := by
  rw [Grammar.expand?, Grammar.ruleName, h]
  exact ⟨rfl, rfl⟩

/-- What the grammar of a definition generates fits the definition. -/
theorem fits_of_generates (h : d.Compiled g s) {t : Derivation} (ht : g.Generates t) :
    ∀ a, s.Labels a t.label → d.Fits a (t.parseTree g) := by
  induction ht with
  | @leaf type ident token htype =>
    intro a hlabel
    rcases h.cases_label hlabel with ⟨type', htype', hl⟩ | ⟨decl, id, -, hl, -⟩
    · obtain ⟨rfl, rfl⟩ := Label.token.inj hl
      exact .token htype' htype
    · exact absurd hl nofun
  | @node rule ident ds p hexpand hword _ ih =>
    intro a hlabel
    rcases h.cases_label hlabel with ⟨type', htype', hl⟩ | ⟨decl, id, htarget, hl, hdecl⟩
    · exact absurd hl nofun
    · obtain ⟨rfl, rfl⟩ := Label.rule.inj hl
      obtain ⟨hname, hrelates⟩ := h.relates_expand hdecl hexpand
      obtain ⟨word, hbranches, hlabels⟩ := hrelates.covered _ hword
      obtain ⟨branch, hbranch, hword⟩ := Item.mem_exprOfBranches.mp hbranches
      obtain ⟨hlength, hzip⟩ := List.forall₂_iff_zip.mp (List.forall₂_map_left_iff.mp hlabels).flip
      obtain ⟨ident, target⟩ := a
      dsimp only at htarget
      subst htarget
      rw [Derivation.parseTree, hname, Derivation.parseTrees_eq_map]
      refine .node (List.mem_of_getElem? hdecl) hbranch hword (by rw [List.length_map, hlength]) ?_
      rintro ⟨a, t⟩ hmem
      rw [List.zip_map_right] at hmem
      obtain ⟨⟨a', u⟩, hmem', heq⟩ := List.mem_map.mp hmem
      obtain ⟨rfl, rfl⟩ := Prod.mk.inj heq
      exact ih u (List.of_mem_zip hmem').2 a' (hzip hmem')

theorem label_of_type? (h : d.Compiled g s) {a : Atom} {type : TokenType}
    (htype : d.type? a.target = some type) : s.Labels a (.token type a.ident) := by
  obtain ⟨s', hnames, htokens, hkeywords⟩ := h.tokens
  obtain ⟨ident, target⟩ := a
  unfold Symbols.Labels Symbols.label?
  cases target with
  | token name =>
    rw [type?, hnames, Except.toOption, Option.bind_some, htokens] at htype
    exact congrArg (Option.map _) htype
  | keyword text =>
    rw [type?, hnames, Except.toOption, Option.bind_some, hkeywords] at htype
    exact congrArg (Option.map _) htype
  | rule name => exact absurd htype nofun

/-- Derivations of the trees that the letters of a word stand for, one by one. -/
theorem exists_derivations {word : List Atom} {children : List Tree}
    (hlength : word.length = children.length)
    (h : ∀ p ∈ word.zip children, ∃ u, g.Generates u ∧ s.Labels p.1 u.label ∧ u.parseTree g = p.2) :
    ∃ us : List Derivation, (∀ u ∈ us, g.Generates u) ∧
      List.Forall₂ s.Labels word (us.map (·.label)) ∧ us.map (·.parseTree g) = children := by
  induction word generalizing children with
  | nil =>
    obtain rfl := List.length_eq_zero_iff.mp hlength.symm
    exact ⟨[], nofun, .nil, rfl⟩
  | cons a word ih =>
    obtain ⟨t, children, rfl⟩ := List.exists_cons_of_length_eq_add_one hlength.symm
    obtain ⟨⟨u, hu, hlabel, htree⟩, hrest⟩ := List.forall_mem_cons.mp h
    obtain ⟨us, hus, hlabels, htrees⟩ := ih (Nat.succ.inj hlength) hrest
    exact ⟨u :: us, List.forall_mem_cons.mpr ⟨hu, hus⟩, .cons hlabel hlabels,
      congrArg₂ _ htree htrees⟩

/-- What fits the definition is generated. -/
theorem exists_generates (h : d.Compiled g s) {a : Atom} {t : Tree} (ht : d.Fits a t) :
    ∃ u, g.Generates u ∧ s.Labels a u.label ∧ u.parseTree g = t := by
  induction ht with
  | token htype htoken => exact ⟨.leaf _ _ _, .leaf htoken, h.label_of_type? htype, rfl⟩
  | @node ident decl branch word children hdecl hbranch hword hlength _ ih =>
    obtain ⟨id, hid⟩ := List.mem_iff_getElem?.mp hdecl
    obtain ⟨p, hp, -, hrelates⟩ := h.exists_expand hid
    obtain ⟨us, hus, hlabels, htrees⟩ := exists_derivations hlength ih
    obtain ⟨labels, hlabels', heq⟩ :=
      hrelates.covers word (Item.mem_exprOfBranches.mpr ⟨branch, hbranch, hword⟩)
    obtain rfl := s.rightUnique_labels.forall₂ hlabels heq
    obtain ⟨hexpand, hname⟩ := rule_eqs hp
    refine ⟨.node id ident us, .node hexpand hlabels' hus, ?_, ?_⟩
    · simp only [Symbols.Labels, Symbols.label?, (h.numbers decl.name id).mpr (by rw [hid]; rfl),
        Option.map_some, Derivation.label]
    · rw [Derivation.parseTree, hname, Derivation.parseTrees_eq_map, htrees]

end Compiled

/-- The rule with the mark of the root. -/
def Root (d : Definition) (a : Atom) : Prop := ∃ decl, d.rules.filter (·.root) = [decl] ∧
  a = ⟨none, .rule decl.name⟩

end Definition

namespace Parser

variable {p : Parser} {d : Definition} {text : List Char} {source : Option String} {fuel : Nat}

/-- The tree of a successful parse fits the root rule of the definition, and its leaves are
the tokens of the text. -/
theorem fits_of_parseWithin (hg : d.grammar = .ok p.grammar) {t : Tree}
    (h : p.parseWithin fuel text source = some (.ok t)) :
    (∃ a, d.Root a ∧ d.Fits a t) ∧ p.lexer.tokenizeFrom text source = .ok t.tokens := by
  obtain ⟨s, hsearch, rfl⟩ := exists_ok_of_map h
  obtain ⟨symbols, hcompiled⟩ := Definition.exists_compiled hg
  have htip := rootEnd_of_searchWithin (Definition.links_of_grammar hg) hsearch
  obtain ⟨ds, hgenerates, htokens, htree⟩ :=
    generates_of_searchWithin hcompiled.regular hsearch (congrArg (Option.map (·.node)) htip)
  rw [Derivation.tree_eq_parseTree hcompiled.transform?_eq_none] at htree
  obtain ⟨decl, hroot, hnumber⟩ := hcompiled.root
  refine ⟨⟨_, ⟨decl, hroot, rfl⟩, ?_⟩, ?_⟩
  · rw [htree]
    refine hcompiled.fits_of_generates hgenerates _ ?_
    simp only [Symbols.Labels, Symbols.label?, hnumber, Option.map_some, Derivation.label,
      hcompiled.ident]
  · obtain ⟨stream, hpulls, -, -, hend⟩ := pulls_of_searchWithin hsearch
    rw [htree, Derivation.tokens_parseTree, htokens]
    exact tokenizeFrom_of_pulls hpulls hend

end Parser

namespace Sample.Lists

/-- Entries with separators between them.  The last one may have a word in front. -/
def definition : Definition where
  tokens := [⟨"UNIT", .keyword "x" true⟩, ⟨"COMMA", .separator "," false true⟩]
  rules := [
    ⟨"list", true, [[.single (some "first") (.rule "entry") none,
      .group none [[.single none (.token "COMMA") none, .group none
        [[.single (some "next") (.rule "entry") none], [.single none (.keyword "and") none,
          .single (some "last") (.rule "entry") none]] none]] (some .zeroOrMore)]]⟩,
    ⟨"entry", false, [[.single (some "part") (.token "UNIT") (some .oneOrMore)]]⟩]

def unit : TokenType := ⟨1, .keyword "x" true⟩
def comma : TokenType := ⟨2, .separator "," false⟩
def andWord : TokenType := ⟨3, .keyword "and" true⟩

def list : Piece :=
  .sequence [.ruleAs 1 "first",
    .many (.sequence [.token comma,
      .fork [.sequence [.ruleAs 1 "next"], .sequence [.token andWord, .ruleAs 1 "last"]]])]

def grammar : Grammar :=
  { types := ⟨[unit, comma, andWord]⟩
    rules := [
      { name := "list", expand := some fun _ => .ofPiece list },
      { name := "entry",
        expand := some fun _ => .ofPiece (.sequence [.many1 (.tokenAs unit "part")]) }]
    root := 0, ident := none }

theorem grammar_definition : definition.grammar = .ok grammar := by rfl

/-- The branch of the first rule has a repeated group, and that has a group in
it.  No group has a node. -/
theorem fits_of_parseWithin_entries : ∃ t : Tree, definition.grammar = .ok grammar ∧
    (Parser.withSettings grammar definition.settings).parseWithin 100 "x x, x, and x".toList none =
      some (.ok t) ∧
    definition.Fits ⟨none, .rule "list"⟩ t ∧
    (Parser.withSettings grammar definition.settings).lexer.tokenizeFrom
      "x x, x, and x".toList none = .ok t.tokens ∧
    t.children.map (·.id) = ["first", "", "next", "", "", "last"] := by
  have hok : ((Parser.withSettings grammar definition.settings).parseWithin 100
      "x x, x, and x".toList none).any (·.toOption.any fun t => t.children.map (·.id) ==
        ["first", "", "next", "", "", "last"]) = true := by
    decide +kernel
  obtain ⟨t, hparse, hids⟩ := Parser.exists_ok_of_any hok
  obtain ⟨⟨a, ⟨decl, hdecl, rfl⟩, hfits⟩, htokens⟩ :=
    Parser.fits_of_parseWithin (p := Parser.withSettings grammar definition.settings)
      grammar_definition hparse
  obtain rfl := (List.cons.inj hdecl).1
  exact ⟨t, grammar_definition, hparse, hfits, htokens, beq_iff_eq.mp hids⟩

end Sample.Lists

end GrammarGraph
