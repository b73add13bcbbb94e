import GrammarGraph.Proofs.Definitions
import GrammarGraph.Proofs.Escaping

/-!
# Well-formed definitions

A definition has a grammar exactly if it is well-formed (`Definition.WellFormed`): its patterns can
be read, its names are distinct, one rule is the root, and every name that a rule refers to is
declared, at any depth of groups.  A definition without a grammar has the mistake that its error
tells (`Definition.Defect`).  Which texts are patterns is left to whoever reads them: the main
statement, `Definition.exists_grammar_iff`, holds for every `PatternReader`.

Each pass over the definition is described by an `Outcome`: what holds of its result, and what holds
of its error if there is no result.
-/

namespace GrammarGraph

/-! ## Outcomes -/

/-- What a result is like or, if there is none, the error. -/
def Outcome {ε α : Type} (P : α → Prop) (Q : ε → Prop) : Except ε α → Prop
  | .ok a => P a
  | .error e => Q e

namespace Outcome

variable {ε α β : Type} {P P' : α → Prop} {R : β → Prop} {Q Q' : ε → Prop} {x : Except ε α}

theorem mono (h : Outcome P Q x) (hP : ∀ a, P a → P' a) (hQ : ∀ e, Q e → Q' e) :
    Outcome P' Q' x := by
  cases x with
  | ok a => exact hP a h
  | error e => exact hQ e h

theorem bind {f : α → Except ε β} (h : Outcome P Q x)
    (hf : ∀ a, x = .ok a → P a → Outcome R Q (f a)) : Outcome R Q (x >>= f) := by
  cases x with
  | ok a => exact hf a rfl h
  | error e => exact h

theorem map {f : α → β} (h : Outcome P Q x) (hf : ∀ a, P a → R (f a)) : Outcome R Q (x.map f) := by
  cases x with
  | ok a => exact hf a h
  | error e => exact h

theorem mapM {S : α → β → Prop} {f : α → Except ε β} :
    ∀ {xs : List α}, (∀ x ∈ xs, Outcome (S x) Q (f x)) → Outcome (List.Forall₂ S xs) Q (xs.mapM f)
  | [], _ => .nil
  | x :: xs, h => by
    obtain ⟨hx, hxs⟩ := List.forall_mem_cons.mp h
    rw [List.mapM_cons]
    exact hx.bind fun y _ hy => (mapM hxs).bind fun ys _ hys => .cons hy hys

end Outcome

/-- What stands at a place of one list is related to what stands there in the other. -/
theorem exists_of_forall₂_of_getElem? {α β : Type} {R : α → β → Prop} {xs : List α} {ys : List β}
    {x : α} {n : Nat} (h : List.Forall₂ R xs ys) (hx : xs[n]? = some x) :
    ∃ y, ys[n]? = some y ∧ R x y := by
  obtain ⟨hlength, hrelated⟩ := List.forall₂_iff_get.mp h
  obtain ⟨hlt, rfl⟩ := List.getElem?_eq_some_iff.mp hx
  exact ⟨_, List.getElem?_eq_getElem (hlength ▸ hlt), hrelated n hlt (hlength ▸ hlt)⟩

/-! ## References -/

namespace Item

mutual

/-- What the items of branches ask for, in their order and at any depth of groups. -/
def atomsOfBranches : List Branch → List Atom
  | [] => []
  | b :: bs => atomsOfBranch b ++ atomsOfBranches bs

def atomsOfBranch : List Item → List Atom
  | [] => []
  | i :: is => atoms i ++ atomsOfBranch is

def atoms : Item → List Atom
  | single ident target _ => [⟨ident, target⟩]
  | group _ branches _ => atomsOfBranches branches

end

mutual

/-- The quoted texts are those of the atoms. -/
theorem mem_quotedInBranches {text : String} : ∀ {bs : List Branch},
    text ∈ quotedInBranches bs ↔ ∃ a ∈ atomsOfBranches bs, a.target = .keyword text
  | [] => by simp [quotedInBranches, atomsOfBranches]
  | b :: bs => by
    simp only [quotedInBranches, atomsOfBranches, List.mem_append, mem_quotedInBranch,
      mem_quotedInBranches, or_and_right, exists_or]

theorem mem_quotedInBranch {text : String} : ∀ {is : List Item},
    text ∈ quotedInBranch is ↔ ∃ a ∈ atomsOfBranch is, a.target = .keyword text
  | [] => by simp [quotedInBranch, atomsOfBranch]
  | i :: is => by
    simp only [quotedInBranch, atomsOfBranch, List.mem_append, mem_quoted, mem_quotedInBranch,
      or_and_right, exists_or]

theorem mem_quoted {text : String} :
    ∀ {i : Item}, text ∈ i.quoted ↔ ∃ a ∈ i.atoms, a.target = .keyword text
  | .single _ (.keyword _) _ => by simp [quoted, atoms, eq_comm]
  | .single _ (.token _) _ => by simp [quoted, atoms]
  | .single _ (.rule _) _ => by simp [quoted, atoms]
  | .group _ bs _ => by rw [quoted, atoms, mem_quotedInBranches]

end

theorem mem_atomsOfBranches {a : Atom} : ∀ {bs : List Branch}, a ∈ atomsOfBranches bs ↔
    ∃ b ∈ bs, a ∈ atomsOfBranch b
  | [] => by simp [atomsOfBranches]
  | b :: bs => by
    rw [atomsOfBranches, List.mem_append, mem_atomsOfBranches, List.exists_mem_cons_iff]

end Item

namespace Piece

mutual

/-- The labels of the slots and calls of a regular piece, in their order. -/
def labels : Piece → List Label
  | slot type ident _ => [.token type ident]
  | call rule ident => [.rule rule ident]
  | sequence ps | fork ps => labelsOfAll ps
  | repeated _ p => labels p
  | _ => []

def labelsOfAll : List Piece → List Label
  | [] => []
  | p :: ps => labels p ++ labelsOfAll ps

end

end Piece

/-- The error for a reference that stands for nothing. -/
def Target.unresolved : Target → DefinitionError
  | .token name | .keyword name => .unknownToken name
  | .rule name => .unknownRule name

namespace Symbols

variable {s : Symbols}

/-- One of the atoms stands for nothing, and the error tells which one. -/
def Unresolved (s : Symbols) (atoms : List Atom) (e : DefinitionError) : Prop :=
  ∃ a ∈ atoms, s.label? a = none ∧ e = a.target.unresolved

theorem Unresolved.mono {atoms atoms' : List Atom} {e : DefinitionError} (h : s.Unresolved atoms e)
    (hsub : atoms ⊆ atoms') : s.Unresolved atoms' e := by
  obtain ⟨a, ha, hnone, he⟩ := h
  exact ⟨a, hsub ha, hnone, he⟩

theorem labels_alternatives (ps : List Piece) :
    (alternatives ps).labels = Piece.labelsOfAll ps := by
  unfold alternatives
  split
  · rw [Piece.labelsOfAll, Piece.labelsOfAll, List.append_nil]
  · rw [Piece.labels]

theorem labels_repeated (m : Option Multiplicity) (p : Piece) :
    (repeated m p).labels = p.labels := by
  cases m with
  | none => rfl
  | some m => rw [repeated, Piece.labels]

/-- A reference is wired as the label that it stands for. -/
theorem outcome_target (ident : Option String) (target : Target) :
    Outcome (fun p : Piece => List.Forall₂ s.Labels [⟨ident, target⟩] p.labels)
      (s.Unresolved [⟨ident, target⟩]) (s.target ident target) := by
  unfold Symbols.target
  split
  all_goals
    split
    · next hlookup =>
      refine .cons ?_ .nil
      simp only [Labels, label?, hlookup, Option.map_some]
    · next hlookup =>
      refine ⟨_, List.mem_singleton_self _, ?_, rfl⟩
      simp only [label?, hlookup, Option.map_none]

mutual

/-- The pieces for branches have a label for each of the atoms, in their order. -/
theorem outcome_branches : ∀ bs : List Branch,
    Outcome (fun ps => List.Forall₂ s.Labels (Item.atomsOfBranches bs) (Piece.labelsOfAll ps))
      (s.Unresolved (Item.atomsOfBranches bs)) (s.branches bs)
  | [] => .nil
  | b :: bs => by
    rw [branches]
    refine .bind ((outcome_items b).mono (fun _ => id) fun e he =>
      he.mono (List.subset_append_left ..)) fun p _ hp => ?_
    refine .bind ((outcome_branches bs).mono (fun _ => id) fun e he =>
      he.mono (List.subset_append_right ..)) fun ps _ hps => ?_
    rw [Item.atomsOfBranches]
    exact List.rel_append hp hps

theorem outcome_items : ∀ is : List Item,
    Outcome (fun ps => List.Forall₂ s.Labels (Item.atomsOfBranch is) (Piece.labelsOfAll ps))
      (s.Unresolved (Item.atomsOfBranch is)) (s.items is)
  | [] => .nil
  | i :: is => by
    rw [items]
    refine .bind ((outcome_item i).mono (fun _ => id) fun e he =>
      he.mono (List.subset_append_left ..)) fun p _ hp => ?_
    refine .bind ((outcome_items is).mono (fun _ => id) fun e he =>
      he.mono (List.subset_append_right ..)) fun ps _ hps => ?_
    rw [Item.atomsOfBranch]
    exact List.rel_append hp hps

theorem outcome_item : ∀ i : Item,
    Outcome (fun p => List.Forall₂ s.Labels i.atoms p.labels) (s.Unresolved i.atoms) (s.item i)
  | .single ident target m => by
    rw [item, Item.atoms]
    exact (outcome_target ident target).map fun p hp => by rwa [labels_repeated]
  | .group _ bs m => by
    rw [item, Item.atoms]
    exact (outcome_branches bs).map fun ps hps => by rwa [labels_repeated, labels_alternatives]

end

/-- The names of token types and of rules. -/
def names (s : Symbols) : List String := s.tokens.map (·.1) ++ s.rules.map (·.1)

end Symbols

/-- A name is looked up with success exactly if it is one of those in the list. -/
theorem isSome_lookup_iff {β : Type} {name : String} : ∀ {l : List (String × β)},
    (l.lookup name).isSome ↔ name ∈ l.map (·.1)
  | [] => by simp
  | p :: l => by
    rw [List.lookup_cons, List.map_cons, List.mem_cons, ← isSome_lookup_iff]
    by_cases h : name = p.1
    · simp [h]
    · simp [h, beq_eq_false_iff_ne.mpr h]

/-- A name that is among those before it is there twice. -/
theorem two_le_count {name : String} {before behind : List String} (h : name ∈ before) :
    2 ≤ (before ++ name :: behind).count name := by
  rw [List.count_append, List.count_cons_self]
  have := List.count_pos_iff.mpr h
  omega

/-! ## Well-formedness -/

/-- The pattern that a declaration gives, as it is read: that of a word is tied
to both ends of the text. -/
def TokenForm.pattern? : TokenForm → Option String
  | .word pattern => some (Registry.wholeText pattern)
  | .separator marker true _ => some marker
  | _ => none

/-- The patterns that are put together around the escaped marker of a declaration. -/
def TokenForm.markerPatterns : TokenForm → List String
  | .leading marker => ["^(" ++ .ofList (Pattern.escape marker.toList) ++ ")(\\S+)$"]
  | .trailing marker => ["^(\\S+)(" ++ .ofList (Pattern.escape marker.toList) ++ ")$"]
  | .separator marker false whitespaceAllowed =>
    ("(?s)^(.*)(" ++ .ofList (Pattern.escape marker.toList) ++ ")(.*)$") ::
      if whitespaceAllowed then []
      else ["^(\\S+)(" ++ .ofList (Pattern.escape marker.toList) ++ ")(\\S+)$"]
  | _ => []

namespace Definition

variable {d : Definition} {read : PatternReader}

/-- A rule refers to the target, at any depth of groups. -/
def Refers (d : Definition) (target : Target) : Prop :=
  ∃ decl ∈ d.rules, ∃ a ∈ Item.atomsOfBranches decl.branches, a.target = target

/-- The patterns can be read, the names are distinct, one rule is the root, and every name that is
referred to is declared.  Nothing is asked of quoted texts. -/
structure WellFormed (d : Definition) (read : PatternReader) : Prop where
  patterns : ∀ decl ∈ d.tokens, ∀ text, decl.form.pattern? = some text → (read text).isSome
  tokenNames : (d.tokens.map (·.name)).Nodup
  ruleNames : (d.rules.map (·.name)).Nodup
  apart : ∀ token ∈ d.tokens, ∀ rule ∈ d.rules, token.name ≠ rule.name
  root : ∃ decl, d.rules.filter (·.root) = [decl]
  tokens : ∀ name, d.Refers (.token name) → ∃ decl ∈ d.tokens, decl.name = name
  rules : ∀ name, d.Refers (.rule name) → ∃ decl ∈ d.rules, decl.name = name

/-- The names of the declarations, those of tokens first. -/
def names (d : Definition) : List String := d.tokens.map (·.name) ++ d.rules.map (·.name)

/-- The mistakes of a definition, each with the error that tells it. -/
inductive Defect (d : Definition) (read : PatternReader) : DefinitionError → Prop
  | invalidPattern {decl : TokenDecl}
      {text : String} : decl ∈ d.tokens → decl.form.pattern? = some text → read text = none →
      Defect d read (.grammar (.invalidPattern text))
  | duplicate {name : String} : 2 ≤ d.names.count name → Defect d read (.duplicate name)
  | missingRoot : d.rules.filter (·.root) = [] → Defect d read .missingRoot
  | multipleRoots {first second : RuleDecl} {rest : List RuleDecl} :
      d.rules.filter (·.root) = first :: second :: rest →
        Defect d read (.multipleRoots first.name second.name)
  | unknownToken {name : String} : d.Refers (.token name) → (∀ decl ∈ d.tokens, decl.name ≠ name) →
      Defect d read (.unknownToken name)
  | unknownRule {name : String} : d.Refers (.rule name) → (∀ decl ∈ d.rules, decl.name ≠ name) →
      Defect d read (.unknownRule name)

theorem WellFormed.nodup_names (h : d.WellFormed read) : d.names.Nodup := by
  refine List.nodup_append.mpr ⟨h.tokenNames, h.ruleNames, fun name hname name' hname' => ?_⟩
  obtain ⟨token, htoken, rfl⟩ := List.mem_map.mp hname
  obtain ⟨rule, hrule, rfl⟩ := List.mem_map.mp hname'
  exact h.apart token htoken rule hrule

/-- What has a defect is not well-formed. -/
theorem Defect.not_wellFormed {e : DefinitionError} (h : d.Defect read e) :
    ¬ d.WellFormed read := by
  intro hd
  cases h with
  | invalidPattern hdecl htext hnone => exact absurd (hd.patterns _ hdecl _ htext) (by simp [hnone])
  | @duplicate name hcount =>
    have := List.nodup_iff_count_le_one.mp hd.nodup_names name
    omega
  | missingRoot hnone =>
    obtain ⟨decl, hdecl⟩ := hd.root
    exact absurd (hnone.symm.trans hdecl) nofun
  | multipleRoots htwo =>
    obtain ⟨decl, hdecl⟩ := hd.root
    exact absurd (htwo.symm.trans hdecl) nofun
  | unknownToken hrefers hfresh =>
    obtain ⟨decl, hdecl, hname⟩ := hd.tokens _ hrefers
    exact hfresh decl hdecl hname
  | unknownRule hrefers hfresh =>
    obtain ⟨decl, hdecl, hname⟩ := hd.rules _ hrefers
    exact hfresh decl hdecl hname

/-! ## The passes -/

theorem outcome_readPattern (read : PatternReader) (text : String) :
    Outcome (fun _ => (read text).isSome)
      (fun e => read text = none ∧ e = .invalidPattern text) (Registry.readPattern text read) := by
  unfold Registry.readPattern
  split
  · next hsome => exact Option.isSome_iff_exists.mpr ⟨_, hsome⟩
  · next hnone => exact ⟨hnone, rfl⟩

/-- Only a pattern that cannot be read keeps a token from being declared. -/
theorem outcome_declare (read : PatternReader) (r : Registry) (form : TokenForm) :
    Outcome (fun _ => ∀ text, form.pattern? = some text → (read text).isSome)
      (fun e => ∃ text, form.pattern? = some text ∧ read text = none ∧ e = .invalidPattern text)
      (declare r form read) := by
  unfold declare
  split
  case h_3 pattern =>
    refine Outcome.map ((outcome_readPattern read _).mono (fun _ => id) fun e he =>
      ⟨_, rfl, he⟩) fun p hp text htext => ?_
    obtain rfl := Option.some.inj htext
    exact hp
  case h_6 marker _ =>
    refine Outcome.map ((outcome_readPattern read _).mono (fun _ => id) fun e he =>
      ⟨_, rfl, he⟩) fun p hp text htext => ?_
    obtain rfl := Option.some.inj htext
    exact hp
  all_goals exact fun text htext => absurd htext nofun

/-- Tokens are declared in turn until a pattern cannot be read or a name is there already. -/
theorem outcome_declareTokens : ∀ (decls : List TokenDecl) (r : Registry) (s : Symbols),
    Outcome (fun out => (∀ decl ∈ decls, ∀ text, decl.form.pattern? = some text →
      (read text).isSome) ∧ out.2.tokens.map (·.1) = s.tokens.map (·.1) ++ decls.map (·.name) ∧
        ((s.tokens.map (·.1)).Nodup → (out.2.tokens.map (·.1)).Nodup)) (fun e =>
        (∃ decl ∈ decls, ∃ text, decl.form.pattern? = some text ∧ read text = none ∧
          e = .grammar (.invalidPattern text)) ∨
        ∃ name, 2 ≤ (s.tokens.map (·.1) ++ decls.map (·.name)).count name ∧
        e = .duplicate name) (declareTokens decls r s read)
  | [], r, s => ⟨nofun, (List.append_nil _).symm, id⟩
  | decl :: decls, r, s => by
    rw [declareTokens]
    have hdeclare := outcome_declare read r decl.form
    cases hout : declare r decl.form read with
    | error e =>
      rw [hout] at hdeclare
      obtain ⟨text, htext, hnone, rfl⟩ := hdeclare
      exact .inl ⟨decl, List.mem_cons_self, text, htext, hnone, rfl⟩
    | ok out =>
      obtain ⟨t, r'⟩ := out
      rw [hout] at hdeclare
      dsimp only [Except.mapError, bind, Except.bind]
      split
      · next hthere =>
        exact .inr ⟨decl.name, two_le_count (isSome_lookup_iff.mp hthere), rfl⟩
      · next hnew =>
        rw [isSome_lookup_iff] at hnew
        refine (outcome_declareTokens decls r' _).mono ?_ ?_
        · rintro ⟨types, s'⟩ ⟨hpatterns, hnames, hnodup⟩
          refine ⟨List.forall_mem_cons.mpr ⟨hdeclare, hpatterns⟩, by simpa using hnames,
            fun h => hnodup ?_⟩
          simpa using h.concat hnew
        · rintro e (⟨decl', hdecl', h⟩ | ⟨name, hcount, rfl⟩)
          · exact .inl ⟨decl', List.mem_cons_of_mem _ hdecl', h⟩
          · exact .inr ⟨name, by simpa using hcount, rfl⟩

/-- Every quoted text is a keyword after the pass over them, and the names stand for what they
did. -/
theorem keywords_declareQuoted : ∀ (texts : List String) (r : Registry) (s : Symbols),
    (declareQuoted texts r s).2.tokens = s.tokens ∧
      ∀ text, (text ∈ texts ∨ (s.keywords.lookup text).isSome) →
        ((declareQuoted texts r s).2.keywords.lookup text).isSome
  | [], _, _ => ⟨rfl, fun text h => h.resolve_left List.not_mem_nil⟩
  | text :: texts, r, s => by
    rw [declareQuoted]
    split
    · next hthere =>
      obtain ⟨htokens, hkeywords⟩ := keywords_declareQuoted texts r s
      refine ⟨htokens, fun text' h => hkeywords text' ?_⟩
      rcases h with h | h
      · rcases List.mem_cons.mp h with rfl | h
        · exact .inr hthere
        · exact .inl h
      · exact .inr h
    · obtain ⟨htokens, hkeywords⟩ := keywords_declareQuoted texts (r.addKeyword text).2
        { s with keywords := s.keywords ++ [(text, (r.addKeyword text).1)] }
      refine ⟨htokens, fun text' h => hkeywords text' ?_⟩
      rw [List.lookup_append, Option.isSome_or, Bool.or_eq_true]
      rcases h with h | h
      · rcases List.mem_cons.mp h with rfl | h
        · exact .inr (.inr (by simp))
        · exact .inl h
      · exact .inr (.inl h)

/-- Rules are declared in turn until a name is there already. -/
theorem outcome_declareRules : ∀ (decls : List RuleDecl) (n : RuleId) (s : Symbols),
    Outcome (fun s' => s'.tokens = s.tokens ∧ s'.keywords = s.keywords ∧
        s'.rules.map (·.1) = s.rules.map (·.1) ++ decls.map (·.name) ∧
        (s.names.Nodup → s'.names.Nodup)) (fun e => ∃ name,
        2 ≤ (s.names ++ decls.map (·.name)).count name ∧
        e = .duplicate name) (declareRules decls n s)
  | [], _, _ => ⟨rfl, rfl, (List.append_nil _).symm, id⟩
  | decl :: decls, n, s => by
    rw [declareRules]
    split
    · next hthere =>
      rw [Bool.or_eq_true, isSome_lookup_iff, isSome_lookup_iff, ← List.mem_append] at hthere
      exact ⟨decl.name, two_le_count hthere, rfl⟩
    · next hnew =>
      rw [Bool.or_eq_true, isSome_lookup_iff, isSome_lookup_iff, ← List.mem_append] at hnew
      refine (outcome_declareRules decls (n + 1) _).mono ?_ ?_
      · rintro s' ⟨htokens, hkeywords, hrules, hnodup⟩
        refine ⟨htokens, hkeywords, by simpa using hrules, fun h => hnodup ?_⟩
        simpa [Symbols.names] using h.concat hnew
      · rintro e ⟨name, hcount, rfl⟩
        exact ⟨name, by simpa [Symbols.names] using hcount, rfl⟩

theorem outcome_rootName (d : Definition) :
    Outcome (fun name => ∃ decl, d.rules.filter (·.root) = [decl] ∧
      decl.name = name) (d.Defect read) d.rootName := by
  unfold rootName
  split
  · next hnone => exact .missingRoot hnone
  · next decl hone => exact ⟨decl, hone, rfl⟩
  · next htwo => exact .multipleRoots htwo

/-- The body of a rule has a label for each of the atoms in its branches, in their order. -/
def Resolves (s : Symbols) (decl : RuleDecl) (rule : Rule) : Prop :=
  ∃ p : Piece, rule = { name := decl.name, expand := some fun _ => .ofPiece p } ∧
    List.Forall₂ s.Labels (Item.atomsOfBranches decl.branches) p.labels

theorem outcome_ruleOf (s : Symbols) (decl : RuleDecl) :
    Outcome (Resolves s decl) (s.Unresolved (Item.atomsOfBranches decl.branches)) (ruleOf s decl) :=
  (Symbols.outcome_branches decl.branches).map fun ps hps =>
    ⟨_, rfl, by rwa [Symbols.labels_alternatives]⟩

/-- The names are those of the declarations, and every quoted text is a keyword. -/
structure Declared (d : Definition) (s : Symbols) : Prop where
  tokens : s.tokens.map (·.1) = d.tokens.map (·.name)
  rules : s.rules.map (·.1) = d.rules.map (·.name)
  keywords : ∀ text, d.Refers (.keyword text) → (s.keywords.lookup text).isSome

namespace Declared

variable {s : Symbols}

theorem exists_labels_token (h : d.Declared s) (ident : Option String) (name : String) :
    (∃ l, s.Labels ⟨ident, .token name⟩ l) ↔ ∃ decl ∈ d.tokens, decl.name = name := by
  rw [← List.mem_map, ← h.tokens, ← isSome_lookup_iff, ← Option.isSome_map,
    Option.isSome_iff_exists]
  rfl

theorem exists_labels_rule (h : d.Declared s) (ident : Option String) (name : String) :
    (∃ l, s.Labels ⟨ident, .rule name⟩ l) ↔ ∃ decl ∈ d.rules, decl.name = name := by
  rw [← List.mem_map, ← h.rules, ← isSome_lookup_iff, ← Option.isSome_map, Option.isSome_iff_exists]
  rfl

/-- What stands for nothing is a reference to a name that is not declared. -/
theorem defect (h : d.Declared s) {decl : RuleDecl} {e : DefinitionError} (hdecl : decl ∈ d.rules)
    (he : s.Unresolved (Item.atomsOfBranches decl.branches) e) : d.Defect read e := by
  obtain ⟨⟨ident, target⟩, ha, hnone, rfl⟩ := he
  have hrefers : d.Refers target := ⟨decl, hdecl, _, ha, rfl⟩
  have hunlabelled : ¬ ∃ l, s.Labels ⟨ident, target⟩ l :=
    fun ⟨l, hl⟩ => absurd (hnone.symm.trans hl) nofun
  cases target with
  | token name =>
    rw [h.exists_labels_token] at hunlabelled
    exact .unknownToken hrefers fun token htoken hname => hunlabelled ⟨token, htoken, hname⟩
  | keyword text =>
    have hkeyword := h.keywords text hrefers
    rw [Option.map_eq_none_iff.mp hnone] at hkeyword
    exact absurd hkeyword nofun
  | rule name =>
    rw [h.exists_labels_rule] at hunlabelled
    exact .unknownRule hrefers fun rule hrule hname => hunlabelled ⟨rule, hrule, hname⟩

end Declared

/-- What is referred to stands for something if all rules can be resolved. -/
theorem exists_labels_of_refers {s : Symbols} {rules : List Rule} {target : Target}
    (h : List.Forall₂ (Resolves s) d.rules rules) (hrefers : d.Refers target) :
    ∃ ident l, s.Labels ⟨ident, target⟩ l := by
  obtain ⟨decl, hdecl, ⟨ident, target⟩, ha, rfl⟩ := hrefers
  obtain ⟨n, hn⟩ := List.mem_iff_getElem?.mp hdecl
  obtain ⟨rule, -, p, -, hlabels⟩ := exists_of_forall₂_of_getElem? h hn
  obtain ⟨k, hk⟩ := List.mem_iff_getElem?.mp ha
  obtain ⟨l, -, hl⟩ := exists_of_forall₂_of_getElem? hlabels hk
  exact ⟨ident, l, hl⟩

/-! ## All passes -/

theorem outcome_tokens (d : Definition) :
    Outcome (fun out => (∀ decl ∈ d.tokens, ∀ text, decl.form.pattern? = some text →
      (read text).isSome) ∧ out.2.tokens.map (·.1) = d.tokens.map (·.name) ∧
      (d.tokens.map (·.name)).Nodup) (d.Defect read) (declareTokens d.tokens {} {} read) := by
  refine (outcome_declareTokens d.tokens {} {}).mono ?_ ?_
  · rintro out ⟨hpatterns, hnames, hnodup⟩
    rw [List.map_nil, List.nil_append] at hnames
    exact ⟨hpatterns, hnames, hnames ▸ hnodup .nil⟩
  · rintro e (⟨decl, hdecl, text, htext, hnone, rfl⟩ | ⟨name, hcount, rfl⟩)
    · exact .invalidPattern hdecl htext hnone
    · rw [List.map_nil, List.nil_append] at hcount
      exact .duplicate (hcount.trans ((List.sublist_append_left ..).count_le name))

/-- The rules get their names once the tokens have theirs. -/
theorem outcome_rules {s : Symbols} (htokens : s.tokens.map (·.1) = d.tokens.map (·.name))
    (hrules : s.rules = [])
    (hkeywords : ∀ text, d.Refers (.keyword text) → (s.keywords.lookup text).isSome) :
    Outcome (fun s' => d.Declared s' ∧ ((d.tokens.map (·.name)).Nodup → d.names.Nodup))
      (d.Defect read) (declareRules d.rules 0 s) := by
  have hnames : s.names = d.tokens.map (·.name) := by
    rw [Symbols.names, htokens, hrules]
    exact List.append_nil _
  refine (outcome_declareRules d.rules 0 s).mono ?_ ?_
  · rintro s' ⟨htokens', hkeywords', hrules', hnodup⟩
    rw [hrules, List.map_nil, List.nil_append] at hrules'
    rw [hnames, Symbols.names, htokens', htokens, hrules'] at hnodup
    exact ⟨⟨by rw [htokens', htokens], hrules', by rwa [hkeywords']⟩, hnodup⟩
  · rintro e ⟨name, hcount, rfl⟩
    rw [hnames] at hcount
    exact .duplicate hcount

/-- Every quoted text that a rule refers to is a keyword. -/
theorem isSome_lookup_declareQuoted {text : String} (types : Registry) (s : Symbols)
    (h : d.Refers (.keyword text)) :
    ((declareQuoted (Item.quotedInBranches (d.rules.flatMap (·.branches))) types
      s).2.keywords.lookup text).isSome := by
  obtain ⟨decl, hdecl, a, ha, htarget⟩ := h
  refine (keywords_declareQuoted _ types s).2 text
    (.inl (Item.mem_quotedInBranches.mpr ⟨a, ?_, htarget⟩))
  obtain ⟨branch, hbranch, ha⟩ := Item.mem_atomsOfBranches.mp ha
  exact Item.mem_atomsOfBranches.mpr ⟨branch, List.mem_flatMap.mpr ⟨decl, hdecl, hbranch⟩, ha⟩

/-- A definition whose passes all have a result is well-formed, and another one has a defect. -/
theorem outcome_grammar (d : Definition) (read : PatternReader) :
    Outcome (fun _ => d.WellFormed read) (d.Defect read) (d.grammar read) := by
  rw [grammar]
  refine (outcome_tokens d).bind fun out hout htokens => ?_
  obtain ⟨types, s⟩ := out
  obtain ⟨hpatterns, hnames, hnodup⟩ := htokens
  refine (outcome_rootName d).bind fun _ _ hroot => ?_
  obtain ⟨root, hroot, rfl⟩ := hroot
  have hsame :=
    (keywords_declareQuoted (Item.quotedInBranches (d.rules.flatMap (·.branches))) types s).1
  have hempty := (rules_declareQuoted (Item.quotedInBranches (d.rules.flatMap (·.branches))) types
    s).trans (rules_declareTokens hout)
  refine (outcome_rules (by rw [hsame, hnames]) hempty fun text =>
    isSome_lookup_declareQuoted types s).bind fun symbols _ hsymbols => ?_
  obtain ⟨hdeclared, hdistinct⟩ := hsymbols
  obtain ⟨-, hrules, hapart⟩ := List.nodup_append.mp (hdistinct hnodup)
  have hbodies := Outcome.mapM fun decl hdecl =>
    (outcome_ruleOf symbols decl).mono (fun _ => id) fun e =>
      (hdeclared.defect hdecl : _ → d.Defect read e)
  refine hbodies.bind fun rules _ hresolved => ?_
  split
  · exact
      { patterns := hpatterns
        tokenNames := hnodup
        ruleNames := hrules
        apart := fun token htoken rule hrule =>
          hapart _ (List.mem_map_of_mem htoken) _ (List.mem_map_of_mem hrule)
        root := ⟨root, hroot⟩
        tokens := fun name hrefers => by
          obtain ⟨ident, hlabel⟩ := exists_labels_of_refers hresolved hrefers
          exact (hdeclared.exists_labels_token ident name).mp hlabel
        rules := fun name hrefers => by
          obtain ⟨ident, hlabel⟩ := exists_labels_of_refers hresolved hrefers
          exact (hdeclared.exists_labels_rule ident name).mp hlabel }
  · next hnone =>
    have hmem : root ∈ d.rules.filter (·.root) := by rw [hroot]; exact List.mem_singleton_self root
    have hname : (symbols.rules.lookup root.name).isSome := by
      rw [isSome_lookup_iff, hdeclared.rules]
      exact List.mem_map_of_mem (List.mem_of_mem_filter hmem)
    rw [hnone] at hname
    exact absurd hname nofun

/-- The bodies of the rules have labels for what their branches ask for. -/
theorem Compiled.resolves {g : Grammar} {s : Symbols} (h : d.Compiled g s read) :
    List.Forall₂ (Resolves s) d.rules g.rules :=
  h.rules.imp fun decl rule hrule => by
    have := outcome_ruleOf s decl
    rwa [hrule] at this

/-- The rules are those of the definition, in their order, and the root is the one with the mark. -/
theorem rules_of_grammar {g : Grammar} (h : d.grammar read = .ok g) :
    List.Forall₂ (fun decl rule => rule.name = decl.name ∧ rule.hasBody) d.rules g.rules ∧
      ∃ decl, d.rules[g.root]? = some decl ∧ decl.root := by
  obtain ⟨s, hcompiled⟩ := exists_compiled h
  obtain ⟨root, hroot, hnumber⟩ := hcompiled.root
  have hmem : root ∈ d.rules.filter (·.root) := by rw [hroot]; exact List.mem_singleton_self root
  obtain ⟨n, hn⟩ := List.mem_iff_getElem?.mp (List.mem_of_mem_filter hmem)
  have hid := (hcompiled.numbers root.name n).mpr (by rw [hn]; rfl)
  obtain rfl := Option.some.inj (hid.symm.trans hnumber)
  refine ⟨hcompiled.resolves.imp fun decl rule hrule => ?_, root, hn, List.of_mem_filter hmem⟩
  obtain ⟨p, rfl, -⟩ := hrule
  exact ⟨rfl, rfl⟩

/-- A definition has a grammar exactly if it is well-formed, whatever texts the reader takes for
patterns.  The grammar has the rules in their order, and its root is the rule with the mark.  If
there is no grammar, the error tells a defect, and quoted texts have none.  If there is one and the
reader takes the patterns around escaped markers, then every text that it was given is a pattern. -/
theorem exists_grammar_iff (read : PatternReader) (d : Definition) :
    ((∃ g, d.grammar read = .ok g) ↔ d.WellFormed read) ∧
    (∀ g, d.grammar read = .ok g →
      List.Forall₂ (fun decl rule => rule.name = decl.name ∧ rule.hasBody) d.rules g.rules ∧
        ∃ decl, d.rules[g.root]? = some decl ∧ decl.root) ∧
    (∀ e, d.grammar read = .error e → d.Defect read e) ∧
    ((∀ decl ∈ d.tokens, ∀ text ∈ decl.form.markerPatterns, (read text).isSome) →
      ∀ g, d.grammar read = .ok g → ∀ decl ∈ d.tokens,
        ∀ text ∈ decl.form.pattern?.toList ++ decl.form.markerPatterns, (read text).isSome) := by
  have houtcome := outcome_grammar d read
  have hiff : (∃ g, d.grammar read = .ok g) ↔ d.WellFormed read := by
    refine ⟨fun ⟨g, hg⟩ => by rwa [hg] at houtcome, fun hd => ?_⟩
    cases hg : d.grammar read with
    | ok g => exact ⟨g, rfl⟩
    | error e =>
      rw [hg] at houtcome
      exact absurd hd houtcome.not_wellFormed
  refine ⟨hiff, fun g => rules_of_grammar, fun e he => by rwa [he] at houtcome, ?_⟩
  intro hmarkers g hg decl hdecl text htext
  rcases List.mem_append.mp htext with htext | htext
  · exact (hiff.mp ⟨g, hg⟩).patterns decl hdecl text (Option.mem_toList.mp htext)
  · exact hmarkers decl hdecl text htext

end Definition

namespace Sample.Lists

/-- The second rule is referred to from groups only.  Without it the definition has a defect. -/
theorem exists_grammar_iff_lists :
    definition.WellFormed Pattern.ofText? ∧
      (∃ decl, definition.rules[grammar.root]? = some decl ∧ decl.root) ∧
      Definition.Defect { definition with rules := definition.rules.take 1 } Pattern.ofText?
        (.unknownRule "entry") ∧
      ¬ Definition.WellFormed { definition with rules := definition.rules.take 1 } Pattern.ofText? ∧
      ∀ decl ∈ definition.tokens, ∀ text ∈ decl.form.pattern?.toList ++ decl.form.markerPatterns,
        (Pattern.ofText? text).isSome := by
  have hshort : Definition.grammar { definition with rules := definition.rules.take 1 } =
      .error (.unknownRule "entry") := by rfl
  obtain ⟨hiff, hgrammar, -, hread⟩ := Definition.exists_grammar_iff Pattern.ofText? definition
  obtain ⟨hiff', -, herror, -⟩ :=
    Definition.exists_grammar_iff Pattern.ofText?
      { definition with rules := definition.rules.take 1 }
  refine ⟨hiff.mp ⟨grammar, grammar_definition⟩, (hgrammar grammar grammar_definition).2,
    herror _ hshort, fun h => ?_, hread (by decide +kernel) grammar grammar_definition⟩
  obtain ⟨g, hg⟩ := hiff'.mpr h
  exact absurd (hshort.symm.trans hg) nofun

end Sample.Lists

end GrammarGraph
