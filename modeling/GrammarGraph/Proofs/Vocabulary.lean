import GrammarGraph.Proofs.Patterns
import GrammarGraph.Proofs.Writing

/-!
# The words of definitions

Which types the next word of a definition may have is told by a list of their numbers
(`Meta.Admits`).  Only words of a fixed text can be told apart for certain: a name may look like a
name of another sort, or like a keyword.
-/

namespace GrammarGraph.Meta

/-- Whether a word of a definition has a type: a separator stands by itself. -/
def fits : TokenKind → String → Bool
  | .separator marker _, word => word == marker
  | kind, word => kind.accepts word.toList

/-- A type of the grammar of definitions, found by its number. -/
def Known (type : TokenType) : Prop := types.types[type.id - 1]? = some type

/-- The next word, or the end, has no types but those with one of the numbers. -/
def Admits (may : List Nat) (next : Option String) : Prop :=
  ∀ type, Known type → next.any (fits type.kind) = true → type.id ∈ may

variable {may more : List Nat} {word : String} {next : Option String} {type : TokenType}
  {p : String → Bool}

theorem Known.mem (h : Known type) : type ∈ types.types := List.mem_of_getElem? h

theorem admits_none (may : List Nat) : Admits may none := fun _ _ h => absurd h nofun

theorem Admits.mono (h : Admits may next) (hsub : ∀ n ∈ may, n ∈ more) : Admits more next :=
  fun type htype hfits => hsub _ (h type htype hfits)

theorem Admits.not_fits (h : Admits may next) (htype : Known type) (hid : type.id ∉ may) :
    next.any (fits type.kind) = false :=
  Bool.eq_false_iff.mpr fun hfits => hid (h type htype hfits)

/-- The text of a type of one text. -/
def fixed? : TokenKind → Option String
  | .keyword text true | .separator text _ => some text
  | _ => none

/-- The words of a sort have none but the given types: words that are fixed texts are told apart by
their texts, names and quoted texts by what they look like. -/
def Sorted (p : String → Bool) (may : List Nat) : Prop :=
  (types.types.all fun type => (fixed? type.kind).all fun text => !p text || may.contains type.id) =
    true

instance (p : String → Bool) (may : List Nat) : Decidable (Sorted p may) :=
  inferInstanceAs (Decidable (_ = true))

theorem Sorted.mem (h : Sorted p may) (htype : Known type) {text : String}
    (hfixed : fixed? type.kind = some text) (hp : p text = true) : type.id ∈ may := by
  have hall := List.all_eq_true.mp h type htype.mem
  rw [hfixed, Option.all_some, hp, Bool.not_true, Bool.false_or] at hall
  exact List.contains_iff_mem.mp hall

/-- Every type that is not of one text is that of token names, of quoted texts, of
rule names, or of names. -/
theorem eq_of_fixed?_eq_none (htype : Known type) (h : fixed? type.kind = none) :
    type = tokenName ∨ type = value ∨ type = ruleName ∨ type = name := by
  have hfilter : types.types.filter (fun type => (fixed? type.kind).isNone) =
      [tokenName, value, ruleName, name] := rfl
  have hmem : type ∈ types.types.filter fun type => (fixed? type.kind).isNone :=
    List.mem_filter.mpr ⟨htype.mem, by rw [h]; rfl⟩
  rw [hfilter] at hmem
  simpa using hmem

theorem eq_of_fits {kind : TokenKind} {text : String} (h : fixed? kind = some text)
    (hfits : fits kind word = true) : word = text := by
  cases kind with
  | keyword stored caseSensitive =>
    cases caseSensitive with
    | false => exact absurd h nofun
    | true =>
      obtain rfl := Option.some.inj h
      have heq := eq_of_beq hfits
      rwa [String.ofList_toList] at heq
  | separator marker tight =>
    obtain rfl := Option.some.inj h
    exact eq_of_beq hfits
  | _ => exact absurd h nofun

theorem admits_of_sorted (h : Sorted p may) (hword : p word = true)
    (htoken : isTokenName word = true → 1 ∈ may)
    (hvalue : isLiteralText word.toList = true → 2 ∈ may)
    (hrule : isRuleName word = true → 27 ∈ may) (hname : isName word = true → 29 ∈ may) :
    Admits may (some word) := by
  intro type htype hfits
  rw [Option.any_some] at hfits
  cases hfixed : fixed? type.kind with
  | some text =>
    obtain rfl := eq_of_fits hfixed hfits
    exact h.mem htype hfixed hword
  | none =>
    obtain rfl | rfl | rfl | rfl := eq_of_fixed?_eq_none htype hfixed
    · exact htoken (accepts_tokenName word ▸ hfits)
    · exact hvalue hfits
    · exact hrule (accepts_ruleName word ▸ hfits)
    · exact hname (accepts_name word ▸ hfits)

/-! ## Sorts of words -/

/-- A rule name with a lower-case letter is no token name. -/
def isLowerName (word : String) : Bool := isRuleName word && word.toList.any Char.isLower

/-- The keywords that a rule can be named like. -/
def statementWords : List String := "enable" :: tokenKinds

theorem isIdentifier_mono {first next first' next' : Char → Bool}
    (hfirst : ∀ c, first c = true → first' c = true) (hnext : ∀ c, next c = true → next' c = true)
    {text : List Char} (h : isIdentifier first next text = true) :
    isIdentifier first' next' text = true := by
  cases text with
  | nil => exact absurd h nofun
  | cons c cs =>
    simp only [isIdentifier, Bool.and_eq_true, List.all_eq_true] at h ⊢
    exact ⟨hfirst c h.1, fun d hd => hnext d (h.2 d hd)⟩

theorem all_of_isIdentifier {first next : Char → Bool}
    (hfirst : ∀ c, first c = true → next c = true) {text : List Char}
    (h : isIdentifier first next text = true) : ∀ c ∈ text, next c = true := by
  cases text with
  | nil => exact nofun
  | cons c cs =>
    rw [isIdentifier, Bool.and_eq_true, List.all_eq_true] at h
    exact List.forall_mem_cons.mpr ⟨hfirst c h.1, h.2⟩

theorem isName_of_isTokenName (h : isTokenName word = true) : isName word = true :=
  isIdentifier_mono (fun c => by grind) (fun c => by grind) h

theorem isName_of_isRuleName (h : isRuleName word = true) : isName word = true :=
  isIdentifier_mono (fun c => by grind) (fun c => id) h

theorem not_isLiteralText_of_isName (h : isName word = true) :
    isLiteralText word.toList = false := by
  rw [isName] at h
  cases hword : word.toList with
  | nil => rfl
  | cons c cs =>
    rw [hword, isIdentifier, Bool.and_eq_true] at h
    rw [isLiteralText, Bool.and_eq_false_iff]
    refine .inl (Bool.eq_false_iff.mpr fun hquote => ?_)
    rcases Bool.or_eq_true_iff.mp hquote with hc | hc <;>
    · rw [eq_of_beq hc] at h
      exact absurd h.1 (by decide)

theorem not_isTokenName_of_isLowerName (h : isLowerName word = true) :
    isTokenName word = false := by
  obtain ⟨c, hc, hlower⟩ := List.any_eq_true.mp (Bool.and_eq_true_iff.mp h).2
  refine Bool.eq_false_iff.mpr fun htoken => ?_
  have hnext := all_of_isIdentifier (fun c => by grind) htoken c hc
  have hlower : 'a'.val ≤ c.val := of_decide_eq_true (Bool.and_eq_true_iff.mp hlower).1
  simp only [Bool.or_eq_true, beq_iff_eq] at hnext
  rcases hnext with (hupper | hdigit) | rfl
  · exact absurd (UInt32.le_trans hlower (of_decide_eq_true hupper).2) (by decide)
  · exact absurd
      (UInt32.le_trans hlower (of_decide_eq_true (Bool.and_eq_true_iff.mp hdigit).2)) (by decide)
  · exact absurd hlower (by decide)

theorem admits_tokenName (h : isTokenName word = true) : Admits [1, 12, 13, 27, 29] (some word) :=
  admits_of_sorted (p := isTokenName) (by decide) h (by simp) (fun hvalue => absurd hvalue
      (by rw [not_isLiteralText_of_isName (isName_of_isTokenName h)]; simp)) (by simp) (by simp)

theorem admits_name (h : isName word = true) :
    Admits [1, 12, 13, 14, 15, 16, 17, 18, 19, 22, 27, 29] (some word) :=
  admits_of_sorted (p := isName) (by decide) h (by simp)
    (fun hvalue => absurd hvalue (by rw [not_isLiteralText_of_isName h]; simp)) (by simp) (by simp)

theorem admits_ruleName (h : isLowerName word = true) :
    Admits [14, 15, 16, 17, 18, 19, 22, 27, 29] (some word) :=
  admits_of_sorted (p := isLowerName) (by decide) h
    (fun htoken => absurd htoken (by rw [not_isTokenName_of_isLowerName h]; simp))
    (fun hvalue => absurd hvalue (by
      rw [not_isLiteralText_of_isName (isName_of_isRuleName (Bool.and_eq_true_iff.mp h).1)]; simp))
    (by simp) (by simp)

/-- A rule that is not named like a keyword is read as nothing but a name. -/
theorem admits_ruleName_of_not_mem (h : isLowerName word = true) (hword : word ∉ statementWords) :
    Admits [27, 29] (some word) := by
  refine admits_of_sorted (p := fun word => isLowerName word && !statementWords.contains word)
    (by decide) ?_ (fun htoken => ?_) (fun hvalue => ?_) (by simp) (by simp)
  · rw [h, Bool.true_and, Bool.not_eq_true', ← Bool.not_eq_true, List.contains_iff_mem]
    exact hword
  · rw [not_isTokenName_of_isLowerName h] at htoken
    exact absurd htoken nofun
  · rw [not_isLiteralText_of_isName (isName_of_isRuleName (Bool.and_eq_true_iff.mp h).1)] at hvalue
    exact absurd hvalue nofun

/-- Words of a fixed text. -/
def Sure (word : String) (may : List Nat) : Prop :=
  Sorted (word == ·) may ∧ (isTokenName word = true → 1 ∈ may) ∧
    (isLiteralText word.toList = true → 2 ∈ may) ∧ (isRuleName word = true → 27 ∈ may) ∧
    (isName word = true → 29 ∈ may)

instance (word : String) (may : List Nat) : Decidable (Sure word may) :=
  inferInstanceAs (Decidable (_ ∧ _))

theorem Sure.admits (h : Sure word may) : Admits may (some word) :=
  admits_of_sorted (p := (word == ·)) h.1 (by simp) h.2.1 h.2.2.1 h.2.2.2.1 h.2.2.2.2

theorem toList_quote (text : String) : (quote text).toList = '"' :: (text.toList ++ ['"']) := by
  simp [quote, String.toList_append]

theorem isLiteralText_quote (text : String) : isLiteralText (quote text).toList = true := by
  rw [toList_quote, isLiteralText, List.getLast?_append]
  rfl

/-- A quoted text is nothing else. -/
theorem admits_quote (text : String) : Admits [2] (some (quote text)) := by
  have hname : ¬isName (quote text) = true := fun h => by
    have hliteral := isLiteralText_quote text
    rw [not_isLiteralText_of_isName h] at hliteral
    exact absurd hliteral nofun
  refine admits_of_sorted (p := fun word => word.toList.head? == some '"') (by decide) ?_
    (fun h => absurd (isName_of_isTokenName h) hname) (by simp)
    (fun h => absurd (isName_of_isRuleName h) hname) (fun h => absurd h hname)
  rw [toList_quote]
  rfl

/-! ## Types by their numbers -/

/-- The type with a number. -/
def typeAt (n : Nat) : TokenType := types.types[n - 1]?.getD tokenName

theorem known_of_getElem? {i : Nat} (h : types.types[i]? = some type) : Known type := by
  have hids : types.types.map (·.id) = List.range' 1 32 := rfl
  have hid : (types.types.map (·.id))[i]? = some type.id := by rw [List.getElem?_map, h]; rfl
  rw [hids] at hid
  obtain ⟨hi, hid⟩ := List.getElem?_eq_some_iff.mp hid
  rw [List.getElem_range'] at hid
  rwa [Known, show type.id - 1 = i by omega]

theorem known_typeAt (n : Nat) : Known (typeAt n) := by
  rw [typeAt]
  cases h : types.types[n - 1]? with
  | none => rfl
  | some type => exact known_of_getElem? h

/-- The numbers of all types. -/
def everything : List Nat := List.range' 1 32

theorem admits_everything (next : Option String) : Admits everything next := fun _ htype _ =>
  List.mem_map_of_mem (f := (·.id)) htype.mem

end GrammarGraph.Meta

/-! ## Definitions that can be written -/

namespace GrammarGraph

open GrammarGraph.Meta

/-- A text that can stand in double quotes: none of its characters closes them, and none
at its end escapes them. -/
def isQuotable (text : String) : Bool :=
  !text.toList.contains '"' && text.toList.getLast? != some escapeChar

def Target.isWritable : Target → Bool
  | token name => isTokenName name
  | keyword text => isQuotable text
  | rule name => isLowerName name

namespace Item

mutual

/-- Names are names of their sort, texts can be quoted, and neither groups nor branches are
empty. -/
def isWritable : Item → Bool
  | single ident target _ => ident.all isName && target.isWritable
  | group ident branches _ => ident.all isName && !branches.isEmpty && branchesWritable branches

def itemsWritable : List Item → Bool
  | [] => true
  | item :: items => isWritable item && itemsWritable items

def branchesWritable : List (List Item) → Bool
  | [] => true
  | branch :: rest => !branch.isEmpty && itemsWritable branch && branchesWritable rest

end

end Item

def TokenDecl.isWritable (d : TokenDecl) : Bool := isTokenName d.name && d.value?.all isQuotable

def RuleDecl.isWritable (d : RuleDecl) : Bool :=
  isLowerName d.name && !d.branches.isEmpty && Item.branchesWritable d.branches

def Definition.isWritable (d : Definition) : Bool :=
  d.lineComment.all isQuotable &&
    d.blockComment.all (fun c => isQuotable c.start && isQuotable c.stop) &&
    d.tokens.all TokenDecl.isWritable && d.rules.all RuleDecl.isWritable

end GrammarGraph
