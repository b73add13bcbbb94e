import GrammarGraph.Proofs.Phrases

/-!
# Reading elements

What the rules of elements, branches and groups read, by induction over the element.  An element
without an identifier that starts with a name is read in two attempts: the name is taken for an
identifier until no equality sign follows.
-/

namespace GrammarGraph.Meta

open GrammarGraph.Search GrammarGraph.Path

/-- The types of words that an element can start with. -/
def starting : List Nat := [1, 2, 5, 12, 13, 14, 15, 16, 17, 18, 19, 22, 27, 29]

/-- Those of the words behind an element: another one starts, or the branch ends. -/
def following : List Nat := [6, 10, 11] ++ starting

variable {goal top parent : Tree} {graph : Graph} {els : List PathElement} {outer : List Tree}
  {base i k : Nat} {stop : NodeId} {fresh : Bool} {seen path : List Nat} {rules : List RuleId}
  {words rest : List String} {word : String}

/-- Behind its target an element ends with its multiplicity, if it has one. -/
theorem At.multiplicity (h : At ⟨base, elementLayout, stop⟩ graph els 14 false [14, 11] [])
    (m : Option Multiplicity) (hrest : Admits following rest.head?)
    (hreads : ∀ els' top' seen, At ⟨base, elementLayout, stop⟩ graph els' 1 false seen [] →
      top'.id = top.id →
      top'.children.filterMap elementChild =
        top.children.filterMap elementChild ++ Item.multiplicityTrees m →
      Reads goal graph els' (top' :: outer) rest) :
    Reads goal graph els (top :: outer) (m.toList.map Multiplicity.text ++ rest) := by
  cases m with
  | none =>
    exact h.walk [20, 21, 1] following hrest rfl fun h =>
      hreads _ top _ h rfl (by simp [Item.multiplicityTrees])
  | some m =>
    have htake (n : Nat) (may : List Nat) (hsure : Sure m.text may)
        (hroutes : routes may false elementLayout 14 [14, 11] [20, 18] = true)
        (hleads : leads may false elementLayout 18 n = true) (hseen : n ∉ [18, 20, 14, 11])
        (hn : elementLayout[n]? = some (.slot (n + 15) "mult", [19]))
        (hfits : fits (typeAt (n + 15)).kind m.text = true)
        (hexit : routes everything false elementLayout n [] [19, 21, 1] = true) :
        Reads goal graph els (top :: outer) (m.text :: rest) := by
      refine h.take [20, 18] n may hsure.admits hroutes hleads hseen hn hfits fun token ht _ h =>
        Reads.recovers ?_
      refine h.follow [19, 21, 1] hexit fun h => hreads _ _ _ h rfl ?_
      rw [Tree.addChild, List.filterMap_append, Item.multiplicityTrees, Option.toList_some,
        List.map_cons, ← ht]
      rfl
    cases m with
    | zeroOrOne => exact htake 15 [30] (by decide) rfl rfl (by decide) rfl (by decide) rfl
    | zeroOrMore => exact htake 16 [31] (by decide) rfl rfl (by decide) rfl (by decide) rfl
    | oneOrMore => exact htake 17 [32] (by decide) rfl rfl (by decide) rfl (by decide) rfl

/-- A target that is no group takes one word. -/
theorem At.target (h : At ⟨base, elementLayout, stop⟩ graph els 13 fresh (13 :: seen) rules)
    (hseen : ∀ n ∈ [8, 9, 10, 14], n ∉ seen) (target : Target) (htarget : target.isWritable = true)
    (hreads : ∀ els' child, At ⟨base, elementLayout, stop⟩ graph els' 14 false [14, 11] [] →
      elementChild child = some target.tree →
      Reads goal graph els' (top.addChild child :: outer) words) :
    Reads goal graph els (top :: outer) (target.word :: words) := by
  have htake (n type : Nat) (ident : String) (may : List Nat) (hmay : Admits may (some target.word))
      (hleads : leads may false elementLayout 13 n = true) (hn : n ∈ [8, 9, 10])
      (hslot : elementLayout[n]? = some (.slot type ident, [14]))
      (hfits : fits (typeAt type).kind target.word = true) (hchild : ∀ token : Token,
        token.text = target.word → elementChild (.ofToken token ident) = some target.tree)
      (hroutes : routes everything false elementLayout n [] [14] = true) :
      Reads goal graph els (top :: outer) (target.word :: words) := by
    refine h.take [] n may hmay rfl hleads ?_ hslot hfits fun token ht _ h => Reads.recovers ?_
    · rw [List.reverse_nil, List.nil_append, List.mem_cons, not_or]
      exact ⟨by rintro rfl; simp at hn, hseen n (by simp at hn ⊢; tauto)⟩
    · refine h.follow [14] hroutes fun h => hreads _ _ (h.mono (by simp)) (hchild token ht)
  cases target with
  | token name =>
    refine htake 8 1 "token" _ (admits_tokenName htarget) rfl (by simp) rfl
      ((accepts_tokenName name).trans htarget) (fun token ht => ?_) rfl
    rw [Target.tree, ← show token.text = name from ht]
    rfl
  | keyword text =>
    refine htake 9 2 "keyword" _ (admits_quote text) rfl (by simp) rfl (isLiteralText_quote text)
      (fun token ht => ?_) rfl
    rw [Target.tree, ← unquote_quote text, ← show token.text = quote text from ht]
    rfl
  | rule name =>
    refine htake 10 27 "rule" _ (admits_ruleName htarget) rfl (by simp) rfl
      ((accepts_ruleName name).trans (Bool.and_eq_true_iff.mp htarget).1) (fun token ht => ?_) rfl
    rw [Target.tree, ← show token.text = name from ht]
    rfl

/-- A name that is taken for an identifier is given back where no equality sign follows. -/
theorem At.retry (h : At ⟨base, elementLayout, stop⟩ graph els 0 true [0] rules)
    (hname : isName word = true) {may : List Nat} (hmay : Admits may words.head?)
    (hassign : 9 ∉ may)
    (hagain : At ⟨base, elementLayout, stop⟩ graph (⟨base + 7, none⟩ :: ⟨base + 6, none⟩ :: els) 7
        true [7, 6, 0] rules →
      Reads goal graph (⟨base + 7, none⟩ :: ⟨base + 6, none⟩ :: els) (top :: outer)
        (word :: words)) :
    Reads goal graph els (top :: outer) (word :: words) := by
  intro hs tokens htokens
  have h₆ : At _ graph _ 6 _ _ _ := h.push_none (n := 6) rfl rfl
  have h₇ : At _ graph _ 7 _ _ _ := h₆.push_none (n := 7) rfl rfl
  have hs₆ := h.stands_junction (n := 6) hs rfl
  have hs₇ := h₆.stands_junction (n := 7) hs₆ rfl
  refine h.take [6, 4] 2 _ (admits_name hname) rfl rfl (by decide) rfl ((accepts_name word).trans
    hname) (fun token htext htyped _ hs' tokens' htokens' => ?_) hs tokens htokens
  have hfails : Fails grammar tokens'.head? (ofElements graph grammar
        (⟨base + 2, some token⟩ :: ⟨base + 4, none⟩ :: ⟨base + 6, none⟩ :: els)) := by
    obtain ⟨htyped', hhead⟩ := htokens'.head
    have hwired : graph.wired (base + 2) = [base + 3] := wired_of_holds h.holds (i := 2) rfl
    refine fails_of_dead (hs'.left _ rfl) (by rw [hwired]; exact nofun) hs'.lt ?_
    rw [hwired]
    refine List.forall_mem_singleton.mpr ?_
    exact shut_slot (kind_of_holds h.holds (i := 3) rfl) (known_typeAt 9)
      (hmay.not_fits (known_typeAt 9) hassign) _ htyped' hhead
  have hsix :
      graph.alternative? (⟨base + 4, none⟩ :: ⟨base + 6, none⟩ :: els) = some (base + 7) := by
    have hwired : graph.wired (base + 6) = [] ++ (base + 4) :: (base + 7) :: [] :=
      wired_of_holds h.holds (i := 6) rfl
    exact alternative?_of_wired (hs₆.left _ rfl) hwired
      nofun (h₆.not_revisits (n := 7) rfl (by decide) nofun)
  have hfour : graph.alternative? (⟨base + 2, some token⟩ :: ⟨base + 4, none⟩ :: ⟨base + 6, none⟩ ::
      els) = none :=
    alternative?_of_later (later_of_single (wired_of_holds h.holds (i := 4) rfl))
  have hslot : (graph.kind (base + 2)).isRuleEnd = false := by
    rw [kind_of_holds h.holds (i := 2) rfl]
    rfl
  exact .retreated hfails (Path.reversible_of_regular hs.regular _) (.back hfour (.inr hslot)
    (.switch hsix)) (hagain h₇ hs₇ (token :: tokens') (.cons ⟨htext, htyped⟩ htokens')).succeeds

/-- An identifier is a name with an equality sign behind it. -/
theorem At.ident (h : At ⟨base, elementLayout, stop⟩ graph els 0 true [0] rules) {name : String}
    (hname : isName name = true)
    (hreads : ∀ els' top', At ⟨base, elementLayout, stop⟩ graph els' 13 false [13, 7, 5] [] →
      top'.id = top.id →
      top'.children.filterMap elementChild =
        top.children.filterMap elementChild ++ [Tree.plain "id" name] →
      Reads goal graph els' (top' :: outer) words) :
    Reads goal graph els (top :: outer) (name :: "=" :: words) := by
  refine h.take [6, 4] 2 _ (admits_name hname) rfl rfl (by decide) rfl
    ((accepts_name name).trans hname) fun t₁ ht₁ _ h => Reads.recovers ?_
  refine h.take [] 3 [9] (Sure.admits (by decide)) rfl rfl (by decide) rfl (by decide)
    fun t₂ _ _ h => Reads.recovers ?_
  refine h.follow [5, 7, 13] rfl fun h => hreads _ _ h rfl ?_
  rw [Tree.addChild, Tree.addChild, List.filterMap_append, List.filterMap_append, ← ht₁,
    List.append_assoc]
  rfl

/-- The next word behind a target is none that an identifier has behind it. -/
theorem admits_behind (m : Option Multiplicity) (hrest : Admits following rest.head?) :
    Admits ([30, 31, 32] ++ following) (m.toList.map Multiplicity.text ++ rest).head? := by
  cases m with
  | none => exact hrest.mono fun n hn => List.mem_append_right _ hn
  | some m =>
    cases m with
    | zeroOrOne => exact (Sure.admits (by decide) : Admits [30] _).mono (by decide)
    | zeroOrMore => exact (Sure.admits (by decide) : Admits [31] _).mono (by decide)
    | oneOrMore => exact (Sure.admits (by decide) : Admits [32] _).mono (by decide)

/-- What an element becomes, once its children are told. -/
theorem transformed_element {t target : Tree} {id : String} {ident : Option String}
    {m : Option Multiplicity} (hid : t.id = id)
    (hchildren : t.children.filterMap elementChild =
      Item.identTrees ident ++ target :: Item.multiplicityTrees m) :
    t.transformed grammar .ast elementRule =
      ⟨"element", "", id, Item.identTrees ident ++ target :: Item.multiplicityTrees m, none⟩ := by
  rw [transformed_of_rule rfl rfl, ← hid, ← hchildren]

theorem yields_single (ident : Option String) (target : Target) (m : Option Multiplicity)
    (hident : ident.all isName = true) (htarget : target.isWritable = true)
    (hrest : Admits following rest.head?) :
    Yields elementRule Anywhere (Item.single ident target m).words
      (Item.single ident target m).tree rest := by
  refine yields elementLayout rfl (fun _ _ _ _ _ => ⟨_, rfl, fun _ => rfl⟩) ?_
  rintro goal a b els els₀ ⟨base, layout, stop⟩ n ident' parent outer rfl - - h - hdone
  have hread {els top fresh seen rules}
      (h : At ⟨base, elementLayout, stop⟩ b els 13 fresh (13 :: seen) rules)
      (hseen : ∀ n ∈ [8, 9, 10, 14], n ∉ seen) (hid : top.id = ident'.getD "")
      (hchildren : top.children.filterMap elementChild = Item.identTrees ident) :
      Reads goal b els
      (top :: parent :: outer) (target.word :: (m.toList.map Multiplicity.text ++ rest)) := by
    refine h.target hseen target htarget fun els' child h hchild => ?_
    refine h.multiplicity m hrest fun els' top' seen h hid' hchildren' =>
      hdone _ _ _ _ (le_refl b) h ?_
    rw [Item.tree]
    refine transformed_element (hid'.trans hid) ?_
    rw [hchildren', Tree.addChild, List.filterMap_append, hchildren, List.filterMap_cons, hchild,
      List.append_assoc]
    rfl
  rw [Item.words]
  cases ident with
  | some name =>
    refine h.ident hident fun els' top' h hid hchildren => hread h (by decide) hid hchildren
  | none =>
    have hretry (hname : isName target.word = true) :
        Reads goal b els (opening elementRule ident' :: parent :: outer)
          (target.word :: (m.toList.map Multiplicity.text ++ rest)) := by
      refine h.retry hname (admits_behind m hrest) (by decide) fun h => ?_
      exact h.follow [13] rfl fun h => hread h (by decide) rfl rfl
    cases target with
    | token name => exact hretry (isName_of_isTokenName htarget)
    | keyword text =>
      exact h.walk [6, 7, 13] _ (admits_quote text) rfl fun h => hread h (by decide) rfl rfl
    | rule name => exact hretry (isName_of_isRuleName (Bool.and_eq_true_iff.mp htarget).1)

/-- The words of a group between elements. -/
def groupWords (branches : List (List Item)) : List String :=
  "(" :: (Item.branchesWords branches ++ [")"])

def groupTree (branches : List (List Item)) : Tree :=
  ⟨"group", "", "", Item.branchTrees branches, none⟩

theorem words_group (ident : Option String) (branches : List (List Item)) (m : Option Multiplicity)
    (rest : List String) : (Item.group ident branches m).words ++ rest =
      Item.identWords ident ++
      (groupWords branches ++ (m.toList.map Multiplicity.text ++ rest)) := by
  simp [Item.words, groupWords]

theorem yields_grouped (ident : Option String) (branches : List (List Item))
    (m : Option Multiplicity) (hident : ident.all isName = true)
    (hgroup : ∀ {rest}, Yields groupRule Anywhere (groupWords branches) (groupTree branches) rest)
    (hrest : Admits following rest.head?) :
    Yields elementRule Anywhere (Item.group ident branches m).words
      (Item.group ident branches m).tree rest := by
  refine yields elementLayout rfl (fun _ _ _ _ _ => ⟨_, rfl, fun _ => rfl⟩) ?_
  rintro goal a b els els₀ ⟨base, layout, stop⟩ n ident' parent outer rfl - - h - hdone
  have hread {els top fresh seen rules}
      (h : At ⟨base, elementLayout, stop⟩ b els 13 fresh (13 :: seen) rules) (hseen : 12 ∉ seen)
      (hrules : ∀ r ∈ rules, r ∈ [9, 10]) (hid : top.id = ident'.getD "")
      (hchildren : top.children.filterMap elementChild = Item.identTrees ident) :
      Reads goal b els (top :: parent :: outer) (groupWords branches ++
        (m.toList.map Multiplicity.text ++ rest)) := by
    refine h.call (groupWords branches) [] 12 [5] (Sure.admits (by decide)) At.open_end rfl rfl
      (by simpa using hseen) rfl rfl hrules (fun hmem => absurd (hrules _ hmem) (by decide)) hgroup
      trivial fun c els' hle h => ?_
    refine h.follow [14] rfl fun h => ?_
    refine h.multiplicity m hrest fun els' top' seen h hid' hchildren' => hdone _ _ _ _ hle h ?_
    rw [Item.tree]
    refine transformed_element (hid'.trans hid) ?_
    rw [hchildren', Tree.addChild, List.filterMap_append, hchildren, List.append_assoc]
    rfl
  rw [words_group]
  cases ident with
  | some name =>
    exact h.ident hident fun els' top' h hid hchildren =>
        hread h (by decide) (by simp) hid hchildren
  | none =>
    exact h.walk [6, 7, 13] [5] (Sure.admits (by decide)) rfl fun h =>
      hread h (by decide) (by decide) rfl rfl

/-! ## Branches -/

/-- Behind the branch no element goes on. -/
def Ends (graph : Graph) (_ : List PathElement) (_ stop : NodeId) : Prop :=
  ∀ next, Admits starting next → Shut graph next stop

/-- Elements are told from what stands behind a branch, and are read by their rule. -/
structure Readable (item : Item) : Prop where
  admits : ∀ rest, Admits starting (item.words ++ rest).head?
  yields : ∀ {rest}, Admits following rest.head? →
    Yields elementRule Anywhere item.words item.tree rest

theorem admits_items {items : List Item} (hitems : ∀ item ∈ items, Readable item)
    (hrest : Admits [6, 10, 11] rest.head?) :
    Admits following (Item.branchWords items ++ rest).head? := by
  cases items with
  | nil => exact hrest.mono (by decide)
  | cons item items =>
    rw [Item.branchWords, List.append_assoc]
    exact ((hitems item List.mem_cons_self).admits _).mono fun n hn => List.mem_append_right _ hn

/-- Further elements of a branch. -/
theorem At.items {items : List Item} (h : At ⟨base, branchLayout, stop⟩ graph els 2 false [2] [])
    (hends : Ends graph [] 0 stop) (hitems : ∀ item ∈ items, Readable item)
    (hrest : Admits [6, 10, 11] rest.head?)
    (hreads : ∀ c els', graph ≤ c → At ⟨base, branchLayout, stop⟩ c els' 1 false [1, 5, 2] [] →
      Reads goal c els' ({ top with children := top.children ++ Item.trees items } :: outer) rest) :
    Reads goal graph els (top :: outer) (Item.branchWords items ++ rest) := by
  induction items generalizing graph els top with
  | nil =>
    rw [Item.branchWords, List.nil_append]
    refine h.follow [5, 1] rfl fun h => ?_
    have hnil := hreads graph _ (le_refl graph) h
    rw [Item.trees, List.append_nil] at hnil
    cases top
    exact hnil
  | cons item items ih =>
    obtain ⟨hitem, hitems⟩ := List.forall_mem_cons.mp hitems
    rw [Item.branchWords, List.append_assoc]
    have hmay := hitem.admits (Item.branchWords items ++ rest)
    refine h.call item.words [] 3 starting hmay (fun _ : true = true => hends _ hmay) rfl rfl
      (by decide) rfl rfl (by simp) (by simp) (hitem.yields (admits_items hitems hrest)) trivial
      fun c els' hle h => ?_
    refine ih h (fun next hnext => (hends next hnext).of_le hle) hitems fun d els' hle' h => ?_
    have hcons := hreads d els' (le_trans hle hle') h
    have htree : { item.tree with id := "" } = item.tree := by cases item <;> rw [Item.tree]
    rw [Item.trees, List.append_cons, ← htree] at hcons
    exact hcons

theorem yields_branch {items : List Item} (hne : items ≠ [])
    (hitems : ∀ item ∈ items, Readable item) (hrest : Admits [6, 10, 11] rest.head?) :
    Yields branchRule Ends (Item.branchWords items)
      ⟨"branch", "", "", Item.trees items, none⟩ rest := by
  refine yields branchLayout rfl (fun _ _ _ _ _ => ⟨_, rfl, fun _ => rfl⟩) ?_
  rintro goal a b els els₀ ⟨base, layout, stop⟩ n ident parent outer rfl hle hends h - hdone
  obtain ⟨item, items, rfl⟩ := List.exists_cons_of_ne_nil hne
  obtain ⟨hitem, hitems⟩ := List.forall_mem_cons.mp hitems
  rw [Item.branchWords, List.append_assoc]
  refine h.call item.words [4] 3 _ (hitem.admits _) At.open_end rfl rfl (by decide) rfl rfl
    (by decide) (by decide) (hitem.yields (admits_items hitems hrest)) trivial fun c els' hle' h =>
      ?_
  refine h.items (fun next hnext => (hends next hnext).of_le (le_trans hle hle')) hitems hrest
    fun d els' hle'' h => ?_
  refine hdone _ _ _ _ (le_trans hle' hle'') h ?_
  have htree : { item.tree with id := "" } = item.tree := by cases item <;> rw [Item.tree]
  rw [Item.trees, ← htree]
  rfl

/-! ## Groups -/

/-- The nodes of a body with which a group or a rule goes on behind its first branch, which ends at
`k`: a junction at `k + 7`, a bar and a branch for each further one, and a junction behind them. -/
structure Loop (layout : Layout) (k : Nat) : Prop where
  bar : layout[k + 2]? = some (.slot 10 none, [k + 4])
  start : layout[k + 4]? = some (.start 10 "branch" (k + 3), [])
  close : layout[k + 3]? = some (.close 10 "branch", [k + 6])
  /-- No element goes on behind a further branch. -/
  ends : shuts starting false 20 layout (k + 3) = true
  more : routes [10] false layout (k + 7) [k + 7, k + 6, k + 3, k] [k + 5] = true
  leads_bar : leads [10] false layout (k + 5) (k + 2) = true
  leads_start : leads starting false layout (k + 2) (k + 4) = true
  again : routes everything false layout (k + 3) [k + 3] [k + 6, k + 7] = true
  out : routes [6, 11] false layout (k + 7) [k + 7, k + 6, k + 3, k] [k + 8] = true

theorem loop_group : Loop groupLayout 3 := ⟨rfl, rfl, rfl, rfl, rfl, rfl, rfl, rfl, rfl⟩

theorem loop_rule : Loop ruleLayout 7 := ⟨rfl, rfl, rfl, rfl, rfl, rfl, rfl, rfl, rfl⟩

/-- Branches that are read by their rule. -/
def AllReadable (branches : List (List Item)) : Prop :=
  ∀ branch ∈ branches, branch ≠ [] ∧ ∀ item ∈ branch, Readable item

theorem admits_further {branches : List (List Item)} (hrest : Admits [6, 11] rest.head?) :
    Admits [6, 10, 11] (Item.furtherWords branches ++ rest).head? := by
  cases branches with
  | nil => exact hrest.mono (by decide)
  | cons branch branches =>
    rw [Item.furtherWords]
    exact (Sure.admits (by decide) : Admits [10] _).mono (by decide)

theorem admits_branch {items : List Item} (hne : items ≠ [])
    (hitems : ∀ item ∈ items, Readable item) :
    Admits starting (Item.branchWords items ++ rest).head? := by
  obtain ⟨item, items, rfl⟩ := List.exists_cons_of_ne_nil hne
  rw [Item.branchWords, List.append_assoc]
  exact (hitems item List.mem_cons_self).admits _

/-- Further branches add their nodes to the one around them, and the bars between them. -/
theorem At.further {layout : Layout} {branches : List (List Item)} (hloop : Loop layout k)
    (h : At ⟨base, layout, stop⟩ graph els (k + 7) false [k + 7, k + 6, k + 3, k] [])
    (hbranches : AllReadable branches) (hrest : Admits [6, 11] rest.head?) (hreads : ∀ c els' more,
      graph ≤ c → At ⟨base, layout, stop⟩ c els' (k + 8) false [k + 8, k + 7, k + 6, k + 3, k] [] →
      (∀ child ∈ more, child.id = "" ∨ child.id = "branch") →
      Meta.branches ⟨"", "", "", more, none⟩ = Item.branchTrees branches →
      Reads goal c els' (⟨top.name, top.text, top.id, top.children ++ more, top.token⟩ ::
      outer) rest) : Reads goal graph els (top :: outer) (Item.furtherWords branches ++ rest) := by
  induction branches generalizing graph els top with
  | nil =>
    rw [Item.furtherWords, List.nil_append]
    refine h.walk [k + 8] _ hrest hloop.out fun h => ?_
    have hnil := hreads graph _ [] (le_refl graph) h (by simp) rfl
    rw [List.append_nil] at hnil
    cases top
    exact hnil
  | cons branch branches ih =>
    obtain ⟨⟨hne, hitems⟩, hbranches⟩ := List.forall_mem_cons.mp hbranches
    rw [Item.furtherWords, List.cons_append, List.cons_append, List.append_assoc]
    refine h.take [k + 5] (k + 2) [10] (Sure.admits (by decide)) hloop.more hloop.leads_bar
      (by simp) hloop.bar (by decide) fun t₁ _ _ h => Reads.recovers ?_
    refine h.call (Item.branchWords branch) [] (k + 4) starting (admits_branch hne hitems)
      At.open_end rfl hloop.leads_start (by simp) hloop.start hloop.close (by simp) (by simp)
      (yields_branch hne hitems (admits_further hrest)) ?_ fun c els' hle h => ?_
    · exact fun next hnext => shut_of_shuts hnext h.holds At.open_end hloop.ends
    refine h.follow [k + 6, k + 7] hloop.again fun h => ?_
    refine ih (h.mono (by simp)) hbranches fun d els' more hle' h hmore htrees => ?_
    have hcons := hreads d els' (.ofToken t₁ "" ::
      ⟨"branch", "", "branch", Item.trees branch, none⟩ :: more) (le_trans hle hle') h
      (List.forall_mem_cons.mpr ⟨.inl rfl, List.forall_mem_cons.mpr ⟨.inr rfl, hmore⟩⟩) ?_
    · rw [List.append_cons, List.append_cons] at hcons
      exact hcons
    · rw [Item.branchTrees, ← htrees]
      rfl

theorem branches_append (name text id : String) (first second : List Tree) (token : Option Token) :
    Meta.branches ⟨name, text, id, first ++ second, token⟩ =
      Meta.branches ⟨"", "", "", first, none⟩ ++ Meta.branches ⟨"", "", "", second, none⟩ := by
  simp only [Meta.branches, List.filter_append, List.map_append]

theorem yields_group {branches : List (List Item)} (hne : branches ≠ [])
    (hbranches : AllReadable branches) :
    Yields groupRule Anywhere (groupWords branches) (groupTree branches) rest := by
  refine yields groupLayout rfl (fun _ _ _ _ _ => ⟨_, rfl, fun _ => rfl⟩) ?_
  rintro goal a b els els₀ ⟨base, layout, stop⟩ n ident parent outer rfl - - h - hdone
  obtain ⟨branch, branches, rfl⟩ := List.exists_cons_of_ne_nil hne
  obtain ⟨⟨hbranch, hitems⟩, hbranches⟩ := List.forall_mem_cons.mp hbranches
  have hwords : groupWords (branch :: branches) ++ rest =
      "(" :: (Item.branchWords branch ++ (Item.furtherWords branches ++ ")" :: rest)) := by
    simp [groupWords, Item.branchesWords]
  have hrest : Admits [6, 11] (")" :: rest).head? :=
    (Sure.admits (by decide) : Admits [6] _).mono (by decide)
  rw [hwords]
  refine h.take [] 2 [5] (Sure.admits (by decide)) rfl rfl (by decide) rfl (by decide)
    fun t₁ _ _ h => Reads.recovers ?_
  refine h.call (Item.branchWords branch) [] 4 starting (admits_branch hbranch hitems) At.open_end
    rfl rfl (by decide) rfl rfl (by simp) (by simp)
    (yields_branch hbranch hitems (admits_further hrest)) ?_ fun c els' hle h => ?_
  · exact fun next hnext => shut_of_shuts hnext h.holds At.open_end
      (show shuts starting false 20 groupLayout 3 = true from rfl)
  refine h.follow [10] rfl fun h => ?_
  refine (h.mono (by simp)).further loop_group hbranches hrest fun d els' more hle' h _ htrees => ?_
  refine h.take [] 12 [6] (Sure.admits (by decide)) rfl rfl (by decide) rfl (by decide)
    fun t₂ _ _ h => Reads.recovers ?_
  refine h.follow [1] rfl fun h => hdone _ _ _ _ (le_trans hle hle') h ?_
  have hchildren : Meta.branches ⟨"", "", "", [.ofToken t₁ "",
      ⟨"branch", "", "branch", Item.trees branch, none⟩] ++ more ++ [.ofToken t₂ ""], none⟩ =
        Item.branchTrees (branch :: branches) := by
    rw [branches_append, branches_append, htrees, Item.branchTrees]
    exact List.append_nil _
  rw [transformed_of_rule rfl rfl]
  exact congrArg (fun trees => Tree.mk "group" "" (ident.getD "") trees none) hchildren

/-! ## All elements -/

theorem admits_item {item : Item} (h : item.isWritable = true) (rest : List String) :
    Admits starting (item.words ++ rest).head? := by
  have hident {name : String} (hname : isName name = true) : Admits starting (some name) :=
    (admits_name hname).mono (by decide)
  cases item with
  | single ident target m =>
    rw [Item.isWritable, Bool.and_eq_true] at h
    rw [Item.words]
    cases ident with
    | some name => exact hident h.1
    | none =>
      cases target with
      | token name => exact hident (isName_of_isTokenName h.2)
      | keyword text => exact (admits_quote text).mono (by decide)
      | rule name => exact hident (isName_of_isRuleName (Bool.and_eq_true_iff.mp h.2).1)
  | group ident branches m =>
    simp only [Item.isWritable, Bool.and_eq_true] at h
    rw [words_group]
    cases ident with
    | some name => exact hident h.1.1
    | none => exact (Sure.admits (by decide) : Admits [5] _).mono (by decide)

mutual

/-- Every element that can be written is read. -/
theorem readable_item : ∀ item : Item, item.isWritable = true → Readable item
  | .single ident target m, h => by
    have hadmits := admits_item h
    rw [Item.isWritable, Bool.and_eq_true] at h
    exact ⟨hadmits, yields_single ident target m h.1 h.2⟩
  | .group ident branches m, h => by
    have hadmits := admits_item h
    simp only [Item.isWritable, Bool.and_eq_true, Bool.not_eq_true', List.isEmpty_eq_false_iff] at h
    have hbranches := allReadable branches h.2
    exact ⟨hadmits, yields_grouped ident branches m h.1.1 (yields_group h.1.2 hbranches)⟩

theorem readable_items : ∀ items : List Item, Item.itemsWritable items = true →
    ∀ item ∈ items, Readable item
  | [], _ => nofun
  | item :: items, h => by
    rw [Item.itemsWritable, Bool.and_eq_true] at h
    exact List.forall_mem_cons.mpr ⟨readable_item item h.1, readable_items items h.2⟩

theorem allReadable : ∀ branches : List (List Item), Item.branchesWritable branches = true →
    AllReadable branches
  | [], _ => nofun
  | branch :: branches, h => by
    simp only [Item.branchesWritable, Bool.and_eq_true, Bool.not_eq_true',
      List.isEmpty_eq_false_iff] at h
    exact List.forall_mem_cons.mpr ⟨⟨h.1.1, readable_items branch h.1.2⟩, allReadable branches h.2⟩

end

end GrammarGraph.Meta
