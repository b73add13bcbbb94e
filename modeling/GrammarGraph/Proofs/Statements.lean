import GrammarGraph.Proofs.Elements

/-!
# Reading definitions

A definition is read one statement after the other, by induction over the statements.  A rule
may be named like the keyword of another statement; then that statement is tried first and
given up at the equality sign.
-/

namespace GrammarGraph.Meta

open GrammarGraph.Search GrammarGraph.Path

variable {goal top : Tree} {graph : Graph} {els : List PathElement} {outer : List Tree} {base : Nat}
  {stop : NodeId} {fresh : Bool} {rules : List RuleId} {words rest : List String} {word : String}

/-! ## Rules -/

/-- What a rule becomes, once its children are told. -/
theorem transformed_rule {t : Tree} {root : Bool} {t₁ t₂ t₃ t₄ : Token} {items more : List Tree}
    (hchildren : t.children = (if root then [.ofToken t₁ "root"] else []) ++ [.ofToken t₂ "name"] ++
      [.ofToken t₃ "", ⟨"branch", "", "branch", items, none⟩] ++ more ++ [.ofToken t₄ ""])
    (hmore : ∀ child ∈ more, child.id = "" ∨ child.id = "branch") :
    t.transformed grammar .ast 12 =
      ⟨"rule", t₂.text, t.id, (if root then [.plain "root" ""] else []) ++
      ⟨"branch", "", "", items, none⟩ :: Meta.branches ⟨"", "", "", more, none⟩, none⟩ := by
  obtain ⟨name, text, id, children, token⟩ := t
  obtain rfl : children = _ := hchildren
  have hbranches : Meta.branches ⟨name, text, id,
      (if root then [.ofToken t₁ "root"] else []) ++ [.ofToken t₂ "name"] ++
      [.ofToken t₃ "", ⟨"branch", "", "branch", items, none⟩] ++ more ++ [.ofToken t₄ ""], token⟩ =
      ⟨"branch", "", "", items, none⟩ :: Meta.branches ⟨"", "", "", more, none⟩ := by
    rw [branches_append, branches_append]
    cases root <;> exact List.append_nil _
  rw [transformed_of_rule rfl rfl]
  simp only [hbranches]
  cases root with
  | true => rfl
  | false =>
    have hids : ∀ child ∈ [Tree.ofToken t₂ "name"] ++
        [.ofToken t₃ "", ⟨"branch", "", "branch", items, none⟩] ++ more ++ [.ofToken t₄ ""],
        child.id ∈ ["", "branch", "name"] := by
      simp only [List.forall_mem_append, List.forall_mem_cons]
      refine ⟨⟨⟨⟨by simp [Tree.ofToken], by simp⟩, by simp [Tree.ofToken], by simp, by simp⟩,
          fun child hchild => ?_⟩, by simp [Tree.ofToken], by simp⟩
      rcases hmore child hchild with hid | hid <;> simp [hid]
    have hnot : ∀ id ∈ ["", "branch", "name"], ¬(id != "" && id == "root") = true := by decide
    have hroot : Tree.childById? ⟨name, text, id, [Tree.ofToken t₂ "name"] ++
        [.ofToken t₃ "", ⟨"branch", "", "branch", items, none⟩] ++ more ++ [.ofToken t₄ ""],
        token⟩ "root" = none :=
      List.find?_eq_none.mpr fun child hchild => hnot child.id (hids child hchild)
    simp only [Bool.false_eq_true, if_false, List.nil_append, hroot]
    rfl

theorem yields_rule (d : RuleDecl) (hd : d.isWritable = true) :
    Yields 12 Anywhere d.words d.tree rest := by
  obtain ⟨name, root, branches⟩ := d
  simp only [RuleDecl.isWritable, Bool.and_eq_true, Bool.not_eq_true',
    List.isEmpty_eq_false_iff] at hd
  obtain ⟨⟨hname, hne⟩, hbranches⟩ := hd
  obtain ⟨branch, branches, rfl⟩ := List.exists_cons_of_ne_nil hne
  obtain ⟨⟨hbranch, hitems⟩, hbranches⟩ := List.forall_mem_cons.mp (allReadable _ hbranches)
  have hrest : Admits [6, 11] (";" :: rest).head? :=
    (Sure.admits (by decide) : Admits [11] _).mono (by decide)
  have hwords : RuleDecl.words ⟨name, root, branch :: branches⟩ ++ rest =
      (if root then ["@grammar"] else []) ++ name :: "=" ::
      (Item.branchWords branch ++ (Item.furtherWords branches ++ ";" :: rest)) := by
    simp [RuleDecl.words, Item.branchesWords]
  refine yields ruleLayout rfl (fun _ _ _ _ _ => ⟨_, rfl, fun _ => rfl⟩) ?_
  rintro goal a b els els₀ ⟨base, layout, stop⟩ n ident parent outer rfl - - h - hdone
  rw [hwords]
  have hread (t₁ : Token) {t₂ : Token} {els : List PathElement} (ht₂ : t₂.text = name)
      (h : At ⟨base, ruleLayout, stop⟩ b els 5 false [] []) :
      Reads goal b els (⟨"rule", "", ident.getD "", (if root then [.ofToken t₁ "root"] else []) ++
        [.ofToken t₂ "name"], none⟩ :: parent :: outer)
        ("=" :: (Item.branchWords branch ++ (Item.furtherWords branches ++ ";" :: rest))) := by
    refine h.take [] 6 [9] (Sure.admits (by decide)) rfl rfl (by decide) rfl (by decide)
      fun t₃ _ _ h => Reads.recovers ?_
    refine h.call (Item.branchWords branch) [] 8 starting (admits_branch hbranch hitems) At.open_end
      rfl rfl (by decide) rfl rfl (by simp) (by simp)
      (yields_branch hbranch hitems (admits_further hrest)) ?_ fun c els' hle h => ?_
    · exact fun next hnext => shut_of_shuts hnext h.holds At.open_end
        (show shuts starting false 20 ruleLayout 7 = true from rfl)
    refine h.follow [14] rfl fun h => ?_
    refine (h.mono (by simp)).further loop_rule hbranches hrest
      fun d els' more hle' h hmore htrees => ?_
    refine h.take [] 16 [11] (Sure.admits (by decide)) rfl rfl (by decide) rfl (by decide)
      fun t₄ _ _ h => Reads.recovers ?_
    refine h.follow [1] rfl fun h => hdone _ _ _ _ (le_trans hle hle') h ?_
    rw [transformed_rule (by
        simp only [Tree.addChild, List.append_assoc, List.cons_append, List.nil_append]; rfl) hmore,
      htrees, ht₂]
    rfl
  cases root with
  | true =>
    refine h.take [3] 2 [28] (Sure.admits (by decide)) rfl rfl (by decide) rfl (by decide)
      fun t₁ _ _ h => Reads.recovers ?_
    exact h.take [4] 5 _ (admits_ruleName hname) rfl rfl (by decide) rfl
      ((accepts_ruleName name).trans (Bool.and_eq_true_iff.mp hname).1) fun t₂ ht₂ _ h =>
        Reads.recovers (hread t₁ ht₂ h)
  | false =>
    exact h.take [3, 4] 5 _ (admits_ruleName hname) rfl rfl (by decide) rfl
      ((accepts_ruleName name).trans (Bool.and_eq_true_iff.mp hname).1) fun t₂ ht₂ _ h =>
        Reads.recovers (hread t₂ ht₂ h)

/-! ## Statements -/

/-- The nodes of a definition that may have been visited since the last word where a statement
starts: the entry, the end of the statement before it and the junctions behind that. -/
def between : List Nat := [22, 21, 0, 2, 4, 6, 8, 10, 12, 14, 16, 18]

/-- The starts of the statements, in the order in which they are tried. -/
def choices : List Nat := [3, 5, 7, 9, 11, 13, 15, 17, 19]

theorem exists_choice {n : Nat} (hn : n ∈ choices) :
    ∃ rule, definitionLayout[n]? = some (.start rule none (n - 1), []) ∧
    definitionLayout[n - 1]? = some (.close rule none, [21]) ∧ rule ∈ [0, 1, 3, 4, 5, 6, 7, 8, 12] ∧
    n ∉ 20 :: between ∧ n - 1 ∈ between ∧
    routes everything false definitionLayout (n - 1) [n - 1] [21, 22] = true := by
  simp only [choices, List.mem_cons, List.not_mem_nil, or_false] at hn
  rcases hn with rfl | rfl | rfl | rfl | rfl | rfl | rfl | rfl | rfl <;>
    exact ⟨_, rfl, rfl, by decide, by decide, by decide, rfl⟩

theorem above_of_mem {rule : RuleId} (h : rule ∈ [0, 1, 3, 4, 5, 6, 7, 8, 12]) :
    13 ∈ above rule ∧ rule ≠ 13 := by
  simp only [List.mem_cons, List.not_mem_nil, or_false] at h
  rcases h with rfl | rfl | rfl | rfl | rfl | rfl | rfl | rfl | rfl <;> decide

/-- The path stands where a statement may start. -/
def Ready (base : Nat) (stop : NodeId) (graph : Graph) (els : List PathElement) : Prop :=
  ∃ fresh rules, (∀ r ∈ rules, r = 13) ∧ stop ∉ Path.visited els ∧
    At ⟨base, definitionLayout, stop⟩ graph els 22 fresh between rules

/-- The words are those of a statement, which is read as the node. -/
def Stated (words : List String) (T : Tree) : Prop :=
  ∀ (goal top : Tree) (outer : List Tree) (base : Nat) (stop : NodeId) (graph : Graph)
    (els : List PathElement) (rest : List String), Ready base stop graph els → (∀ c els',
      graph ≤ c → Ready base stop c els' → Reads goal c els' (top.addChild T :: outer) rest) →
    Reads goal graph els (top :: outer) (words ++ rest)

/-- A rule reads a statement; behind it the next one may start. -/
theorem At.enters_statement {T : Tree} {rule : RuleId} {n : Nat}
    (h : At ⟨base, definitionLayout, stop⟩ graph els 20 fresh (20 :: between) rules)
    (hrules : ∀ r ∈ rules, r = 13) (hn : n ∈ choices)
    (hrule : definitionLayout[n]? = some (.start rule none (n - 1), []))
    (hyields : Yields rule Anywhere words T rest)
    (hnext : ∀ c els', graph ≤ c → Ready base stop c els' →
      Reads goal c els' (top.addChild { T with id := "" } :: outer) rest) :
    Enters goal graph (base + n) els (top :: outer) (words ++ rest) := by
  obtain ⟨rule', hstart, hclose, hmem, -, hend, hback⟩ := exists_choice hn
  obtain rfl : rule' = rule := by simpa [hrule] using hstart.symm
  refine h.enters hstart hclose (fun r hr => hrules r hr ▸ (above_of_mem hmem).1) hyields trivial
    fun c els' hle h => ?_
  refine h.follow [21, 22] hback fun h =>
    hnext c _ hle ⟨false, [], by simp, h.stop_not_mem, h.mono ?_⟩
  simp only [List.reverse_cons, List.reverse_nil, List.nil_append, List.cons_append,
    List.forall_mem_cons]
  exact ⟨by decide, by decide, hend, by simp⟩

/-- A statement is read by its rule if those that are tried before it are dead
ends for its first word. -/
theorem stated_of_yields {words : List String} {T : Tree} {rule : RuleId} (n : Nat)
    (hn : n ∈ choices) (hrule : definitionLayout[n]? = some (.start rule none (n - 1), []))
    (may : List Nat) (hmay : ∀ rest, Admits may (words ++ rest).head?)
    (hleads : leads may false definitionLayout 20 n = true) (hid : T.id = "")
    (hyields : ∀ {rest}, Yields rule Anywhere words T rest) : Stated words T := by
  rintro goal top outer base stop graph els rest ⟨fresh, rules, hrules, -, h⟩ hnext
  obtain ⟨rule', hstart, -, hmem, hseen, -⟩ := exists_choice hn
  obtain rfl : rule' = rule := by simpa [hrule] using hstart.symm
  have hT : { T with id := "" } = T := by cases T; cases hid; rfl
  refine h.follow [20] rfl fun h => ?_
  refine h.reads_of_leads (hmay rest) At.open_end hleads hseen hstart (fun r hr hmemRules => ?_)
    (h.enters_statement hrules hn hstart hyields (hT ▸ hnext))
  obtain rfl := Option.some.inj hr
  exact (above_of_mem hmem).2 (hrules _ hmemRules)

theorem At.of_le {s : Site} {a b : Graph} {i : Nat} {seen : List Nat}
    (h : At s a els i fresh seen rules) (hle : a ≤ b) (hlt : ∀ e ∈ els, e.node < a.size) :
    At s b els i fresh seen rules where
  holds := h.holds.of_le hle
  stop_lt := h.stop_lt
  tip := h.tip
  visited := h.visited
  started m hm := by
    rw [Graph.kind_of_le hle (Path.lt_size_of_mem_visited hlt hm)]
    exact h.started m hm

/-- A statement that starts with a word of one text, and goes on with one that has not the
type of the equality sign. -/
structure Keyword (word : String) (n : Nat) (before after may : List Nat) (rule : RuleId)
    (layout : Layout) : Prop where
  split : choices = before ++ n :: (after ++ [19])
  start : definitionLayout[n]? = some (.start rule none (n - 1), [])
  expand : ∃ expand, grammar.expand? rule = some expand ∧
    ∀ ctx, (expand ctx).template = layout.graph
  sure : Sure word may
  leads : leads may false definitionLayout 20 n = true
  dead : after.all (shuts may false 20 definitionLayout) = true
  above : 13 ∈ above rule
  entry : layout[0]? = some (.junction, [2])
  slot : ∃ type, layout[2]? = some (.slot type none, [3]) ∧ fits (typeAt type).kind word = true
  next : ∃ type ident links, layout[3]? = some (.slot type ident, links) ∧ (typeAt type).id ≠ 9

/-- The path does not return to the start of a statement. -/
theorem At.not_revisits_choice
    (h : At ⟨base, definitionLayout, stop⟩ graph els 20 fresh (20 :: between) rules)
    (hrules : ∀ r ∈ rules, r = 13) {k : Nat} (hk : k ∈ choices) :
    revisitsIn graph (base + k) 0 els = false := by
  obtain ⟨rule, hstart, -, hmem, hseen, -⟩ := exists_choice hk
  refine h.not_revisits hstart hseen fun r hr hmemRules => ?_
  obtain rfl := Option.some.inj hr
  rw [hrules _ hmemRules] at hmem
  exact absurd hmem (by decide)

section

variable {n m lo : Nat} {before after may : List Nat} {rule : RuleId} {layout : Layout}
  {token : Token} {tokens : List Token} {opened : List Tree}

theorem Keyword.wired (hkeyword : Keyword word n before after may rule layout)
    (h : graph.Holds base definitionLayout.graph stop) :
    graph.wired (base + 20) =
      before.map (base + ·) ++ (base + n) :: (after ++ [19]).map (base + ·) := by
  rw [wired_of_holds h (i := 20) rfl, if_neg (by decide), List.append_nil]
  show choices.map (base + ·) = _
  rw [hkeyword.split, List.map_append, List.map_cons]

theorem Keyword.nodup (hkeyword : Keyword word n before after may rule layout) :
    (before ++ n :: (after ++ [19])).Nodup :=
  hkeyword.split ▸ (by decide : choices.Nodup)

theorem Keyword.mem_choices (hkeyword : Keyword word n before after may rule layout) {k : Nat}
    (hk : k ∈ after ++ [19]) : k ∈ choices := by
  rw [hkeyword.split]
  exact List.mem_append_right _ (List.mem_cons_of_mem _ hk)

/-- Behind the start of a statement with a keyword, all that are tried up to rules are
dead ends for the keyword. -/
theorem Keyword.skip {P : Search → Prop}
    (hkeyword : Keyword word n before after may rule layout)
    (h : At ⟨base, definitionLayout, stop⟩ graph (⟨base + 20, none⟩ :: els) 20 fresh
      (20 :: between) rules) (hrules : ∀ r ∈ rules, r = 13)
    (hs : Stands grammar graph (⟨base + 20, none⟩ :: els) opened) (htext : token.text = word)
    (htyped : Typed token) (hm : (after ++ [19]).head? = some m)
    (hsucceeds : Succeeds grammar false P graph (⟨base + 19, none⟩ :: ⟨base + 20, none⟩ :: els)
      (token :: tokens)) :
    Succeeds grammar false P graph (⟨base + m, none⟩ :: ⟨base + 20, none⟩ :: els)
      (token :: tokens) := by
  have hsplit : graph.wired (base + 20) =
      (before ++ [n]).map (base + ·) ++ (after.map (base + ·) ++ (base + 19) :: []) := by
    rw [hkeyword.wired h.holds]
    simp
  have hnodup : (graph.wired (base + 20)).Nodup := by
    rw [hkeyword.wired h.holds, ← List.map_cons, ← List.map_append]
    exact hkeyword.nodup.map fun i j hij => Nat.add_left_cancel hij
  have hdead : ∀ k ∈ after.map (base + ·), Dead grammar (token :: tokens).head? graph k := by
    refine List.forall_mem_map.mpr fun k hk => ?_
    have hshut := shut_of_shuts hkeyword.sure.admits h.holds At.open_end
      (List.all_eq_true.mp hkeyword.dead k hk)
    exact hshut _ (fun t ht => Option.some.inj ht ▸ htyped) (congrArg some htext)
  have hfresh : ∀ k ∈ after.map (base + ·) ++ [base + 19],
      revisitsIn graph k 0 (⟨base + 20, none⟩ :: els) = false := by
    rw [← List.map_singleton, ← List.map_append]
    exact List.forall_mem_map.mpr fun k hk =>
      h.not_revisits_choice hrules (hkeyword.mem_choices hk)
  refine Succeeds.skip hs.regular hs.lt (hs.left _ rfl) hsplit hnodup hdead hfresh hsucceeds ?_
  rw [← List.map_singleton, ← List.map_append, List.head?_map, hm]
  rfl

/-- Behind its first word the statement does not go on with the equality sign. -/
theorem Keyword.fails (hkeyword : Keyword word n before after may rule layout)
    (hbody : graph.Holds lo layout.graph stop)
    (hs : Stands grammar graph (⟨lo + 2, some token⟩ :: els) opened)
    (htokens : Spells tokens ("=" :: words)) :
    Fails grammar tokens.head? (ofElements graph grammar (⟨lo + 2, some token⟩ :: els)) := by
  obtain ⟨type, hslot, -⟩ := hkeyword.slot
  obtain ⟨type', ident, links, hthree, hassign⟩ := hkeyword.next
  obtain ⟨htyped, hhead⟩ := htokens.head
  have hwired : graph.wired (lo + 2) = [lo + 3] := wired_of_holds hbody hslot
  have hnot := (Sure.admits (by decide) : Admits [9] (some "=")).not_fits (known_typeAt type')
    (by simpa using hassign)
  refine fails_of_dead (hs.left _ rfl) (by rw [hwired]; simp) hs.lt ?_
  rw [hwired]
  exact List.forall_mem_singleton.mpr
    (shut_slot (kind_of_holds hbody hthree) (known_typeAt type') hnot _ htyped hhead)

/-- What is tried instead of a statement is the next one. -/
theorem Keyword.alternative?_eq (hkeyword : Keyword word n before after may rule layout)
    (h : At ⟨base, definitionLayout, stop⟩ graph (⟨base + 20, none⟩ :: els) 20 fresh
      (20 :: between) rules) (hrules : ∀ r ∈ rules, r = 13)
    (hleft : Left graph ⟨base + 20, none⟩) (hm : (after ++ [19]).head? = some m) :
    graph.alternative? (⟨base + n, none⟩ :: ⟨base + 20, none⟩ :: els) = some (base + m) := by
  obtain ⟨behind, hbehind⟩ := List.head?_eq_some_iff.mp hm
  have hwired := hkeyword.wired h.holds
  rw [hbehind, List.map_cons] at hwired
  refine alternative?_of_wired hleft hwired (fun hmem => ?_) (h.not_revisits_choice hrules
    (hkeyword.mem_choices (List.mem_of_mem_head? hm)))
  obtain ⟨j, hj, heq⟩ := List.mem_map.mp hmem
  exact (List.nodup_append.mp hkeyword.nodup).2.2 j hj n List.mem_cons_self
    (Nat.add_left_cancel heq)

/-- In front of its second word nothing else is to be tried in a statement. -/
theorem Keyword.retreats {stop' : NodeId} (hkeyword : Keyword word n before after may rule layout)
    (h : graph.Holds base definitionLayout.graph stop) (hbody : graph.Holds lo layout.graph stop')
    (halternative : graph.alternative? (⟨base + n, none⟩ :: els) = some m) :
    Retreats graph false (⟨lo + 2, some token⟩ :: ⟨lo, none⟩ :: ⟨base + n, none⟩ :: els) []
      (⟨m, none⟩ :: els) [token] := by
  obtain ⟨type, hslot, -⟩ := hkeyword.slot
  have hslotKind := kind_of_holds hbody hslot
  have hentryKind : graph.kind (lo + 0) = _ := kind_of_holds hbody hkeyword.entry
  rw [Nat.add_zero] at hentryKind
  refine .back ?_ (.inr (by rw [hslotKind]; rfl)) (.back ?_ (.inr (by rw [hentryKind]; rfl))
    (.switch halternative))
  · exact alternative?_of_later (later_of_single (wired_of_holds hbody hkeyword.entry))
  · exact alternative?_of_later (later_of_ruleStart (kind_of_holds h hkeyword.start) _)

/-- The statement is given up at the equality sign, and the rule that is named
like the keyword is tried. -/
theorem At.given_up (hkeyword : Keyword word n before after may rule layout)
    (h : At ⟨base, definitionLayout, stop⟩ graph els 22 fresh between rules)
    (hrules : ∀ r ∈ rules, r = 13)
    (henters : ∀ b, graph ≤ b →
      At ⟨base, definitionLayout, stop⟩ b (⟨base + 20, none⟩ :: els) 20 fresh (20 :: between)
        rules →
      Enters goal b (base + 19) (⟨base + 20, none⟩ :: els) (top :: outer) (word :: "=" :: words)) :
    Reads goal graph els (top :: outer) (word :: "=" :: words) := by
  intro hs tokens htokens
  have hs₂₀ := h.stands_junction (n := 20) hs rfl
  obtain ⟨expand, hexpand, htemplate⟩ := hkeyword.expand
  obtain ⟨type, hslot, hfits⟩ := hkeyword.slot
  obtain ⟨rule', -, hclose, -, hseen, -⟩ :=
    exists_choice (n := n) (by rw [hkeyword.split]; simp)
  refine h.follow [20] rfl (fun h₂₀ => ?_) hs tokens htokens
  refine h₂₀.reads_of_leads hkeyword.sure.admits At.open_end hkeyword.leads hseen
    hkeyword.start ?_ ?_
  · intro r hr hmem
    obtain rfl := Option.some.inj hr
    exact absurd (hrules _ hmem ▸ hkeyword.above) (by decide)
  refine enters_body (kind_of_holds h.holds hkeyword.start) ?_ (fun m hm r hr => ?_) hexpand
    (fun _ => htemplate _) fun b hle hat _ => ?_
  · exact lt_size_of_holds h.holds (List.getElem?_eq_some_iff.mp hclose).1
  · exact hrules r (h₂₀.started m hm r hr) ▸ hkeyword.above
  -- the first word is read, but the statement does not go on with the second one
  refine hat.take [] 2 may hkeyword.sure.admits rfl (by simp [leads, hkeyword.entry]) (by decide)
    hslot hfits fun token htext htyped _ hs' tokens' htokens' => ?_
  have hb₂₀ : At ⟨base, definitionLayout, stop⟩ b (⟨base + 20, none⟩ :: els) 20 fresh
      (20 :: between) rules :=
    h₂₀.of_le hle hs₂₀.lt
  have hbs₂₀ : Stands grammar b (⟨base + 20, none⟩ :: els) (top :: outer) :=
    hs₂₀.of_le hle hs'.regular
  obtain ⟨m, hm⟩ : ∃ m, (after ++ [19]).head? = some m :=
    Option.isSome_iff_exists.mp (by simp)
  have halternative := hkeyword.alternative?_eq hb₂₀ hrules (hbs₂₀.left _ rfl) hm
  refine .retreated (hkeyword.fails hat.holds hs' htokens')
    (Path.reversible_of_regular hs'.regular _)
    (hkeyword.retreats hb₂₀.holds hat.holds halternative) ?_
  refine hkeyword.skip hb₂₀ hrules hbs₂₀ htext htyped hm ?_
  exact (henters b hle hb₂₀ hbs₂₀ (token :: tokens') (.cons ⟨htext, htyped⟩ htokens')).succeeds

end

/-- The statements that a rule can be named like. -/
theorem exists_keyword (h : word ∈ statementWords) :
    ∃ n before after may rule layout, Keyword word n before after may rule layout := by
  simp only [statementWords, tokenKinds, List.mem_cons, List.not_mem_nil, or_false] at h
  rcases h with rfl | rfl | rfl | rfl | rfl | rfl | rfl
  · exact ⟨5, [3], [7, 9, 11, 13, 15, 17], [22, 27, 29], 1, enableLayout, rfl, rfl,
      ⟨_, rfl, fun _ => rfl⟩, by decide, rfl, rfl, by decide, rfl, ⟨_, rfl, by decide⟩,
      ⟨_, _, _, rfl, by decide⟩⟩
  · exact ⟨7, [3, 5], [9, 11, 13, 15, 17], [14, 27, 29], 3, flaggedLayout 14, rfl, rfl,
      ⟨_, rfl, fun _ => rfl⟩, by decide, rfl, rfl, by decide, rfl, ⟨_, rfl, by decide⟩,
      ⟨_, _, _, rfl, by decide⟩⟩
  · exact ⟨9, [3, 5, 7], [11, 13, 15, 17], [15, 27, 29], 4, valueLayout 15, rfl, rfl,
      ⟨_, rfl, fun _ => rfl⟩, by decide, rfl, rfl, by decide, rfl, ⟨_, rfl, by decide⟩,
      ⟨_, _, _, rfl, by decide⟩⟩
  · exact ⟨11, [3, 5, 7, 9], [13, 15, 17], [16, 27, 29], 5, valueLayout 16, rfl, rfl,
      ⟨_, rfl, fun _ => rfl⟩, by decide, rfl, rfl, by decide, rfl, ⟨_, rfl, by decide⟩,
      ⟨_, _, _, rfl, by decide⟩⟩
  · exact ⟨13, [3, 5, 7, 9, 11], [15, 17], [17, 27, 29], 6, valueLayout 17, rfl, rfl,
      ⟨_, rfl, fun _ => rfl⟩, by decide, rfl, rfl, by decide, rfl, ⟨_, rfl, by decide⟩,
      ⟨_, _, _, rfl, by decide⟩⟩
  · exact ⟨15, [3, 5, 7, 9, 11, 13], [17], [18, 27, 29], 7, flaggedLayout 18, rfl, rfl,
      ⟨_, rfl, fun _ => rfl⟩, by decide, rfl, rfl, by decide, rfl, ⟨_, rfl, by decide⟩,
      ⟨_, _, _, rfl, by decide⟩⟩
  · exact ⟨17, [3, 5, 7, 9, 11, 13, 15], [], [19, 27, 29], 8, literalLayout, rfl, rfl,
      ⟨_, rfl, fun _ => rfl⟩, by decide, rfl, rfl, by decide, rfl, ⟨_, rfl, by decide⟩,
      ⟨_, _, _, rfl, by decide⟩⟩

theorem stated_rule (d : RuleDecl) (hd : d.isWritable = true) : Stated d.words d.tree := by
  have hyields : ∀ {rest}, Yields 12 Anywhere d.words d.tree rest := yields_rule d hd
  obtain ⟨name, root, branches⟩ := d
  have hname : isLowerName name = true := by
    simp only [RuleDecl.isWritable, Bool.and_eq_true] at hd
    exact hd.1.1
  cases root with
  | true =>
    exact stated_of_yields 19 (by decide) rfl [28] (fun _ => Sure.admits (by decide))
        rfl rfl hyields
  | false =>
    by_cases hword : name ∈ statementWords
    · obtain ⟨n, before, after, may, rule, layout, hkeyword⟩ := exists_keyword hword
      rintro goal top outer base stop graph els rest ⟨fresh, rules, hrules, -, h⟩ hnext
      refine h.given_up hkeyword hrules fun b hle h => ?_
      exact h.enters_statement hrules (by decide) rfl hyields fun c els' hle' =>
        hnext c els' (le_trans hle hle')
    · exact stated_of_yields 19 (by decide) rfl _ (fun _ => admits_ruleName_of_not_mem hname hword)
        rfl rfl hyields

theorem stated_tokenDecl (d : TokenDecl) (hd : isTokenName d.name = true) :
    Stated d.words d.tree := by
  have hyields : ∀ {rest}, Yields (declRule d) Anywhere d.words d.tree rest := yields_tokenDecl d hd
  obtain ⟨name, form⟩ := d
  cases form with
  | keyword =>
    exact stated_of_yields 7 (by decide) rfl
        _ (fun _ => (show Sure "keyword" [14, 27, 29] by decide).admits) rfl rfl hyields
  | word =>
    exact stated_of_yields 9 (by decide) rfl
        _ (fun _ => (show Sure "word" [15, 27, 29] by decide).admits) rfl rfl hyields
  | leading =>
    exact stated_of_yields 11 (by decide) rfl
        _ (fun _ => (show Sure "prefix" [16, 27, 29] by decide).admits) rfl rfl hyields
  | trailing =>
    exact stated_of_yields 13 (by decide) rfl
        _ (fun _ => (show Sure "postfix" [17, 27, 29] by decide).admits) rfl rfl hyields
  | separator =>
    exact stated_of_yields 15 (by decide) rfl
        _ (fun _ => (show Sure "separator" [18, 27, 29] by decide).admits) rfl rfl hyields
  | literal =>
    exact stated_of_yields 17 (by decide) rfl
        _ (fun _ => (show Sure "literal" [19, 27, 29] by decide).admits) rfl rfl hyields

theorem stated_lineComment (start : String) :
    Stated ["line-comment-style", quote start, ";"] (.plain "line-comment" start) :=
  stated_of_yields 3 (by decide) rfl [20] (fun _ => Sure.admits (by decide)) rfl rfl
    (yields_lineComment start)

theorem stated_blockComment (start stop : String) : Stated ["block-comment-style", quote start,
      quote stop, ";"] ⟨"block-comment", "", "", [.plain "begin" start, .plain "end" stop], none⟩ :=
  stated_of_yields 3 (by decide) rfl [21] (fun _ => Sure.admits (by decide)) rfl rfl
    (yields_blockComment start stop)

theorem stated_enable :
    Stated ["enable", "full-backtracking", ";"] (.plain "full-backtracking" "") :=
  stated_of_yields 5 (by decide) rfl [22, 27, 29] (fun _ => Sure.admits (by decide)) rfl
    rfl yields_enable

/-! ## The whole definition -/

/-- The statements of a definition: their words, and the nodes that these are read as. -/
def statements (d : Definition) : List (List String × Tree) :=
  (d.lineComment.toList.map fun start =>
    (["line-comment-style", quote start, ";"], Tree.plain "line-comment" start)) ++
  (d.blockComment.toList.map fun c => (["block-comment-style", quote c.start, quote c.stop, ";"],
    Tree.mk "block-comment" "" "" [.plain "begin" c.start, .plain "end" c.stop] none)) ++
  (if d.fullBacktracking
    then [(["enable", "full-backtracking", ";"], .plain "full-backtracking" "")] else []) ++
  d.tokens.map (fun t => (t.words, t.tree)) ++ d.rules.map fun r => (r.words, r.tree)

theorem words_statements (d : Definition) : (statements d).flatMap (·.1) = d.words := by
  rw [statements, Definition.words, Definition.settingWords]
  cases d.fullBacktracking <;> simp [List.flatMap_map]

theorem trees_statements (d : Definition) : (statements d).map (·.2) = d.tree.children := by
  rw [statements, Definition.tree, Definition.settingTrees]
  simp only [List.map_append, List.map_map, List.append_assoc]
  cases d.fullBacktracking <;> rfl

theorem stated_statements (d : Definition) (hd : d.isWritable = true) :
    ∀ s ∈ statements d, Stated s.1 s.2 := by
  simp only [Definition.isWritable, Bool.and_eq_true, List.all_eq_true] at hd
  simp only [statements, List.forall_mem_append, List.forall_mem_map]
  refine ⟨⟨⟨⟨fun start _ => stated_lineComment start,
      fun c _ => stated_blockComment c.start c.stop⟩, ?_⟩, ?_⟩, ?_⟩
  · split
    · exact List.forall_mem_singleton.mpr stated_enable
    · simp
  · exact fun t ht => stated_tokenDecl t (Bool.and_eq_true_iff.mp (hd.1.2 t ht)).1
  · exact fun r hr => stated_rule r (hd.2 r hr)

/-- Statements are read one after the other. -/
theorem Ready.reads {l : List (List String × Tree)} (hl : ∀ s ∈ l, Stated s.1 s.2)
    (h : Ready base stop graph els) (hnext : ∀ c els', graph ≤ c → Ready base stop c els' →
      Reads goal c els' (⟨top.name, top.text, top.id, top.children ++ l.map (·.2), top.token⟩ ::
      outer) rest) : Reads goal graph els (top :: outer) (l.flatMap (·.1) ++ rest) := by
  induction l generalizing graph els top with
  | nil =>
    have hnil := hnext graph els (le_refl graph) h
    rw [List.map_nil, List.append_nil] at hnil
    cases top
    exact hnil
  | cons s l ih =>
    obtain ⟨hs, hl⟩ := List.forall_mem_cons.mp hl
    rw [List.flatMap_cons, List.append_assoc]
    refine hs _ _ _ _ _ _ _ _ h fun c els' hle h => ih hl h fun c' els'' hle' h => ?_
    have hcons := hnext c' els'' (le_trans hle hle') h
    rw [List.map_cons, List.append_cons] at hcons
    exact hcons

/-- Whatever tokens stand for the words of a definition, the search of the grammar of definitions
reads them, and the path is rewritten to the tree of the definition. -/
theorem succeeds_definition (d : Definition) (hd : d.isWritable = true) {tokens : List Token}
    (htokens : Spells tokens d.words) :
    Succeeds grammar false (fun s => Tree.reduce grammar s.graph .ast s.path = d.tree)
      (.ofGrammar grammar) [⟨Graph.root, none⟩] tokens := by
  have hroot {c : Graph} (hc : .ofGrammar grammar ≤ c) : c.kind 1 = .ruleStart 13 none 0 :=
    Graph.kind_root hc
  have hend {c : Graph} (hc : .ofGrammar grammar ≤ c) : c.kind 0 = .ruleEnd 13 none :=
    Graph.kind_rootEnd hc
  have hopens (c : Graph) (hc : .ofGrammar grammar ≤ c) :
      Tree.Opens grammar c .ast [⟨1, none⟩] [opening 13 none] := by
    refine ⟨fun rest => ?_, rfl, nofun⟩
    show Tree.reduceFrom grammar c .ast (⟨1, none⟩ :: rest) [] = _
    rw [Tree.reduceFrom, hroot hc]
    rfl
  refine (proceeds_body definitionLayout (hroot (le_refl _)) Nat.zero_lt_two
    (Graph.regular_ofGrammar grammar) (fun e he => absurd he List.not_mem_nil) hopens (fun m hm =>
      absurd hm List.not_mem_nil) rfl (fun _ => rfl) (fun b hle h _ => ?_) htokens).succeeds
  have hbefore (i : Nat) : 0 ≠ 2 + i := by omega
  refine h.follow [22] rfl fun h => ?_
  rw [← words_statements, ← List.append_nil (List.flatMap _ _)]
  refine Ready.reads (stated_statements d hd) ⟨true, [13], by simp, ?_, h.mono (by decide)⟩
    fun c els' hle' hready => ?_
  · show 0 ∉ [2 + 22, 2, 1]
    decide
  obtain ⟨fresh, rules, -, hstop, h⟩ := hready
  have hc := le_trans hle hle'
  refine h.walk [23, 1] [] (admits_none _) rfl fun h =>
    h.reads_stop ?_ rfl (hend hc) fun hs tokens htokens => ?_
  · exact List.not_mem_cons_of_ne_of_not_mem (hbefore 1)
      (List.not_mem_cons_of_ne_of_not_mem (hbefore 23) hstop)
  cases htokens
  have hwired : c.wired 0 = [] := Graph.wired_of_le hc Nat.zero_lt_two
  refine Proceeds.finish (hend hc) hwired ?_
  rw [Tree.reduce, graph_ofElements, Path.toList, elements_ofElements, List.reverse_cons,
    (hs.opens c (le_refl c)).reduce, Tree.reduceFrom, hend hc, trees_statements]
  rfl

end GrammarGraph.Meta
