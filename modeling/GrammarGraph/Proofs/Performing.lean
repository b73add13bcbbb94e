import GrammarGraph.Proofs.Scripts
import GrammarGraph.Proofs.Turns

/-!
# Scripts are parsed

From the node in front of the statements the search reads one statement after the other and comes
back to that node (`Sample.Commands.proceeds_statement`), and where none is left it goes on to the
end.  So it reads every script, and the path is rewritten to the tree of the script
(`Sample.Commands.succeeds_script`).  It never steps back on the way.
-/

namespace GrammarGraph.Sample.Commands

open GrammarGraph.Search GrammarGraph.Path

variable {kind : TreeKind} {full strict : Bool} {P : Search → Prop} {graph : Graph}
  {els : List PathElement} {tokens rest : List Token} {children outer : List Tree}
  {scopes : List Scope} {base : Nat} {verb : Verb} {word name stop : Token} {a : Action}
  {s : Statement}

/-- The instance of the root rule. -/
def scriptSite : Instance := ⟨2, scriptBody.template, Graph.rootEnd⟩

/-- An instance of a command. -/
def commandSite (base : Nat) : Instance := ⟨base, commandBody.template, 7⟩

/-- The node of the script, which is open until the end. -/
def openScript (children : List Tree) : Tree := ⟨"script", "", "", children, none⟩

/-- The node of a command that is being read. -/
def openCommand (children : List Tree) : Tree := ⟨"Command", "", "", children, none⟩

/-! ## Actions -/

/-- The path is in a command. -/
abbrev Commanded (kind : TreeKind) (base : Nat) (graph : Graph) (els : List PathElement)
    (seen : List Nat) (children : List Tree) (outer : List Tree) (scopes : List Scope) : Prop :=
  Standing grammar kind (commandSite base) graph els seen (openCommand children :: outer) scopes

namespace Verb

/-- The slot for the word. -/
def slot : Verb → Nat
  | letWord => 2
  | printWord => 6

/-- The branch for the word: its start, the slots for the word and for the name, its end. -/
theorem nodes_branch (verb : Verb) :
    commandBody.template.nodes[verb.slot + 2]? = some ⟨.junction, [verb.slot]⟩ ∧
    commandBody.template.nodes[verb.slot]? = some ⟨.slot verb.type none none, [verb.slot + 1]⟩ ∧
    commandBody.template.nodes[verb.slot + 1]? = some ⟨.slot identifier (some "name") none,
      [verb.slot + 3]⟩ ∧ commandBody.template.nodes[verb.slot + 3]? = some ⟨.junction, [13]⟩ := by
  rw [template_command]
  cases verb <;> exact ⟨rfl, rfl, rfl, rfl⟩

theorem slot_eq (verb : Verb) : verb.slot = 2 ∨ verb.slot = 6 := by
  cases verb <;> decide

end Verb

/-- Behind an action the path stands in front of the end of its statement. -/
structure Acted (kind : TreeKind) (base : Nat) (graph : Graph) (els : List PathElement) (a : Action)
    (outer : List Tree) (scopes : List Scope) : Prop where
  tip : ∃ rest, els = ⟨base + 13, none⟩ :: rest
  standing : ∃ seen, 15 ∉ seen ∧ Commanded kind base graph els seen a.leaves outer scopes

/-- Behind the switch the search reads a word and a name. -/
theorem proceeds_naming
    (h : Commanded kind base graph (⟨base + 14, none⟩ :: els) [14, 0] [] outer scopes)
    (hkey : word.keyword? = some verb.key) (hword : word.hasType verb.type.id = true)
    (hname : name.hasType identifier.id = true)
    (hnext : ∀ els', Acted kind base graph els' (.naming verb word name) outer scopes →
      Proceeds grammar full P graph els' rest) :
    Proceeds grammar full P graph (⟨base + 14, none⟩ :: els) (word :: name :: rest) := by
  obtain ⟨hstart, hslot, hsecond, hend⟩ := verb.nodes_branch
  have heq := verb.slot_eq
  have hbranch :
      Turns grammar graph (⟨base + 14, none⟩ :: els) (some word) (base + (verb.slot + 2)) :=
    turns_switch (h.holds.kind 14 _ rfl) hkey (by cases verb <;> rfl)
  refine h.reads_pass hbranch hstart rfl (by simp; omega) fun h => ?_
  refine h.reads_take (h.turns_next _ _ hstart rfl (fun _ => rfl) (by omega)) hslot (by simp; omega)
    hword fun h => ?_
  refine h.reads_take (h.turns_next _ _ hslot rfl nofun (by omega)) hsecond List.not_mem_nil
    hname fun h => ?_
  refine h.reads_pass (h.turns_next _ _ hsecond rfl nofun (by omega)) hend rfl
    List.not_mem_nil fun h => ?_
  refine h.reads_pass (h.turns_next _ _ hend rfl (fun _ => rfl) (by omega)) rfl rfl
    (by simp; omega) fun h => ?_
  exact hnext _ ⟨⟨_, rfl⟩, _, by simp; omega, h⟩

/-- Unless the script is strict the search goes through the gate. -/
theorem proceeds_unchecked
    (h : Commanded kind base graph (⟨base + 14, none⟩ :: els) [14, 0] [] outer scopes)
    (hlenient : Scope.lookup "strict" 0 scopes = some (.bool false))
    (hkey : word.keyword? = some "unsafe") (hword : word.hasType unsafeWord.id = true)
    (hnext : ∀ els', Acted kind base graph els' (.unchecked word) outer scopes →
      Proceeds grammar full P graph els' rest) :
    Proceeds grammar full P graph (⟨base + 14, none⟩ :: els) (word :: rest) := by
  have hbranch : Turns grammar graph (⟨base + 14, none⟩ :: els) (some word) (base + 11) :=
    turns_switch (h.holds.kind 14 _ rfl) hkey rfl
  refine h.reads_pass hbranch rfl rfl (by decide) fun h => ?_
  have hgate : Turns grammar graph (⟨base + 11, none⟩ :: ⟨base + 14, none⟩ :: els) (some word)
      (base + 10) := by
    have hscopes : (ofElements graph grammar (⟨base + 11, none⟩ :: ⟨base + 14, none⟩ ::
        els)).path.scopes = scopes :=
      h.scopes
    refine turns_gate (h.holds.kind 11 _ rfl) ?_
    simp only [lenient, Context.var?, var?, hscopes, hlenient]
    rfl
  refine h.reads_pass hgate rfl rfl (by decide) fun h => ?_
  refine h.reads_take (h.turns_next 10 12 rfl rfl (fun _ => rfl) (by decide)) rfl (by decide)
    hword fun h => ?_
  refine h.reads_pass (h.turns_next 12 13 rfl rfl nofun (by decide)) rfl rfl (by decide) fun h => ?_
  exact hnext _ ⟨⟨_, rfl⟩, [13], by decide, h⟩

theorem proceeds_action (ha : a.IsTyped) (hkey : a.word.keyword? = some a.key)
    (hallowed : strict = true → a.isUnchecked = false)
    (hstrict : Scope.lookup "strict" 0 scopes = some (.bool strict))
    (h : Commanded kind base graph (⟨base + 14, none⟩ :: els) [14, 0] [] outer scopes)
    (hnext : ∀ els', Acted kind base graph els' a outer scopes →
      Proceeds grammar full P graph els' rest) :
    Proceeds grammar full P graph (⟨base + 14, none⟩ :: els) (a.tokens ++ rest) := by
  cases a with
  | naming verb word name => exact proceeds_naming h hkey ha.1 ha.2 hnext
  | unchecked word =>
    obtain rfl : strict = false := Bool.eq_false_iff.mpr fun hs => absurd (hallowed hs) nofun
    exact proceeds_unchecked h hstrict hkey ha hnext

/-! ## Statements -/

/-- The path stands on the node in front of the next statement.  So far the script
has got these children. -/
structure Ready (kind : TreeKind) (strict : Bool) (graph : Graph) (els : List PathElement)
    (children : List Tree) : Prop where
  le : .ofGrammar grammar ≤ graph
  tip : ∃ rest, els = ⟨9, none⟩ :: rest
  standing : ∃ seen scopes, (∀ j ∈ [1, 6, 8], j ∉ seen) ∧
    Scope.lookup "strict" 0 scopes = some (.bool strict) ∧
    Standing grammar kind scriptSite graph els seen [openScript children] scopes
  started : ∀ m ∈ visited els, (graph.kind m).startedRule? ≠ some 0
  stop : Graph.rootEnd ∉ visited els

/-- Behind its action the search reads the end of the statement, and comes back to the node
in front of the next one. -/
theorem proceeds_stop (h : Acted kind base graph els a [openScript children] scopes)
    (hbase : 11 ≤ base) (hle : .ofGrammar grammar ≤ graph)
    (hscript : graph.Holds 2 scriptBody.template Graph.rootEnd)
    (hstop : stop.hasType semicolon.id = true)
    (hstrict : Scope.lookup "strict" 0 (.exited :: scopes) = some (.bool strict))
    (hnext : ∀ els', Ready kind strict graph els' (children ++ [(Statement.mk a stop).tree]) →
      Proceeds grammar full P graph els' rest) :
    Proceeds grammar full P graph els (stop :: rest) := by
  obtain ⟨⟨els, rfl⟩, seen, hunseen, h⟩ := h
  refine h.reads_take (h.turns_next 13 15 rfl rfl (fun _ => rfl) (by decide)) rfl hunseen
    hstop fun h => ?_
  refine h.reads_pass (h.turns_next 15 1 rfl rfl nofun (by decide)) rfl rfl
    List.not_mem_nil fun h => ?_
  have hend : graph.kind 7 = .ruleEnd 0 none := hscript.kind 5 _ rfl
  have hexit : graph.kind (base + 1) = .junction := h.holds.kind 1 _ rfl
  have hvisited : visited (⟨base + 1, none⟩ :: ⟨base + 15, some stop⟩ :: ⟨base + 13, none⟩ :: els) =
      [base + 1] := by simp
  have hout : 7 ∉ [base + 1] := by
    rw [List.mem_singleton]
    omega
  refine h.reads_exit rfl hend (hvisited ▸ hout) fun hf => ?_
  rw [transformed_eq kind Nat.zero_lt_two] at hf
  have hs : Standing grammar kind scriptSite graph
      (⟨7, none⟩ :: ⟨base + 1, none⟩ :: ⟨base + 15, some stop⟩ :: ⟨base + 13, none⟩ ::
      els) [5] [openScript (children ++ [(Statement.mk a stop).tree])] (.exited :: scopes) := by
    refine ⟨hf, hscript, fun m hm => ?_⟩
    rw [visited_cons_none, hvisited, List.mem_cons, List.mem_singleton] at hm
    rcases hm with rfl | rfl
    · exact .inr (.inr ⟨5, List.mem_cons_self, rfl⟩)
    · exact .inr (.inl (Nat.le_succ_of_le hbase))
  refine hs.reads_pass (hs.turns_next 5 7 rfl rfl (fun _ => rfl) (by decide)) rfl rfl
    (by decide) fun hs => ?_
  refine hnext _ ⟨hle, ⟨_, rfl⟩, ⟨[7, 5], _, by decide, hstrict, hs⟩, fun m hm => ?_, ?_⟩
  · rw [visited_cons_none, visited_cons_none, hvisited, List.mem_cons, List.mem_cons,
      List.mem_singleton] at hm
    rcases hm with rfl | rfl | rfl
    · rw [hs.holds.kind 7 _ rfl]
      exact nofun
    · rw [hend]
      exact nofun
    · rw [hexit]
      exact nofun
  · rw [visited_cons_none, visited_cons_none, hvisited]
    simp [scriptSite, Graph.rootEnd]

/-- In front of a statement the search enters a fresh command. -/
theorem Ready.proceeds_switch (h : Ready kind strict graph els children)
    (hnext : ∀ b els' scopes, graph ≤ b →
        Scope.lookup "strict" 0 scopes = some (.bool strict) →
        Commanded kind graph.size b (⟨graph.size + 14, none⟩ :: els') [14,
      0] [] [openScript children] (.active .empty :: scopes) →
      Proceeds grammar full P b (⟨graph.size + 14, none⟩ :: els') tokens) :
    Proceeds grammar full P graph els tokens := by
  obtain ⟨hle, ⟨els, rfl⟩, ⟨seen, scopes, hunseen, hstrict, h⟩, hstarted, -⟩ := h
  have hk : graph.kind 8 = .ruleStart 0 none 7 := h.holds.kind 6 _ rfl
  have hfresh : revisitsIn graph 8 0 (⟨9, none⟩ :: els) = false := by
    refine Path.not_revisits (fun hmem => ?_) (fun rule hrule m hm => ?_) 0
    · rcases h.visited 8 hmem with hbelow | habove | ⟨j, hj, heq⟩
      · exact absurd hbelow (by decide)
      · exact absurd habove (by decide)
      · obtain rfl : j = 6 := (Nat.add_left_cancel heq).symm
        exact hunseen 6 (by decide) hj
    · rw [hk] at hrule
      obtain rfl := Option.some.inj hrule
      exact hstarted m hm
  have hstop : 7 < graph.size := h.lt_size (j := 5) rfl
  refine .turn (h.turns (i := 7) (j := 6) rfl rfl (fun _ => rfl) (by decide)
    (List.nil_append _).symm fun _ hm => absurd hm List.not_mem_nil) hfresh ?_
  refine (h.toFooting.enter hk).reads_enter hk hstop expand_command fun b hleb hc => ?_
  have hc : Commanded kind graph.size b (⟨graph.size, none⟩ :: ⟨8, none⟩ :: ⟨9, none⟩ :: els) [0] []
      [openScript children] (.active .empty :: scopes) := hc
  exact hc.reads_pass (hc.turns_next 0 14 rfl rfl (fun _ => rfl) (by decide)) rfl rfl (by decide)
    fun hc => hnext b _ _ hleb hstrict hc

/-- A statement becomes a child of the script. -/
theorem proceeds_statement (hs : s.IsTyped) (hkey : s.action.word.keyword? = some s.action.key)
    (hallowed : strict = true → s.action.isUnchecked = false)
    (h : Ready kind strict graph els children) (hnext : ∀ b els',
      Ready kind strict b els' (children ++ [s.tree]) → Proceeds grammar full P b els' rest) :
    Proceeds grammar full P graph els (s.tokens ++ rest) := by
  obtain ⟨_, _, _, _, hstanding⟩ := h.standing
  rw [Statement.tokens, List.append_assoc]
  refine h.proceeds_switch fun b els' scopes hleb hstrict hc => ?_
  refine proceeds_action hs.1 hkey hallowed ?_ hc fun els'' hacted => ?_
  · rw [Scope.lookup]
    exact hstrict
  · refine proceeds_stop hacted hstanding.holds.size_le (le_trans h.le hleb)
      (hstanding.holds.of_le hleb) hs.2 ?_ (hnext b)
    rw [Scope.lookup, Scope.lookup]
    exact hstrict

/-- Statements are read one after the other. -/
theorem proceeds_statements {statements : List Statement} (hs : ∀ s ∈ statements, s.IsTyped)
    (hkeys : ∀ s ∈ statements, s.action.word.keyword? = some s.action.key)
    (hallowed : strict = true → ∀ s ∈ statements, s.action.isUnchecked = false)
    (h : Ready kind strict graph els children)
    (hnext : ∀ b els', Ready kind strict b els' (children ++ statements.map (·.tree)) →
      Proceeds grammar full P b els' rest) :
    Proceeds grammar full P graph els (statements.flatMap (·.tokens) ++ rest) := by
  induction statements generalizing graph els children with
  | nil => exact hnext graph els (by rwa [List.map_nil, List.append_nil])
  | cons s statements ih =>
    rw [List.forall_mem_cons] at hs hkeys
    rw [List.flatMap_cons, List.append_assoc]
    refine proceeds_statement hs.1 hkeys.1 (fun hstrict => hallowed hstrict s List.mem_cons_self) h
      fun b els' h => ?_
    refine ih hs.2 hkeys.2 (fun hstrict s hs => hallowed hstrict s (List.mem_cons_of_mem _ hs)) h
      fun c els'' h => ?_
    refine hnext c els'' ?_
    rwa [List.append_assoc] at h

/-! ## Scripts -/

/-- Without a token no command can be read. -/
theorem dead_command (hk : graph.kind 8 = .ruleStart 0 none 7) (hstop : 7 < graph.size) :
    Dead grammar none graph 8 := by
  refine dead_of_entry hk expand_command fun b ctx hle => ?_
  have hholds := Graph.holds_addBody (lt_of_lt_of_le hstop hle.1) commandBody
  generalize (b.addBody commandBody 7).2 = c at hholds
  have hentry : c.kind b.size = .junction := hholds.kind 0 _ rfl
  have hwired : c.wired b.size = [b.size + 14] := hholds.wired 0 _ rfl
  refine dead_of_wired (by rw [hentry]; rfl) (by rw [hentry]; rfl) (by rw [hwired]; simp) ?_
  rw [hwired]
  exact List.forall_mem_singleton.mpr (dead_switch (hholds.kind 14 _ rfl) rfl)

/-- Where no token is left the search goes on to the end of the script, whose node is finished. -/
theorem Ready.proceeds_end (h : Ready kind strict graph els children) :
    Proceeds grammar full (fun s => Tree.reduce grammar s.graph kind s.path = openScript children)
      graph els [] := by
  obtain ⟨hle, ⟨els, rfl⟩, ⟨seen, scopes, hunseen, -, h⟩, -, hstop⟩ := h
  have hdead : ∀ k ∈ [6], Dead grammar none graph (2 + k) :=
    List.forall_mem_singleton.mpr (dead_command (h.holds.kind 6 _ rfl) (h.lt_size (j := 5) rfl))
  refine h.reads_pass (j := 8) (h.turns (i := 7) rfl rfl (fun _ => rfl) (by decide) rfl hdead) rfl
    rfl (hunseen 8 (by decide)) fun h => ?_
  refine h.reads_pass (h.turns_next 8 1 rfl rfl (fun _ => rfl) (by decide)) rfl rfl
    (by simp [hunseen 1 (by decide)]) fun h => ?_
  refine h.reads_end rfl hle rfl (fun hmem => ?_) (transformed_eq kind Nat.one_lt_two _)
  simp [scriptSite, Graph.rootEnd] at hmem hstop
  exact hstop hmem

/-- Where the script begins the search reads the word in front, if it is there, up to the node in
front of the statements. -/
theorem proceeds_front {word : Option Token}
    (hword : ∀ t ∈ word, t.hasType Commands.strict.id = true)
    (hrest : word = none → rest.head?.any (·.hasType Commands.strict.id) = false)
    (h : Standing grammar kind scriptSite graph [⟨2, none⟩, ⟨1, none⟩] [0] [openScript []]
      [.active (grammar.ruleVars 1)]) (hle : .ofGrammar grammar ≤ graph)
    (hnext : ∀ els', Ready kind word.isSome graph els' (word.toList.map (Tree.ofToken · "")) →
      Proceeds grammar full P graph els' rest) :
    Proceeds grammar full P graph [⟨2, none⟩, ⟨1, none⟩] (word.toList ++ rest) := by
  have hstarted : ∀ m ∈ [9, 6, 5, 2, 1], (graph.kind m).startedRule? ≠ some 0 := by
    have hjunction : ∀ j ∈ [7, 4, 3, 0], graph.kind (2 + j) = .junction := by
      simp only [List.forall_mem_cons]
      exact ⟨h.holds.kind 7 _ rfl, h.holds.kind 4 _ rfl, h.holds.kind 3 _ rfl, h.holds.kind 0 _ rfl,
        nofun⟩
    have hroot : graph.kind 1 = .ruleStart 1 none 0 := Graph.kind_root hle
    simp only [List.forall_mem_cons] at hjunction ⊢
    rw [hjunction.1, hjunction.2.1, hjunction.2.2.1, hjunction.2.2.2.1, hroot]
    exact ⟨nofun, nofun, nofun, nofun, nofun, nofun⟩
  refine h.reads_pass (h.turns_next 0 3 rfl rfl (fun _ => rfl) (by decide)) rfl rfl
    (by decide) fun h => ?_
  cases word with
  | none =>
    have hdead : ∀ k ∈ [2], Dead grammar rest.head? graph (2 + k) :=
      List.forall_mem_singleton.mpr (dead_slot (h.holds.kind 2 _ rfl) (hrest rfl))
    refine h.reads_pass (j := 4) (h.turns (i := 3) rfl rfl (fun _ => rfl) (by decide) rfl hdead) rfl
      rfl (by decide) fun h => ?_
    refine h.reads_pass (h.turns_next 4 7 rfl rfl (fun _ => rfl) (by decide)) rfl rfl
      (by decide) fun h => ?_
    refine hnext _ ⟨hle, ⟨_, rfl⟩, ⟨_, _, by decide, by decide, h⟩, hstarted, ?_⟩
    show 0 ∉ [9, 6, 5, 2, 1]
    decide
  | some t =>
    refine h.reads_take (h.turns (i := 3) (j := 2) rfl rfl (fun _ => rfl) (by decide)
      (List.nil_append _).symm fun _ hk => absurd hk List.not_mem_nil) rfl (by decide)
      (hword t rfl) fun h => ?_
    refine h.reads_pass (h.turns_next 2 4 rfl rfl nofun (by decide)) rfl rfl (by decide) fun h => ?_
    refine h.reads_pass (h.turns_next 4 7 rfl rfl (fun _ => rfl) (by decide)) rfl rfl
      (by decide) fun h => ?_
    -- The hook has set the variable in the scope of the script.
    refine hnext _ ⟨hle, ⟨_, rfl⟩, ⟨_, _, by decide, rfl, h⟩,
      fun m hm => hstarted m (List.take_subset 2 _ hm), ?_⟩
    show 0 ∉ [9, 6]
    decide

/-- Whatever tokens a script has, the search reads them, and the path is rewritten to
the tree of the script. -/
theorem succeeds_script {script : Script} (hscript : script.IsWellFormed)
    (hkeyed : ∀ t ∈ script.tokens, Keyed t) (kind : TreeKind) (full : Bool) :
    Succeeds grammar full (fun s => Tree.reduce grammar s.graph kind s.path = script.tree)
      (.ofGrammar grammar) [⟨Graph.root, none⟩] script.tokens := by
  obtain ⟨word, statements⟩ := script
  have hwords : ∀ s ∈ statements, Keyed s.action.word := fun s hs => by
    refine hkeyed _ (List.mem_append_right _ (List.mem_flatMap.mpr ⟨s, hs, ?_⟩))
    exact List.mem_of_head? s.head?_tokens
  have hkeys : ∀ s ∈ statements, s.action.word.keyword? = some s.action.key :=
    fun s hs => (hwords s hs).keyword?_eq (hscript.typed s hs).1
  have hfront : (statements.flatMap Statement.tokens ++
      []).head?.any (Token.hasType · Commands.strict.id) = false := by
    cases statements with
    | nil => rfl
    | cons s statements =>
      rw [List.flatMap_cons, List.append_assoc, List.head?_append, s.head?_tokens]
      exact (hwords s List.mem_cons_self).hasType_strict (hscript.typed s List.mem_cons_self).1
  have hroot : Footing grammar kind (.ofGrammar grammar)
      [⟨1, none⟩] [openScript []] [.active (grammar.ruleVars 1)] := by
    refine ⟨List.forall_mem_singleton.mpr Nat.one_lt_two,
      fun b hb => ⟨fun rest => ?_, rfl, fun _ => rfl⟩, rfl⟩
    have hk : b.kind 1 = .ruleStart 1 none 0 := Graph.kind_root hb
    rw [List.reverse_singleton, List.singleton_append, Tree.reduceFrom, hk]
    rfl
  refine Proceeds.succeeds (hroot.reads_enter rfl Nat.zero_lt_two expand_script fun b hle h => ?_)
  show Proceeds _ _ _ _ _ (word.toList ++ statements.flatMap (·.tokens))
  rw [← List.append_nil (statements.flatMap _)]
  refine proceeds_front hscript.strict (fun _ => hfront) h hle fun els' hready => ?_
  refine proceeds_statements hscript.typed hkeys hscript.allowed hready fun c els'' hready => ?_
  exact hready.proceeds_end

end GrammarGraph.Sample.Commands
