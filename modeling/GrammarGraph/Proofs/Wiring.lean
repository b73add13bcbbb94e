import GrammarGraph.Proofs.Arena

/-!
# What wiring a body adds to an arena

While a body is built, every link from one of its nodes leads to another one of them
(`Graph.Wires`): parts are built and linked within the body alone.  As long as its clauses name
parts by their sockets (`Body.AtSockets`), no link leads to the end of a rule.
-/

namespace GrammarGraph

/-- The nodes that the kind of a node names. -/
def NodeKind.links : NodeKind → List NodeId
  | ruleStart _ _ stop => [stop]
  | gate _ target => [target]
  | switch branches target => target :: branches.map (·.2)
  | _ => []

theorem NodeKind.mem_links_of_mem_targets {k : NodeKind} {n : NodeId} (h : n ∈ k.targets []) :
    n ∈ k.links := by
  cases k with
  | ruleStart | ruleEnd | slot | junction => exact absurd h List.not_mem_nil
  | gate => exact h
  | switch => exact List.mem_cons_of_mem _ h

/-! ## References to sockets -/

/-- What is referred to is entered where it was built to be entered. -/
@[simp] def Ref.AtSocket : Ref → Prop
  | entry | exit | part _ => True
  | span first last => first.AtSocket ∧ last.AtSocket
  | socket r => r.AtSocket
  | plug _ => False

namespace Piece

mutual

/-- All references in the piece are to sockets. -/
@[simp] def AtSockets : Piece → Prop
  | ref r => r.AtSocket
  | sequence ps | fork ps => AllAtSockets ps
  | repeated _ p => AtSockets p
  | switch bs => BranchesAtSockets bs
  | junction | slot .. | call .. | guard _ => True

@[simp] def AllAtSockets : List Piece → Prop
  | [] => True
  | p :: ps => AtSockets p ∧ AllAtSockets ps

@[simp] def BranchesAtSockets : List (String × Piece) → Prop
  | [] => True
  | b :: bs => BranchAtSockets b ∧ BranchesAtSockets bs

@[simp] def BranchAtSockets : String × Piece → Prop
  | (_, p) => AtSockets p

end

end Piece

namespace Body

/-- All references in the body are to sockets. -/
@[simp] def AtSockets : Body → Prop
  | [] => True
  | .part p :: rest => p.AtSockets ∧ AtSockets rest
  | .chain refs :: rest => (∀ r ∈ refs, r.AtSocket) ∧ AtSockets rest

end Body

namespace Graph

variable {apart : Prop} {a b base g : Graph} {id n : NodeId} {e : Element}

/-- Nodes may have been added and links drawn, but every node there was has its kind still. -/
structure Grown (a b : Graph) : Prop where
  size_le : a.size ≤ b.size
  kind_eq : ∀ id, id < a.size → b.kind id = a.kind id

theorem Grown.refl (g : Graph) : Grown g g := ⟨le_refl _, fun _ _ => rfl⟩

theorem Grown.trans {c : Graph} (hab : Grown a b) (hbc : Grown b c) : Grown a c :=
  ⟨le_trans hab.size_le hbc.size_le, fun id h =>
    (hbc.kind_eq id (lt_of_lt_of_le h hab.size_le)).trans (hab.kind_eq id h)⟩

theorem grown_add (g : Graph) (k : NodeKind) : Grown g (g.add k).2 :=
  ⟨by rw [size_add]; exact Nat.le_succ _, fun id h => by rw [kind_add, if_neg (ne_of_lt h)]⟩

theorem grown_connect (g : Graph) (s t : NodeId) : Grown g (g.connect s t) :=
  ⟨size_le_connect g s t, fun id _ => kind_connect g s t id⟩

/-- A node from `lo` on at which a part can be entered, which is no end of a rule if
these are to be kept apart. -/
structure Socket (g : Graph) (apart : Prop) (lo : Nat) (n : NodeId) : Prop where
  le : lo ≤ n
  lt : n < g.size
  not_end : apart → (g.kind n).isRuleEnd = false

theorem Socket.grown {lo : Nat} (h : Grown a b) (hn : a.Socket apart lo n) : b.Socket apart lo n :=
  ⟨hn.le, lt_of_lt_of_le hn.lt h.size_le, by rw [h.kind_eq n hn.lt]; exact hn.not_end⟩

/-- A part among the nodes from `lo` on. -/
structure IsPart (g : Graph) (apart : Prop) (lo : Nat) (e : Element) : Prop where
  socket : g.Socket apart lo e.socket
  le_plug : lo ≤ e.plug
  plug_lt : e.plug < g.size

theorem IsPart.grown {lo : Nat} (h : Grown a b) (he : a.IsPart apart lo e) : b.IsPart apart lo e :=
  ⟨he.socket.grown h, he.le_plug, lt_of_lt_of_le he.plug_lt h.size_le⟩

theorem Socket.isPart {lo : Nat} (h : g.Socket apart lo n) : g.IsPart apart lo (.ofNode n) :=
  ⟨h, h.le, h.lt⟩

/-- An arena is extended by nodes that name nodes of it, and by links between nodes of it, none of
which starts from a node below `lo`. -/
inductive Draws (lo : Nat) (a : Graph) : Graph → Prop
  | refl : Draws lo a a
  | add {g : Graph} {k : NodeKind} : Draws lo a g → (∀ n ∈ k.links, n < g.size) →
      Draws lo a (g.add k).2
  | connect {g : Graph} {s t : NodeId} : Draws lo a g → lo ≤ s → s < g.size → t < g.size →
      Draws lo a (g.connect s t)

/-- The arena extends `base`, and what was added leads to nothing but sockets among the added
nodes. -/
structure Wires (apart : Prop) (base g : Graph) : Prop where
  le : base ≤ g
  nodup : ∀ id, base.size ≤ id → (g.wired id).Nodup
  targets : ∀ id, base.size ≤ id → ∀ n ∈ g.targets id, g.Socket apart base.size n
  stops : ∀ id rule ident stop, base.size ≤ id → g.kind id = .ruleStart rule ident stop →
    base.size ≤ stop ∧ stop < g.size ∧ g.kind stop = .ruleEnd rule ident
  draws : Draws base.size base g

theorem Wires.refl (g : Graph) : Wires apart g g where
  le := le_refl g
  nodup id h := by rw [wired_of_size_le h]; exact List.nodup_nil
  targets id h n hn := absurd (lt_size_of_mem_targets hn) (not_lt.mpr h)
  stops id rule ident stop h hk := by rw [kind_of_size_le h] at hk; exact absurd hk (by simp)
  draws := .refl

/-- A node is added with sockets for targets and, if it starts a rule, an end of that rule. -/
theorem Wires.add (h : Wires apart base g) (k : NodeKind)
    (ht : ∀ n ∈ k.targets [], g.Socket apart base.size n)
    (hs : ∀ rule ident stop, k = .ruleStart rule ident stop →
      base.size ≤ stop ∧ stop < g.size ∧ g.kind stop = .ruleEnd rule ident)
    (hl : ∀ n ∈ k.links, n < g.size) : Wires apart base (g.add k).2 where
  le := le_add h.le k
  nodup id hid := by rw [wired_add]; exact h.nodup id hid
  targets id hid n hn := by
    apply Socket.grown (grown_add g k)
    rw [Graph.targets, kind_add, wired_add] at hn
    split at hn
    · next heq =>
      rw [wired_of_size_le (le_of_eq heq.symm)] at hn
      exact ht n hn
    · exact h.targets id hid n hn
  stops id rule ident stop hid hk := by
    have key : base.size ≤ stop ∧ stop < g.size ∧ g.kind stop = .ruleEnd rule ident := by
      rw [kind_add] at hk
      split at hk
      · exact hs rule ident stop hk
      · exact h.stops id rule ident stop hid hk
    exact ⟨key.1, lt_of_lt_of_le key.2.1 (grown_add g k).size_le,
      by rw [(grown_add g k).kind_eq stop key.2.1]; exact key.2.2⟩
  draws := h.draws.add hl

theorem targets_connect {s t : NodeId} (h : n ∈ (g.connect s t).targets id) :
    n ∈ g.targets id ∨ (id = s ∧ n = t) := by
  rw [targets, kind_connect] at h
  rw [targets]
  cases hk : g.kind id <;> rw [hk] at h <;> simp only [NodeKind.targets] at h ⊢
  case ruleEnd | slot | junction => exact mem_wired_connect h
  case ruleStart => exact absurd h List.not_mem_nil
  all_goals exact .inl h

theorem Wires.connect {s t : NodeId} (h : Wires apart base g) (hs : base.size ≤ s)
    (hs' : s < g.size) (ht : g.Socket apart base.size t) : Wires apart base (g.connect s t) where
  le := le_connect h.le hs
  nodup id hid := nodup_wired_connect (h.nodup id hid)
  targets id hid n hn := by
    apply Socket.grown (grown_connect g s t)
    rcases targets_connect hn with hn | ⟨-, rfl⟩
    · exact h.targets id hid n hn
    · exact ht
  stops id rule ident stop hid hk := by
    rw [kind_connect] at hk
    simpa using h.stops id rule ident stop hid hk
  draws := h.draws.connect hs hs' ht.lt

/-- Building on `g` gave the part `e` and the arena `g'`. -/
structure Builds (apart : Prop) (base g : Graph) (e : Element) (g' : Graph) : Prop where
  wires : Wires apart base g'
  grown : Grown g g'
  part : g'.IsPart apart base.size e

/-- A node that names no other is added. -/
theorem Wires.addLeaf (h : Wires apart base g) {k : NodeKind} (hl : k.links = []) :
    Wires apart base (g.add k).2 := by
  refine h.add k (fun n hn => ?_) (fun rule ident stop hk => ?_) (fun n hn => ?_)
  · have hn' := NodeKind.mem_links_of_mem_targets hn
    rw [hl] at hn'
    exact absurd hn' List.not_mem_nil
  · rw [hk] at hl
    exact absurd hl (List.cons_ne_nil _ _)
  · rw [hl] at hn
    exact absurd hn List.not_mem_nil

theorem socket_add (h : base ≤ g) {k : NodeKind} (hk : k.isRuleEnd = false) :
    (g.add k).2.Socket apart base.size g.size :=
  ⟨h.1, by rw [size_add]; exact Nat.lt_succ_self _, fun _ => by rw [kind_add, if_pos rfl]; exact hk⟩

theorem Wires.chain : ∀ {g : Graph} (es : List Element), Wires apart base g →
    (∀ e ∈ es, g.IsPart apart base.size e) → Wires apart base (g.chain es) ∧ Grown g (g.chain es)
  | g, [], h, _ => ⟨h, .refl g⟩
  | g, [_], h, _ => ⟨h, .refl g⟩
  | g, a :: b :: rest, h, hes => by
    have ha := hes a List.mem_cons_self
    have hb := hes b (List.mem_cons_of_mem _ List.mem_cons_self)
    have hgrown : Grown g (g.connectElements a b) := grown_connect g a.plug b.socket
    obtain ⟨hw, hg⟩ := Wires.chain (b :: rest) (h.connect ha.le_plug ha.plug_lt hb.socket)
      fun e he => (hes e (List.mem_cons_of_mem _ he)).grown hgrown
    exact ⟨hw, hgrown.trans hg⟩

/-- The two ends that enclose a part are junctions, and so can be entered. -/
theorem Wires.addEnds (h : Wires apart base g) :
    Builds apart base g g.addEnds.1 g.addEnds.2 ∧
      g.addEnds.2.Socket apart base.size g.addEnds.1.plug := by
  have h₁ : Wires apart base (g.add .junction).2 := h.addLeaf rfl
  have h₂ : Wires apart base ((g.add .junction).2.add .junction).2 := h₁.addLeaf rfl
  have hstart : g.addEnds.2.Socket apart base.size g.addEnds.1.socket :=
    (socket_add h.le rfl).grown (grown_add _ .junction)
  have hstop : g.addEnds.2.Socket apart base.size g.addEnds.1.plug := socket_add h₁.le rfl
  exact ⟨⟨h₂, (grown_add _ _).trans (grown_add _ _), hstart, hstop.le, hstop.lt⟩, hstop⟩

theorem Wires.addSequence {es : List Element} (h : Wires apart base g)
    (hes : ∀ e ∈ es, g.IsPart apart base.size e) :
    Builds apart base g (g.addSequence es).1 (g.addSequence es).2 := by
  obtain ⟨hends, hstop⟩ := h.addEnds
  obtain ⟨hw, hg⟩ :=
    hends.wires.chain (.ofNode g.addEnds.1.socket :: es ++ [.ofNode g.addEnds.1.plug]) (by
    intro e he
    simp only [List.cons_append, List.mem_cons, List.mem_append, List.not_mem_nil, or_false] at he
    rcases he with rfl | he | rfl
    · exact hends.part.socket.isPart
    · exact (hes e he).grown hends.grown
    · exact hstop.isPart)
  exact ⟨hw, hends.grown.trans hg, hends.part.grown hg⟩

/-- Links drawn one after the other, each of which keeps what the earlier ones reached. -/
theorem Wires.foldl {α : Type} {f : Graph → α → Graph} {g : Graph} (xs : List α)
    (h : Wires apart base g) (step : ∀ g', Grown g g' → Wires apart base g' →
      ∀ x ∈ xs, Wires apart base (f g' x) ∧ Grown g' (f g' x)) :
    Wires apart base (xs.foldl f g) ∧ Grown g (xs.foldl f g) := by
  induction xs generalizing g with
  | nil => exact ⟨h, .refl g⟩
  | cons x xs ih =>
    obtain ⟨hw, hg⟩ := step g (.refl g) h x List.mem_cons_self
    obtain ⟨hw', hg'⟩ := ih hw fun g' hgg' hw' y hy =>
      step g' (hg.trans hgg') hw' y (List.mem_cons_of_mem _ hy)
    exact ⟨hw', hg.trans hg'⟩

/-- One link between parts. -/
theorem Wires.link {s t : NodeId} (h : Wires apart base g) (hs : base.size ≤ s) (hs' : s < g.size)
    (ht : g.Socket apart base.size t) :
    Wires apart base (g.connect s t) ∧ Grown g (g.connect s t) :=
  ⟨h.connect hs hs' ht, grown_connect g s t⟩

theorem Wires.addFork {es : List Element} (h : Wires apart base g)
    (hes : ∀ e ∈ es, g.IsPart apart base.size e) :
    Builds apart base g (g.addFork es).1 (g.addFork es).2 := by
  obtain ⟨hends, hstop⟩ := h.addEnds
  obtain ⟨hw, hg⟩ := hends.wires.foldl
    (f := fun k b => (k.connect g.addEnds.1.socket b.socket).connect b.plug g.addEnds.1.plug) es
    fun k hk hw b hb => by
      have hb' := (hes b hb).grown (hends.grown.trans hk)
      obtain ⟨hw₁, hg₁⟩ := hw.link hends.part.socket.le (hends.part.socket.grown hk).lt hb'.socket
      obtain ⟨hw₂, hg₂⟩ := hw₁.link hb'.le_plug (hb'.grown hg₁).plug_lt (hstop.grown (hk.trans hg₁))
      exact ⟨hw₂, hg₁.trans hg₂⟩
  exact ⟨hw, hends.grown.trans hg, hends.part.grown hg⟩

theorem Wires.addRepeated (h : Wires apart base g) (m : Multiplicity)
    (he : g.IsPart apart base.size e) :
    Builds apart base g (g.addRepeated m e).1 (g.addRepeated m e).2 := by
  obtain ⟨hends, hstop⟩ := h.addEnds
  have hstart := hends.part.socket
  obtain ⟨hw₁, hg₁⟩ := hends.wires.link hstart.le hstart.lt (he.grown hends.grown).socket
  have he₁ := he.grown (hends.grown.trans hg₁)
  have hlt := (hstart.grown hg₁).lt
  have key : ∀ {s t s' t' : NodeId}, base.size ≤ s →
      s < (g.addEnds.2.connect g.addEnds.1.socket e.socket).size → base.size ≤ s' →
      s' < (g.addEnds.2.connect g.addEnds.1.socket e.socket).size →
      (g.addEnds.2.connect g.addEnds.1.socket e.socket).Socket apart base.size t →
      (g.addEnds.2.connect g.addEnds.1.socket e.socket).Socket apart base.size t' →
      Builds apart base g g.addEnds.1
        (((g.addEnds.2.connect g.addEnds.1.socket e.socket).connect s t).connect s' t') := by
    intro s t s' t' hs hslt hs' hslt' ht ht'
    obtain ⟨hw₂, hg₂⟩ := hw₁.link hs hslt ht
    obtain ⟨hw₃, hg₃⟩ := hw₂.link hs' (lt_of_lt_of_le hslt' hg₂.size_le) (ht'.grown hg₂)
    have hg := hg₁.trans (hg₂.trans hg₃)
    exact ⟨hw₃, hends.grown.trans hg, hends.part.grown hg⟩
  cases m with
  | zeroOrOne => exact key he₁.le_plug he₁.plug_lt hstart.le hlt (hstop.grown hg₁) (hstop.grown hg₁)
  | zeroOrMore =>
    exact key he₁.le_plug he₁.plug_lt hstart.le hlt (hstart.grown hg₁) (hstop.grown hg₁)
  | oneOrMore =>
    exact key he₁.le_plug he₁.plug_lt he₁.le_plug he₁.plug_lt (hstop.grown hg₁) he₁.socket

/-- Every entry of a switch is the socket of one of its branches. -/
theorem mem_table {table : List (String × NodeId)} (bs : List (String × Element))
    {p : String × NodeId}
    (h : p ∈ bs.foldl (fun table (key, b) => (key, b.socket) :: table.filter (·.1 != key)) table) :
    p ∈ table ∨ ∃ b ∈ bs, p.2 = b.2.socket := by
  induction bs generalizing table with
  | nil => exact .inl h
  | cons b bs ih =>
    rcases ih h with h | ⟨c, hc, hp⟩
    · rcases List.mem_cons.mp h with rfl | h
      · exact .inr ⟨b, List.mem_cons_self, rfl⟩
      · exact .inl (List.mem_of_mem_filter h)
    · exact .inr ⟨c, List.mem_cons_of_mem _ hc, hp⟩

theorem Wires.addSwitch {bs : List (String × Element)} (h : Wires apart base g)
    (hbs : ∀ b ∈ bs, g.IsPart apart base.size b.2) :
    Builds apart base g (g.addSwitch bs).1 (g.addSwitch bs).2 := by
  have h₁ : Wires apart base (g.add .junction).2 := h.addLeaf rfl
  have hg₁ : Grown g (g.add .junction).2 := grown_add g _
  have hstop : (g.add .junction).2.Socket apart base.size g.size := socket_add h.le rfl
  obtain ⟨hw, hg⟩ := h₁.foldl (f := fun k (_, b) => k.connect b.plug g.size) bs
    fun k hk hw b hb =>
      hw.link (hbs b hb).le_plug ((hbs b hb).grown (hg₁.trans hk)).plug_lt (hstop.grown hk)
  have htable : ∀ n ∈ (NodeKind.switch (bs.foldl (fun table (key, b) =>
      (key, b.socket) :: table.filter (·.1 != key)) []) g.size).targets [],
      (bs.foldl (fun k (_, b) => k.connect b.plug g.size) (g.add .junction).2).Socket apart
        base.size n := by
    intro n hn
    obtain ⟨p, hp, rfl⟩ := List.mem_map.mp hn
    rcases mem_table bs hp with hp | ⟨b, hb, hpb⟩
    · exact absurd hp List.not_mem_nil
    · rw [hpb]
      exact (hbs b hb).socket.grown (hg₁.trans hg)
  have hg₂ := grown_add
    (bs.foldl (fun k (_, b) => k.connect b.plug g.size) (g.add .junction).2)
    (.switch
      (bs.foldl (fun table (key, b) => (key, b.socket) :: table.filter (·.1 != key)) []) g.size)
  have hplug := hstop.grown (hg.trans hg₂)
  refine ⟨hw.add _ htable (by simp) fun n hn => ?_, hg₁.trans (hg.trans hg₂), socket_add hw.le rfl,
    hplug.le, hplug.lt⟩
  rcases List.mem_cons.mp hn with rfl | hn
  · exact (hstop.grown hg).lt
  · exact (htable n hn).lt

theorem Wires.addGuard (h : Wires apart base g) (holds : Context → Bool) :
    Builds apart base g (g.addGuard holds).1 (g.addGuard holds).2 := by
  have h₁ : Wires apart base (g.add .junction).2 := h.addLeaf rfl
  have hstop : (g.add .junction).2.Socket apart base.size g.size := socket_add h.le rfl
  have hg := grown_add (g.add .junction).2 (.gate holds g.size)
  have hplug := hstop.grown hg
  have htarget : ∀ n ∈ [g.size], (g.add .junction).2.Socket apart base.size n := by
    intro n hn
    obtain rfl := List.mem_singleton.mp hn
    exact hstop
  exact ⟨h₁.add _ htarget (by simp) fun n hn => (htarget n hn).lt, (grown_add g _).trans hg,
    socket_add h₁.le rfl, hplug.le, hplug.lt⟩

theorem Wires.addCall (h : Wires apart base g) (rule : RuleId) (ident : Option String) :
    Builds apart base g (g.addCall rule ident).1 (g.addCall rule ident).2 := by
  have h₁ : Wires apart base (g.add (.ruleEnd rule ident)).2 := h.addLeaf rfl
  have hlt : g.size < (g.add (.ruleEnd rule ident)).2.size := by
    rw [size_add]; exact Nat.lt_succ_self _
  have hg := grown_add (g.add (.ruleEnd rule ident)).2 (.ruleStart rule ident g.size)
  refine ⟨h₁.add _ (by simp [NodeKind.targets]) ?_ ?_, (grown_add g _).trans hg,
    socket_add h₁.le rfl, h.le.1, lt_of_lt_of_le hlt hg.size_le⟩
  · intro r i stop hk
    injection hk with hr hi hs
    subst hr hi hs
    exact ⟨h.le.1, hlt, by rw [kind_add, if_pos rfl]⟩
  · intro n hn
    obtain rfl := List.mem_singleton.mp hn
    exact hlt

/-! ## Pieces and bodies -/

/-- All parts a clause can refer to are parts of the body. -/
structure HasParts (g : Graph) (apart : Prop) (lo : Nat) (parts : Parts) : Prop where
  entry : g.Socket apart lo parts.entry
  exit : g.Socket apart lo parts.exit
  built : ∀ e ∈ parts.built, g.IsPart apart lo e

theorem HasParts.grown {lo : Nat} {parts : Parts} (hg : Grown a b) (h : a.HasParts apart lo parts) :
    b.HasParts apart lo parts :=
  ⟨h.entry.grown hg, h.exit.grown hg, fun e he => (h.built e he).grown hg⟩

theorem HasParts.resolve {lo : Nat} {parts : Parts} (h : g.HasParts apart lo parts) :
    ∀ r : Ref, (apart → r.AtSocket) → g.IsPart apart lo (parts.resolve r)
  | .entry, _ => h.entry.isPart
  | .exit, _ => h.exit.isPart
  | .part i, _ => by
    rw [Parts.resolve]
    cases hi : parts.built[i]? with
    | none => exact h.entry.isPart
    | some e => exact h.built e (Array.mem_of_getElem? hi)
  | .span first last, hr => by
    have hfirst := h.resolve first fun hapart => (hr hapart).1
    have hlast := h.resolve last fun hapart => (hr hapart).2
    exact ⟨hfirst.socket, hlast.le_plug, hlast.plug_lt⟩
  | .socket r, hr => (h.resolve r hr).socket.isPart
  | .plug r, hr => by
    have hpart := h.resolve r fun hapart => absurd (hr hapart) id
    exact Socket.isPart ⟨hpart.le_plug, hpart.plug_lt, fun hapart => absurd (hr hapart) id⟩

theorem HasParts.push {lo : Nat} {parts : Parts} (hg : Grown a b) (h : a.HasParts apart lo parts)
    (he : b.IsPart apart lo e) :
    b.HasParts apart lo { parts with built := parts.built.push e } := by
  refine ⟨h.entry.grown hg, h.exit.grown hg, ?_⟩
  intro e' he'
  rcases Array.mem_push.mp he' with he' | rfl
  · exact (h.built e' he').grown hg
  · exact he

theorem HasParts.chain {parts : Parts} (hw : Wires apart base g)
    (h : g.HasParts apart base.size parts) {refs : List Ref}
    (hrefs : apart → ∀ r ∈ refs, r.AtSocket) :
    Wires apart base (g.chain (refs.map parts.resolve)) ∧
      Grown g (g.chain (refs.map parts.resolve)) := by
  refine hw.chain _ ?_
  intro e he
  obtain ⟨r, hr, rfl⟩ := List.mem_map.mp he
  exact h.resolve r fun hapart => hrefs hapart r hr

end Graph

namespace Piece

open GrammarGraph.Graph

variable {apart : Prop} {base : Graph} {parts : Parts}

mutual

theorem build_builds : ∀ (p : Piece) {g : Graph}, Wires apart base g →
    g.HasParts apart base.size parts → (apart → p.AtSockets) →
    Builds apart base g (p.build parts g).1 (p.build parts g).2
  | .ref r, g, h, hp, hr => ⟨h, .refl g, hp.resolve r hr⟩
  | .junction, g, h, _, _ =>
    ⟨h.addLeaf rfl, grown_add g _, (socket_add h.le (k := .junction) rfl).isPart⟩
  | .slot type ident hook, g, h, _, _ =>
    ⟨h.addLeaf rfl, grown_add g _, (socket_add h.le (k := .slot type ident hook) rfl).isPart⟩
  | .call rule ident, _, h, _, _ => h.addCall rule ident
  | .sequence ps, _, h, hp, hr => by
    obtain ⟨hw, hg, hes⟩ := buildAll_builds ps h hp hr
    obtain ⟨hw', hg', he⟩ := hw.addSequence hes
    exact ⟨hw', hg.trans hg', he⟩
  | .fork ps, _, h, hp, hr => by
    obtain ⟨hw, hg, hes⟩ := buildAll_builds ps h hp hr
    obtain ⟨hw', hg', he⟩ := hw.addFork hes
    exact ⟨hw', hg.trans hg', he⟩
  | .repeated m p, _, h, hp, hr => by
    obtain ⟨hw, hg, he⟩ := build_builds p h hp hr
    obtain ⟨hw', hg', he'⟩ := hw.addRepeated m he
    exact ⟨hw', hg.trans hg', he'⟩
  | .switch bs, _, h, hp, hr => by
    obtain ⟨hw, hg, hes⟩ := buildBranches_builds bs h hp hr
    obtain ⟨hw', hg', he⟩ := hw.addSwitch hes
    exact ⟨hw', hg.trans hg', he⟩
  | .guard holds, _, h, _, _ => h.addGuard holds

theorem buildAll_builds : ∀ (ps : List Piece) {g : Graph}, Wires apart base g →
    g.HasParts apart base.size parts → (apart → AllAtSockets ps) →
    Wires apart base (buildAll parts ps g).2 ∧ Grown g (buildAll parts ps g).2 ∧
      ∀ e ∈ (buildAll parts ps g).1, (buildAll parts ps g).2.IsPart apart base.size e
  | [], g, h, _, _ => ⟨h, .refl g, fun _ he => absurd he List.not_mem_nil⟩
  | p :: ps, _, h, hp, hr => by
    obtain ⟨hw, hg, he⟩ := build_builds p h hp fun hapart => (hr hapart).1
    obtain ⟨hw', hg', hes⟩ := buildAll_builds ps hw (hp.grown hg) fun hapart => (hr hapart).2
    refine ⟨hw', hg.trans hg', ?_⟩
    intro e' he'
    rcases List.mem_cons.mp he' with rfl | he'
    · exact he.grown hg'
    · exact hes e' he'

theorem buildBranches_builds : ∀ (bs : List (String × Piece)) {g : Graph}, Wires apart base g →
    g.HasParts apart base.size parts → (apart → BranchesAtSockets bs) →
    Wires apart base (buildBranches parts bs g).2 ∧ Grown g (buildBranches parts bs g).2 ∧
      ∀ b ∈ (buildBranches parts bs g).1, (buildBranches parts bs g).2.IsPart apart base.size b.2
  | [], g, h, _, _ => ⟨h, .refl g, fun _ he => absurd he List.not_mem_nil⟩
  | b :: bs, _, h, hp, hr => by
    obtain ⟨hw, hg, he⟩ := buildBranch_builds b h hp fun hapart => (hr hapart).1
    obtain ⟨hw', hg', hes⟩ := buildBranches_builds bs hw (hp.grown hg) fun hapart => (hr hapart).2
    refine ⟨hw', hg.trans hg', ?_⟩
    intro e' he'
    rcases List.mem_cons.mp he' with rfl | he'
    · exact he.grown hg'
    · exact hes e' he'

theorem buildBranch_builds : ∀ (b : String × Piece) {g : Graph}, Wires apart base g →
    g.HasParts apart base.size parts → (apart → BranchAtSockets b) →
    Builds apart base g (buildBranch parts b g).1.2 (buildBranch parts b g).2
  | (_, p), _, h, hp, hr => build_builds p h hp hr

end

end Piece

namespace Body

open GrammarGraph.Graph

variable {apart : Prop} {base : Graph}

theorem wire_wires {parts : Parts} {g : Graph} : ∀ (body : Body), Wires apart base g →
    g.HasParts apart base.size parts → (apart → body.AtSockets) →
    Wires apart base (body.wire parts g) ∧ Grown g (body.wire parts g)
  | [], h, _, _ => ⟨h, .refl g⟩
  | .part p :: rest, h, hp, hr => by
    obtain ⟨hw, hg, he⟩ := p.build_builds h hp fun hapart => (hr hapart).1
    obtain ⟨hw', hg'⟩ := wire_wires rest hw (hp.push hg he) fun hapart => (hr hapart).2
    exact ⟨hw', hg.trans hg'⟩
  | .chain refs :: rest, h, hp, hr => by
    obtain ⟨hw, hg⟩ := hp.chain h fun hapart => (hr hapart).1
    obtain ⟨hw', hg'⟩ := wire_wires rest hw (hp.grown hg) fun hapart => (hr hapart).2
    exact ⟨hw', hg.trans hg'⟩

end Body

end GrammarGraph
