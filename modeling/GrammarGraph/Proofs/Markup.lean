import GrammarGraph.Tree.Xml
import Mathlib.Data.List.Basic

/-!
# Trees can be told from their XML

What is written for a tree can be read back as long as its names end where the output goes
on: two such trees with the same output have the same shape, whatever their texts and ids
are (`Tree.toXml_eq_iff`).  Entities are read back one at a time, a name up to what ends it,
and a text up to the next element or closing tag; the indentation tells the children of a
node from what is behind it.  Each character is escaped by itself, which comes to the same as five
replacements in turn (`Tree.escapeXml_eq_replaceChar`).
-/

namespace GrammarGraph

namespace Tree

variable {c d : Char} {a b x y : List Char} {s t : String}

/-! ## Entities -/

/-- Read a character of a text or attribute, which may be an entity. -/
def readXmlChar : List Char → Option (Char × List Char)
  | '&' :: 'a' :: 'm' :: 'p' :: ';' :: rest => some ('&', rest)
  | '&' :: 'l' :: 't' :: ';' :: rest => some ('<', rest)
  | '&' :: 'g' :: 't' :: ';' :: rest => some ('>', rest)
  | '&' :: 'q' :: 'u' :: 'o' :: 't' :: ';' :: rest => some ('\x22', rest)
  | '&' :: 'a' :: 'p' :: 'o' :: 's' :: ';' :: rest => some ('\x27', rest)
  | c :: rest => some (c, rest)
  | [] => none

theorem readXmlChar_of_ne (h : c ≠ '&') (rest : List Char) :
    readXmlChar (c :: rest) = some (c, rest) := by
  unfold readXmlChar
  split <;> simp_all

theorem readXmlChar_escapeXmlChar (c : Char) (rest : List Char) :
    readXmlChar (escapeXmlChar c ++ rest) = some (c, rest) := by
  unfold escapeXmlChar
  split_ifs with hamp hlt hgt hquot hapos
  · rw [beq_iff_eq.mp hamp]
    rfl
  · rw [beq_iff_eq.mp hlt]
    rfl
  · rw [beq_iff_eq.mp hgt]
    rfl
  · rw [beq_iff_eq.mp hquot]
    rfl
  · rw [beq_iff_eq.mp hapos]
    rfl
  · exact readXmlChar_of_ne (fun h => hamp (beq_iff_eq.mpr h)) rest

theorem escapeXmlChar_ne_nil (c : Char) : escapeXmlChar c ≠ [] := by
  intro hnil
  have hread := readXmlChar_escapeXmlChar c []
  rw [hnil] at hread
  exact absurd hread nofun

theorem flatMap_escapeXmlChar_inj (h : x.flatMap escapeXmlChar = y.flatMap escapeXmlChar) :
    x = y := by
  induction x generalizing y with
  | nil =>
    cases y with
    | nil => rfl
    | cons d y => exact absurd (List.append_eq_nil_iff.mp h.symm).1 (escapeXmlChar_ne_nil d)
  | cons c x ih =>
    cases y with
    | nil => exact absurd (List.append_eq_nil_iff.mp h).1 (escapeXmlChar_ne_nil c)
    | cons d y =>
      rw [List.flatMap_cons, List.flatMap_cons] at h
      have hread := congrArg readXmlChar h
      rw [readXmlChar_escapeXmlChar, readXmlChar_escapeXmlChar] at hread
      obtain ⟨rfl, hrest⟩ := Prod.mk.inj (Option.some.inj hread)
      rw [ih hrest]

theorem toList_escapeXml (s : String) : (escapeXml s).toList = s.toList.flatMap escapeXmlChar :=
  String.toList_ofList

/-- Write an entity for every occurrence of the character. -/
def replaceChar (c : Char) (entity : String) (text : List Char) : List Char :=
  text.flatMap fun d => if d == c then entity.toList else [d]

theorem replaceChar_append (c : Char) (entity : String) (x y : List Char) :
    replaceChar c entity (x ++ y) = replaceChar c entity x ++ replaceChar c entity y :=
  List.flatMap_append

/-- What is written is what five replacements in turn give: as that of the ampersand comes first,
none of them replaces anything in an entity. -/
theorem escapeXml_eq_replaceChar (s : String) : (escapeXml s).toList =
    replaceChar '\x27' "&apos;" (replaceChar '\x22' "&quot;" (replaceChar '>' "&gt;"
      (replaceChar '<' "&lt;" (replaceChar '&' "&amp;" s.toList)))) := by
  rw [toList_escapeXml]
  induction s.toList with
  | nil => rfl
  | cons c cs ih =>
    rw [List.flatMap_cons, ih, ← List.singleton_append (l := cs)]
    simp only [replaceChar_append]
    congr 1
    unfold escapeXmlChar
    split_ifs with hamp hlt hgt hquot hapos
    · rw [beq_iff_eq.mp hamp]
      rfl
    · rw [beq_iff_eq.mp hlt]
      rfl
    · rw [beq_iff_eq.mp hgt]
      rfl
    · rw [beq_iff_eq.mp hquot]
      rfl
    · rw [beq_iff_eq.mp hapos]
      rfl
    · simp only [replaceChar, List.flatMap_cons, List.flatMap_nil, List.append_nil, hamp, hlt, hgt,
        hquot, hapos, if_false, Bool.false_eq_true]

theorem escapeXml_inj (h : (escapeXml s).toList = (escapeXml t).toList) : s = t := by
  rw [toList_escapeXml, toList_escapeXml] at h
  exact String.toList_inj.mp (flatMap_escapeXmlChar_inj h)

/-- No text or attribute contains a character that ends it. -/
theorem not_mem_escapeXml (hc : c = '<' ∨ c = '\x22') (s : String) : c ∉ (escapeXml s).toList := by
  have hchar : ∀ d, c ∉ escapeXmlChar d := by
    intro d
    unfold escapeXmlChar
    split_ifs with hamp hlt hgt hquot hapos
    case neg =>
      rw [List.mem_singleton]
      rintro rfl
      rcases hc with rfl | rfl
      · exact hlt rfl
      · exact hquot rfl
    all_goals rcases hc with rfl | rfl <;> decide
  rw [toList_escapeXml, List.mem_flatMap]
  exact fun ⟨d, _, hmem⟩ => hchar d hmem

/-! ## Names and ids -/

/-- A text without the characters that end it can be told from what is behind it. -/
theorem append_cons_inj (ends : Char → Prop) (ha : ∀ e ∈ a, ¬ends e) (hb : ∀ e ∈ b, ¬ends e)
    (hc : ends c) (hd : ends d) (h : a ++ c :: x = b ++ d :: y) : a = b ∧ c :: x = d :: y := by
  induction a generalizing b with
  | nil =>
    cases b with
    | nil => exact ⟨rfl, h⟩
    | cons e b => exact absurd ((List.cons.inj h).1 ▸ hc) (hb e List.mem_cons_self)
  | cons e a ih =>
    cases b with
    | nil => exact absurd ((List.cons.inj h).1 ▸ hd) (ha e List.mem_cons_self)
    | cons e' b =>
      obtain ⟨rfl, htail⟩ := List.cons.inj h
      obtain ⟨rfl, hrest⟩ := ih (fun e he => ha e (List.mem_cons_of_mem _ he))
        (fun e he => hb e (List.mem_cons_of_mem _ he)) htail
      exact ⟨rfl, hrest⟩

/-- What may follow a name. -/
def EndsName (c : Char) : Prop := c = ' ' ∨ c = '>' ∨ c = '/'

/-- A name that is not empty and can be told from what follows it. -/
def IsTagName (name : String) : Prop := name ≠ "" ∧ ∀ c ∈ name.toList, ¬EndsName c

instance : DecidablePred EndsName :=
  fun c => inferInstanceAs (Decidable (c = ' ' ∨ c = '>' ∨ c = '/'))

instance (name : String) : Decidable (IsTagName name) :=
  decidable_of_iff (name ≠ "" ∧
    name.toList.all (fun c => decide ¬EndsName c) = true) (by simp [IsTagName])

mutual

/-- All nodes of the tree have such names. -/
def Tagged : Tree → Prop
  | ⟨name, _, _, children, _⟩ => IsTagName name ∧ TaggedAll children

def TaggedAll : List Tree → Prop
  | [] => True
  | t :: ts => Tagged t ∧ TaggedAll ts

end

theorem Tagged.isTagName {t : Tree} (h : t.Tagged) : IsTagName t.name := by
  cases t
  exact (Tagged.eq_def _ ▸ h).1

theorem Tagged.children {t : Tree} (h : t.Tagged) : TaggedAll t.children := by
  cases t
  exact (Tagged.eq_def _ ▸ h).2

/-- What may follow the id of a node. -/
def EndsHead (c : Char) : Prop := c = '>' ∨ c = '/'

theorem toList_idAttribute (hs : s ≠ "") :
    (idAttribute s).toList =
      ' ' :: 'i' :: 'd' :: '=' :: '\x22' :: ((escapeXml s).toList ++ ['\x22']) := by
  rw [idAttribute, if_neg hs, String.toList_append, String.toList_append]
  rfl

theorem idAttribute_inj (hc : EndsHead c) (hd : EndsHead d)
    (h : (idAttribute s).toList ++ c :: x = (idAttribute t).toList ++ d :: y) :
    s = t ∧ c :: x = d :: y := by
  by_cases hs : s = "" <;> by_cases ht : t = ""
  · subst hs ht
    exact ⟨rfl, h⟩
  · rw [toList_idAttribute ht, hs] at h
    rw [(List.cons.inj h).1] at hc
    exact absurd hc (by unfold EndsHead; decide)
  · rw [toList_idAttribute hs, ht] at h
    rw [← (List.cons.inj h).1] at hd
    exact absurd hd (by unfold EndsHead; decide)
  · rw [toList_idAttribute hs, toList_idAttribute ht] at h
    simp only [List.cons_append, List.append_assoc, List.cons.injEq, true_and, List.nil_append] at h
    have hquote : ∀ text, ∀ e ∈ (escapeXml text).toList, ¬e = '\x22' := by
      rintro text e he rfl
      exact not_mem_escapeXml (.inr rfl) text he
    obtain ⟨hid, h⟩ := append_cons_inj (· = '\x22') (hquote s) (hquote t) rfl rfl h
    exact ⟨escapeXml_inj hid, (List.cons.inj h).2⟩

/-! ## Nodes -/

/-- What closes the element of a node. -/
def closing (name : String) : List Char := '/' :: (name.toList ++ ['>', '\n'])

/-- What is written for a node behind its name and id. -/
def xmlBehind (indent : String) (t : Tree) : List Char :=
  match t.children with
  | [] =>
    if t.text = "" then ['/', '>', '\n'] else '>' ::
        ((escapeXml t.text).toList ++ '<' :: closing t.name)
  | children =>
    '>' :: ((escapeXml t.text).toList ++ '\n' ::
        ((xmlAll (indent ++ "\t") children).toList ++ (indent.toList ++ '<' :: closing t.name)))

theorem toList_xmlAt (indent : String) (t : Tree) : (xmlAt indent t).toList =
    indent.toList ++ '<' ::
    (t.name.toList ++ ((idAttribute t.id).toList ++ xmlBehind indent t)) := by
  obtain ⟨name, text, id, _ | ⟨child, children⟩, token⟩ := t
  · rw [xmlAt]
    by_cases htext : text = "" <;> simp [xmlBehind, closing, htext]
  · rw [xmlAt]
    simp [xmlBehind, closing, xmlAll]

theorem exists_xmlBehind (indent : String) (t : Tree) :
    ∃ c x, EndsHead c ∧ xmlBehind indent t = c :: x := by
  unfold xmlBehind
  split
  · split
    · exact ⟨'/', _, .inr rfl, rfl⟩
    · exact ⟨'>', _, .inl rfl, rfl⟩
  · exact ⟨'>', _, .inl rfl, rfl⟩

/-- The id and what is behind it end a name. -/
theorem exists_idAttribute (hc : EndsHead c) (id : String) (x : List Char) :
    ∃ e z, EndsName e ∧ (idAttribute id).toList ++ c :: x = e :: z := by
  by_cases hid : id = ""
  · subst hid
    exact ⟨c, x, .inr hc, rfl⟩
  · rw [toList_idAttribute hid]
    exact ⟨' ', _, .inl rfl, rfl⟩

/-- What is written for a node tells its name, its id and what is behind them. -/
theorem xmlAt_head_inj {t u : Tree} {indent : String} (ht : IsTagName t.name)
    (hu : IsTagName u.name) (h : (xmlAt indent t).toList ++ a = (xmlAt indent u).toList ++ b) :
    t.name = u.name ∧ t.id = u.id ∧ xmlBehind indent t ++ a = xmlBehind indent u ++ b := by
  obtain ⟨c, x, hc, hx⟩ := exists_xmlBehind indent t
  obtain ⟨d, y, hd, hy⟩ := exists_xmlBehind indent u
  obtain ⟨e, z, he, hz⟩ := exists_idAttribute hc t.id (x ++ a)
  obtain ⟨e', z', he', hz'⟩ := exists_idAttribute hd u.id (y ++ b)
  rw [toList_xmlAt, toList_xmlAt, hx, hy] at h
  simp only [List.append_assoc, List.cons_append, List.append_cancel_left_eq, List.cons.injEq,
    true_and] at h
  rw [hz, hz'] at h
  obtain ⟨hname, hrest⟩ := append_cons_inj _ ht.2 hu.2 he he' h
  rw [← hz, ← hz'] at hrest
  obtain ⟨hid, hbehind⟩ := idAttribute_inj hc hd hrest
  exact ⟨String.toList_inj.mp hname, hid, by rw [hx, hy]; exact hbehind⟩

/-- Children start with their indentation and a name. -/
theorem exists_xmlAll {t : Tree} (ht : IsTagName t.name) (indent : String) (ts : List Tree) :
    ∃ c x, c ≠ '/' ∧ (xmlAll indent (t :: ts)).toList = indent.toList ++ '<' :: c :: x := by
  obtain ⟨c, cs, hname⟩ := List.exists_cons_of_ne_nil fun hnil =>
    ht.1 (String.toList_eq_nil_iff.mp hnil)
  have hslash : c ≠ '/' := by
    rintro rfl
    exact ht.2 '/' (hname ▸ List.mem_cons_self) (.inr (.inr rfl))
  have htext : (xmlAll indent (t :: ts)).toList = indent.toList ++ '<' :: c ::
      (cs ++ ((idAttribute t.id).toList ++ xmlBehind indent t) ++ (xmlAll indent ts).toList) := by
    rw [xmlAll, String.toList_append, toList_xmlAt, hname]
    simp only [List.append_assoc, List.cons_append]
  exact ⟨c, _, hslash, htext⟩

/-- A text ends at the next element or closing tag. -/
theorem escapeXml_append_inj (hx : '<' ∉ x) (hy : '<' ∉ y)
    (h : (escapeXml s).toList ++ (x ++ '<' :: a) = (escapeXml t).toList ++ (y ++ '<' :: b)) :
    (escapeXml s).toList ++ x = (escapeXml t).toList ++ y ∧ a = b := by
  have hfree : ∀ {text : String} {z : List Char}, '<' ∉ z →
      ∀ e ∈ (escapeXml text).toList ++ z, ¬e = '<' := by
    rintro text z hz e he rfl
    exact (List.mem_append.mp he).elim (not_mem_escapeXml (.inl rfl) text) hz
  rw [← List.append_assoc, ← List.append_assoc] at h
  obtain ⟨htext, hrest⟩ := append_cons_inj (· = '<') (hfree hx) (hfree hy) rfl rfl h
  exact ⟨htext, (List.cons.inj hrest).2⟩

theorem TaggedAll.isTagName {t : Tree} {ts : List Tree} (h : TaggedAll (t :: ts)) :
    IsTagName t.name := h.1.isTagName

theorem not_mem_tabbed {indent : String} (h : '<' ∉ indent.toList) :
    '<' ∉ (indent ++ "\t").toList := by
  rw [String.toList_append, List.mem_append]
  exact fun hmem => hmem.elim h (by decide)

theorem not_mem_break {indent : String} (h : '<' ∉ indent.toList) :
    '<' ∉ '\n' :: (indent ++ "\t").toList := by
  rw [List.mem_cons, not_or]
  exact ⟨by decide, not_mem_tabbed h⟩

/-- Behind a text an element is closed, or its children follow on lines of their own. -/
theorem closing_ne_xmlAll {t : Tree} {ts : List Tree} {indent name text text' : String}
    (ht : IsTagName t.name) (hindent : '<' ∉ indent.toList) :
    (escapeXml text).toList ++ '<' :: (closing name ++ a) ≠
      (escapeXml text').toList ++ '\n' :: ((xmlAll (indent ++ "\t") (t :: ts)).toList ++ b) := by
  obtain ⟨c, x, hslash, hchildren⟩ := exists_xmlAll ht (indent ++ "\t") ts
  intro h
  rw [hchildren, List.append_assoc, List.cons_append, List.cons_append] at h
  obtain ⟨-, hrest⟩ := escapeXml_append_inj (x := []) (y := '\n' :: (indent ++ "\t").toList)
    List.not_mem_nil (not_mem_break hindent) h
  exact hslash (List.cons.inj hrest).1.symm

/-- The children of two nodes are told from the texts in front of them. -/
theorem escapeXml_xmlAll_inj {t u : Tree} {ts us : List Tree} {indent text text' : String}
    (ht : IsTagName t.name) (hu : IsTagName u.name) (hindent : '<' ∉ indent.toList)
    (h : (escapeXml text).toList ++ '\n' :: ((xmlAll (indent ++ "\t") (t :: ts)).toList ++ a) =
      (escapeXml text').toList ++ '\n' :: ((xmlAll (indent ++ "\t") (u :: us)).toList ++ b)) :
    text = text' ∧
      (xmlAll (indent ++ "\t") (t :: ts)).toList ++ a =
        (xmlAll (indent ++ "\t") (u :: us)).toList ++ b := by
  obtain ⟨c, x, -, hts⟩ := exists_xmlAll ht (indent ++ "\t") ts
  obtain ⟨d, y, -, hus⟩ := exists_xmlAll hu (indent ++ "\t") us
  have hsplit := h
  rw [hts, hus] at hsplit
  simp only [List.append_assoc, List.cons_append] at hsplit
  have hbreak := not_mem_break hindent
  obtain ⟨htext, -⟩ := escapeXml_append_inj (x := '\n' :: (indent ++ "\t").toList)
    (y := '\n' :: (indent ++ "\t").toList) hbreak hbreak hsplit
  obtain rfl := escapeXml_inj (List.append_cancel_right htext)
  exact ⟨rfl, (List.cons.inj (List.append_cancel_left h)).2⟩

/-- Behind a name and an id the output tells the text, whether there are children, and where the
element ends.  For the children this is to be known already. -/
theorem xmlBehind_inj {t u : Tree} {indent : String} (hname : t.name = u.name)
    (hindent : '<' ∉ indent.toList) (ht : TaggedAll t.children) (hu : TaggedAll u.children)
    (ih : ∀ {x y : List Char}, (xmlAll (indent ++ "\t") t.children).toList ++ (indent.toList ++
      '<' :: x) = (xmlAll (indent ++ "\t") u.children).toList ++ (indent.toList ++ '<' :: y) →
      sameShapes t.children u.children = true ∧ x = y)
    (h : xmlBehind indent t ++ a = xmlBehind indent u ++ b) :
    t.text = u.text ∧ sameShapes t.children u.children = true ∧ a = b := by
  unfold xmlBehind at h
  rw [hname] at h
  cases htc : t.children <;> cases huc : u.children <;> rw [htc, huc] at h <;> simp only at h <;>
    rw [htc] at ht ih <;>
    rw [huc] at hu ih
  case nil.nil =>
    split_ifs at h with htext hutext hutext
    · exact ⟨htext.trans hutext.symm, rfl, List.append_cancel_left h⟩
    · exact absurd (List.cons.inj h).1 (by decide)
    · exact absurd (List.cons.inj h).1 (by decide)
    · simp only [List.cons_append, List.append_assoc, List.cons.injEq, true_and] at h
      obtain ⟨htext, hrest⟩ :=
        escapeXml_append_inj (x := []) (y := []) List.not_mem_nil List.not_mem_nil h
      rw [List.append_nil, List.append_nil] at htext
      exact ⟨escapeXml_inj htext, rfl, List.append_cancel_left hrest⟩
  case nil.cons child children =>
    split_ifs at h
    · exact absurd (List.cons.inj h).1 (by decide)
    · simp only [List.cons_append, List.append_assoc, List.cons.injEq, true_and] at h
      exact absurd h (closing_ne_xmlAll hu.isTagName hindent)
  case cons.nil child children =>
    split_ifs at h
    · exact absurd (List.cons.inj h).1 (by decide)
    · simp only [List.cons_append, List.append_assoc, List.cons.injEq, true_and] at h
      exact absurd h.symm (closing_ne_xmlAll ht.isTagName hindent)
  case cons.cons child children child' children' =>
    simp only [List.cons_append, List.append_assoc, List.cons.injEq, true_and] at h
    obtain ⟨htext, hchildren⟩ := escapeXml_xmlAll_inj ht.isTagName hu.isTagName hindent h
    obtain ⟨hshapes, hrest⟩ := ih hchildren
    exact ⟨htext, hshapes, List.append_cancel_left hrest⟩

/-- The line that closes a node is indented by one tab less than its children. -/
theorem ne_xmlAll {t : Tree} {ts : List Tree} {indent : String} (ht : IsTagName t.name) :
    (xmlAll (indent ++ "\t") []).toList ++ (indent.toList ++ '<' :: a) ≠
      (xmlAll (indent ++ "\t") (t :: ts)).toList ++ b := by
  obtain ⟨c, x, -, hts⟩ := exists_xmlAll ht (indent ++ "\t") ts
  intro h
  rw [hts, xmlAll, String.toList_empty, List.nil_append, String.toList_append, List.append_assoc,
    List.append_assoc] at h
  exact absurd (List.cons.inj (List.append_cancel_left h)).1 (by decide)

mutual

theorem xmlAt_inj : ∀ {t u : Tree} {indent : String} {a b : List Char}, t.Tagged → u.Tagged →
    '<' ∉ indent.toList → (xmlAt indent t).toList ++ a = (xmlAt indent u).toList ++ b →
    sameShape t u = true ∧ a = b
  | ⟨name, text, id, children, token⟩, u, indent, a, b, ht, hu, hindent, h => by
    obtain ⟨hname, hid, hbehind⟩ := xmlAt_head_inj ht.isTagName hu.isTagName h
    obtain ⟨htext, hshapes, hrest⟩ := xmlBehind_inj hname hindent ht.children hu.children
      (fun hchildren => xmlAll_inj ht.children hu.children hindent hchildren) hbehind
    simp only at hname hid htext hshapes
    refine ⟨?_, hrest⟩
    rw [sameShape, hname, htext, hid, hshapes]
    simp

theorem xmlAll_inj : ∀ {ts us : List Tree} {indent : String} {a b : List Char}, TaggedAll ts →
    TaggedAll us → '<' ∉ indent.toList →
    (xmlAll (indent ++ "\t") ts).toList ++ (indent.toList ++ '<' :: a) =
      (xmlAll (indent ++ "\t") us).toList ++ (indent.toList ++ '<' :: b) →
      sameShapes ts us = true ∧ a = b
  | [], [], indent, a, b, _, _, _, h => by
    rw [xmlAll, String.toList_empty, List.nil_append, List.nil_append] at h
    exact ⟨rfl, (List.cons.inj (List.append_cancel_left h)).2⟩
  | [], u :: us, indent, a, b, _, hus, _, h => absurd h (ne_xmlAll hus.isTagName)
  | t :: ts, [], indent, a, b, hts, _, _, h => absurd h.symm (ne_xmlAll hts.isTagName)
  | t :: ts, u :: us, indent, a, b, hts, hus, hindent, h => by
    rw [xmlAll, xmlAll, String.toList_append, String.toList_append, List.append_assoc,
      List.append_assoc] at h
    obtain ⟨hshape, hrest⟩ := xmlAt_inj hts.1 hus.1 (not_mem_tabbed hindent) h
    obtain ⟨hshapes, htail⟩ := xmlAll_inj hts.2 hus.2 hindent hrest
    exact ⟨by rw [sameShapes, hshape, hshapes]; rfl, htail⟩

end

mutual

/-- Tokens are not written. -/
theorem xmlAt_of_sameShape : ∀ {t u : Tree} (indent : String), sameShape t u = true →
    xmlAt indent t = xmlAt indent u
  | ⟨name, text, id, children, token⟩, ⟨name', text', id', children', token'⟩, indent, h => by
    simp only [sameShape, Bool.and_eq_true, beq_iff_eq] at h
    obtain ⟨⟨⟨rfl, rfl⟩, rfl⟩, hchildren⟩ := h
    cases children <;> cases children' <;>
      simp only [sameShapes, Bool.and_eq_true, Bool.false_eq_true] at hchildren
    case nil.nil => rw [xmlAt, xmlAt]
    case cons.cons =>
      rw [xmlAt, xmlAt, xmlAt_of_sameShape _ hchildren.1, xmlAll_of_sameShapes _ hchildren.2]

theorem xmlAll_of_sameShapes : ∀ {ts us : List Tree} (indent : String), sameShapes ts us = true →
    xmlAll indent ts = xmlAll indent us
  | [], [], _, _ => rfl
  | t :: ts, u :: us, indent, h => by
    simp only [sameShapes, Bool.and_eq_true] at h
    rw [xmlAll, xmlAll, xmlAt_of_sameShape indent h.1, xmlAll_of_sameShapes indent h.2]

end

/-- The output tells the names, texts, ids and the order of the children at every
level, and nothing else. -/
theorem toXml_eq_iff {t u : Tree} (ht : t.Tagged) (hu : u.Tagged) :
    t.toXml = u.toXml ↔ t.sameShape u = true := by
  refine ⟨fun h => ?_, xmlAt_of_sameShape ""⟩
  have hlists : (xmlAt "" t).toList ++ [] = (xmlAt "" u).toList ++ [] :=
    congrArg (String.toList · ++ []) h
  exact (xmlAt_inj ht hu (by decide) hlists).1

end Tree

namespace Sample

/-- A list with an item in it. -/
def listOfItem : Tree := ⟨"list", "", "", [⟨"item", "", "", [], none⟩], none⟩

/-- A list whose text reads like an item on a line of its own. -/
def listOfText : Tree := ⟨"list", "\n\t<item/>\n", "", [], none⟩

/-- A text is not taken for an element, in spite of the line breaks and the markup in it. -/
theorem toXml_eq_iff_lookalikes :
    listOfItem.Tagged ∧ listOfText.Tagged ∧ listOfItem.toXml ≠ listOfText.toXml := by
  have hitem : listOfItem.Tagged := ⟨by decide, ⟨by decide, trivial⟩, trivial⟩
  have htext : listOfText.Tagged := ⟨by decide, trivial⟩
  exact ⟨hitem, htext, fun h => absurd ((Tree.toXml_eq_iff hitem htext).mp h) (by decide)⟩

end Sample

end GrammarGraph
