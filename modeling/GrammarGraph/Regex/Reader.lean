import GrammarGraph.Regex.Basic

/-! # Reading patterns

The reader walks over the text once. Open groups, and in a bracketed class the open brackets and
pending set operators, are kept on a stack, so each step reads at least one character.

Main definition: `Pattern.ofText?`, which gives nothing for a malformed pattern. It does not know
classes by Unicode property and does not switch off `u`.
-/

namespace GrammarGraph.Pattern

/-- Switches set by `(?imsUx)`. -/
structure Flags where
  ignoreCase : Bool := false
  multiLine : Bool := false
  dotAll : Bool := false
  swapGreed : Bool := false
  verbose : Bool := false
deriving DecidableEq, Repr

/-- Drop the rest of a comment, up to and with its linefeed, then white space and further
comments. -/
def skipBlanks (comment : Bool) : List Char → List Char
  | [] => []
  | c :: cs =>
    if comment then skipBlanks (c != '\n') cs
    else if Text.isSpace c then skipBlanks false cs
    else if c == '#' then skipBlanks true cs
    else c :: cs

/-- In a verbose pattern white space and comments do not count. -/
def Flags.skip (f : Flags) (cs : List Char) : List Char :=
  if f.verbose then skipBlanks false cs else cs

/-- What a single character or escape stands for. -/
inductive Atom where
  | char (c : Char)
  | set (s : CharSet)
  | look (a : Assertion)
  | dot
deriving DecidableEq, Repr

def hexDigit? (c : Char) : Option Nat :=
  if '0' ≤ c && c ≤ '9' then some (c.toNat - '0'.toNat)
  else if 'a' ≤ c && c ≤ 'f' then some (c.toNat - 'a'.toNat + 10)
  else if 'A' ≤ c && c ≤ 'F' then some (c.toNat - 'A'.toNat + 10)
  else none

def charOf? (n : Nat) : Option Char :=
  if n.isValidChar then some (Char.ofNat n) else none

/-- A character given by exactly `count` hexadecimal digits. -/
def readHex (f : Flags) : Nat → Nat → List Char → Option (Char × List Char)
  | 0, n, cs => (charOf? n).map (·, cs)
  | _ + 1, _, [] => none
  | count + 1, n, c :: cs => (hexDigit? c).bind fun d => readHex f count (n * 16 + d) (f.skip cs)

/-- A character given by hexadecimal digits up to a closing brace. -/
def readBracedHex (f : Flags) : Nat → Option Nat → List Char → Option (Char × List Char)
  | 0, _, _ => none
  | _ + 1, _, [] => none
  | fuel + 1, n, c :: cs =>
    if c == '\x7d' then (n.bind charOf?).map (·, f.skip cs)
    else (hexDigit? c).bind fun d => readBracedHex f fuel (some (n.getD 0 * 16 + d)) (f.skip cs)

def readHexEscape (f : Flags) (count : Nat) (cs : List Char) : Option (Char × List Char) :=
  match f.skip cs with
  | '\x7b' :: cs => readBracedHex f (cs.length + 1) none (f.skip cs)
  | cs => readHex f count 0 cs

def isNameChar (c : Char) : Bool := c.isAlpha || c == '-'

/-- The letters and dashes at the front, blanks between them dropped. -/
def readName (f : Flags) : Nat → List Char → List Char × List Char
  | 0, cs => ([], cs)
  | _ + 1, [] => ([], [])
  | fuel + 1, c :: cs =>
    if isNameChar c then
      let (name, rest) := readName f fuel (f.skip cs)
      (c :: name, rest)
    else ([], c :: cs)

def edgeNamed? (name : String) : Option Assertion :=
  match name with
  | "start" => some .wordStart
  | "end" => some .wordEnd
  | "start-half" => some .wordStartHalf
  | "end-half" => some .wordEndHalf
  | _ => none

/-- What follows the letter of a word edge: perhaps the kind of edge in braces. Braces that do not
start with a name are a repetition. -/
def readEdge (f : Flags) (cs : List Char) : Option (Assertion × List Char) :=
  match cs with
  | '\x7b' :: inner =>
    match f.skip inner with
    | [] => none
    | c :: _ =>
      if isNameChar c then
        match readName f (inner.length + 1) (f.skip inner) with
        | (name, '\x7d' :: rest) => (edgeNamed? (String.ofList name)).map (·, rest)
        | _ => none
      else some (.wordEdge, cs)
  | _ => some (.wordEdge, cs)

/-- What follows a backslash. Signs stand for themselves, letters and digits only
where they have a meaning. -/
def readEscape (f : Flags) : List Char → Option (Atom × List Char)
  | [] => none
  | c :: cs =>
    match c with
    | 'x' => (readHexEscape f 2 cs).map fun (c, cs) => (.char c, cs)
    | 'u' => (readHexEscape f 4 cs).map fun (c, cs) => (.char c, cs)
    | 'U' => (readHexEscape f 8 cs).map fun (c, cs) => (.char c, cs)
    | 'd' => some (.set .digit, cs)
    | 'D' => some (.set (.compl .digit), cs)
    | 's' => some (.set .space, cs)
    | 'S' => some (.set (.compl .space), cs)
    | 'w' => some (.set .word, cs)
    | 'W' => some (.set (.compl .word), cs)
    | 'a' => some (.char '\x07', cs)
    | 'f' => some (.char '\x0c', cs)
    | 't' => some (.char '\t', cs)
    | 'n' => some (.char '\n', cs)
    | 'r' => some (.char '\r', cs)
    | 'v' => some (.char '\x0b', cs)
    | 'A' => some (.look .textStart, cs)
    | 'z' => some (.look .textEnd, cs)
    | 'b' => (readEdge f cs).map fun (a, cs) => (.look a, cs)
    | 'B' => some (.look .noWordEdge, cs)
    | '<' => some (.look .wordStart, cs)
    | '>' => some (.look .wordEnd, cs)
    | c => if c.toNat < 128 && !c.isAlphanum then some (.char c, cs) else none

/-- Named classes of ASCII characters. -/
def asciiClass? (name : String) : Option CharSet :=
  let lower := ('a', 'z')
  let upper := ('A', 'Z')
  let digit := ('0', '9')
  match name with
  | "alnum" => some (.ofRanges [digit, upper, lower])
  | "alpha" => some (.ofRanges [upper, lower])
  | "ascii" => some (.range '\x00' '\x7f')
  | "blank" => some (.ofRanges [('\t', '\t'), (' ', ' ')])
  | "cntrl" => some (.ofRanges [('\x00', '\x1f'), ('\x7f', '\x7f')])
  | "digit" => some (.ofRanges [digit])
  | "graph" => some (.range '!' '~')
  | "lower" => some (.ofRanges [lower])
  | "print" => some (.range ' ' '~')
  | "punct" => some (.ofRanges [('!', '/'), (':', '@'), ('[', '\x60'), ('\x7b', '~')])
  | "space" => some (.ofRanges [('\t', '\r'), (' ', ' ')])
  | "upper" => some (.ofRanges [upper])
  | "word" => some (.ofRanges [digit, upper, lower, ('_', '_')])
  | "xdigit" => some (.ofRanges [digit, ('A', 'F'), ('a', 'f')])
  | _ => none

def Flags.fold (f : Flags) (s : CharSet) : CharSet :=
  if f.ignoreCase then .folded s else s

/-- A named class, after its opening bracket. -/
def readAsciiClass (f : Flags) (cs : List Char) : Option (CharSet × List Char) :=
  match cs with
  | ':' :: cs =>
    let (negated, cs) := match cs with
      | '^' :: cs => (true, cs)
      | cs => (false, cs)
    match cs.dropWhile (· != ':') with
    | ':' :: ']' :: rest =>
      (asciiClass? (String.ofList (cs.takeWhile (· != ':')))).map fun s =>
        (if negated then .compl (f.fold s) else f.fold s, rest)
    | _ => none
  | _ => none

/-- How two sets in a class are combined. -/
inductive SetOp where
  | inter
  | diff
  | symmDiff
deriving DecidableEq, Repr

def SetOp.apply (f : Flags) (op : SetOp) (s t : CharSet) : CharSet :=
  match op with
  | .inter => (f.fold s).inter (f.fold t)
  | .diff => (f.fold s).diff (f.fold t)
  | .symmDiff => (f.fold s).symmDiff (f.fold t)

/-- An open bracket with the set before it, or an operator with its left operand. -/
inductive ClassFrame where
  | bracket (negated : Bool) (outer : CharSet)
  | op (op : SetOp) (left : CharSet)
deriving DecidableEq, Repr

/-- Signs that stand for themselves at the front of a class: dashes, or a
bracket if it comes first. -/
def readClassFront (f : Flags) : Nat → Bool → CharSet → List Char → Option (CharSet × List Char)
  | 0, _, _, _ => none
  | _ + 1, _, _, [] => none
  | fuel + 1, first, s, c :: cs =>
    if c == '-' then readClassFront f fuel false (s.union (.single '-')) (f.skip cs)
    else if first && c == ']' then
      match f.skip cs with
      | [] => none
      | cs => some (s.union (.single ']'), cs)
    else some (s, c :: cs)

/-- What follows an opening bracket up to the first item: whether the class is
negated, and its front. -/
def openClass (f : Flags) (cs : List Char) : Option (Bool × CharSet × List Char) :=
  match f.skip cs with
  | '^' :: cs =>
    (readClassFront f (cs.length + 1) true .empty (f.skip cs)).map fun (s, cs) => (true, s, cs)
  | cs => (readClassFront f (cs.length + 1) true .empty cs).map fun (s, cs) => (false, s, cs)

def readClassAtom (f : Flags) : List Char → Option (Atom × List Char)
  | [] => none
  | '\\' :: cs => readEscape f cs
  | c :: cs => some (.char c, cs)

/-- A character, a range or an escaped class. -/
def readClassItem (f : Flags) (cs : List Char) : Option (CharSet × List Char) :=
  (readClassAtom f cs).bind fun (atom, cs) =>
    match f.skip cs with
    | [] => none
    | c :: rest =>
      let single : Option (CharSet × List Char) := match atom with
        | .char a => some (.single a, c :: rest)
        | .set s => some (s, c :: rest)
        | _ => none
      if c != '-' then single
      else match f.skip rest with
        | ']' :: _ | '-' :: _ => single
        | [] => none
        | rest =>
          (readClassAtom f rest).bind fun (last, rest) =>
            match atom, last with
            | .char a, .char b => if a ≤ b then some (.range a b, rest) else none
            | _, _ => none

/-- Apply the operator on top of the stack, if there is one. -/
def closeOp (f : Flags) (s : CharSet) : List ClassFrame → CharSet × List ClassFrame
  | .op op left :: frames => (op.apply f left s, frames)
  | frames => (s, frames)

/-- The rest of a bracketed class. -/
def readClass (f : Flags) : Nat → List ClassFrame → CharSet → List Char →
    Option (CharSet × List Char)
  | 0, _, _, _ => none
  | fuel + 1, frames, s, cs =>
    let operator (op : SetOp) (cs : List Char) :=
      let (left, frames) := closeOp f s frames
      readClass f fuel (.op op left :: frames) .empty cs
    match f.skip cs with
    | [] => none
    | '[' :: cs =>
      match readAsciiClass f cs with
      | some (t, cs) => readClass f fuel frames (s.union t) cs
      | none =>
        (openClass f cs).bind fun (negated, t, cs) =>
          readClass f fuel (.bracket negated s :: frames) t cs
    | ']' :: cs =>
      match closeOp f s frames with
      | (s, .bracket negated outer :: frames) =>
        let s := f.fold s
        let s := if negated then s.compl else s
        if frames.isEmpty then some (s, cs) else readClass f fuel frames (outer.union s) cs
      | _ => none
    | '&' :: '&' :: cs => operator .inter cs
    | '-' :: '-' :: cs => operator .diff cs
    | '~' :: '~' :: cs => operator .symmDiff cs
    | cs => (readClassItem f cs).bind fun (t, cs) => readClass f fuel frames (s.union t) cs

/-- A bracketed class, after its opening bracket. -/
def readBracketed (f : Flags) (cs : List Char) : Option (CharSet × List Char) :=
  (openClass f cs).bind fun (negated, s, cs) =>
    readClass f (cs.length + 1) [.bracket negated .empty] s cs

/-- The digits at the front, with the blanks of a verbose pattern between and white space around
them. Repetition counts have to fit in 32 bits. -/
def readDecimal (f : Flags) (cs : List Char) : Option (Nat × List Char) :=
  let rec digits : Nat → Option Nat → List Char → Option Nat × List Char
    | 0, n, cs => (n, cs)
    | _ + 1, n, [] => (n, [])
    | fuel + 1, n, c :: cs =>
      if c.isDigit then digits fuel (some (n.getD 0 * 10 + (c.toNat - '0'.toNat))) (f.skip cs)
      else (n, c :: cs)
  let cs := cs.dropWhile Text.isSpace
  match digits (cs.length + 1) none cs with
  | (some n, cs) => if n < 4294967296 then some (n, f.skip (cs.dropWhile Text.isSpace)) else none
  | (none, _) => none

/-- Bounds of a counted repetition, after its opening brace. -/
def readBounds (f : Flags) (cs : List Char) : Option ((Nat × Option Nat) × List Char) :=
  match readDecimal f (f.skip cs) with
  | none => none
  | some (least, ',' :: cs) =>
    match f.skip cs with
    | '\x7d' :: cs => some ((least, none), cs)
    | cs =>
      match readDecimal f cs with
      | some (most, '\x7d' :: cs) => if least ≤ most then some ((least, some most), cs) else none
      | _ => none
  | some (least, '\x7d' :: cs) => some ((least, some least), cs)
  | _ => none

def setFlag (f : Flags) (value : Bool) (c : Char) : Option Flags :=
  match c with
  | 'i' => some { f with ignoreCase := value }
  | 'm' => some { f with multiLine := value }
  | 's' => some { f with dotAll := value }
  | 'U' => some { f with swapGreed := value }
  | 'x' => some { f with verbose := value }
  | 'u' => if value then some f else none
  | _ => none

/-- Flags up to the colon or parenthesis behind them. No flag, and no dash, may come twice. -/
def readFlags (f : Flags) (value : Bool) (seen : List Char) :
    List Char → Option (Flags × List Char × List Char)
  | [] => none
  | c :: cs =>
    if c == ':' || c == ')' then if seen.head? == some '-' then none else some (f, seen, c :: cs)
    else if seen.contains c then none
    else if c == '-' then readFlags f false (c :: seen) cs
    else (setFlag f value c).bind fun f => readFlags f value (c :: seen) cs

/-- Letters of all scripts; marks and digits do not count. -/
def isLetter (c : Char) : Bool :=
  CharSet.isWord c && c != '_' && !CharSet.inRanges Text.digitRanges c

/-- A group name and the text behind its closing bracket. -/
def readGroupName (cs : List Char) : Option (String × List Char) :=
  let isPart (c : Char) := isLetter c || CharSet.inRanges Text.digitRanges c ||
    c == '_' || c == '.' || c == '[' || c == ']'
  match cs with
  | [] => none
  | first :: _ =>
    let name := cs.takeWhile isPart
    match cs.dropWhile isPart with
    | '>' :: rest =>
      if (isLetter first || first == '_') &&
        !name.isEmpty then some (String.ofList name, rest) else none
    | _ => none

/-- An open group: its index if it captures, and what stood before it. A pending item without an
expression is a flag group, which cannot be repeated. -/
structure Frame where
  index : Option Nat
  flags : Flags
  items : List (Option Regex)
  branches : List Regex
deriving DecidableEq, Repr

/-- State of the reader. Items and branches are the latest first. -/
structure Reader where
  rest : List Char
  flags : Flags := {}
  groups : Nat := 0
  names : List String := []
  frames : List Frame := []
  items : List (Option Regex) := []
  branches : List Regex := []
deriving DecidableEq, Repr

namespace Reader

def push (st : Reader) (r : Regex) (rest : List Char) : Reader :=
  { st with items := some r :: st.items, rest }

/-- The expression of the group that is open. -/
def current (st : Reader) : Regex :=
  let joined := Regex.ofList (st.items.reverse.filterMap id)
  st.branches.foldl (fun r s => .alt s r) joined

def ofAtom (f : Flags) : Atom → Regex
  | .char c => .set (f.fold (.single c))
  | .set s => .set s
  | .look a => .look a
  | .dot => .set (if f.dotAll then .all else .compl (.single '\n'))

/-- Put a repetition around the last item. -/
def repeatLast (st : Reader) (wrap : Bool → Regex → Regex) (rest : List Char) : Option Reader :=
  match st.items with
  | some r :: items =>
    let (lazy, rest) := match rest with
      | '?' :: rest => (true, rest)
      | rest => (false, rest)
    some { st with items := some (wrap (lazy == st.flags.swapGreed) r) :: items, rest }
  | _ => none

def openGroup (st : Reader) (index : Option Nat) (inner : Flags) (rest : List Char) : Reader :=
  { st with
    rest, flags := inner, items := [], branches := []
    frames := ⟨index, st.flags, st.items, st.branches⟩ :: st.frames }

def openNamed (st : Reader) (cs : List Char) : Option Reader :=
  (readGroupName cs).bind fun (name, cs) =>
    if st.names.contains name then none
    else
      let st := { st with groups := st.groups + 1, names := name :: st.names }
      some (st.openGroup (some st.groups) st.flags cs)

/-- What follows an opening parenthesis. -/
def readGroup (st : Reader) (cs : List Char) : Option Reader :=
  match st.flags.skip cs with
  | '?' :: '=' :: _ | '?' :: '!' :: _ | '?' :: '<' :: '=' :: _ | '?' :: '<' :: '!' :: _ => none
  | '?' :: 'P' :: '<' :: cs => st.openNamed cs
  | '?' :: '<' :: cs => st.openNamed cs
  | '?' :: cs =>
    (readFlags st.flags true [] cs).bind fun (flags, seen, cs) =>
      match cs with
      | ':' :: cs => some (st.openGroup none flags cs)
      | _ :: cs =>
        if seen.isEmpty then none else some { st with flags, items := none :: st.items, rest := cs }
      | [] => none
  | cs =>
    let st := { st with groups := st.groups + 1 }
    some (st.openGroup (some st.groups) st.flags cs)

def closeGroup (st : Reader) (cs : List Char) : Option Reader :=
  match st.frames with
  | [] => none
  | frame :: frames =>
    let inner := st.current
    let r := match frame.index with
      | some i => Regex.group i inner
      | none => inner
    some { st with
      rest := cs, flags := frame.flags, frames, items := some r :: frame.items, branches :=
        frame.branches }

/-- Read one item. -/
def step (st : Reader) (c : Char) (cs : List Char) : Option Reader :=
  let f := st.flags
  match c with
  | '(' => st.readGroup cs
  | ')' => st.closeGroup cs
  | '|' =>
    let joined := Regex.ofList (st.items.reverse.filterMap id)
    some { st with rest := cs, items := [], branches := joined :: st.branches }
  | '[' => (readBracketed f cs).map fun (s, cs) => st.push (.set s) cs
  | '?' => st.repeatLast Regex.opt cs
  | '*' => st.repeatLast Regex.star cs
  | '+' => st.repeatLast Regex.plus cs
  | '\x7b' =>
    (readBounds f cs).bind fun ((least, most), cs) =>
      st.repeatLast (fun greedy r =>
        match most with
        | none => .atLeast greedy least r
        | some most => .between greedy least most r) (f.skip cs)
  | '\\' => (readEscape f cs).map fun (a, cs) => st.push (ofAtom f a) cs
  | '.' => some (st.push (ofAtom f .dot) cs)
  | '^' => some (st.push (.look (if f.multiLine then .lineStart else .textStart)) cs)
  | '$' => some (st.push (.look (if f.multiLine then .lineEnd else .textEnd)) cs)
  | c => some (st.push (ofAtom f (.char c)) cs)

/-- Read to the end of the text. -/
def finish : Nat → Reader → Option Reader
  | 0, _ => none
  | fuel + 1, st =>
    match st.flags.skip st.rest with
    | [] => if st.frames.isEmpty then some st else none
    | c :: cs => (st.step c cs).bind (finish fuel)

end Reader

/-- The pattern that a text denotes, if it is well formed and not too large. -/
def ofText? (text : String) : Option Pattern :=
  let cs := text.toList
  (Reader.finish (cs.length + 1) { rest := cs }).bind fun st =>
    let r := st.current
    if r.weight ≤ Regex.maxWeight then some ⟨r, st.groups⟩ else none

end GrammarGraph.Pattern
