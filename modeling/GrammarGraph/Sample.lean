import GrammarGraph.Grammar.Basic

/-! # Sample grammars

Three small grammars: references and tree transformations, alternatives that differ only behind a
completed rule, and switches with guards and hooks.
-/

namespace GrammarGraph.Sample

def identifierPattern : String := "[_a-zA-Z][_a-zA-Z0-9]*"

def identifier : TokenType := ⟨1, .validWord identifierPattern (by decide)⟩

namespace Loops

def forEach : TokenType := ⟨2, .keyword "foreach" true⟩
def forAll : TokenType := ⟨3, .keyword "forall" true⟩
def within : TokenType := ⟨4, .keyword "in" true⟩
def left : TokenType := ⟨5, .separator "\x7b" false⟩
def right : TokenType := ⟨6, .separator "\x7d" false⟩

def loopBody : Body := [
  .part .junction,
  .part (.token forAll), .part (.tokenAs identifier "list"),
  .chain [.entry, .part 1, .part 2, .part 0],
  .part (.token forEach), .part (.tokenAs identifier "element"),
  .part (.token within), .part (.tokenAs identifier "list"),
  .chain [.entry, .part 3, .part 4, .part 5, .part 6, .part 0],
  .part (.token left), .part (.token right),
  .chain [.part 0, .part 7, .part 8, .exit]]

/-- A loop with its list and, if it has one, its element. -/
def loopTree (t : Tree) : Tree :=
  let element := (t.childById? "element").map fun e => Tree.plain "element-var" e.text
  ⟨"for", "", "", .plain "list-var" (t.textById "list") :: element.toList, none⟩

def loop : Rule := { name := "For", expand := some fun _ => loopBody, transform := some loopTree }

def loops : Rule :=
  { name := "loops"
    expand := some fun _ =>
      [.part (.rule 0), .chain [.entry, .part 0], .chain [.part 0, .entry],
        .chain [.entry, .exit]] }

/-- Any number of loops, each over all members of a list or naming the member at hand. -/
def grammar : Grammar :=
  { types := ⟨[identifier, forEach, forAll, within, left, right]⟩
    rules := [loop, loops], root := 1, ident := none }

end Loops

namespace Boundary

def a : TokenType := ⟨1, .keyword "a" true⟩
def b : TokenType := ⟨2, .keyword "b" true⟩
def d : TokenType := ⟨3, .keyword "d" true⟩
def e : TokenType := ⟨4, .keyword "e" true⟩

def inner : Rule := { name := "Inner", expand := some fun _ => .ofPiece (.token a) }

def boundary : Rule :=
  { name := "boundary"
    expand := some fun _ =>
      .ofPiece (.fork [
        .sequence [.rule 0, .token b, .token d],
        .sequence [.rule 0, .token b, .token e]]) }

/-- Two alternatives that start with the same rule; the second is found only by going back into the
first, behind its completed rule. -/
def grammar : Grammar :=
  { types := ⟨[a, b, d, e]⟩, rules := [inner, boundary], root := 1, ident := none }

end Boundary

namespace Commands

def strict : TokenType := ⟨2, .keyword "strict" true⟩
def letWord : TokenType := ⟨3, .keyword "let" true⟩
def printWord : TokenType := ⟨4, .keyword "print" true⟩
def unsafeWord : TokenType := ⟨5, .keyword "unsafe" true⟩
def semicolon : TokenType := ⟨6, .separator ";" false⟩

/-- Whether the script is not strict. -/
def lenient (ctx : Context) : Bool := !(((ctx.var? "strict").bind (·.bool?)).getD false)

def commandBody : Body := [
  .part (.sequence [.token letWord, .tokenAs identifier "name"]),
  .part (.sequence [.token printWord, .tokenAs identifier "name"]),
  .part (.guard lenient), .part (.token unsafeWord), .chain [.part 2, .part 3],
  .part (.switch [
    ("let", .ref (.part 0)), ("print", .ref (.part 1)),
    ("unsafe", .ref (.span (.part 2) (.part 3)))]),
  .part (.token semicolon),
  .chain [.entry, .part 4, .part 5, .exit]]

def command : Rule := { name := "Command", expand := some fun _ => commandBody }

def setStrict : Hook :=
  ⟨fun env _ => env.set "strict" (.bool true), fun env _ => env.set "strict" (.bool false)⟩

def script : Rule :=
  { name := "script"
    vars := Env.empty.set "strict" (.bool false)
    expand := some fun _ => [
      .part (.optional (.slot strict none (some setStrict))),
      .part (.many (.rule 0)),
      .chain [.entry, .part 0, .part 1, .exit]] }

/-- Statements picked by their first keyword. A leading word closes the guard in front of one of
them. -/
def grammar : Grammar :=
  { types := ⟨[identifier, strict, letWord, printWord, unsafeWord, semicolon]⟩
    rules := [command, script], root := 1, ident := none }

end Commands

end GrammarGraph.Sample
