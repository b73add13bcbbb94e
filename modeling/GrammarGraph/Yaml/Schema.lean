/-! # Plain words

A scalar without quotes may stand for nothing, for a boolean or for a number.
Every other word is a text.

Main definitions: `isNull`, `bool?`, `word?` and `isNumber`.
-/

namespace GrammarGraph.Yaml.Schema

def isNull (s : String) : Bool := ["", "~", "null", "Null", "NULL"].contains s

def bool? (s : String) : Option Bool :=
  if ["true", "True", "TRUE"].contains s then some true
  else if ["false", "False", "FALSE"].contains s then some false
  else none

/-- The value of a digit in bases up to sixteen. -/
def digit? (base : Nat) (c : Char) : Option Nat :=
  let value :=
    if '0' ≤ c && c ≤ '9' then some (c.toNat - '0'.toNat)
    else if 'a' ≤ c && c ≤ 'f' then some (c.toNat - 'a'.toNat + 10)
    else if 'A' ≤ c && c ≤ 'F' then some (c.toNat - 'A'.toNat + 10)
    else none
  value.filter (· < base)

/-- The number that one or more digits denote. -/
def digits? (base : Nat) : List Char → Option Nat
  | [] => none
  | cs => cs.foldlM (fun n c => (digit? base c).map (n * base + ·)) 0

/-- Digits that begin with a superfluous zero. -/
def zeroPadded : List Char → Bool
  | '0' :: cs => !cs.isEmpty && cs.all Char.isDigit
  | _ => false

/-- A whole number without a sign, decimal or with its base in front. -/
def magnitude? : List Char → Option Nat
  | '0' :: 'x' :: cs => digits? 16 cs
  | '0' :: 'o' :: cs => digits? 8 cs
  | '0' :: 'b' :: cs => digits? 2 cs
  | cs => if zeroPadded cs then none else digits? 10 cs

/-- The sign in front, true for a minus, and the rest. -/
def splitSign : List Char → Bool × List Char
  | '-' :: cs => (true, cs)
  | '+' :: cs => (false, cs)
  | cs => (false, cs)

/-- A machine word, which may carry a plus sign. -/
def word? (s : String) : Option UInt64 :=
  match splitSign s.toList with
  | (true, _) => none
  | (false, cs) => ((magnitude? cs).filter (· < UInt64.size)).map UInt64.ofNat

/-- A whole number of at most 128 bits. -/
def isInteger (cs : List Char) : Bool :=
  match splitSign cs with
  | (true, cs) => (magnitude? cs).any (· ≤ Nat.pow 2 127)
  | (false, cs) => (magnitude? cs).any (· < Nat.pow 2 128)

/-- The exponent at the end of a decimal fraction, zero when there is none. -/
def exponent? : List Char → Option Int
  | [] => some 0
  | c :: cs =>
    if c == 'e' || c == 'E' then
      match splitSign cs with
      | (true, cs) => (digits? 10 cs).map fun n => -(n : Int)
      | (false, cs) => (digits? 10 cs).map Int.ofNat
    else none

/-- A decimal fraction without a sign: its digits and the power of ten they are multiplied with. -/
def decimal? (cs : List Char) : Option (List Char × Int) :=
  let whole := cs.takeWhile Char.isDigit
  let (fraction, rest) := match cs.dropWhile Char.isDigit with
    | '.' :: cs => (cs.takeWhile Char.isDigit, cs.dropWhile Char.isDigit)
    | cs => ([], cs)
  if whole.isEmpty && fraction.isEmpty then none
  else (exponent? rest).map fun e => (whole ++ fraction, e - fraction.length)

/-- Whether a double holds the number: all but those that round to `2 ^ 1024` or more, which begins
half a step before it. -/
def fitsDouble (digits : List Char) (power : Int) : Bool :=
  let digits := digits.dropWhile (· == '0')
  let size := digits.length + power
  if digits.isEmpty || size < 309 then true
  else if 309 < size then false
  else
    let n := (digits? 10 digits).getD 0
    n * Nat.pow 10 power.toNat < (Nat.pow 2 1024 - Nat.pow 2 970) * Nat.pow 10 (-power).toNat

/-- A number with a fraction or an exponent, infinite, or no number at all. -/
def isReal (cs : List Char) : Bool :=
  let rest := (splitSign cs).2
  [".inf", ".Inf", ".INF"].contains (String.ofList rest)
    || [".nan", ".NaN", ".NAN"].contains (String.ofList cs)
    || (decimal? rest).any fun (digits, power) => fitsDouble digits power

def isNumber (s : String) : Bool :=
  let cs := s.toList
  isInteger cs || (!zeroPadded (splitSign cs).2 && isReal cs)

/-- Neither nothing nor a boolean nor a number. -/
def isText (s : String) : Bool := !isNull s && (bool? s).isNone && !isNumber s

end GrammarGraph.Yaml.Schema
