/-! # Command lines

A command has options, each given at most once, and at most one positional argument. Arguments are
read from left to right; the first that does not fit, or that asks for help, decides the outcome.

Main definition: `Command.read`.
-/

namespace GrammarGraph.CommandLine

/-- What an option does when it is given. -/
inductive Effect where
  | flag
  | value
  | help
  | version
deriving DecidableEq, Repr

structure Opt where
  name : String
  short : Option Char := none
  effect : Effect := .value
  about : String
  required : Bool := false
  default : Option String := none
  /-- The values allowed; all are if there are none here. -/
  choices : List String := []
deriving DecidableEq, Repr

/-- The positional argument of a command. -/
structure Positional where
  label : String
  about : String
deriving DecidableEq, Repr

structure Command where
  name : String
  about : String
  positional : Option Positional := none
  options : List Opt
deriving DecidableEq, Repr

/-- Why no request comes out of the arguments. -/
inductive Stop where
  | help
  | version
  | usage
deriving DecidableEq, Repr

/-- What has been given so far; the value of a flag is empty. -/
structure Given where
  positional : Option String := none
  options : List (String × String) := []
deriving DecidableEq, Repr

namespace Given

def value? (g : Given) (name : String) : Option String := g.options.lookup name

def has (g : Given) (name : String) : Bool := (g.value? name).isSome

/-- Give an option its value. -/
def set (g : Given) (o : Opt) (value : String) : Except Stop Given :=
  match o.effect with
  | .help => .error .help
  | .version => .error .version
  | .flag | .value =>
    if g.has o.name || !(o.choices.isEmpty || o.choices.contains value) then .error .usage
    else .ok { g with options := g.options ++ [(o.name, value)] }

end Given

/-- What has been given, and the option whose value is to come next. -/
structure Reading where
  given : Given := {}
  awaiting : Option Opt := none
deriving DecidableEq, Repr

namespace Command

/-- An option with the value attached to it, if any. -/
def take (g : Given) (o : Opt) (attached : Option String) : Except Stop Reading :=
  match o.effect, attached with
  | .value, none => .ok ⟨g, some o⟩
  | .value, some v => (g.set o v).map (⟨·, none⟩)
  | _, none => (g.set o "").map (⟨·, none⟩)
  | _, some _ => .error .usage

/-- An option by its name, perhaps with an equals sign and a value. -/
def readLong (c : Command) (g : Given) (arg : List Char) : Except Stop Reading :=
  let name := String.ofList (arg.takeWhile (· != '='))
  let attached := match arg.dropWhile (· != '=') with
    | [] => none
    | _ :: v => some (String.ofList v)
  match c.options.find? (·.name == name) with
  | some o => take g o attached
  | none => .error .usage

/-- Options by their letters. The first that has a value takes the rest for it. -/
def readShort (c : Command) (g : Given) : List Char → Except Stop Reading
  | [] => .ok ⟨g, none⟩
  | letter :: rest =>
    match c.options.find? (·.short == some letter) with
    | none => .error .usage
    | some o =>
      if o.effect = .value then
        take g o (match rest with
          | [] => none
          | '=' :: v => some (String.ofList v)
          | v => some (String.ofList v))
      else do
        let g ← g.set o ""
        readShort c g rest

/-- An argument that looks like an option; `none` for any other. -/
def readOption? (c : Command) (g : Given) (arg : String) : Option (Except Stop Reading) :=
  match arg.toList with
  | '-' :: '-' :: name => some (c.readLong g name)
  | '-' :: letter :: rest => some (c.readShort g (letter :: rest))
  | _ => none

def setPositional (c : Command) (g : Given) (arg : String) : Except Stop Given :=
  if c.positional.isNone || g.positional.isSome then .error .usage
  else .ok { g with positional := some arg }

/-- After two dashes nothing is an option any more. -/
def readPositionals (c : Command) (g : Given) : List String → Except Stop Given
  | [] => .ok g
  | arg :: rest => do
    let g ← c.setPositional g arg
    readPositionals c g rest

def readFrom (c : Command) (s : Reading) : List String → Except Stop Given
  | [] => if s.awaiting.isSome then .error .usage else .ok s.given
  | arg :: rest =>
    match s.awaiting, arg == "--", c.readOption? s.given arg with
    | none, true, _ => c.readPositionals s.given rest
    | none, false, some next => next.bind fun s => c.readFrom s rest
    | none, false, none => (c.setPositional s.given arg).bind fun g => c.readFrom ⟨g, none⟩ rest
    | some _, true, _ | some _, _, some _ => .error .usage
    | some o, _, none => (s.given.set o arg).bind fun g => c.readFrom ⟨g, none⟩ rest

/-- The arguments of a command, with all that it requires. -/
def read (c : Command) (args : List String) : Except Stop Given := do
  let g ← c.readFrom {} args
  if c.positional.isSome && g.positional.isNone then .error .usage
  else if c.options.any fun o => o.required && !g.has o.name then .error .usage
  else return g

end Command

/-- A program with its own options in front of the name of a command. -/
structure Program where
  root : Command
  commands : List Command
deriving DecidableEq, Repr

/-- What the arguments of a program ask for. -/
inductive Request where
  | run (command : Command) (given : Given)
  | help (command : Command)
  | programHelp
  | version
  | usage
deriving DecidableEq, Repr

namespace Program

def command? (p : Program) (name : String) : Option Command := p.commands.find? (·.name == name)

/-- The command that explains the others. -/
def helpCommand : Command :=
  { name := "help"
    about := "Print this message or the help of the given subcommand(s)"
    positional := some ⟨"[COMMAND]...", "Print help for the subcommand(s)"⟩
    options := [] }

def requestHelp (p : Program) : List String → Request
  | [] => .programHelp
  | [name] =>
    if name == helpCommand.name then .help helpCommand
    else ((p.command? name).map Request.help).getD .usage
  | _ => .usage

def requestCommand (c : Command) (args : List String) : Request :=
  match c.read args with
  | .ok g => .run c g
  | .error .help => .help c
  | .error .version => .version
  | .error .usage => .usage

def requestFrom (p : Program) (s : Reading) : List String → Request
  | [] => .usage
  | arg :: rest =>
    match s.awaiting, p.root.readOption? s.given arg with
    | none, some (.ok s) => requestFrom p s rest
    | none, some (.error .help) => .programHelp
    | none, some (.error .version) => .version
    | none, some (.error .usage) => .usage
    | none, none =>
      if arg == helpCommand.name then p.requestHelp rest
      else ((p.command? arg).map (requestCommand · rest)).getD .usage
    | some _, some _ => .usage
    | some o, none =>
      match s.given.set o arg with
      | .ok g => requestFrom p ⟨g, none⟩ rest
      | .error _ => .usage

def request (p : Program) (args : List String) : Request := p.requestFrom {} args

@[simp] theorem request_nil (p : Program) : p.request [] = .usage := rfl

end Program

end GrammarGraph.CommandLine
