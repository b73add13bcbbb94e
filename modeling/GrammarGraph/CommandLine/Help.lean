import GrammarGraph.CommandLine.Basic

/-! # Help texts -/

namespace GrammarGraph.CommandLine

/-- Lines of two columns. -/
def columns (rows : List (String × String)) : String :=
  let width := rows.foldl (fun n r => max n r.1.length) 0
  String.join (rows.map fun (left, right) =>
    "  " ++ left ++ String.ofList (List.replicate (width - left.length) ' ') ++ "  " ++
      right ++ "\n")

def section? (title : String) (rows : List (String × String)) : List String :=
  if rows.isEmpty then [] else [title ++ ":\n" ++ columns rows]

namespace Opt

/-- The name as it is written, with what follows it. -/
def form (o : Opt) : String :=
  "--" ++ o.name ++ (if o.effect = .value then " <" ++ o.name ++ ">" else "")

def label (o : Opt) : String :=
  (match o.short with
    | some c => String.ofList ['-', c, ',', ' ']
    | none => "    ") ++ o.form

def note (o : Opt) : String :=
  o.about
    ++ (match o.default with
      | some v => " [default: " ++ v ++ "]"
      | none => "")
    ++
    (if o.choices.isEmpty then "" else " [possible values: " ++ ", ".intercalate o.choices ++ "]")

/-- Whether the usage line speaks of it under one name with the other options. -/
def isOptional (o : Opt) : Bool := !o.required && (o.effect = .flag || o.effect = .value)

end Opt

namespace Command

/-- Everything after the name of a command. -/
def usage (c : Command) : String :=
  (if c.options.any Opt.isOptional then " [OPTIONS]" else "")
    ++ String.join ((c.options.filter (·.required)).map fun o => " " ++ o.form)
    ++ ((c.positional.map fun a => " " ++ a.label).getD "")

def optionRows (c : Command) : List (String × String) := c.options.map fun o => (o.label, o.note)

end Command

namespace Program

def commandHelp (p : Program) (c : Command) : String :=
  "\n".intercalate ([c.about ++ "\n", "Usage: " ++ p.root.name ++ " " ++ c.name ++ c.usage ++ "\n"]
    ++ section? "Arguments" (c.positional.toList.map fun a => (a.label, a.about))
    ++ section? "Options" c.optionRows)

def help (p : Program) : String :=
  "\n".intercalate
    ([p.root.about ++ "\n", "Usage: " ++ p.root.name ++ p.root.usage ++ " <COMMAND>\n"]
    ++ section? "Commands" ((p.commands ++ [helpCommand]).map fun c => (c.name, c.about))
    ++ section? "Options" p.root.optionRows)

end Program

end GrammarGraph.CommandLine
