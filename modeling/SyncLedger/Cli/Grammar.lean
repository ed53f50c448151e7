/-
  SyncLedger/Cli/Grammar.lean
  ===========================
  **Command lines: options and nested commands.**  A command has options and either commands of
  its own, one of which must follow, or nothing more.  Options are written `--name value`,
  `--name=value`, `-n value`, `-nvalue` or `-n=value`; flags without a value may share one
  hyphen.  No option may be given twice.  A value that stands alone must not begin with a
  hyphen, unless it is just the hyphen.

  Arguments are read from left to right, and the first that settles the matter does: a mistake,
  or a request for help or for the version.
-/
namespace SyncLedger.Cli

/-- An option of a command. -/
structure OptionRule where
  name : String
  short : Option Char := none
  /-- Which values are acceptable; a flag takes none. -/
  value : Option (String → Bool)
  required : Bool := false

/-- A command: its options, and the commands that may follow it. -/
inductive Grammar where
  | node (options : List OptionRule) (commands : List (String × Grammar))

def Grammar.options : Grammar → List OptionRule
  | .node os _ => os

def Grammar.commands : Grammar → List (String × Grammar)
  | .node _ cs => cs

/-- Why a command line is not run. -/
inductive Stop where
  | misuse
  | help
  | version
  deriving DecidableEq

/-- The options given to one command, with their values; flags have an empty one. -/
abbrev Values := List (String × String)

/-- Options that end the reading when they are met. -/
structure Closing where
  name : String
  short : Char
  stop : Stop

/-- What an argument can be. -/
inductive Shape where
  | escape
  | long (name : String) (value : Option String)
  | short (letters : List Char)
  | plain (text : String)

def Shape.ofArgument (a : String) : Shape :=
  match a.toList with
  | ['-', '-'] => .escape
  | '-' :: '-' :: rest =>
    let name := rest.takeWhile (· ≠ '=')
    match rest.drop name.length with
    | [] => .long (String.ofList name) none
    | _ :: value => .long (String.ofList name) (some (String.ofList value))
  | '-' :: c :: rest => .short (c :: rest)
  | _ => .plain a

/-- Adds an option with a value that it accepts, unless it was given before. -/
def give (o : OptionRule) (value : String) (seen : Values) : Except Stop Values :=
  let accepted := match o.value with
    | some accepts => accepts value
    | none => true
  if accepted && !seen.any (·.1 == o.name) then .ok (seen ++ [(o.name, value)])
  else .error .misuse

/-- The letters behind one hyphen: flags, and at the end perhaps an option with its value.
    Answers with the option that still lacks its value, if there is one. -/
def giveLetters (options : List OptionRule) (closing : List Closing) :
    List Char → Values → Except Stop (Values × Option OptionRule)
  | [], seen => .ok (seen, none)
  | c :: rest, seen =>
    match options.find? (·.short == some c), closing.find? (·.short == c) with
    | some o, _ => match o.value, rest with
      | none, _ => do giveLetters options closing rest (← give o "" seen)
      | some _, [] => .ok (seen, some o)
      | some _, '=' :: value => do return (← give o (String.ofList value) seen, none)
      | some _, value => do return (← give o (String.ofList value) seen, none)
    | none, some c => .error c.stop
    | none, none => .error .misuse

/-- What one argument does, given by its shape: the values with it, and the option that still
    lacks its value. -/
def takeOption (g : Grammar) (closing : List Closing) (seen : Values) :
    Shape → Except Stop (Values × Option OptionRule)
  | .long name attached =>
    match g.options.find? (·.name == name) with
    | some o => match o.value, attached with
      | none, none => do return (← give o "" seen, none)
      | none, some _ => .error .misuse
      | some _, none => .ok (seen, some o)
      | some _, some v => do return (← give o v seen, none)
    | none => match closing.find? (·.name == name), attached with
      | some c, none => .error c.stop
      | _, _ => .error .misuse
  | .short letters => giveLetters g.options closing letters seen
  | _ => .error .misuse

/-- Reads the arguments of one command up to the command that follows it; `lacking` is the
    option whose value comes next. -/
def readLevel (g : Grammar) (closing : List Closing) (seen : Values)
    (lacking : Option OptionRule) :
    List String → Except Stop (Values × Option (String × List String))
  | [] => if lacking.isSome then .error .misuse else .ok (seen, none)
  | a :: rest =>
    match lacking, Shape.ofArgument a with
    | some o, .plain value => do readLevel g closing (← give o value seen) none rest
    | some _, _ => .error .misuse
    | none, .plain name => .ok (seen, some (name, rest))
    | none, .escape => if rest.isEmpty then .ok (seen, none) else .error .misuse
    | none, shape => do
      let (seen, lacking) ← takeOption g closing seen shape
      readLevel g closing seen lacking rest

/-- Whether a list of names leads to a command. -/
def Grammar.leadsTo : Grammar → List String → Bool
  | _, [] => true
  | .node _ commands, name :: rest =>
    match h : commands.find? (·.1 == name) with
    | some (_, g) =>
      have : sizeOf g < sizeOf commands := by
        have hm := List.sizeOf_lt_of_mem (List.mem_of_find?_eq_some h)
        simp only [Prod.mk.sizeOf_spec] at hm
        omega
      leadsTo g rest
    | none => name == "help" && rest.isEmpty
termination_by g => sizeOf g

/-- A command line that was read: each command with the options given to it, outermost
    first. -/
abbrev Line := List (String × Values)

/-- Reads the arguments of a command that is called `name`. -/
def Grammar.read (g : Grammar) (closing inner : List Closing) (name : String)
    (args : List String) : Except Stop Line := do
  match ← readLevel g closing [] none args with
  | (values, none) =>
    if g.commands.isEmpty && g.options.all fun o => !o.required || values.any (·.1 == o.name)
    then return [(name, values)]
    else throw .misuse
  | (values, some (next, rest)) =>
    match h : g.commands.find? (·.1 == next) with
    | some (_, c) =>
      have : sizeOf c < sizeOf g := by
        have hm := List.sizeOf_lt_of_mem (List.mem_of_find?_eq_some h)
        cases g
        simp only [Prod.mk.sizeOf_spec, Grammar.commands, Grammar.node.sizeOf_spec] at hm ⊢
        omega
      return (name, values) :: (← c.read inner inner next rest)
    | none =>
      if next = "help" ∧ !g.commands.isEmpty ∧ g.leadsTo rest then throw .help
      else throw .misuse
termination_by sizeOf g

end SyncLedger.Cli
