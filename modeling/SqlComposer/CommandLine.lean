import SqlComposer.Dialect

/-!
# The command line

A command stands among options, some of which belong to every command. No option is given twice
in front of the command or twice behind it; given once in both places, the later one holds. Behind
two hyphens alone every argument is an operand.
-/
namespace SqlComposer.CommandLine

inductive Flag where
  | config
  | databaseUrl
  | dialect
  | verbose
  | execute
  | version
  | help
  deriving DecidableEq, Repr

inductive Place where
  | front
  | ddl
  | exec
  | types
  deriving DecidableEq, Repr

def Place.ofName? : String → Option Place
  | "ddl" => some .ddl
  | "exec" => some .exec
  | "types" => some .types
  | _ => none

namespace Flag

def takesValue : Flag → Bool
  | .config | .databaseUrl | .dialect => true
  | _ => false

def fits : Flag → Place → Bool
  | .execute, p => p = .ddl
  | .version, p => p = .front
  | _, _ => true

def ofLong? (p : Place) (name : String) : Option Flag :=
  let known : List (String × Flag) :=
    [("config", .config), ("database-url", .databaseUrl), ("dialect", .dialect),
     ("verbose", .verbose), ("execute", .execute), ("version", .version), ("help", .help)]
  (known.lookup name).filter (·.fits p)

def ofShort? (p : Place) (letter : Char) : Option Flag :=
  let known : List (Char × Flag) :=
    [('c', .config), ('d', .dialect), ('v', .verbose), ('e', .execute), ('V', .version),
     ('h', .help)]
  (known.lookup letter).filter (·.fits p)

end Flag

inductive Stop where
  | usage
  | version
  | help
  deriving DecidableEq, Repr

structure Options where
  config : Option String := none
  databaseUrl : Option String := none
  dialect : Option Dialect := none
  verbose : Bool := false
  execute : Bool := false
  operands : List String := []
  deriving DecidableEq, Repr

namespace Options

/-- Note an option; one without a value gets the empty text. -/
def give (o : Options) (flag : Flag) (value : String) : Except Stop Options :=
  match flag with
  | .config =>
    if o.config.isSome ∨ value = "" then .error .usage else .ok { o with config := some value }
  | .databaseUrl =>
    if o.databaseUrl.isSome then .error .usage else .ok { o with databaseUrl := some value }
  | .dialect =>
    match o.dialect, Dialect.read value with
    | none, .ok d => .ok { o with dialect := some d }
    | _, _ => .error .usage
  | .verbose => if o.verbose then .error .usage else .ok { o with verbose := true }
  | .execute => if o.execute then .error .usage else .ok { o with execute := true }
  | .version => .error .version
  | .help => .error .help

/-- Note an operand: a file, which has a name, or a statement. -/
def operand (p : Place) (o : Options) (s : String) : Except Stop Options :=
  if p = .exec ∧ o.operands = [] ∨ p = .ddl ∧ o.operands = [] ∧ s ≠ "" then
    .ok { o with operands := [s] }
  else .error .usage

def followedBy (front behind : Options) : Options :=
  { behind with
    config := behind.config <|> front.config
    databaseUrl := behind.databaseUrl <|> front.databaseUrl
    dialect := behind.dialect <|> front.dialect
    verbose := behind.verbose || front.verbose }

end Options

/-- The letters behind one hyphen. An option that takes a value takes the letters behind it, or
waits for the next argument. -/
def cluster (p : Place) : List Char → Options → Except Stop (Options × Option Flag)
  | [], o => .ok (o, none)
  | c :: rest, o =>
    match Flag.ofShort? p c with
    | none => .error .usage
    | some flag =>
      if flag.takesValue then
        match rest with
        | [] => .ok (o, some flag)
        | '=' :: value => (o.give flag (String.ofList value)).map (·, none)
        | value => (o.give flag (String.ofList value)).map (·, none)
      else do cluster p rest (← o.give flag "")

def named (p : Place) (cs : List Char) (o : Options) : Except Stop (Options × Option Flag) :=
  let name := cs.takeWhile (· ≠ '=')
  match Flag.ofLong? p (String.ofList name), cs.drop name.length with
  | none, _ => .error .usage
  | some flag, [] =>
    if flag.takesValue then .ok (o, some flag) else (o.give flag "").map (·, none)
  | some flag, _ :: value =>
    if flag.takesValue then (o.give flag (String.ofList value)).map (·, none) else .error .usage

/-- What an argument that begins with a hyphen does; one that does not is no option. -/
def option? (p : Place) (arg : String) (o : Options) :
    Option (Except Stop (Options × Option Flag)) :=
  match arg.toList with
  | '-' :: '-' :: cs => some (named p cs o)
  | '-' :: c :: cs => some (cluster p (c :: cs) o)
  | _ => none

/-- Read the arguments of one place, while an option may wait for its value. In front of a
command this stops at the first operand. -/
def readPlace (p : Place) : Option Flag → Options → List String →
    Except Stop (Options × List String)
  | none, o, [] => .ok (o, [])
  | some _, _, [] => .error .usage
  | some flag, o, arg :: rest =>
    if (option? p arg o).isSome then .error .usage
    else do readPlace p none (← o.give flag arg) rest
  | none, o, arg :: rest =>
    if arg = "--" then (rest.foldlM (Options.operand p) o).map (·, [])
    else
      match option? p arg o with
      | some step => do
        let (o, waiting) ← step
        readPlace p waiting o rest
      | none =>
        if p = .front then .ok (o, arg :: rest)
        else do readPlace p none (← o.operand p arg) rest

inductive Command where
  | ddl (file : String) (execute : Bool)
  | exec (sql : String)
  | types
  deriving DecidableEq, Repr

structure Invocation where
  options : Options
  command : Command
  deriving DecidableEq, Repr

def command? (p : Place) (o : Options) : Option Command :=
  match p, o.operands with
  | .ddl, [file] => some (.ddl file o.execute)
  | .exec, [sql] => some (.exec sql)
  | .types, [] => some .types
  | _, _ => none

def helpFor (names : List String) : Stop :=
  match names with
  | [] => .help
  | [name] => if name = "help" ∨ (Place.ofName? name).isSome then .help else .usage
  | _ => .usage

def parse (args : List String) : Except Stop Invocation := do
  match ← readPlace .front none {} args with
  | (_, []) => .error .usage
  | (front, name :: rest) =>
    if name = "help" then .error (helpFor rest)
    else
      match Place.ofName? name with
      | none => .error .usage
      | some p =>
        let (behind, _) ← readPlace p none {} rest
        match command? p behind with
        | some command => .ok { options := front.followedBy behind, command }
        | none => .error .usage

end SqlComposer.CommandLine
