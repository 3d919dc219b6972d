import SqlComposer.CommandLine
import SqlComposer.Settings
import SqlComposer.TableFile

/-!
# What a command reports

Settings are read first, whatever the command. A command prints to its output and ends well, or
ends with one error line. The line shows the chain of causes, each behind a colon.
-/
namespace SqlComposer.CommandLine

structure Report where
  /-- the exit code: 0 for success, 1 for a failure and 2 for arguments that make no command -/
  exit : Nat
  output : String := ""
  errors : String := ""
  deriving DecidableEq, Repr

/-- Whether output is coloured: when that is forced, or else on a terminal unless it is refused. -/
def isColoured (w : Surroundings) : Bool :=
  let refused (name : String) : Bool := w.environment name = some "0"
  if (w.environment "CLICOLOR_FORCE").isSome && !refused "CLICOLOR_FORCE" then true
  else (w.environment "NO_COLOR").isNone && !refused "CLICOLOR" && w.isTerminal

def paint (coloured : Bool) (style text : String) : String :=
  if coloured then "\x1b[" ++ style ++ "m" ++ text ++ "\x1b[0m" else text

def padded (width : Nat) (s : String) : String :=
  s ++ String.ofList (List.replicate (width - s.length) ' ')

def chain (e : Fault) : String :=
  match e.cause? with
  | some cause => e.message ++ ": " ++ cause
  | none => e.message

def typeTable (coloured : Bool) (dialects : List Dialect) : String :=
  let line (head : String) (cells : List String) : String :=
    String.join (head :: cells.map (" " ++ ·)) ++ "\n"
  let name (s : String) (width : Nat) : String := paint coloured "1;37" (padded width s)
  let rule := String.ofList (List.replicate (12 + 21 * dialects.length) '─')
  let row (t : ColumnType) : String :=
    line (paint coloured "36" (padded 12 t.text))
      (dialects.map fun d => paint coloured "33" (padded 20 (d.typeKeyword t)))
  line (name "Type" 12) (dialects.map fun d => name d.name 20) ++
    paint coloured "2" rule ++ "\n" ++ String.join (ColumnType.all.map row)

/-- No database can be opened from here, whatever its scheme. -/
def noDriver (url : String) : Fault :=
  let scheme := url.toList.takeWhile (· ≠ ':')
  .connection ("error with configuration: " ++
    if scheme.length = url.length then "relative URL without a base"
    else "no driver found for URL scheme " ++ Text.escaped (Text.lowered (String.ofList scheme)))

def tableStatements (w : Surroundings) (s : Settings) (file : String) :
    Except String (List Compiled) := do
  let text ←
    match (w.file file).read with
    | .ok text => .ok text
    | .error reason => .error ("Failed to read " ++ file ++ ": " ++ reason)
  let tables ←
    match TableEntry.readAll text with
    | .ok tables => .ok tables
    | .error e => .error ("Invalid table file " ++ file ++ ": " ++ e.cause?.getD e.message)
  tables.mapM fun t =>
    match t.create s.compiler with
    | .ok q => .ok q
    | .error e => .error ("Cannot build table '" ++ t.name ++ "': " ++ chain e)

/-- Where statements would run: nothing is left to do when there are none. -/
def runStatements (s : Settings) (statements : List String) : Except String Unit :=
  match s.database, statements with
  | .error e, _ => .error (chain e)
  | .ok _, [] => .ok ()
  | .ok url, _ => .error (chain (noDriver url))

def perform (w : Surroundings) (coloured : Bool) (i : Invocation) : Except String String := do
  let o := i.options
  let s ←
    match Settings.load w o.config with
    | .ok s => .ok (s.withUrl (o.databaseUrl <|> w.environment Settings.urlVariable))
    | .error e => .error ("Failed to load settings: " ++ chain e)
  let s := { s with dialect := o.dialect.getD s.dialect }
  match i.command with
  | .types =>
    let dialects :=
      match o.dialect with
      | some d => [d]
      | none => Dialect.all
    return typeTable coloured dialects
  | .ddl file execute =>
    let statements ← tableStatements w s file
    if execute then
      runStatements s (statements.map Compiled.sql)
      return paint coloured "32" "✓" ++ " Created " ++
        paint coloured "36" (toString statements.length) ++ " table(s)\n"
    return String.join (statements.map fun q => paint coloured "37" q.sql ++ ";\n")
  | .exec sql =>
    runStatements s [sql]
    return ""

def versionText : String := "partsmap 0.3.0\n"

def helpText : String :=
  String.join ([
    "Compile table definitions and statements to SQL",
    "",
    "Usage: partsmap [OPTIONS] <COMMAND>",
    "",
    "Commands:",
    "  ddl <FILE>  Generate CREATE TABLE statements from a table file",
    "  exec <SQL>  Execute raw SQL",
    "  types       Show the column type keywords of each dialect",
    "",
    "Options:",
    "  -c, --config <CONFIG>              Settings file",
    "      --database-url <DATABASE_URL>  Database connection URL",
    "  -d, --dialect <DIALECT>            Target SQL dialect (sqlite, sqlserver)",
    "  -v, --verbose                      Verbose output",
    "  -e, --execute                      Run the statements of ddl",
    "  -h, --help                         Print help",
    "  -V, --version                      Print version"].map (· ++ "\n"))

def report (w : Surroundings) (args : List String) : Report :=
  match parse args with
  | .error .usage => { exit := 2, errors := helpText }
  | .error .version => { exit := 0, output := versionText }
  | .error .help => { exit := 0, output := helpText }
  | .ok i =>
    let coloured := isColoured w
    match perform w coloured i with
    | .ok output => { exit := 0, output }
    | .error e => { exit := 1, errors := paint coloured "1;31" "Error:" ++ " " ++ e ++ "\n" }

def filesRead (w : Surroundings) (args : List String) : List String :=
  match parse args with
  | .error _ => []
  | .ok i =>
    let settings :=
      match i.options.config with
      | some file => [file]
      | none => Settings.usualFiles w
    match i.command with
    | .ddl file _ => settings ++ [file]
    | _ => settings

end SqlComposer.CommandLine
