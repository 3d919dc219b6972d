import SqlComposer.Compiler
import SqlComposer.Surroundings
import SqlComposer.Toml.Document

/-!
# Settings

A settings file names the database, its dialect and how columns are written. The first file that
there is gives the settings: the one asked for, then one in the working directory, then one in the
user's configuration directory; with no file, the defaults hold. A variable of the environment
replaces the database of the file.
-/
namespace SqlComposer

structure Settings where
  databaseUrl : Option String := none
  dialect : Dialect := .sqlite
  qualify : Bool := true
  deriving DecidableEq, Repr

namespace Settings

def urlVariable : String := "PARTSMAP_DATABASE_URL"

def localFile : String := "partsmap.toml"

def withDatabase (s : Settings) (v : Toml) : Except Fault Settings := do
  let fields ← v.asRecord ["url", "dialect"]
  return { s with
    databaseUrl := ← fields.optional "url" (fun v => v.asText.map some) none
    dialect := ← fields.optional "dialect" (Toml.asAlternative Dialect.ofKeyword?) .sqlite }

def withCompiler (s : Settings) (v : Toml) : Except Fault Settings := do
  let fields ← v.asRecord ["qualify_fields"]
  return { s with qualify := ← fields.optional "qualify_fields" Toml.asBool true }

def ofToml (v : Toml) : Except Fault Settings := do
  let fields ← v.asRecord ["database", "compiler"]
  let s : Settings := {}
  let s ← fields.optional "database" s.withDatabase s
  fields.optional "compiler" s.withCompiler s

def read (text : String) : Except Fault Settings := do
  ofToml (← Toml.read text)

/-- Replace the database by one that is given and not empty. -/
def withUrl (s : Settings) (url : Option String) : Settings :=
  match url.filter (· ≠ "") with
  | some url => { s with databaseUrl := some url }
  | none => s

def ofFile (state : FileState) : Except Fault Settings :=
  match state.read with
  | .ok text => read text
  | .error reason => .error (.inputOutput reason)

/-- The user's configuration directory. A relative one is not taken from the variable for it. -/
def userDirectory? (w : Surroundings) : Option String :=
  match w.environment "XDG_CONFIG_HOME" with
  | some directory => if directory.startsWith "/" then some directory else home?
  | none => home?
where
  home? : Option String :=
    ((w.environment "HOME").filter (· ≠ "")).map (· ++ "/.config")

/-- Where settings are looked for when none are asked for, in order. -/
def usualFiles (w : Surroundings) : List String :=
  localFile :: ((userDirectory? w).map (· ++ "/partsmap/config.toml")).toList

/-- The file that gives the settings, if there is one. -/
def locate? (w : Surroundings) (path : Option String) : Option String :=
  path <|> (usualFiles w).find? fun file => (w.file file).exists?

def load (w : Surroundings) (path : Option String) : Except Fault Settings := do
  let s ←
    match locate? w path with
    | some file => ofFile (w.file file)
    | none => .ok {}
  return s.withUrl (w.environment urlVariable)

def compiler (s : Settings) : Compiler :=
  { dialect := s.dialect, qualify := s.qualify }

/-- The database to open, which has to be named. -/
def database (s : Settings) : Except Fault String :=
  match s.databaseUrl with
  | some url => .ok url
  | none => .error (.configuration ("no database URL. Set database.url or " ++ urlVariable))

end Settings

end SqlComposer
