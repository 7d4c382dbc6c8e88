/-! The arguments of the command line. Options of the program may stand before or behind the name of the
command, and there those of the command too. An option is given once at each of the two levels; only
services may be named repeatedly. Arguments are taken in order: the first that asks for help or the
version is answered, and the first that fits nowhere is an error. -/

namespace ServiceTypings

inductive Command where
  | download (destination : String) (services : List String)
  | convert (files : List String) (output : Option String)
  | list
  deriving DecidableEq, Repr

structure Invocation where
  debug : Bool
  config : Option String
  command : Command
  deriving DecidableEq, Repr

namespace Arguments

/-- Why no command is run. -/
inductive Refusal where
  | version
  | help
  | usage
  deriving DecidableEq, Repr

inductive Level where
  | program
  | download
  | convert
  | list
  deriving DecidableEq, Repr

inductive Flag where
  | debug
  | config
  | output
  | service
  | version
  | help
  deriving DecidableEq, Repr

namespace Flag

def takesValue : Flag → Bool
  | config | output | service => true
  | debug | version | help => false

def ofLetter? (level : Level) (c : Char) : Option Flag :=
  if c = 'd' then some debug
  else if c = 'h' then some help
  else if c = 'V' ∧ level = .program then some version
  else if c = 'o' ∧ level = .convert then some output
  else none

def ofWord? (level : Level) (word : String) : Option Flag :=
  if word = "debug" then some debug
  else if word = "config" then some config
  else if word = "help" then some help
  else if word = "version" ∧ level = .program then some version
  else if word = "output" ∧ level = .convert then some output
  else if word = "api" ∧ level = .download then some service
  else none

end Flag

/-- What was given so far at one level. -/
structure Given where
  debug : Bool := false
  config : Option String := none
  output : Option String := none
  services : List String := []
  values : List String := []
  deriving DecidableEq, Repr

namespace Given

/-- A path may not be empty, and is given once. -/
def path (known : Option String) (value : String) : Except Refusal (Option String) :=
  if known.isSome || value = "" then .error .usage else .ok (some value)

def take (g : Given) : Flag → Option String → Except Refusal Given
  | .debug, none => if g.debug then .error .usage else .ok { g with debug := true }
  | .config, some value => (path g.config value).map fun config => { g with config }
  | .output, some value => (path g.output value).map fun output => { g with output }
  | .service, some value => .ok { g with services := g.services ++ [value] }
  | .version, none => .error .version
  | .help, none => .error .help
  | _, _ => .error .usage

/-- How many values besides the options a level has room for. -/
def hasRoom (g : Given) : Level → Bool
  | .program => false
  | .download => g.values.isEmpty
  | .convert => true
  | .list => false

def add (level : Level) (g : Given) (value : String) : Except Refusal Given :=
  if g.hasRoom level && value ≠ "" then .ok { g with values := g.values ++ [value] }
  else .error .usage

end Given

/-- Letters behind one dash. The value of an option is what is left of them, or the next argument. -/
def takeLetters (level : Level) : List Char → Given → Except Refusal (Given × Option Flag)
  | [], g => .ok (g, none)
  | c :: cs, g =>
    match Flag.ofLetter? level c with
    | none => .error .usage
    | some flag =>
      if flag.takesValue then
        match cs with
        | [] => .ok (g, some flag)
        | '=' :: value => (g.take flag (some (.ofList value))).map (·, none)
        | value => (g.take flag (some (.ofList value))).map (·, none)
      else (g.take flag none).bind (takeLetters level cs)

/-- A word behind two dashes, with its value if an equals sign gives one. -/
def takeWord (level : Level) (cs : List Char) (g : Given) : Except Refusal (Given × Option Flag) :=
  match Flag.ofWord? level (.ofList (cs.takeWhile (· ≠ '='))) with
  | none => .error .usage
  | some flag =>
    match cs.dropWhile (· ≠ '=') with
    | _ :: value => (g.take flag (some (.ofList value))).map (·, none)
    | [] => if flag.takesValue then .ok (g, some flag) else (g.take flag none).map (·, none)

/-- A dash alone is a value. -/
def isOption (argument : String) : Bool :=
  argument.toList.head? = some '-' && argument ≠ "-"

/-- Reads the arguments of a level. At the level of the program the first value is the name of a command,
and what follows it is left. -/
def read (level : Level) : Option Flag → Given → List String →
    Except Refusal (Given × Option (String × List String))
  | some _, _, [] => .error .usage
  | none, g, [] => .ok (g, none)
  | some flag, g, argument :: rest =>
    if isOption argument then .error .usage
    else (g.take flag (some argument)).bind fun g => read level none g rest
  | none, g, argument :: rest =>
    match argument.toList with
    | ['-', '-'] => (rest.foldlM (Given.add level) g).map (·, none)
    | '-' :: '-' :: word => (takeWord level word g).bind fun (g, flag) => read level flag g rest
    | cs =>
      if isOption argument then
        (takeLetters level (cs.drop 1) g).bind fun (g, flag) => read level flag g rest
      else if level = .program then .ok (g, some (argument, rest))
      else (g.add level argument).bind fun g => read level none g rest

def level? (name : String) : Option Level :=
  if name = "download" then some .download
  else if name = "convert" then some .convert
  else if name = "list" then some .list
  else none

def command (level : Level) (g : Given) : Except Refusal Command :=
  match level with
  | .program => .error .usage
  | .download => .ok (.download (g.values.head?.getD "definitions") g.services)
  | .convert => if g.values.isEmpty then .error .usage else .ok (.convert g.values g.output)
  | .list => .ok .list

/-- Behind the word that asks for help there may be the name of a command. -/
def helpFor : List String → Refusal
  | [] => .help
  | [name] => if (level? name).isSome || name = "help" then .help else .usage
  | _ => .usage

def parse (arguments : List String) : Except Refusal Invocation := do
  let (outer, named) ← read .program none {} arguments
  match named with
  | none => .error .usage
  | some (name, rest) =>
    match level? name with
    | none => .error (if name = "help" then helpFor rest else .usage)
    | some level =>
      let (inner, _) ← read level none {} rest
      return {
        debug := outer.debug || inner.debug
        config := inner.config.or outer.config
        command := ← command level inner }

end Arguments
end ServiceTypings
