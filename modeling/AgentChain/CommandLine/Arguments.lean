import AgentChain.Text.Lines

/-!
# Arguments of the command line

The arguments are a command with its options. An option with a value is written `--name value` or
`--name=value`; a separate value must not look like an option. The option `--root` may stand before
or after the command, and the one after it counts. Each option may be given once in each of these
places. Arguments are read from left to right, and the first one that asks for help or for the
version, or that is wrong, decides.
-/

namespace AgentChain.CommandLine

inductive CommandName where
  | discover
  | vendor
  | package
  | build
  | verify
  | run
  deriving DecidableEq, Repr

namespace CommandName

def all : List CommandName :=
  [discover, vendor, package, build, verify, run]

def text : CommandName → String
  | discover => "discover"
  | vendor => "vendor"
  | package => "package"
  | build => "build"
  | verify => "verify"
  | run => "run"

def ofText? (s : String) : Option CommandName :=
  all.find? fun c => c.text == s

def options : CommandName → List String
  | vendor => ["catalog"]
  | build => ["catalog"]
  | run => ["input", "config"]
  | _ => []

end CommandName

inductive Command where
  | discover
  | vendor (catalog : String)
  | package
  | build (catalog : String)
  | verify
  | run (input config : String)
  deriving DecidableEq, Repr

inductive Request where
  | perform (root : String) (command : Command)
  | version
  | help (topic : Option CommandName)
  | misuse
  deriving DecidableEq, Repr

/-! ### Tokens -/

inductive Token where
  | option (name value : String)
  | flag (name : String)
  | word (text : String)
  /-- The mark after which no options stand. -/
  | stop
  /-- An option without its value. -/
  | broken
  deriving DecidableEq, Repr

def valued : List String :=
  ["root", "catalog", "input", "config"]

/-- Whether an argument looks like an option. A single dash does not. -/
def looksLikeOption (arg : String) : Bool :=
  match arg.toList with
  | '-' :: _ :: _ => true
  | _ => false

def splitLong (body : List Char) : String × Option String :=
  (String.ofList (body.takeWhile (· ≠ '=')),
    match body.dropWhile (· ≠ '=') with
    | [] => none
    | _ :: value => some (String.ofList value))

/-- The arguments with their values. A short option counts by its first letter. -/
def tokens : List String → List Token
  | [] => []
  | arg :: rest =>
    match arg.toList with
    | ['-', '-'] => .stop :: tokens rest
    | '-' :: '-' :: body =>
      match splitLong body with
      | (name, some value) =>
        (if valued.contains name then .option name value else .broken) :: tokens rest
      | (name, none) =>
        if valued.contains name then
          match rest with
          | value :: rest =>
            if looksLikeOption value then [.broken] else .option name value :: tokens rest
          | [] => [.broken]
        else .flag name :: tokens rest
    | ['-', 'h'] => .flag "help" :: tokens rest
    | ['-', 'V'] => .flag "version" :: tokens rest
    | '-' :: 'h' :: _ => .flag "help" :: tokens rest
    | '-' :: 'V' :: _ => .flag "version" :: tokens rest
    | '-' :: _ :: _ => .broken :: tokens rest
    | _ => .word arg :: tokens rest

/-! ### Requests -/

abbrev Given := List (String × String)

def Given.get? (g : Given) (name : String) : Option String :=
  (g.find? fun option => option.1 == name).map (·.2)

/-- Whether an option may be given now: it is known here, was not given before, and names a path
only if its value is not empty. -/
def Given.admits (g : Given) (known : List String) (name value : String) : Bool :=
  known.contains name && (g.get? name).isNone &&
    !(value.isEmpty && (name == "root" || name == "catalog"))

def command? (name : CommandName) (g : Given) : Option Command :=
  match name with
  | .discover => some .discover
  | .vendor => (g.get? "catalog").map .vendor
  | .package => some .package
  | .build => (g.get? "catalog").map .build
  | .verify => some .verify
  | .run => some (.run ((g.get? "input").getD "\x7b\x7d") ((g.get? "config").getD "\x7b\x7d"))

/-- The request of the options after a command, given the root before it. -/
def ofOptions (root : Option String) (name : CommandName) : Given → List Token → Request
  | g, [] => finish g
  | g, .option option value :: rest =>
    if g.admits ("root" :: name.options) option value then
      ofOptions root name ((option, value) :: g) rest
    else .misuse
  | _, .flag "help" :: _ => .help (some name)
  | g, [.stop] => finish g
  | _, _ => .misuse
where
  finish (g : Given) : Request :=
    match command? name g with
    | some command => .perform (((g.get? "root").or root).getD ".") command
    | none => .misuse

def ofTopic : List Token → Request
  | [] => .help none
  | [.word text] =>
    match CommandName.ofText? text with
    | some name => .help (some name)
    | none => if text = "help" then .help none else .misuse
  | _ => .misuse

def ofTokens : Given → List Token → Request
  | g, .option option value :: rest =>
    if g.admits ["root"] option value then ofTokens ((option, value) :: g) rest else .misuse
  | _, .flag "help" :: _ => .help none
  | _, .flag "version" :: _ => .version
  | g, .word text :: rest =>
    match CommandName.ofText? text with
    | some name => ofOptions (g.get? "root") name [] rest
    | none => if text = "help" then ofTopic rest else .misuse
  | _, _ => .misuse

def parse (args : List String) : Request :=
  ofTokens [] (tokens args)

end AgentChain.CommandLine
