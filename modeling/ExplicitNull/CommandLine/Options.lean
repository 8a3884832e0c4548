import ExplicitNull.Mode
import ExplicitNull.Settings
import ExplicitNull.Text.Utf8

/-!
The options of the command. A flag stands alone; other options take a value, as the rest of
their argument behind `=` or as the next argument, which then must not look like an option. Only
the lists of extensions and of excludes may be given more than once; they are split at commas,
and empty pieces count. There are no further arguments, and `--` may only come last. A question
for help or for the version ends the reading: it is answered if what was given before it is in
order, whatever stands behind it.
-/
namespace ExplicitNull.CommandLine

inductive Format
  | text
  | json
  deriving DecidableEq, Repr

structure Options where
  path : Path
  mode : Mode
  extensions : Option (List Bytes)
  exclude : List Bytes
  union : Bool
  suffix : Option Bytes
  format : Format
  config : Option Path
  verbose : Bool
  deriving DecidableEq, Repr

namespace Options

def overrides (o : Options) : Overrides where
  extensions := o.extensions
  exclude := o.exclude
  suffix := o.suffix
  style := if o.union then some .union else none

end Options

inductive Flag
  | mode (m : Mode)
  | union
  | verbose
  | help
  | version
  deriving DecidableEq, Repr

inductive Key
  | path
  | extensions
  | exclude
  | suffix
  | format
  | config
  deriving DecidableEq, Repr

inductive Given
  | flag (f : Flag)
  | value (k : Key) (v : Bytes)
  deriving DecidableEq, Repr

def flagNames : List (Bytes × Flag) :=
  [(utf8 "list", .mode .list), (utf8 "dry-run", .mode .dryRun), (utf8 "apply", .mode .apply),
    (utf8 "restore", .mode .restore), (utf8 "undo", .mode .restore), (utf8 "union", .union),
    (utf8 "verbose", .verbose), (utf8 "help", .help), (utf8 "version", .version)]

def letters : List (UInt8 × Flag) :=
  [(byte 'v', .verbose), (byte 'h', .help), (byte 'V', .version)]

def keyNames : List (Bytes × Key) :=
  [(utf8 "path", .path), (utf8 "extensions", .extensions), (utf8 "exclude", .exclude),
    (utf8 "suffix", .suffix), (utf8 "format", .format), (utf8 "config", .config)]

def splitAssignment (text : Bytes) : Bytes × Option Bytes :=
  let name := text.takeWhile (· != byte '=')
  match text.drop name.length with
  | [] => (name, none)
  | _ :: value => (name, some value)

/-- Whether an argument cannot be the value of the option before it. A lone `-` can. -/
def looksLikeOption (arg : Bytes) : Bool :=
  arg.head? == some (byte '-') && arg != utf8 "-"

def Given.goesOn : Given → Bool
  | .flag .help | .flag .version => false
  | _ => true

def readLetters? : Bytes → Option (List Given)
  | [] => some []
  | b :: rest =>
    match letters.lookup b with
    | none => none
    | some f =>
      if (Given.flag f).goesOn then (readLetters? rest).map (.flag f :: ·) else some [.flag f]

/-- What arguments give: what the first of them does and, if that does not end the reading, what the
others do. -/
def andRest (first : List Given) (rest : Option (List Given)) : Option (List Given) :=
  if first.all Given.goesOn then rest.map (first ++ ·) else some first

/-- Reads the options one by one; `none` if an argument is out of place. -/
def read? : List Bytes → Option (List Given)
  | [] => some []
  | arg :: rest =>
    if arg = utf8 "--" then if rest = [] then some [] else none
    else if (utf8 "--").isPrefixOf arg then
      let (name, attached) := splitAssignment (arg.drop 2)
      match flagNames.lookup name, keyNames.lookup name, attached with
      | some f, _, none => andRest [.flag f] (read? rest)
      | none, some k, some v => andRest [.value k v] (read? rest)
      | none, some k, none =>
        match rest with
        | [] => none
        | v :: rest' => if looksLikeOption v then none else andRest [.value k v] (read? rest')
      | _, _, _ => none
    else if looksLikeOption arg then
      (readLetters? (arg.drop 1)).bind fun first => andRest first (read? rest)
    else none

def values (k : Key) (given : List Given) : List Bytes :=
  given.filterMap fun
    | .value k' v => if k' = k then some v else none
    | .flag _ => none

def flags (given : List Given) : List Flag :=
  given.filterMap fun
    | .flag f => some f
    | .value _ _ => none

def pieces (k : Key) (given : List Given) : List Bytes :=
  (values k given).flatMap (Bytes.splitOn (byte ','))

def formatNames : List (Bytes × Format) := [(utf8 "text", .text), (utf8 "json", .json)]

namespace Key

def all : List Key := [.path, .extensions, .exclude, .suffix, .format, .config]

def isList (k : Key) : Bool := k == .extensions || k == .exclude

/-- Whether a value can be one of the option: a path may be any bytes but none, other values are
texts. -/
def accepts (k : Key) (v : Bytes) : Bool :=
  match k with
  | .path | .config => !v.isEmpty
  | .format => (formatNames.lookup v).isSome
  | .extensions | .exclude | .suffix => Utf8.isValid v

end Key

def isInOrder (given : List Given) : Bool :=
  decide (flags given).Nodup &&
    Key.all.all fun k =>
      (k.isList || decide ((values k given).length ≤ 1)) && (values k given).all k.accepts

/-- The one mode that is given; listing if none is. -/
def modeOf? (fs : List Flag) : Option Mode :=
  match fs.filterMap fun
    | .mode m => some m
    | _ => none with
  | [] => some .list
  | [m] => some m
  | _ => none

def combine? (given : List Given) : Option Options :=
  let fs := flags given
  let value? (k : Key) : Option Bytes := (values k given).head?
  (modeOf? fs).map fun mode => {
    path := ((value? .path).map Path.mk).getD ⟨utf8 "."⟩
    mode := mode
    extensions := if (values .extensions given).isEmpty then none
      else some (pieces .extensions given)
    exclude := pieces .exclude given
    union := fs.contains .union
    suffix := value? .suffix
    format := ((value? .format).bind fun name => formatNames.lookup name).getD .text
    config := (value? .config).map Path.mk
    verbose := fs.contains .verbose }

inductive Request
  | options (o : Options)
  | help
  | version
  deriving DecidableEq, Repr

/-- What the arguments ask for; `none` for a usage error. Two modes are one only if nothing ends the
reading. -/
def request? (args : List Bytes) : Option Request :=
  (read? args).bind fun given =>
    if isInOrder given then
      match given.getLast? with
      | some (.flag .help) => some .help
      | some (.flag .version) => some .version
      | _ => (combine? given).map .options
    else none

def parse? (args : List Bytes) : Option Options :=
  match request? args with
  | some (.options o) => some o
  | _ => none

end ExplicitNull.CommandLine
