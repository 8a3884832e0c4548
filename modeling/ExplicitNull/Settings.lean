import ExplicitNull.Glob.Expression
import ExplicitNull.Glob.Parser
import ExplicitNull.Json.Reader
import ExplicitNull.Path
import ExplicitNull.Fix
import ExplicitNull.Text.Blank

/-!
Settings as they are given, in a file and on the command line, and the selection of files that
they come to. A value of the command line replaces that of the file, excludes add up.
-/
namespace ExplicitNull

/-- The settings of a file. An empty list of extensions asks for the default. -/
structure Settings where
  extensions : List Bytes := []
  exclude : List Bytes := []
  suffix : Option Bytes := none
  style : Option Style := none
  deriving DecidableEq, Repr

structure Overrides where
  extensions : Option (List Bytes) := none
  exclude : List Bytes := []
  suffix : Option Bytes := none
  style : Option Style := none
  deriving DecidableEq, Repr

structure Selection where
  /-- In lower case and without dots in front. -/
  extensions : List Bytes
  /-- Excludes that are looked for as whole segments of a path. -/
  segments : List Bytes
  globs : List Glob.Pattern
  suffix : Bytes
  style : Style
  deriving DecidableEq, Repr

inductive SettingsError
  | emptySuffix
  | suffixSeparator (suffix : Bytes)
  | emptyExtension
  /-- An exclude is no glob, as it was given. -/
  | badExclude (pattern : Bytes) (cause : Glob.ParseError)
  /-- An exclude without the blanks at its ends is no glob. -/
  | badGlob (pattern : Bytes) (cause : Glob.ParseError)
  /-- The excludes are globs, but not all can be used. -/
  | tooDeep (cause : Glob.NestingError)
  deriving DecidableEq, Repr

namespace SettingsError

def globMessage (glob cause : Bytes) : Bytes :=
  utf8 "error parsing glob '" ++ glob ++ utf8 "': " ++ cause

def expressionMessage (position : Nat) : Bytes := utf8 "error parsing pattern " ++ decimal position

def messages : SettingsError → List Bytes
  | .emptySuffix => [utf8 "suffix must not be empty"]
  | .suffixSeparator s =>
    [utf8 "suffix must not contain path separators (got " ++ s ++ utf8 ")"]
  | .emptyExtension => [utf8 "extensions must not contain empty entries"]
  | .badExclude p e => [utf8 "invalid exclude pattern: " ++ p, globMessage p e.text]
  | .badGlob p e => [globMessage p e.text]
  | .tooDeep (.alone expression) => [globMessage expression (expressionMessage 0)]
  | .tooDeep (.together position) => [expressionMessage position]

end SettingsError

namespace Settings

def defaultSuffix : Bytes := utf8 ".phpscan_fix_nullable.bak"

def defaultExtensions : List Bytes := [utf8 "php"]

def isGlob (exclude : Bytes) : Bool :=
  exclude.any fun b => b == byte '*' || b == byte '?' || b == byte '[' || b == byte '\x7b'

def normalizeExtension (extension : Bytes) : Bytes :=
  Bytes.toLower ((Blank.trim extension).dropWhile (· == byte '.'))

def parseGlob (exclude : Bytes) : Except Glob.ParseError Glob :=
  Glob.parse (Utf8.decode exclude)

def checkSuffix : Option Bytes → Except SettingsError Unit
  | none => .ok ()
  | some suffix =>
    if suffix.isEmpty then .error .emptySuffix
    else if suffix.contains (byte '/') || suffix.contains (byte '\\') then
      .error (.suffixSeparator suffix)
    else .ok ()

def checkExcludes : List Bytes → Except SettingsError Unit
  | [] => .ok ()
  | p :: rest =>
    if isGlob p then
      match parseGlob p with
      | .error e => .error (.badExclude p e)
      | .ok _ => checkExcludes rest
    else checkExcludes rest

def validate (s : Settings) : Except SettingsError Unit :=
  match checkSuffix s.suffix with
  | .error e => .error e
  | .ok () =>
    if s.extensions.any fun e => (normalizeExtension e).isEmpty then .error .emptyExtension
    else checkExcludes s.exclude

def withOverrides (s : Settings) (o : Overrides) : Settings where
  extensions := o.extensions.getD s.extensions
  exclude := s.exclude ++ o.exclude
  suffix := o.suffix <|> s.suffix
  style := o.style <|> s.style

def trimSlashes (bs : Bytes) : Bytes :=
  ((bs.dropWhile (· == byte '/')).reverse.dropWhile (· == byte '/')).reverse

def excludes (s : Settings) : List Bytes := (s.exclude.map Blank.trim).filter (!·.isEmpty)

def parseGlobs : List Bytes → Except SettingsError (List Glob)
  | [] => .ok []
  | p :: rest =>
    match parseGlob p with
    | .error e => .error (.badGlob p e)
    | .ok g => (parseGlobs rest).map (g :: ·)

def compileGlobs (excludes : List Bytes) : Except SettingsError (List Glob.Pattern) :=
  match parseGlobs excludes with
  | .error e => .error e
  | .ok globs =>
    match Glob.checkNesting globs with
    | .error e => .error (.tooDeep e)
    | .ok () => .ok (globs.map Glob.pattern)

def resolve (s : Settings) : Except SettingsError Selection :=
  match s.validate with
  | .error e => .error e
  | .ok () =>
    (compileGlobs (s.excludes.filter isGlob)).map fun globs =>
      { extensions :=
          if s.extensions.isEmpty then defaultExtensions else s.extensions.map normalizeExtension
        segments := (s.excludes.filter (!isGlob ·)).map trimSlashes
        globs := globs
        suffix := s.suffix.getD defaultSuffix
        style := s.style.getD .mark }

def strings? : List Json → Option (List Bytes)
  | [] => some []
  | .string text :: rest => (strings? rest).map (text :: ·)
  | _ => none

def stringsOf? : Json → Option (List Bytes)
  | .array items => strings? items
  | _ => none

def suffixOf? : Json → Option (Option Bytes)
  | .null => some none
  | .string text => some (some text)
  | _ => none

def styleNamed? (name : Bytes) : Option Style :=
  if name = Style.name .mark then some .mark
  else if name = Style.name .union then some .union
  else none

/-- A style is its name, or an object with the name as its only member, which is null. -/
def styleOf? : Json → Option (Option Style)
  | .null => some none
  | .string name => (styleNamed? name).map some
  | .object [(name, .null)] => (styleNamed? name).map some
  | _ => none

def set? (s : Settings) (key : Bytes) (value : Json) : Option Settings :=
  if key = utf8 "extensions" then (stringsOf? value).map ({ s with extensions := · })
  else if key = utf8 "exclude" then (stringsOf? value).map ({ s with exclude := · })
  else if key = utf8 "suffix" then (suffixOf? value).map ({ s with suffix := · })
  else if key = utf8 "style" then (styleOf? value).map ({ s with style := · })
  else none

def keys : List Bytes := ["extensions", "exclude", "suffix", "style"].map utf8

def setAll? (s : Settings) : List (Bytes × Json) → Option Settings
  | [] => some s
  | (key, value) :: rest => (s.set? key value).bind fun s' => setAll? s' rest

/-- Settings are an object with known members, none of them twice, or an array of at most four
values in the order of the keys. -/
def ofJson? : Json → Option Settings
  | .object members =>
    if (members.map Prod.fst).Nodup then setAll? {} members else none
  | .array items => if items.length ≤ keys.length then setAll? {} (keys.zip items) else none
  | _ => none

def read? (text : Bytes) : Option Settings := (Json.read? text).bind ofJson?

end Settings

namespace Selection

def skippedDirectories : List Bytes := [".git", "node_modules"].map utf8

def hasScannedExtension (s : Selection) (p : Path) : Bool :=
  p.extension?.any fun e => s.extensions.contains (Bytes.toLower e)

def hasSegment (path segment : Bytes) : Bool :=
  Bytes.containsPart ([byte '/'] ++ segment ++ [byte '/']) path

def shouldInclude (s : Selection) (p : Path) : Bool :=
  let path := p.display.map fun b => if b = byte '\\' then byte '/' else b
  s.hasScannedExtension p &&
    !(skippedDirectories.any (hasSegment path) || s.segments.any (hasSegment path) ||
      s.globs.any (·.accepts path))

end Selection

end ExplicitNull
