import ExplicitNull.FileSystem.Basic
import ExplicitNull.Settings

/-!
What ends a run early, with the messages that say so, the outermost first and then its causes.
-/
namespace ExplicitNull

inductive Failure
  /-- The root cannot be looked at. -/
  | badRoot (root : Path) (cause : FileError)
  | rootNotDirectory (root : Path)
  | unlistable (root : Path) (cause : FileError)
  | settingsUnreadable (file : Path) (cause : FileError)
  | settingsMalformed (file : Path)
  /-- A file of settings is refused. -/
  | settingsInvalid (file : Path) (cause : SettingsError)
  /-- The settings of file and command line together are refused. -/
  | invalid (cause : SettingsError)
  /-- A failure to get at the settings, as the command reports it. -/
  | loading (cause : Failure)
  /-- A path has no JSON form. -/
  | unrenderable
  | formatMode
  deriving Repr

namespace Failure

def messages : Failure → List Bytes
  | .badRoot root e => [utf8 "invalid path: " ++ root.display, e.message]
  | .rootNotDirectory root => [utf8 "invalid path: " ++ root.display ++ utf8 " is not a directory"]
  | .unlistable root e => [utf8 "failed to read directory: " ++ root.display, e.message]
  | .settingsUnreadable p e => [utf8 "failed to read config file: " ++ p.display, e.message]
  | .settingsMalformed p =>
    [utf8 "failed to parse config file: " ++ p.display, utf8 "not a JSON object of settings"]
  | .settingsInvalid p e => (utf8 "invalid config in: " ++ p.display) :: e.messages
  | .invalid e => utf8 "invalid configuration" :: e.messages
  | .loading f => utf8 "failed to load configuration" :: f.messages
  | .unrenderable =>
    [utf8 "failed to serialize issues as JSON", utf8 "path contains invalid UTF-8 characters"]
  | .formatMode => [utf8 "--format json is only valid in list mode"]

end Failure

end ExplicitNull
