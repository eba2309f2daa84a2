import RobotScript.Editor.Operation
import RobotScript.Session.Basic
/-!
What a client can ask of a session, besides looking at it, and the sessions that come of asking.
-/
namespace RobotScript

namespace Session

inductive Operation where
  | execute (text : String)
  | paste
  | importFile (path : String)
  | exportFile (path : String) (region : ExportRegion) (format : ExportFormat)
  | write
  | close (force : Bool)
  /-- An operation of the editor that the session holds. -/
  | edit (operation : RobotScript.Operation)
  /-- The settings are the client's to change; the editor keeps those it was started with. -/
  | setSettings (settings : Settings)
  /-- Files change also from outside. -/
  | setFolder (folder : Folder)

/-- The session after an operation, whether it was refused or not. -/
def serve (s : Session) (operation : Operation) : Except Fault Session :=
  match operation with
  | .execute text => (s.execute text).map (·.session)
  | .paste => s.paste.map (·.2)
  | .importFile path => (s.importFile path).map (·.session)
  | .exportFile path region format => (s.exportLines path region format).map (·.session)
  | .write => s.editor.script.throughLines s.write.session
  | .close force => s.editor.script.throughLines (s.close force).session
  | .edit operation => (s.editor.perform operation).map fun editor => { s with editor }
  | .setSettings settings => .ok { s with settings }
  | .setFolder folder => .ok { s with folder }

/-- The sessions that come of a new one by operations in any order; `c` are the settings of the
editor. -/
inductive Reachable (c : Config) : Session → Prop where
  | start {s : Session} (storage : Storage) (clipboard : Clipboard) (settings : Settings)
    (folder : Folder) :
    settings.config = c → start storage clipboard settings folder = .ok s → Reachable c s
  | serve {s s' : Session} (operation : Operation) :
    Reachable c s → s.serve operation = .ok s' → Reachable c s'

end Session

end RobotScript
