import Sidecar.FileTree
import Sidecar.Error

/-!
# Watching for deletion

Segments are deleted together with their files, and nobody tells the cache. The watcher keeps a
table of watched paths, each with what to do when its file is gone, and looks at all of them when it
is polled.

A path is watched at most once (a new watch replaces the old), a watch fires at most once (firing
drops it), and *gone* means that the file is not found: a path that fails to resolve for another
reason keeps its watch. What to do on deletion is a value of any type here; whoever polls carries it
out, after the table has been updated, so that carrying it out may watch again.
-/

set_option autoImplicit false

namespace Sidecar

/-- How a path looks to the file system: present, or the cause for which it is not. -/
abbrev Presence := Except FileError Unit

/-- Whether a look at a path shows that its file has been deleted. -/
def Presence.isGone : Presence → Bool
  | .error .notFound => true
  | _ => false

/-- The table of watched paths. -/
structure Watcher (κ : Type) where
  /-- The time between two polls, in milliseconds. -/
  interval : Nat
  /-- The watched paths, each with what to do on deletion. -/
  table : List (Path × κ) := []
  isShutDown : Bool := false
  deriving Repr

namespace Watcher

variable {κ : Type}

/-- Whether a path is watched. -/
def isWatching (w : Watcher κ) (path : Path) : Bool := w.table.any (·.1.sameKey path)

/-- Watches a path, in place of an earlier watch on it. The file must be there. -/
def register (w : Watcher κ) (presence : Presence) (path : Path) (onDeleted : κ) :
    Except Error Unit × Watcher κ :=
  if w.isShutDown then (.error (.watcherRegistration path.text "watcher is shut down"), w)
  else match presence with
    | .error cause => (.error (.watcherRegistration path.text cause.message), w)
    | .ok () =>
      if w.isWatching path then
        (.ok (), { w with table := w.table.map fun watch =>
          if watch.1.sameKey path then (watch.1, onDeleted) else watch })
      else (.ok (), { w with table := w.table ++ [(path, onDeleted)] })

/-- Stops watching a path. -/
def unregister (w : Watcher κ) (path : Path) : Watcher κ :=
  { w with table := w.table.filter (!·.1.sameKey path) }

/-- Looks at every watched path: the watches whose file is gone fire and are dropped. -/
def poll (w : Watcher κ) (presence : Path → Presence) : List (Path × κ) × Watcher κ :=
  (w.table.filter (fun watch => (presence watch.1).isGone),
   { w with table := w.table.filter (fun watch => !(presence watch.1).isGone) })

/-- Stops for good and drops every watch. -/
def shutdown (w : Watcher κ) : Watcher κ := { w with table := [], isShutDown := true }

end Watcher

end Sidecar
