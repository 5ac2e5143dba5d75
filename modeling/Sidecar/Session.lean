import Sidecar.Subsystem.Background
import Sidecar.Text.Quoted

/-!
# Sessions

A session drives a subsystem step by step and holds references to handles under names. What it adds
to the subsystem is what holding means: a handle whose release was refused lives as long as some
name refers to it, and two names may refer to the same handle.

After every step a session comes to *rest*: events that are due happen, waiting releases run, and
orphans that no name refers to are released.
-/

set_option autoImplicit false

namespace Sidecar

/-- A subsystem with named references to handles. -/
structure Session where
  subsystem : Subsystem
  /-- The references, in the order of their names. -/
  references : List (String × Handle FlatIndex) := []

namespace Session

/-! ## References -/

/-- The handles that are held. -/
def held (session : Session) : List Nat := session.references.map (·.2.id)

/-- The handle that a name refers to. -/
def reference? (session : Session) (name : String) : Option (Handle FlatIndex) :=
  (session.references.find? (·.1 == name)).map (·.2)

/-- The names that refer to a handle. -/
def namesOf (session : Session) (h : Handle FlatIndex) : List String :=
  (session.references.filter (·.2.id == h.id)).map (·.1)

/-- Drops the reference of a name. -/
def drop (name : String) (session : Session) : Session :=
  { session with references := session.references.filter (·.1 != name) }

/-- Inserts a reference by its name. -/
def insertByName (name : String) (h : Handle FlatIndex) :
    List (String × Handle FlatIndex) → List (String × Handle FlatIndex)
  | [] => [(name, h)]
  | first :: rest =>
    if name < first.1 then (name, h) :: first :: rest else first :: insertByName name h rest

/-- Makes a name refer to a handle. -/
def hold (name : String) (h : Handle FlatIndex) (session : Session) : Session :=
  let kept := (session.drop name).references
  { session with references := insertByName name h kept }

/-! ## Steps -/

/-- Lets the subsystem do something. -/
def act {α : Type} (work : Subsystem → α × Subsystem) (session : Session) : α × Session :=
  let (result, subsystem) := work session.subsystem
  (result, { session with subsystem })

/-- Changes the subsystem. -/
def change (work : Subsystem → Subsystem) (session : Session) : Session :=
  { session with subsystem := work session.subsystem }

/-- Changes the instruments of the engine. -/
def adjust (work : Instruments → Instruments) (session : Session) : Session :=
  session.change fun s =>
    { s with host := { s.host with instruments := work s.host.instruments } }

/-- A handle as a step shows it. -/
structure View where
  handle : Handle FlatIndex
  isInvalidated : Bool
  isReleased : Bool
  /-- The other names of the handle. -/
  names : List String

/-- Looks at a handle. -/
def view (session : Session) (h : Handle FlatIndex) : View where
  handle := h
  isInvalidated := session.subsystem.cache.isInvalidated h
  isReleased := session.subsystem.cache.isReleased h
  names := session.namesOf h

/-- A summary of a handle for logs. -/
def View.summary (view : View) : String :=
  "NativeIndexHandle \x7b path: " ++ Text.quoted view.handle.path.text ++ ", size_bytes: "
    ++ toString view.handle.size ++ ", invalidated: " ++ toString view.isInvalidated ++ " \x7d"

/-- Gets a handle by some means, looks at it, and holds it if a name is given. -/
def obtain (work : Subsystem → Except Error (Handle FlatIndex) × Subsystem)
    (name : Option String) (session : Session) : Except Error View × Session :=
  match session.act work with
  | (.error e, session) => (.error e, session)
  | (.ok h, session) =>
    let view := session.view h
    match name with
    | none => (.ok view, session)
    | some name => (.ok view, session.hold name h)

/-- Queries the index behind a name; a name that refers to nothing has no answer. -/
def query (name : String) (vector : Embedding) (k : Nat) (session : Session) :
    Option (Except Error (List Match)) × Session :=
  match session.reference? name with
  | none => (none, session)
  | some h =>
    let (result, session) := session.act (Subsystem.query h vector k)
    (some result, session)

/-- What several callers for one path saw together. -/
structure Together where
  /-- The loads they caused. -/
  loads : Nat
  /-- How many of them got a handle. -/
  succeeded : Nat
  /-- Whether all of these got the same. -/
  isShared : Bool
  deriving DecidableEq, Repr

/-- Several callers ask for a path at once. -/
def getTogether (path : Path) (callers : Nat) (session : Session) : Together × Session :=
  let before := session.subsystem.host.instruments.loads
  let (results, session) := session.act (Subsystem.getTogether path callers)
  let ids := results.filterMap fun
    | .ok h => some h.id
    | .error _ => none
  ({ loads := session.subsystem.host.instruments.loads - before
     succeeded := ids.length
     isShared := ids.all (some · == ids.head?) }, session)

/-- Waits until a path has no live entry. -/
def waitGone (path : Path) (session : Session) : Session :=
  session.change (Subsystem.waitFor (!·.cache.contains path) session.held)

/-- Waits until that many indexes were released. -/
def waitReleased (count : Nat) (session : Session) : Session :=
  session.change (Subsystem.waitFor (count ≤ ·.cache.released.length) session.held)

/-- Comes to rest after a step. -/
def rest (session : Session) : Session :=
  session.change fun s => (s.settle session.held).catchUp session.held

end Session

end Sidecar
