import Sidecar.Watcher

/-!
# A watch post

A watcher at work on a file tree. What it does on a deletion is a *reaction*: it reports, and then
it may drop one watch and set another. Reactions are carried out one after the other when the table
has been updated already, so a reaction may watch the very path that it reacts to; if the file is
not there, the refusal is reported instead.

A started post polls at its interval while somebody waits for reports.
-/

set_option autoImplicit false

namespace Sidecar

/-- What to do on a deletion. -/
structure Reaction where
  /-- How the deletion is reported. -/
  label : String
  /-- The path that is not watched any more afterwards. -/
  unregisters : Option Path := none
  /-- The path that is watched afterwards. -/
  registers : Option Path := none
  deriving DecidableEq, Repr

/-- The reaction on a watch that was set by a reaction. -/
def Reaction.successor (reaction : Reaction) : Reaction := { label := reaction.label ++ "+" }

/-- A watcher at work. -/
structure WatchPost where
  files : FileTree
  watcher : Watcher Reaction
  /-- The reports that nobody has collected. -/
  reports : List String := []
  /-- The time since the start, in milliseconds. -/
  elapsed : Nat := 0
  /-- When the next poll happens by itself. -/
  nextPoll : Option Nat := none
  deriving Repr

namespace WatchPost

/-- How a path looks. -/
def presence (post : WatchPost) (path : Path) : Presence := (post.files.stat path).map fun _ => ()

/-- Watches a path. -/
def register (path : Path) (reaction : Reaction) (post : WatchPost) :
    Except Error Unit × WatchPost :=
  let (result, watcher) := post.watcher.register (post.presence path) path reaction
  (result, { post with watcher })

/-- Stops watching a path. -/
def unregister (path : Path) (post : WatchPost) : WatchPost :=
  { post with watcher := post.watcher.unregister path }

/-- Adds a report. -/
def report (text : String) (post : WatchPost) : WatchPost :=
  { post with reports := post.reports ++ [text] }

/-- Carries out the reaction to a deletion. -/
def react (post : WatchPost) (watch : Path × Reaction) : WatchPost :=
  let (path, reaction) := watch
  let post := post.report (reaction.label ++ ":" ++ path.text)
  let post := match reaction.unregisters with
    | some path => post.unregister path
    | none => post
  match reaction.registers with
  | none => post
  | some path => match post.register path reaction.successor with
    | (.ok (), post) => post
    | (.error e, post) => post.report e.message

/-- Polls the watcher. The answer is the number of deletions. -/
def poll (post : WatchPost) : Nat × WatchPost :=
  let (fired, watcher) := post.watcher.poll post.presence
  (fired.length, fired.foldl react { post with watcher })

/-- The time of the poll after this one. An interval of zero counts as one. -/
def followingPoll (post : WatchPost) : Nat := post.elapsed + max post.watcher.interval 1

/-- Polls by itself from now on; a post that does so already, or was shut down, stays as it is. -/
def start (post : WatchPost) : WatchPost :=
  if post.watcher.isShutDown || post.nextPoll.isSome then post
  else { post with nextPoll := some post.followingPoll }

/-- Stops for good. -/
def shutdown (post : WatchPost) : WatchPost :=
  { post with watcher := post.watcher.shutdown, nextPoll := none }

/-- Lets polls happen until that many reports wait or a point in time is reached, at most the given
number of polls. -/
def runUntil (count time : Nat) : Nat → WatchPost → WatchPost
  | 0, post => post
  | n + 1, post =>
    if count ≤ post.reports.length then post
    else match post.nextPoll.filter (· ≤ time) with
      | none => { post with elapsed := max post.elapsed time }
      | some due =>
        let (_, post) := { post with elapsed := max post.elapsed due }.poll
        runUntil count time n { post with nextPoll := some post.followingPoll }

/-- How long anybody waits for reports, in milliseconds. -/
def patience : Nat := 5000

/-- Waits until that many reports have come in, or patience ends. -/
def waitFor (count : Nat) (post : WatchPost) : WatchPost :=
  runUntil count (post.elapsed + patience) (patience + 1) post

/-- Collects the reports. -/
def collect (post : WatchPost) : List String × WatchPost :=
  (post.reports, { post with reports := [] })

end WatchPost

end Sidecar
