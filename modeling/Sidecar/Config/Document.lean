import Sidecar.Config.Basic
import Sidecar.Toml.Document

/-!
# Configurations as documents

A configuration file is a TOML document with one section for each group of settings. Reading is
generous about what it does not know and strict about what it knows: unknown keys and sections are
passed over, a setting that is left out takes its default, and a setting of the wrong type makes the
whole document unreadable.

A group is written as a table. It may also be an array, which then gives the settings in the order
of their declaration; both forms are first brought to one (`Group`), a look-up of settings.

Writing prints every setting that has a value, in the order of declaration. TOML integers are signed
64-bit numbers, so a larger setting cannot be written. Printing and reading documents are given by a
`Format`, of which there is one, `Format.toml`.
-/

set_option autoImplicit false

namespace Sidecar

namespace Config

open Toml

/-! ## Reading -/

/-- A group of settings: what is given for the setting at a place in the declaration, which also
has a name. -/
abbrev Group := Nat → String → Option Item

/-- The settings that an item gives. A point in time reads as a table without known keys. -/
def groupOf : Item → Option Group
  | .table _ entries => some fun _ name => Entries.get? entries name
  | .dateTime _ => some fun _ _ => none
  | .array items => some fun place _ => items[place]?
  | .tables members => some fun place _ => (members[place]?).map (.table .header)
  | _ => none

/-- Reads a switch. -/
def switchOf : Item → Option Bool
  | .boolean value => some value
  | _ => none

/-- Reads a count. -/
def countOf : Item → Option Nat
  | .integer value => if 0 ≤ value then some value.toNat else none
  | _ => none

/-- Whether an item holds nothing, as what stands behind the name of a choice must. -/
def isVoid : Item → Bool
  | .table _ entries => entries.isEmpty
  | .array items => items.isEmpty
  | .tables members => members.isEmpty
  | _ => false

/-- Reads a frequency: its name, or a table with its name as the only key and nothing behind it. -/
def frequencyOf : Item → Option WatchFrequency
  | .text name => WatchFrequency.ofName? name
  | .table _ [(name, item)] => if isVoid item then WatchFrequency.ofName? name else none
  | _ => none

/-- Reads a setting that has a default. -/
def setting {α : Type} (group : Group) (place : Nat) (name : String) (read : Item → Option α)
    (default : α) : Option α :=
  match group place name with
  | none => some default
  | some item => read item

/-- Reads the settings of the cache. -/
def cacheOf (group : Group) : Option CacheConfig := do
  let default : CacheConfig := {}
  return {
    weightCircuitBreaker :=
      ← setting group 0 "weight_circuit_breaker" switchOf default.weightCircuitBreaker
    maxWeightBytes := ← setting group 1 "max_weight_bytes" countOf default.maxWeightBytes
    idleEviction := ← setting group 2 "idle_eviction" switchOf default.idleEviction
    idleTimeoutMs := ← setting group 3 "idle_timeout_ms" countOf default.idleTimeoutMs
    sweepIntervalMs := ← setting group 4 "sweep_interval_ms" countOf default.sweepIntervalMs
    releaseQueueDepth := ← setting group 5 "release_queue_depth" countOf default.releaseQueueDepth }

/-- Reads the settings of the watcher. -/
def watcherOf (group : Group) : Option WatcherConfig := do
  let default : WatcherConfig := {}
  return {
    enabled := ← setting group 0 "enabled" switchOf default.enabled
    frequency := ← setting group 1 "frequency" frequencyOf default.frequency
    intervalMs := ← setting group 2 "interval_ms" (fun item => (countOf item).map some) none }

/-- Reads the settings of the writer. -/
def writerOf (group : Group) : Option WriterConfig := do
  let default : WriterConfig := {}
  return {
    buildThreads := ← setting group 0 "build_threads" countOf default.buildThreads
    buildQueueDepth := ← setting group 1 "build_queue_depth" countOf default.buildQueueDepth
    buildTimeoutMs := ← setting group 2 "build_timeout_ms" (fun item => (countOf item).map some)
      none }

/-- Reads the settings of queries. -/
def queryOf (group : Group) : Option QueryConfig := do
  let default : QueryConfig := {}
  return {
    maxK := ← setting group 0 "max_k" countOf default.maxK
    evictionRetries := ← setting group 1 "eviction_retries" countOf default.evictionRetries }

/-- Reads one group of a document. -/
def groupNamed {α : Type} (document : Entries) (name : String) (read : Group → Option α)
    (default : α) : Option α :=
  match document.get? name with
  | none => some default
  | some item => (groupOf item).bind read

/-- Reads the configuration that a document gives. -/
def ofDocument (document : Entries) : Option Config := do
  return {
    cache := ← groupNamed document "cache" cacheOf {}
    watcher := ← groupNamed document "watcher" watcherOf {}
    writer := ← groupNamed document "writer" writerOf {}
    query := ← groupNamed document "query" queryOf {} }

/-! ## Writing -/

/-- A setting as it is written. -/
inductive Written where
  | switch (value : Bool)
  | count (value : Nat)
  | choice (name : String)
  deriving DecidableEq, Repr

/-- The text of a written setting, unless it is a number that the format cannot hold. -/
def Written.text? : Written → Option String
  | switch true => some "true"
  | switch false => some "false"
  | count value => if value < UInt64.size / 2 then some (toString value) else none
  | choice name => some ("\"" ++ name ++ "\"")

/-- The settings of a configuration by group, as they are written. -/
def written (config : Config) : List (String × List (String × Written)) :=
  let optional (name : String) (value : Option Nat) : List (String × Written) :=
    value.toList.map fun n => (name, .count n)
  [("cache",
    [("weight_circuit_breaker", .switch config.cache.weightCircuitBreaker),
     ("max_weight_bytes", .count config.cache.maxWeightBytes),
     ("idle_eviction", .switch config.cache.idleEviction),
     ("idle_timeout_ms", .count config.cache.idleTimeoutMs),
     ("sweep_interval_ms", .count config.cache.sweepIntervalMs),
     ("release_queue_depth", .count config.cache.releaseQueueDepth)]),
   ("watcher",
    [("enabled", .switch config.watcher.enabled),
     ("frequency", .choice config.watcher.frequency.name)]
      ++ optional "interval_ms" config.watcher.intervalMs),
   ("writer",
    [("build_threads", .count config.writer.buildThreads),
     ("build_queue_depth", .count config.writer.buildQueueDepth)]
      ++ optional "build_timeout_ms" config.writer.buildTimeoutMs),
   ("query",
    [("max_k", .count config.query.maxK),
     ("eviction_retries", .count config.query.evictionRetries)])]

/-- The lines of a group: its header, and a line for each setting. -/
def groupText? (name : String) (settings : List (String × Written)) : Option String := do
  let lines ← settings.mapM fun (key, value) => do
    let value ← value.text?
    return key ++ " = " ++ value ++ "\n"
  return "[" ++ name ++ "]\n" ++ String.join lines

/-- The text of some groups, with an empty line between them. There is none when a number is too
large. -/
def groupsText? (groups : List (String × List (String × Written))) : Option String := do
  let texts ← groups.mapM fun (name, settings) => groupText? name settings
  return "\n".intercalate texts

/-! ## Formats -/

/-- A printer and a reader of documents. Everything else about a configuration file, which settings
there are, what stands for one that is left out and what is refused, is not the format's affair. -/
structure Format where
  /-- The text of groups of settings, or why there is none. -/
  print : List (String × List (String × Written)) → Except String String
  /-- The document that a text describes. -/
  read : String → Option Entries

/-- The format of configuration files. -/
def Format.toml : Format where
  print groups := match groupsText? groups with
    | some text => .ok text
    | none => .error "out-of-range value for u64 type"
  read := Document.read

/-- Reads the configuration that a text gives. -/
def ofText (format : Format) (text : String) : Option Config := (format.read text).bind ofDocument

end Config

end Sidecar
