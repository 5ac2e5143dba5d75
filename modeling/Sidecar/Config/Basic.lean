import Sidecar.Error

/-!
# Configuration

The settings of the subsystem in four groups, one for each component that reads them, with the
defaults that hold when a setting is left out. A setting that switches something on stands beside
the value it switches, so what is in force is read through an accessor (`weightBudget`,
`idleTimeout`, `pollInterval`, `buildTimeout`) and never from the raw fields.

All durations are in milliseconds. A configuration is any combination of values; `validate` tells
the ones that every component can work with.
-/

set_option autoImplicit false

namespace Sidecar

/-- The name of the configuration file in a data directory. -/
def configFileName : String := "knn.toml"

/-- When the handle cache gives up entries. -/
structure CacheConfig where
  weightCircuitBreaker : Bool := false
  maxWeightBytes : Nat := 1073741824
  idleEviction : Bool := true
  idleTimeoutMs : Nat := 5400000
  sweepIntervalMs : Nat := 60000
  releaseQueueDepth : Nat := 4096
  deriving DecidableEq, Repr, Inhabited

namespace CacheConfig

/-- The settings under which nothing is evicted. -/
def unbounded : CacheConfig := { weightCircuitBreaker := false, idleEviction := false }

/-- Turns eviction by weight on. -/
def withWeightBudget (config : CacheConfig) (bytes : Nat) : CacheConfig :=
  { config with weightCircuitBreaker := true, maxWeightBytes := bytes }

/-- Turns eviction of idle entries on. The timeout is kept in whole milliseconds, in 64 bits. -/
def withIdleTimeout (config : CacheConfig) (seconds nanoseconds : Nat) : CacheConfig :=
  { config with
    idleEviction := true
    idleTimeoutMs := (seconds * 1000 + nanoseconds / 1000000) % UInt64.size }

/-- The weight budget in force. -/
def weightBudget (config : CacheConfig) : Option Nat :=
  if config.weightCircuitBreaker then some config.maxWeightBytes else none

/-- The idle timeout in force. -/
def idleTimeout (config : CacheConfig) : Option Nat :=
  if config.idleEviction then some config.idleTimeoutMs else none

end CacheConfig

/-- How often the watcher looks at the watched files. -/
inductive WatchFrequency where
  | high
  | medium
  | low
  deriving DecidableEq, Repr, Inhabited

namespace WatchFrequency

/-- The interval of a frequency. -/
def intervalMs : WatchFrequency → Nat
  | high => 5000
  | medium => 30000
  | low => 60000

/-- The name of a frequency in a configuration file. -/
def name : WatchFrequency → String
  | high => "high"
  | medium => "medium"
  | low => "low"

/-- The frequency of a name. -/
def ofName? (name : String) : Option WatchFrequency :=
  [high, medium, low].find? fun frequency => frequency.name == name

end WatchFrequency

/-- Whether and how often sidecar files are watched for deletion. -/
structure WatcherConfig where
  enabled : Bool := true
  frequency : WatchFrequency := .high
  intervalMs : Option Nat := none
  deriving DecidableEq, Repr, Inhabited

/-- The polling interval in force: an explicit interval wins over the frequency. -/
def WatcherConfig.pollInterval (config : WatcherConfig) : Nat :=
  config.intervalMs.getD config.frequency.intervalMs

/-- How sidecars are built. -/
structure WriterConfig where
  buildThreads : Nat := 1
  buildQueueDepth : Nat := 64
  buildTimeoutMs : Option Nat := none
  deriving DecidableEq, Repr, Inhabited

/-- How queries are run. -/
structure QueryConfig where
  maxK : Nat := 10000
  evictionRetries : Nat := 1
  deriving DecidableEq, Repr, Inhabited

/-- The settings of the subsystem. -/
structure Config where
  cache : CacheConfig := {}
  watcher : WatcherConfig := {}
  writer : WriterConfig := {}
  query : QueryConfig := {}
  deriving DecidableEq, Repr, Inhabited

/-- The refusal of a sweep interval of zero, which would leave the sweeper no time to sleep. -/
def CacheConfig.noSweepInterval : Error := .invalidConfig "cache.sweep_interval_ms must be > 0"

/-- Refuses a value with which a component could not work. The first fault in the order of the
settings is reported. -/
def Config.validate (config : Config) : Except Error Unit := do
  let refuse (reason : String) : Except Error Unit := throw (.invalidConfig reason)
  if config.cache.weightCircuitBreaker && config.cache.maxWeightBytes = 0 then
    refuse "cache.max_weight_bytes must be > 0 when weight_circuit_breaker is on"
  if config.cache.idleEviction && config.cache.sweepIntervalMs = 0 then
    throw CacheConfig.noSweepInterval
  if config.cache.releaseQueueDepth = 0 then refuse "cache.release_queue_depth must be > 0"
  if config.writer.buildThreads = 0 then refuse "writer.build_threads must be > 0"
  if config.writer.buildQueueDepth = 0 then refuse "writer.build_queue_depth must be > 0"
  if config.query.maxK = 0 then refuse "query.max_k must be > 0"
  if config.watcher.intervalMs = some 0 then refuse "watcher.interval_ms must be > 0"

end Sidecar
