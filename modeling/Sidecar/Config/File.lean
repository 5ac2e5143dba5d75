import Sidecar.Config.Document
import Sidecar.FileTree

/-!
# The configuration file

The configuration of a data directory stands in one file. It is read whole, then taken apart, then
validated, and each of the three steps has a failure of its own; a file that is missing can first be
written with the defaults and a comment for each setting.
-/

set_option autoImplicit false

namespace Sidecar

namespace Config

/-- The content of a fresh configuration file: every default, with comments. -/
def defaultText : String :=
  String.join ([
    "# Strata k-NN configuration",
    "",
    "[cache]",
    "# Bound the total native size of loaded indexes (default: false)",
    "weight_circuit_breaker = false",
    "# Budget in bytes when the circuit breaker is on (default: 1 GiB)",
    "max_weight_bytes = 1073741824",
    "# Evict indexes that are not queried for idle_timeout_ms (default: true)",
    "idle_eviction = true",
    "# 90 minutes",
    "idle_timeout_ms = 5400000",
    "# How often idle indexes are swept",
    "sweep_interval_ms = 60000",
    "release_queue_depth = 4096",
    "",
    "[watcher]",
    "# Invalidate cached indexes when their segment files are deleted",
    "enabled = true",
    "# \"high\" (5s), \"medium\" (30s) or \"low\" (60s)",
    "frequency = \"high\"",
    "# interval_ms = 1000",
    "",
    "[writer]",
    "build_threads = 1",
    "build_queue_depth = 64",
    "# build_timeout_ms = 600000",
    "",
    "[query]",
    "max_k = 10000",
    "eviction_retries = 1"].map (· ++ "\n"))

/-- Reads a configuration file and validates what it gives. -/
def readFile (format : Format) (files : FileTree) (path : Path) : Except Error Config := do
  match files.readText path with
  | .error cause =>
    throw (.io s!"Failed to read config file '{path.text}': {cause.message}")
  | .ok text =>
    match ofText format text with
    | none =>
      throw (.invalidConfig s!"Failed to parse config file '{path.text}': not a configuration")
    | some config =>
      config.validate
      return config

/-- Reads the configuration file of a data directory. -/
def load (files : FileTree) (path : Path) : Except Error Config := readFile .toml files path

/-- Writes the default file, unless something is already there. -/
def writeDefaultIfMissing (files : FileTree) (path : Path) : Except Error FileTree :=
  if files.isPresent path then .ok files
  else match files.write path defaultText.toUTF8.toList with
    | .ok files => .ok files
    | .error cause =>
      .error (.io s!"Failed to write default config file '{path.text}': {cause.message}")

/-- Writes a configuration to a file. It is printed before the file is opened, and a file that cannot
be opened is left alone. -/
def writeFile (format : Format) (config : Config) (files : FileTree) (path : Path) :
    Except Error Unit × FileTree :=
  match format.print config.written with
  | .error cause => (.error (.invalidConfig s!"Failed to serialize config: {cause}"), files)
  | .ok text => match files.write path text.toUTF8.toList with
    | .ok files => (.ok (), files)
    | .error cause =>
      (.error (.io s!"Failed to write config file '{path.text}': {cause.message}"), files)

/-- Writes the configuration file of a data directory. -/
def save (config : Config) (files : FileTree) (path : Path) : Except Error FileTree :=
  let (result, files) := config.writeFile .toml files path
  result.map fun _ => files

end Config

end Sidecar
