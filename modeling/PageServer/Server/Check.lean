import PageServer.Server.Options

/-!
# Checking settings

Settings are checked before anything is started with them. Of several problems
the first is told, in the order port, threads, page size, finished loads.
-/

namespace PageServer

/-- What is wrong with settings. -/
inductive SettingsProblem
  | port
  | ioThreads
  | workerThreads
  | pageSize
  | keptLoads
  deriving DecidableEq, Repr

namespace SettingsProblem

/-- The problem in words. -/
def message : SettingsProblem → Bytes
  | port => "global.listen_port out of range"
  | ioThreads => "global.io_threads must be >= 0"
  | workerThreads => "global.worker_threads must be >= 0"
  | pageSize => "page_store.page_size must be > 0"
  | keptLoads => "load.max_tracked_jobs must be > 0"

end SettingsProblem

namespace Settings

/-- The page size that is asked for. -/
def pageSize (s : Settings) : Reported Int := s.int64 "page_store" "page_size" 1048576

/-- How many finished loads are to be kept. -/
def keptLoads (s : Settings) : Reported Int := s.int "load" "max_tracked_jobs" 128

/-- The level that the log is to have. -/
def logLevel (s : Settings) : Log.Level :=
  Log.Level.ofName (s.string global "log_level" "INFO") .info

/-- The first problem of the settings. -/
def check (s : Settings) : Reported (Option SettingsProblem) := do
  let default : ServerOptions := {}
  let port ← s.int global "listen_port" default.port
  if port < 0 ∨ 65535 < port then return some .port
  if (← s.int global "io_threads" default.ioThreads) < 0 then return some .ioThreads
  if (← s.int global "worker_threads" default.workerThreads) < 0 then return some .workerThreads
  if (← s.pageSize) ≤ 0 then return some .pageSize
  if (← s.keptLoads) ≤ 0 then return some .keptLoads
  return none

end Settings

end PageServer
