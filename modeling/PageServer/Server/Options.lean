import PageServer.Settings

/-!
# Server options

Where a server listens and how many threads it has. The options come from the
section `global` of the settings; a port that is none and a thread count below
zero are not taken.
-/

namespace PageServer

/-- The section that the server's settings stand in. -/
def Settings.global : Bytes := "global"

/-- The options of a server. -/
structure ServerOptions where
  ip : Bytes := "0.0.0.0"
  port : Nat := 28080
  ioThreads : Nat := 2
  workerThreads : Nat := 4
  reusePort : Bool := false
  deriving DecidableEq, Repr

namespace ServerOptions

/-- A thread count; one below zero stands for none. -/
def threads (n : Int) : Nat := n.toNat

/-- The port that was set, or the default for a number that is no port. -/
def portOf (n : Int) (default : Nat) : Reported Nat :=
  if 0 ≤ n ∧ n ≤ 65535 then pure n.toNat
  else do
    Reported.record .warn
      ("Config: listen_port " ++ Numeral.ofInt n ++ " out of range, using " ++ Numeral.ofNat default)
    return default

/-- The options that the settings ask for. -/
def ofSettings (s : Settings) : Reported ServerOptions := do
  let default : ServerOptions := {}
  let ip := s.string Settings.global "listen_ip" default.ip
  let port ← portOf (← s.int Settings.global "listen_port" default.port) default.port
  let io ← s.int Settings.global "io_threads" default.ioThreads
  let workers ← s.int Settings.global "worker_threads" default.workerThreads
  let reusePort ← s.bool Settings.global "reuse_port" default.reusePort
  return { ip, port, ioThreads := threads io, workerThreads := threads workers, reusePort }

end ServerOptions

end PageServer
