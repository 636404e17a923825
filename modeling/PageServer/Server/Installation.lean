import PageServer.Files.Local
import PageServer.Load.Service
import PageServer.Pages.Local
import PageServer.Server.Check
import PageServer.Server.Lifetime

/-!
# An installed server

The server as it is installed works on a disk: one directory holds the files
that it shows, another one the pages. Settings say which, and where it listens
(`Installation.launch`).
-/

namespace PageServer

/-- What an installed server changes. -/
structure Installation where
  disk : Disk := {}
  metrics : Metrics := {}
  service : Load.Service := {}

namespace Installation

def diskPart : Part Installation Disk := ⟨disk, fun d i => { i with disk := d }⟩

def metricsPart : Part Installation Metrics := ⟨metrics, fun m i => { i with metrics := m }⟩

def servicePart : Part Installation Load.Service := ⟨service, fun s i => { i with service := s }⟩

/-- The files that settings ask for. -/
def files (s : Settings) : FileSystem Installation :=
  (LocalFiles.ofRoot (s.string "filesystem" "root" "/")).onDisk.within diskPart

/-- Makes the pages that settings ask for. -/
def makePages (s : Settings) : Act Installation LocalPages := do
  let size ← Act.report s.pageSize
  Act.within diskPart
    (LocalPages.create (s.string "page_store" "root" "/tmp/cacheworker/pages") size)

/-- A server that serves, and the workplace of its loads. -/
structure Running where
  server : Server Installation
  loads : Load.Workplace Installation
  /-- The level that the log has. -/
  level : Log.Level

/-- Makes a server as settings ask for it, to work on given pages. -/
def build (machine : Net.Machine) (s : Settings) (pages : PageStore Installation) :
    Act Installation Running := do
  let kept ← Act.report s.keptLoads
  Act.within servicePart (Act.modify fun l => { l with limit := kept.toNat })
  Act.within metricsPart (Act.modify Worker.registerTraffic)
  let o ← Act.report (ServerOptions.ofSettings s)
  let loads : Load.Workplace Installation := ⟨files s, pages, servicePart⟩
  let server ← Server.create machine 0 o
    { files := files s, pages, metrics := metricsPart, loader := loads.loader }
  return ⟨server, loads, s.logLevel⟩

/-- Makes a server as settings ask for it, and has it listen. -/
def launch (machine : Net.Machine) (s : Settings) : Act Installation Running := do
  let pages ← makePages s
  let running ← build machine s (pages.store diskPart)
  running.server.start
  Act.record .info
    ("cacheworker serving on " ++ running.server.address.text ++ " pages=" ++ pages.root ++
      " page_size=" ++ Numeral.ofInt pages.pageSize)
  return running

end Installation

end PageServer
