import PageServer.Bench.World
import PageServer.Main
import PageServer.Net.ByteBuffer
import PageServer.Net.Readiness
import PageServer.Net.TaskLoop
import PageServer.Proofs.Http.Intake
import PageServer.Proofs.Http.Delimited
import PageServer.Proofs.Http.Written
import PageServer.Proofs.Http.Response
import PageServer.Proofs.Act
import PageServer.Proofs.Http.Connection
import PageServer.Proofs.Http.Lifecycle
import PageServer.Proofs.Http.Conversation
import PageServer.Proofs.Files.Disk
import PageServer.Proofs.Pages.Local
import PageServer.Proofs.Pages.Isolation
import PageServer.Proofs.Pages.Layout
import PageServer.Proofs.Worker.Pages
import PageServer.Proofs.Http.Routing
import PageServer.Proofs.Worker.Answers
import PageServer.Proofs.Worker.Reads
import PageServer.Proofs.Worker.Traffic
import PageServer.Proofs.Load.Chronicle
import PageServer.Proofs.Load.Delivery
import PageServer.Proofs.Worker.Writes
import PageServer.Proofs.Worker.Positions
import PageServer.Proofs.Http.HeaderLimit
import PageServer.Proofs.Http.Escapes
import PageServer.Proofs.Http.Target
import PageServer.Proofs.Http.Routes
import PageServer.Proofs.Http.Received
import PageServer.Proofs.Pages.Stored
import PageServer.Proofs.Load.Course
import PageServer.Proofs.Load.Talk
import PageServer.Proofs.Load.Rounds
import PageServer.Proofs.Files.Folders
import PageServer.Proofs.Files.Hidden
import PageServer.Proofs.Files.Lookup
import PageServer.Proofs.Load.Trees
import PageServer.Proofs.Load.Static
import PageServer.Proofs.Load.Termination
import PageServer.Proofs.Load.Endless
import PageServer.Proofs.Load.Survey
import PageServer.Proofs.Load.TreeSurvey
import PageServer.Proofs.Load.Copy
import PageServer.Proofs.Load.Filter
import PageServer.Proofs.Load.Scene
import PageServer.Proofs.Load.Batches
import PageServer.Proofs.Load.Reload
import PageServer.Proofs.Load.Options
import PageServer.Proofs.Json.Answers
import PageServer.Proofs.Metrics
import PageServer.Proofs.Http.Fields
import PageServer.Proofs.Files.Canonical
import PageServer.Proofs.Load.References
import PageServer.Proofs.Net.ByteBuffer
import PageServer.Proofs.Net.TaskLoop
import PageServer.Proofs.Settings
import PageServer.Proofs.Http.Lookup
import PageServer.Proofs.Http.Numbers
import PageServer.Proofs.Server.Lifetime
import PageServer.Proofs.Server.Launch
