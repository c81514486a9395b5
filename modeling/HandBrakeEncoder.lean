import HandBrakeEncoder.Lib.Braces
import HandBrakeEncoder.Lib.Counting
import HandBrakeEncoder.Lib.PosixPath
import HandBrakeEncoder.Lib.FileSystem
import HandBrakeEncoder.Lib.Descriptors
import HandBrakeEncoder.Lib.JsonText
import HandBrakeEncoder.Lib.Lines
import HandBrakeEncoder.Lib.Markers
import HandBrakeEncoder.Lib.RealPath
import HandBrakeEncoder.Lib.Run
import HandBrakeEncoder.Lib.Text
import HandBrakeEncoder.Py
import HandBrakeEncoder.Progress.Scanner
import HandBrakeEncoder.Progress.Loop
import HandBrakeEncoder.Progress.Escapes
import HandBrakeEncoder.Progress.Exact
import HandBrakeEncoder.Jobs.Job
import HandBrakeEncoder.Jobs.Manager
import HandBrakeEncoder.Jobs.Exec
import HandBrakeEncoder.Jobs.LifeCycle
import HandBrakeEncoder.Jobs.Shutdown
import HandBrakeEncoder.Jobs.Restart
import HandBrakeEncoder.Jobs.Stranded
import HandBrakeEncoder.Jobs.Backlog
import HandBrakeEncoder.Jobs.View
import HandBrakeEncoder.Jobs.Eta
import HandBrakeEncoder.Jobs.Seen
import HandBrakeEncoder.Paths
import HandBrakeEncoder.Paths.Admission
import HandBrakeEncoder.Presets
import HandBrakeEncoder.Encoders.Parse
import HandBrakeEncoder.Ops.Encode
import HandBrakeEncoder.Ops.Stages
import HandBrakeEncoder.Ops.Cleanup
import HandBrakeEncoder.Ops.Outcome
import HandBrakeEncoder.Ops.Tamper
import HandBrakeEncoder.Ops.Untouched
import HandBrakeEncoder.Runner.Process
import HandBrakeEncoder.Runner.Verdict
import HandBrakeEncoder.Runner.Timeline
import HandBrakeEncoder.Runner.Healthy
import HandBrakeEncoder.Runner.Orphan
import HandBrakeEncoder.Service.Life
import HandBrakeEncoder.Service.Reachable
import HandBrakeEncoder.Service.Outcome
import HandBrakeEncoder.Service.Views
import HandBrakeEncoder.Routes.Checks
import HandBrakeEncoder.Routes.Post
import HandBrakeEncoder.Encoders.Cache
import HandBrakeEncoder.Lib.Listing
import HandBrakeEncoder.Presets.Paths
import HandBrakeEncoder.Paths.Names
import HandBrakeEncoder.Limits
import HandBrakeEncoder.Encoders.Blocks
import HandBrakeEncoder.Progress.Delivery
import HandBrakeEncoder.Progress.Percent
import HandBrakeEncoder.Service.Percent
import HandBrakeEncoder.Progress.Bounded
import HandBrakeEncoder.Progress.Incremental
import HandBrakeEncoder.Progress.Noise
import HandBrakeEncoder.Progress.Recovery
import HandBrakeEncoder.Encoders.Fresh
import HandBrakeEncoder.Progress.Compose
import HandBrakeEncoder.Jobs.Order
import HandBrakeEncoder.Jobs.Drain
import HandBrakeEncoder.Jobs.History
import HandBrakeEncoder.Jobs.Ledger
import HandBrakeEncoder.Lib.Resolution
import HandBrakeEncoder.Lib.LinkFree
import HandBrakeEncoder.Ops.Inside
import HandBrakeEncoder.Ops.Admitted
import HandBrakeEncoder.Routes.Admission
import HandBrakeEncoder.Routes.Polls
import HandBrakeEncoder.Jobs.Serving
import HandBrakeEncoder.Ops.Batch
import HandBrakeEncoder.Routes.Errors
import HandBrakeEncoder.Gpu
import HandBrakeEncoder.Routes.Health
import HandBrakeEncoder.Config
