import Buildbox.Archive.Decode
import Buildbox.Archive.Gzip
import Buildbox.Archive.Inflate
import Buildbox.Archive.Tar
import Buildbox.Asset.ArchiveCache
import Buildbox.Asset.ContentCache
import Buildbox.Asset.Crowd
import Buildbox.Asset.OnceMap
import Buildbox.Asset.Sessions
import Buildbox.Asset.Shelf
import Buildbox.Asset.Source
import Buildbox.Asset.Toolchain
import Buildbox.Asset.Web
import Buildbox.Bytes
import Buildbox.CommandLine.Arguments
import Buildbox.CommandLine.Help
import Buildbox.CommandLine.Likeness
import Buildbox.CommandLine.Outcome
import Buildbox.Config.Basic
import Buildbox.Config.Codec
import Buildbox.Config.Load
import Buildbox.Config.Toml
import Buildbox.Digest.Crc32
import Buildbox.Digest.Sha256
import Buildbox.Digest.SipHash
import Buildbox.Disk
import Buildbox.Failure
import Buildbox.FileSet
import Buildbox.Guest.Import
import Buildbox.Guest.Lister
import Buildbox.Guest.Loader
import Buildbox.Guest.Memory
import Buildbox.Guest.ModuleForm
import Buildbox.Guest.Program
import Buildbox.Guest.Run
import Buildbox.Guest.State
import Buildbox.Host.Call
import Buildbox.Host.Clock
import Buildbox.Host.Errno
import Buildbox.Host.Files
import Buildbox.Host.Filestat
import Buildbox.Host.Listing
import Buildbox.Host.Paths
import Buildbox.Host.Record
import Buildbox.Host.State
import Buildbox.Json.Decode
import Buildbox.Json.Number
import Buildbox.Json.Reader
import Buildbox.Json.Tagged
import Buildbox.Json.Value
import Buildbox.Literal.Basic
import Buildbox.Literal.Tree
import Buildbox.Main
import Buildbox.Message.Codec
import Buildbox.Message.Event
import Buildbox.Message.Stage
import Buildbox.NameMap
import Buildbox.Output
import Buildbox.Path
import Buildbox.Pipeline.Basic
import Buildbox.Pipeline.Course
import Buildbox.Pipeline.Dialogue
import Buildbox.Pipeline.Floor
import Buildbox.Pipeline.Setup
import Buildbox.Proofs.Archive.Cuts
import Buildbox.Proofs.Archive.Entries
import Buildbox.Proofs.Archive.Inflating
import Buildbox.Proofs.Archive.Members
import Buildbox.Proofs.Archive.Prefixes
import Buildbox.Proofs.Archive.Wanted
import Buildbox.Proofs.Asset.Alone
import Buildbox.Proofs.Asset.Crowd
import Buildbox.Proofs.Asset.Entries
import Buildbox.Proofs.Asset.PopulatedOnce
import Buildbox.Proofs.Asset.Sessions
import Buildbox.Proofs.Asset.SharedCache
import Buildbox.Proofs.Asset.Shelf
import Buildbox.Proofs.CommandLine.ExitCode
import Buildbox.Proofs.Disk.Files
import Buildbox.Proofs.Disk.Places
import Buildbox.Proofs.FileSet.Origins
import Buildbox.Proofs.FileSet.SingleMap
import Buildbox.Proofs.Guest.Addresses
import Buildbox.Proofs.Guest.Buffers
import Buildbox.Proofs.Guest.EmptyWrites
import Buildbox.Proofs.Guest.Faults
import Buildbox.Proofs.Guest.Listing
import Buildbox.Proofs.Guest.Quiet
import Buildbox.Proofs.Guest.Scatter
import Buildbox.Proofs.Guest.Spreading
import Buildbox.Proofs.Guest.Strings
import Buildbox.Proofs.Guest.TopOfMemory
import Buildbox.Proofs.Host.Atomic
import Buildbox.Proofs.Host.Budget
import Buildbox.Proofs.Host.Carrying
import Buildbox.Proofs.Host.Checked
import Buildbox.Proofs.Host.Clearing
import Buildbox.Proofs.Host.Confinement
import Buildbox.Proofs.Host.Delivery
import Buildbox.Proofs.Host.Effect
import Buildbox.Proofs.Host.Handover
import Buildbox.Proofs.Host.Hidden
import Buildbox.Proofs.Host.Inversion
import Buildbox.Proofs.Host.Listed
import Buildbox.Proofs.Host.Lookup
import Buildbox.Proofs.Host.Moving
import Buildbox.Proofs.Host.Numbers
import Buildbox.Proofs.Host.Opened
import Buildbox.Proofs.Host.Opening
import Buildbox.Proofs.Host.Positions
import Buildbox.Proofs.Host.Reading
import Buildbox.Proofs.Host.Refusal
import Buildbox.Proofs.Host.Streaming
import Buildbox.Proofs.Host.Trees
import Buildbox.Proofs.Host.Writing
import Buildbox.Proofs.Json.ReadBack
import Buildbox.Proofs.Lists
import Buildbox.Proofs.Message.RoundTrip
import Buildbox.Proofs.Pipeline.Admission
import Buildbox.Proofs.Pipeline.Closing
import Buildbox.Proofs.Pipeline.CompilerOutput
import Buildbox.Proofs.Pipeline.Desks
import Buildbox.Proofs.Pipeline.Driving
import Buildbox.Proofs.Pipeline.Exchanges
import Buildbox.Proofs.Pipeline.Exclusion
import Buildbox.Proofs.Pipeline.Execution
import Buildbox.Proofs.Pipeline.Fairness
import Buildbox.Proofs.Pipeline.Handling
import Buildbox.Proofs.Pipeline.InTurn
import Buildbox.Proofs.Pipeline.Letters
import Buildbox.Proofs.Pipeline.Marks
import Buildbox.Proofs.Pipeline.MergedFiles
import Buildbox.Proofs.Pipeline.OutputLines
import Buildbox.Proofs.Pipeline.Report
import Buildbox.Proofs.Pipeline.Reporting
import Buildbox.Proofs.Pipeline.Serial
import Buildbox.Proofs.Sandbox.Lobby
import Buildbox.Proofs.Stage.DerivedNames
import Buildbox.Proofs.Stage.Leftovers
import Buildbox.Proofs.Stage.Mounted
import Buildbox.Proofs.Stage.Sources
import Buildbox.Proofs.Stage.SupportDirs
import Buildbox.Proofs.Text.LineBuffers
import Buildbox.Proofs.Tree.Insertion
import Buildbox.Proofs.Tree.LastWriter
import Buildbox.Proofs.Tree.Length
import Buildbox.Proofs.Tree.Listing
import Buildbox.Proofs.Tree.Order
import Buildbox.Proofs.Tree.Overlay
import Buildbox.Proofs.Tree.Paths
import Buildbox.Proofs.Tree.Placing
import Buildbox.Proofs.Tree.Rebuilding
import Buildbox.Proofs.Tree.Spelling
import Buildbox.Proofs.Tree.Tables
import Buildbox.Proofs.Tree.Valid
import Buildbox.Proofs.Utf8.Chunking
import Buildbox.Proofs.Utf8.Encoding
import Buildbox.Proofs.Utf8.Reading
import Buildbox.Proofs.Worker.Completion
import Buildbox.Proofs.Worker.Desk
import Buildbox.Proofs.Worker.HandledOnce
import Buildbox.Proofs.Worker.Progress
import Buildbox.Proofs.Worker.Relays
import Buildbox.Proofs.Worker.Services
import Buildbox.Proofs.Worker.Station
import Buildbox.Proofs.Worker.Streams
import Buildbox.Proofs.Worker.Tasks
import Buildbox.Proofs.Worker.Undisturbed
import Buildbox.Sandbox.Engine
import Buildbox.Sandbox.ExitStatus
import Buildbox.Sandbox.Invocation
import Buildbox.Sandbox.Lobby
import Buildbox.Sandbox.Runner
import Buildbox.Sandbox.Script
import Buildbox.Stage.Artifact
import Buildbox.Stage.Basic
import Buildbox.Stage.Derivative
import Buildbox.Stage.Trial
import Buildbox.Text.Blank
import Buildbox.Text.Lines
import Buildbox.Text.Quoted
import Buildbox.Text.Split
import Buildbox.Text.Stream
import Buildbox.Text.Utf8
import Buildbox.Tree.Building
import Buildbox.Tree.Directory
import Buildbox.Tree.Mount
import Buildbox.Worker.Handler
import Buildbox.Worker.Mailbox
import Buildbox.Worker.Replies
import Buildbox.Worker.Station
import Buildbox.Worker.Tasks
