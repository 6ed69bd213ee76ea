import AgentBlock.Lib.Pool
import AgentBlock.Knl.Ending
import AgentBlock.Lib.Quota
import AgentBlock.Knl.Migration
import AgentBlock.Knl.QueryResolved
import AgentBlock.Shell.BeatTrace
import AgentBlock.Shell.FoldPairs
import AgentBlock.Shell.FoldStable
import AgentBlock.Agent.Seed
import AgentBlock.Agent.Run
import AgentBlock.Supervisor.Merge
import AgentBlock.Bus.Functions
import AgentBlock.Bus.HttpRules
import AgentBlock.Bridge.ShGroups
import AgentBlock.Bridge.FsHistory
import AgentBlock.Job.Recorded
import AgentBlock.Llm.Named
import AgentBlock.Llm.Keeps
import AgentBlock.Policy.Caps
import AgentBlock.Policy.Division
import AgentBlock.Policy.Fitting
import AgentBlock.Lib.Patch
import AgentBlock.Bridge.FsLines
import AgentBlock.FsTools.SearchReplace
import AgentBlock.FsTools.Read
import AgentBlock.FsTools.Rendered
import AgentBlock.FsTools.Pages
import AgentBlock.Lib.Answered
import AgentBlock.Lib.Keyed
import AgentBlock.Job.Read
import AgentBlock.Job.Facts
import AgentBlock.Job.Command
import AgentBlock.Lib.ShellWords
import AgentBlock.Serve.Jobs
import AgentBlock.Serve.Names
import AgentBlock.Bridge.JsonTrip
import AgentBlock.Bridge.Ts
import AgentBlock.Bridge.Buckets
import AgentBlock.Bridge.TagFilter
import AgentBlock.Job.Duration
import AgentBlock.Lib.Mark
import AgentBlock.Llm.Think
import AgentBlock.Obs.SanitizeUrl
import AgentBlock.Policy.Carry
import AgentBlock.Lib.Fifo
import AgentBlock.Llm.Count
import AgentBlock.Lib.Except
import AgentBlock.Shell.ToolLoop
import AgentBlock.Policy.RepeatCap
import AgentBlock.Lib.KeyTree
import AgentBlock.Policy.Signature
import AgentBlock.Knl.Upcast
import AgentBlock.Lib.Lines
import AgentBlock.Knl.ErrorTable
import AgentBlock.Policy.Retry
import AgentBlock.Cli.Inputs
import AgentBlock.Knl.Bracket
import AgentBlock.Policy.Checkpoint
import AgentBlock.Coding.Checkpoint
import AgentBlock.Coding.Restored
import AgentBlock.Policy.Verdict
import AgentBlock.Policy.Ledger
import AgentBlock.Policy.Compact
import AgentBlock.Policy.Compacted
import AgentBlock.Lib.Worklist
import AgentBlock.Lib.Table
import AgentBlock.Knl.Views
import AgentBlock.Knl.ViewsRead
import AgentBlock.Lshape.Build
import AgentBlock.Job.Tick
import AgentBlock.Serve.OneRun
