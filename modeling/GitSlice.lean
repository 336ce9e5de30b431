import GitSlice.Store.Landed
import GitSlice.Store.Conflicts
import GitSlice.Service.Merge
import GitSlice.TreeStore.Roots
import GitSlice.Checks.CappedBuffer
import GitSlice.Checks.Results
import GitSlice.GitCompat.TreeRuns
import GitSlice.LazyFS.ThreeWay
import GitSlice.LazyFS.Journal
import GitSlice.Cli.StatCache
import GitSlice.GitCompat.Push
import GitSlice.Triggers.RunOutput
import GitSlice.Triggers.Outcome
import GitSlice.Cli.CheckReportsKept
import GitSlice.Cli.LineMerge
import GitSlice.Triggers.Concurrency
import GitSlice.Diff.Regions
import GitSlice.Diff.MatchArrays
import GitSlice.GitCompat.ReceivePack
import GitSlice.Store.Progress
import GitSlice.Webhooks.Deliveries
import GitSlice.GitCompat.MirrorParts
import GitSlice.RateLimit
import GitSlice.Coverage
