import Mdbx.Basic
import Mdbx.Lib.Buffer
import Mdbx.Lib.Cells
import Mdbx.Lib.WriteLog
import Mdbx.Search
import Mdbx.Pnl
import Mdbx.Rkl.Model
import Mdbx.Rkl.Set
import Mdbx.Rkl.Push
import Mdbx.Rkl.Exchange
import Mdbx.Rkl.Insert
import Mdbx.Rkl.Runs
import Mdbx.PageCache.Model
import Mdbx.PageCache.Exact
import Mdbx.PageCache.Runs
import Mdbx.PageCache.Undisturbed
import Mdbx.PageCache.Alone
import Mdbx.Gc.StoreRetired
import Mdbx.Gc.Slices
import Mdbx.Gc.StoreRuns
import Mdbx.Gc.StoreFaithful
import Mdbx.Nested.Model
import Mdbx.Nested.Filter
import Mdbx.Nested.Sift
import Mdbx.Nested.Merge
import Mdbx.Nested.Join
import Mdbx.Commit.Troika
import Mdbx.Commit.Model
import Mdbx.Commit.Safe
import Mdbx.Commit.Invariant
import Mdbx.Commit.Sync
import Mdbx.Commit.Runs
import Mdbx.Pages.Model
import Mdbx.Pages.Alloc
import Mdbx.Lib.Tiling
import Mdbx.Pages.Refund
import Mdbx.Pages.Retire
import Mdbx.Pages.Take
import Mdbx.Pages.Reclaim
import Mdbx.Pages.Runs
import Mdbx.Async.Model
import Mdbx.Async.Invariant
import Mdbx.Async.Runs
import Mdbx.Uring.Model
import Mdbx.Uring.Ledger
import Mdbx.Uring.Runs
import Mdbx.Lib.Text
import Mdbx.Dump.RoundTrip
import Mdbx.Dump.Skipped
import Mdbx.Readers.Runs
import Mdbx.Keys.RoundTrip
import Mdbx.Keys.Order
import Mdbx.Put.Refused
import Mdbx.Cached.Agree
import Mdbx.Cached.Shared
import Mdbx.Gc.Sequence
import Mdbx.Gc.FillReturned
import Mdbx.Nested.Retired
import Mdbx.Nested.Reclaim
import Mdbx.Rkl.Hole
import Mdbx.Gc.SearchHoles
import Mdbx.Gc.HolesSafe
import Mdbx.Dups.PageWalk
import Mdbx.Gc.DenseSound
import Mdbx.Put.Fixed
import Mdbx.Pages.Restore
import Mdbx.Uring.Progress
import Mdbx.Gets.Lockstep
import Mdbx.Parking.CloneSafe
import Mdbx.Commit.Wipe
import Mdbx.Gc.BestFit
import Mdbx.Pnl.SetOps
import Mdbx.Rkl.Gaps
import Mdbx.Stat.Summary
import Mdbx.Compare.Orders
import Mdbx.PageSearch.Chosen
import Mdbx.Split.Fits
import Mdbx.MetaPage.Accepted
import Mdbx.Geometry.Runs
import Mdbx.Pages.Settle
import Mdbx.DirtyList.Runs
import Mdbx.Spill.Slowpath
import Mdbx.Geometry.Packed
import Mdbx.Stat.Sparse
import Mdbx.Gc.Scanners
import Mdbx.Sort.Primitives
import Mdbx.PageCache.Selective
import Mdbx.Copy.Ends
import Mdbx.Copy.Placed
import Mdbx.Copy.Asis
import Mdbx.Copy.Crash
import Mdbx.Lib.ByteMemory
import Mdbx.Lib.Extents
import Mdbx.Slotted.Dups
import Mdbx.Slotted.Values
import Mdbx.Slotted.Runs
import Mdbx.Slotted.Puts
