import MiniFs.DiskMgr
import MiniFs.Client
import MiniFs.Server
import MiniFs.Store
import MiniFs.Theorems.BlockStore
import MiniFs.Theorems.Cache
import MiniFs.Theorems.FileTree
import MiniFs.Theorems.AddData
import MiniFs.Theorems.Directory
import MiniFs.Theorems.Remove
import MiniFs.Theorems.Lookup
import MiniFs.Theorems.AppendFile
import MiniFs.Theorems.PackedDir
import MiniFs.Theorems.WorkingDir
import MiniFs.Theorems.Listings
import MiniFs.Theorems.CatCount
import MiniFs.Theorems.Exhaustion
import MiniFs.Theorems.Restart
import MiniFs.Theorems.Leaks
import MiniFs.Theorems.Tokens
import MiniFs.Theorems.DiskRequests
import MiniFs.Theorems.Capacity
import MiniFs.Theorems.Resolution
import MiniFs.Theorems.Confinement
import MiniFs.Theorems.BlockStream
import MiniFs.Theorems.CreateFull
import MiniFs.Theorems.Removal
import MiniFs.Theorems.ReferenceWalk
import MiniFs.Theorems.CommandLoop
import MiniFs.Theorems.Splitting
import MiniFs.Theorems.Accounting
import MiniFs.Theorems.FailedReads
import MiniFs.Theorems.Lifecycle
import MiniFs.Theorems.OwnedRequests
import MiniFs.Theorems.Closing
import MiniFs.Theorems.Transcript
