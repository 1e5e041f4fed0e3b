import PeergosClient.Lib.Rank
import PeergosClient.Lib.Keyed
import PeergosClient.Lib.Outcome
import PeergosClient.Lib.Sha256
import PeergosClient.Lib.Exec
import PeergosClient.Lib.KeyedLog
import PeergosClient.Lib.Chunks
import PeergosClient.Core.Multiformats
import PeergosClient.Cbor.Object
import PeergosClient.Cbor.Decode
import PeergosClient.Cbor.RoundTrip
import PeergosClient.Cbor.Canonical
import PeergosClient.Cbor.Size
import PeergosClient.Cbor.Integers
import PeergosClient.Core.Storage
import PeergosClient.Core.Bases
import PeergosClient.Core.CachedPointers
import PeergosClient.Core.Mutable
import PeergosClient.Champ.Bitmap
import PeergosClient.Champ.Node
import PeergosClient.Champ.Ops
import PeergosClient.Champ.Slots
import PeergosClient.Champ.Tree
import PeergosClient.Champ.Read
import PeergosClient.Champ.Insert
import PeergosClient.Champ.Delete
import PeergosClient.Champ.Refine
import PeergosClient.Champ.Merge
import PeergosClient.Champ.Diff
import PeergosClient.Champ.MergeSpec
import PeergosClient.Champ.WriterDataMerge
import PeergosClient.Buffered.Blocks
import PeergosClient.Buffered.Bulk
import PeergosClient.Buffered.Pointers
import PeergosClient.Buffered.Flush
import PeergosClient.Buffered.Chain
import PeergosClient.Buffered.Server
import PeergosClient.Buffered.Refine
import PeergosClient.Buffered.Retry
import PeergosClient.Buffered.Stable
import PeergosClient.Buffered.Rollback
import PeergosClient.Buffered.Interleaving
import PeergosClient.Fs.HashTree
import PeergosClient.Fs.Blake3Root
import PeergosClient.Fs.Cryptree
import PeergosClient.Fs.Tree
import PeergosClient.Fs.Directory
import PeergosClient.Fs.File
import PeergosClient.Fs.FileContent
import PeergosClient.Fs.Edit
import PeergosClient.Fs.Rewrite
import PeergosClient.Fs.Linking
import PeergosClient.Fs.Upload
import PeergosClient.Fs.EditRuns
import PeergosClient.Fs.StoredHashes
import PeergosClient.Fs.Resume
import PeergosClient.Fs.Children
import PeergosClient.Fs.DirectoryChain
import PeergosClient.Lib.KeyedMap
import PeergosClient.Fs.DirectoryMap
import PeergosClient.Publish.Inodes
import PeergosClient.Publish.PathMap
import PeergosClient.Social.Follow
import PeergosClient.Social.Spoofing
import PeergosClient.Lib.RecordStream
import PeergosClient.Fs.CapabilityCbor
import PeergosClient.Social.Feed
import PeergosClient.Social.FeedHistory
import PeergosClient.Social.FeedReading
import PeergosClient.Social.FeedComplete
import PeergosClient.Lib.SortedMap
import PeergosClient.Messaging.Clock
import PeergosClient.Messaging.Chat
import PeergosClient.Messaging.Applying
import PeergosClient.Lib.Register
import PeergosClient.Messaging.GroupState
import PeergosClient.Messaging.LocalChat
import PeergosClient.Messaging.Log
import PeergosClient.Messaging.Identity
import PeergosClient.Messaging.Hostile
import PeergosClient.Messaging.InviteIds
import PeergosClient.Lib.PathMap
import PeergosClient.Core.Boxing
import PeergosClient.Email.Message
import PeergosClient.Email.Crypto
import PeergosClient.Email.Files
import PeergosClient.Email.Client
import PeergosClient.Email.Bridge
import PeergosClient.Lib.ByteOrder
import PeergosClient.Lib.Radix
import PeergosClient.Lib.LeftComplete
import PeergosClient.Messaging.Wire
import PeergosClient.Messaging.FileStore
import PeergosClient.Fs.Fragments
import PeergosClient.Buffered.CommitSize
import PeergosClient.Core.Ram
import PeergosClient.Lib.Search
import PeergosClient.Lib.Grouping
import PeergosClient.Champ.Reachable
import PeergosClient.Champ.Swap
import PeergosClient.Champ.Shape
import PeergosClient.Champ.DiffRuns
import PeergosClient.Champ.Lookup
import PeergosClient.Buffered.Reachability
import PeergosClient.Buffered.CommitBlocks
import PeergosClient.Buffered.SplitBlocks
import PeergosClient.Fs.SectionRead
import PeergosClient.Champ.Written
import PeergosClient.Remote.HttpStorage
import PeergosClient.Remote.DirectS3
import PeergosClient.Remote.BlockWrites
import PeergosClient.Lib.Utf8
import PeergosClient.Sync.Conflict
import PeergosClient.Lib.Workers
import PeergosClient.Fs.ParallelHash
import PeergosClient.Fs.ReadTo
import PeergosClient.Fs.EditProperties
import PeergosClient.Fs.UploadRead
import PeergosClient.Fs.DirectoryUpload
import PeergosClient.Sync.FileSystems
import PeergosClient.Lib.Interrupted
import PeergosClient.Fs.FailedDelete
import PeergosClient.Champ.Fitting
import PeergosClient.Champ.Malformed
import PeergosClient.Lib.ParentTree
import PeergosClient.Archive.Names
import PeergosClient.Archive.Index
import PeergosClient.Archive.Parse
import PeergosClient.Archive.Opening
import PeergosClient.Lib.InsertionMap
import PeergosClient.Lib.Replicas
import PeergosClient.Sync.Trees
import PeergosClient.Sync.SyncDir
import PeergosClient.Sync.Contents
import PeergosClient.Sync.Snapshots
import PeergosClient.Sync.DeleteFlags
import PeergosClient.Lib.PrefixCode
import PeergosClient.Lib.Utf8Bytes
import PeergosClient.Lib.Gregorian
import PeergosClient.Lib.Decimal
import PeergosClient.Core.CidBytes
import PeergosClient.Messaging.ClockLattice
import PeergosClient.Sync.TreeIndices
import PeergosClient.Remote.WritePayloads
import PeergosClient.Fs.AbsentChunk
import PeergosClient.Fs.ValidUtf8
import PeergosClient.Fs.MimeType
import PeergosClient.Social.Post
import PeergosClient.Social.Recognised
import PeergosClient.Fs.ReadBack
import PeergosClient.Messaging.ReadBack
import PeergosClient.Social.PostReadBack
import PeergosClient.Fs.StoredProperties
import PeergosClient.Messaging.StoredChat
import PeergosClient.Messaging.StoredRecords
import PeergosClient.Calendar.Dates
import PeergosClient.Calendar.Stamps
import PeergosClient.Email.Delivery
import PeergosClient.Fs.CryptreeCache
import PeergosClient.Fs.OwnedWriters
import PeergosClient.Fs.VerifiedLookup
import PeergosClient.Champ.MergeWrites
import PeergosClient.Champ.OwnMerge
import PeergosClient.Messaging.StoreRefinement
import PeergosClient.Sync.SyncInvariant
import PeergosClient.Fs.TransactionRecord
import PeergosClient.Lib.FileTree
import PeergosClient.Lib.Lru
import PeergosClient.Lib.Blake3
import PeergosClient.Lib.Packing
import PeergosClient.Email.MailBox
import PeergosClient.Buffered.Settling
import PeergosClient.Buffered.CommitRoom
import PeergosClient.Buffered.PointerHistory
