import XStore.Lib.Sort
import XStore.Lib.Fence
import XStore.Lib.Linked
import XStore.Lib.Spread
import XStore.Lib.Bucket
import XStore.Lib.EveryNth
import XStore.Lib.Blocks
import XStore.Lib.Runs
import XStore.Lib.Bytes
import XStore.Lib.Delimited
import XStore.Lib.Dependent
import XStore.Lib.RowMajor
import XStore.Lib.Related
import XStore.Lib.Ascending
import XStore.Lib.Slots
import XStore.Lib.Tally
import XStore.Xutils.Marshal
import XStore.Xkv.LeafSplit
import XStore.Xkv.Tree
import XStore.Xkv.Shape
import XStore.Xkv.Route
import XStore.Xkv.Insert
import XStore.Xkv.Invariant
import XStore.Xkv.InsertStep
import XStore.Xkv.Run
import XStore.Xkv.Lookup
import XStore.Xkv.Repeats
import XStore.Xkv.Balance
import XStore.Xkv.Iter
import XStore.Xkv.Walk
import XStore.Xkv.Chain
import XStore.Xkv.IterOrder
import XStore.Xkv.Reinsert
import XStore.Xkv.Spare
import XStore.Xkv.Stale
import XStore.Xkv.Concurrent
import XStore.Xkv.Exhaust
import XStore.Xkv.KeyMap
import XStore.Xkv.KeyMapTree
import XStore.Xkv.KeyMapRun
import XStore.Xkv.InnerArrays
import XStore.Xkv.SzInner
import XStore.Xkv.SzRun
import XStore.Xcache.CacheIter
import XStore.Xcache.CacheWalk
import XStore.Xcache.Labelling
import XStore.Xml.SubModel
import XStore.Xml.Updater
import XStore.Xml.MvLR
import XStore.Xml.MvLRTrain
import XStore.Xml.Mat
import XStore.Xml.MatMult
import XStore.Xcache.Sampler
import XStore.Xcache.Trainer
import XStore.Xcache.ErrorBound
import XStore.Xcache.Shrink
import XStore.Xcache.Rmi
import XStore.Xcache.Dispatch
import XStore.Xcache.Watermark
import XStore.Xcache.Snapshot
import XStore.Xcache.Complete
import XStore.Xcache.PageSampling
import XStore.Xcache.PageComplete
import XStore.Xcache.Partition
import XStore.Xcache.PageOrder
import XStore.Xcache.DispatchTrain
import XStore.Xcomm.WrappedType
import XStore.Xcomm.TornRead
import XStore.Xcomm.Straddle
import XStore.Xcomm.AtomicRead
import XStore.Xcomm.ValueUpdate
import XStore.Xcomm.Sessions
import XStore.Xcomm.ReplyStation
import XStore.Xcomm.Replies
import XStore.Xcomm.RpcBounds
import XStore.Xcomm.BatchRw
import XStore.Xcomm.BatchChain
import XStore.Xcomm.BatchFailure
import XStore.Xkv.Layout
import XStore.Xkv.XArray
import XStore.Xkv.XArraySpace
import XStore.Xkv.XArrayRun
import XStore.Xkv.XArrayIter
import XStore.Xkv.XArraySeek
import XStore.Xml.Serialize
import XStore.Xcache.Serialize
import XStore.Xcache.TTRoundTrip
import XStore.DataDist.PageUpdater
import XStore.DataDist.Eval
import XStore.DataDist.TpccKey
import XStore.DataDist.MapKey
import XStore.Xcache.Offers
import XStore.Xcache.TrainerM
import XStore.Ycsb.Bootstrap
import XStore.Ycsb.PageBounds
import XStore.Ycsb.EvalVlen
import XStore.Ycsb.StaleEval
import XStore.Ycsb.TrainDb
import XStore.Ycsb.Pipeline
import XStore.Ycsb.EvalAgree
import XStore.Lib.Transact
import XStore.Xutils.Rtm
import XStore.Xutils.RtmSerial
import XStore.Xutils.RtmEnds
import XStore.Xutils.RtmObject
import XStore.Xutils.RtmTransfer
import XStore.Xkv.SharedAlloc
import XStore.Ycsb.GetSystem
import XStore.Xkv.LiveScan
import XStore.Xcache.LiveTable
import XStore.Xkv.CXTreeAsserts
