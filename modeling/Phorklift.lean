import Phorklift.Transition
import Phorklift.Bytes
import Phorklift.Request
import Phorklift.RequestSteps
import Phorklift.RequestRun
import Phorklift.RequestFrame
import Phorklift.RequestCalls
import Phorklift.HeaderBlock
import Phorklift.FilterGate
import Phorklift.HeaderPhase
import Phorklift.Redirect
import Phorklift.FileCache
import Phorklift.ItemBytes
import Phorklift.CacheRoundTrip
import Phorklift.CacheUnlink
import Phorklift.CacheHandlers
import Phorklift.Subrequest
import Phorklift.UpstreamPool
import Phorklift.ItemPublication
import Phorklift.Cidr
import Phorklift.Acl
import Phorklift.HttpMessage
import Phorklift.Proxy
import Phorklift.WireRequest
import Phorklift.RequestBuffer
import Phorklift.ConnSteps
import Phorklift.KeepAlive
import Phorklift.PathLocate
import Phorklift.Bisect
import Phorklift.HashRing
import Phorklift.RandomPick
import Phorklift.LimitReq
import Phorklift.Connection
import Phorklift.SendIntegrity
import Phorklift.ConnectionTimers
import Phorklift.HostLocate
import Phorklift.Dynamic
import Phorklift.DynamicUse
import Phorklift.UpstreamClean
import Phorklift.Detached
import Phorklift.LuaSleep
import Phorklift.PoolLists
import Phorklift.Resolve
import Phorklift.PoolHold
import Phorklift.UpcPointer
import Phorklift.Resumable
import Phorklift.ProxyResponse
import Phorklift.UpstreamSplit
import Phorklift.UpstreamRetry
import Phorklift.Linked
import Phorklift.RequestLists
import Phorklift.DynamicWake
import Phorklift.WakeOnce
import Phorklift.UniqueLookup
import Phorklift.ChunkedBody
import Phorklift.ChunkedPack
import Phorklift.ContentLength
import Phorklift.HeaderNames
import Phorklift.StreamBody
import Phorklift.StreamLimit
import Phorklift.StreamEnd
import Phorklift.RequestSplit
import Phorklift.RequestReads
import Phorklift.PickFresh
import Phorklift.BodyLength
import Phorklift.EventLoop
import Phorklift.Teardown
import Phorklift.TeardownRun
import Phorklift.Trailers
import Phorklift.HostSpelling
import Phorklift.ListenReload
import Phorklift.ModuleReload
import Phorklift.UpstreamIo
import Phorklift.UpstreamAttempts
import Phorklift.UpstreamFailure
import Phorklift.LuaUps
import Phorklift.AuthRequest
import Phorklift.IdleMax
import Phorklift.Hysteresis
import Phorklift.HealthCheck
import Phorklift.HealthProbe
import Phorklift.RandomDraw
import Phorklift.BalancerTables
import Phorklift.FileRead
import Phorklift.BodyRounds
import Phorklift.ResolveMerge
import Phorklift.ResolverCache
import Phorklift.AddressStats
import Phorklift.BodyProducers
import Phorklift.HeaderReserve
import Phorklift.SendBuffer
import Phorklift.ReadLoop
import Phorklift.BodyReception
import Phorklift.HostSources
import Phorklift.HostRegister
import Phorklift.WorkerTable
import Phorklift.Arena
import Phorklift.LimitReqLayout
import Phorklift.Recency
import Phorklift.LimitReqLru
import Phorklift.GzipBody
import Phorklift.ProxyBuffer
import Phorklift.LuaString
import Phorklift.RedisReply
import Phorklift.HeaderList
import Phorklift.LogBuffer
import Phorklift.DirListing
import Phorklift.HostnameSpec
import Phorklift.Least
import Phorklift.ContentSelect
import Phorklift.TopTwo
import Phorklift.CacheDirs
import Phorklift.ArbitraryConf
import Phorklift.EntryCalls
import Phorklift.FilterOrder
import Phorklift.PointerArray
import Phorklift.StringBuffer
import Phorklift.HostCopies
import Phorklift.Admission
import Phorklift.ConnectionLimit
import Phorklift.CacheRenewal
import Phorklift.ConfScript
import Phorklift.LogFiles
import Phorklift.StaticDescriptors
import Phorklift.StaticServe
import Phorklift.LogLines
import Phorklift.ResolverNet
import Phorklift.ListenRoutes
import Phorklift.Tally
import Phorklift.Stats
import Phorklift.Cookies
