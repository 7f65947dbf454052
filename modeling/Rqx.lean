import Rqx.Regroup
import Rqx.LiveStream
import Rqx.Chunking
import Rqx.Decoding
import Rqx.IterState
import Rqx.Iterators
import Rqx.Iteration
import Rqx.Interrupted
import Rqx.SyncStream
import Rqx.OneConsumer
import Rqx.Exceptions
import Rqx.PyClient
import Rqx.Guarded
import Rqx.SharedIterator
import Rqx.CloseRace
import Rqx.StreamResponse
import Rqx.Redirect
import Rqx.Client
import Rqx.Credentials
import Rqx.RedirectBudget
import Rqx.Split
import Rqx.UrlParser
import Rqx.Rfc3986
import Rqx.UrlReference
import Rqx.BaseUrl
import Rqx.Masked
import Rqx.FinalResponse
import Rqx.Number
import Rqx.Retry
import Rqx.Transport
import Rqx.Telemetry
import Rqx.Multidict
import Rqx.QueryParams
import Rqx.Pool
import Rqx.CookieJar
import Rqx.Runtime
import Rqx.Shutdown
import Rqx.Fork
import Rqx.UrlBasic
import Rqx.UrlCompose
import Rqx.UrlRoundTrip
import Rqx.UrlEdit
import Rqx.UrlComponents
import Rqx.UrlCopy
import Rqx.NetworkPath
import Rqx.BorrowedScheme
import Rqx.CopyWith
import Rqx.UrlJoin
import Rqx.PyJson
import Rqx.Backoff
import Rqx.RetryRun
import Rqx.Deadline
import Rqx.RedirectRewrite
import Rqx.Build
import Rqx.UnsupportedProtocol
import Rqx.FormCodec
import Rqx.QueryString
import Rqx.UrlParams
import Rqx.FoldOrder
import Rqx.KeywordOrder
import Rqx.LastLine
import Rqx.Utf8Lossy
import Rqx.JsonPosition
import Rqx.JsonPath
import Rqx.Nesting
import Rqx.JsonHeap
import Rqx.PercentDecoding
import Rqx.RelativeEscapes
import Rqx.Encodings
import Rqx.NetworkEcho
import Rqx.EmptyPath
import Rqx.BorrowedBase
import Rqx.JoinAuthority
import Rqx.JsonEcho
import Rqx.RequestLine
import Rqx.ParamsEquality
import Rqx.HeaderDict
import Rqx.Spawning
import Rqx.ParamsForms
