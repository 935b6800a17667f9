import Codo.Storage.Exhaustion
import Codo.Balancer.Selection
import Codo.Balancer.BackendEnd
import Codo.Balancer.ProxyHeader
import Codo.Server.WebSocketMemory
import Codo.Server.ResponseStream
import Codo.Server.Offload
import Codo.Storage.Staging
import Codo.Storage.Cycles
import Codo.Server.Login
import Codo.Common.LruRuns
import Codo.Api.Failures
import Codo.Api.Runs
import Codo.Common.RangeHeader
import Codo.Common.RequestLine
import Codo.Common.ChunkedGrammar
import Codo.Server.FrameReaders
import Codo.Server.ProxyValidity
import Codo.Storage.CleanScan
import Codo.Storage.PoolRuns
import Codo.Common.SendResponse
import Codo.Common.SecureArena
