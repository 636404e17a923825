import PageServer.Metrics

/-!
# Traffic

Two counters say how well the cache does: the bytes that page reads asked for,
and those of them that were there. The hit rate is their quotient.
-/

namespace PageServer.Worker

/-- The bytes that page reads asked for. -/
def bytesRequested : Bytes := "Worker.HttpBytesRequested"

/-- The bytes that page reads asked for and got an answer to. -/
def bytesServed : Bytes := "Worker.HttpBytesReadCache"

/-- The share of the requested bytes that were served. -/
def hitRate : Bytes := "Worker.HttpCacheHitRate"

/-- The connections that a server has open. -/
def activeConnections : Bytes := "Worker.HttpActiveConnections"

/-- The registry with both counters and the hit rate. -/
def registerTraffic (m : Metrics) : Metrics :=
  (((m.touch bytesRequested).touch bytesServed).registerGauge hitRate
    (.quotient bytesServed bytesRequested)).2

end PageServer.Worker
