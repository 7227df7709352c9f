/-!
# Errors and the server's configuration (`base.rs`)
-/

namespace FeatureProbeServer

inductive FPServerError where
  | notFound (key : String)
  | userDecodeError
  | configError (message : String)
  | notReady (key : String)
  | jsonError (message : String)
  deriving DecidableEq, Repr

/-- A parsed URL, by its text. -/
structure Url where
  text : String
  deriving DecidableEq, Repr, Inhabited

structure Duration where
  secs : UInt64
  nanos : UInt32
  deriving DecidableEq, Repr, Inhabited

structure ServerConfig where
  togglesUrl : Url
  eventsUrl : Url
  keysUrl : Option Url
  analysisUrl : Option Url
  refreshInterval : Duration
  serverSdkKey : Option String
  clientSdkKey : Option String
  serverPort : UInt16
  realtimePort : UInt16
  realtimePath : String
  deriving DecidableEq, Repr, Inhabited

end FeatureProbeServer
