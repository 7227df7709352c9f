import FeatureProbeServer.Lib.Interleave
import FeatureProbeServer.Secrets
import FeatureProbeServer.Sdk

/-!
# The SDK repository (`repo.rs`)

Each function is the guarded program it is in the source: `guarded l m` is the scope of a guard of
the lock `l`, every access to the two stores is one operation `Op`. A function that may panic returns
`none` where it does, its guards dropped. The registry `sdkClients` maps a
server key to the instance its client handle points to; `instances` lists the instances in the order
`FPClient::new` created them, so an instance is named by its place in that list. Loops over a hash
map take the iteration order as an argument.
-/

namespace FeatureProbeServer
open Guarded

inductive Lock where
  | secretMapping
  | sdkClients
  deriving DecidableEq, Repr

abbrev ClientId := Nat

structure Inner (S : Sdk) where
  serverConfig : ServerConfig
  sdkClients : HashMap ServerSdkKey ClientId
  secretMapping : SecretMapping
  instances : List (FPClient S)

/-- The atomic accesses to the repository. -/
inductive Op (S : Sdk) where
  | readMapping
  | readClients
  | containsClient (serverSdkKey : ServerSdkKey)
  | newClient (serverSdkKey : ServerSdkKey)
  | newClientPanics (serverSdkKey : ServerSdkKey)
  | setUpdateCallback (client : ClientId) (target : NotifyTarget)
  | insertClient (serverSdkKey : ServerSdkKey) (client : ClientId)
  | removeClient (serverSdkKey : ServerSdkKey)
  | insertMapping (clientSdkKey : ClientSdkKey) (serverSdkKey : ServerSdkKey) (version : Nat)
  | updateMapping (π : IterOrder ClientSdkKey ServerSdkKey) (new : SecretMapping)
  | initialized (client : ClientId)
  | readRepo (client : ClientId)
  | syncNow (client : ClientId) (t : SyncType)
  | receive (client : ClientId) (repo : S.Repo)

namespace Inner
variable {S : Sdk}

/-- The configuration `sync` gives a new client. -/
def fpConfig (r : Inner S) (serverSdkKey : ServerSdkKey) : FPConfig where
  serverSdkKey := serverSdkKey
  remoteUrl := ⟨"http://nouse.com"⟩
  togglesUrl := some r.serverConfig.togglesUrl
  refreshInterval := r.serverConfig.refreshInterval

def exec : Op S → Inner S → Inner S
  | .newClient s, r => { r with instances := r.instances ++ [FPClient.new (r.fpConfig s)] }
  | .setUpdateCallback id t, r => { r with instances := r.instances.modify id (·.setUpdateCallback t) }
  | .insertClient s id, r => { r with sdkClients := r.sdkClients.insert s id }
  | .removeClient s, r => { r with sdkClients := r.sdkClients.erase s }
  | .insertMapping c s v, r => { r with secretMapping := r.secretMapping.insert c s v }
  | .updateMapping π new, r => { r with secretMapping := r.secretMapping.updateMapping π new }
  | .receive id repo, r => { r with instances := r.instances.modify id (·.receive repo) }
  | _, r => r

instance : Interp (Op S) (Inner S) := ⟨exec⟩

@[simp] theorem interp_exec (o : Op S) (r : Inner S) : Interp.exec o r = exec o r := rfl

def clientInitialized (r : Inner S) (id : ClientId) : Bool := r.instances[id]?.any (·.initialized)

def clientRepo (r : Inner S) (id : ClientId) : S.Repo := (r.instances[id]?.map (·.repo)).getD S.defaultRepo

end Inner

abbrev RepoM (S : Sdk) (α : Type) := Prog Lock (Op S) (Inner S) α

section
variable {S : Sdk}

/-! ### Operations -/

def readMapping : RepoM S SecretMapping := .reading .readMapping (·.secretMapping)

def readClients : RepoM S (HashMap ServerSdkKey ClientId) := .reading .readClients (·.sdkClients)

def containsKey (serverSdkKey : ServerSdkKey) : RepoM S Bool :=
  .reading (.containsClient serverSdkKey) fun r => decide (serverSdkKey ∈ r.sdkClients)

/-- `FPClient::new(config)` -/
def newClient (serverSdkKey : ServerSdkKey) : RepoM S (Option ClientId) :=
  if S.accepts serverSdkKey then .reading (.newClient serverSdkKey) (some ·.instances.length)
  else .reading (.newClientPanics serverSdkKey) fun _ => none

def initialized (client : ClientId) : RepoM S Bool :=
  .reading (.initialized client) (·.clientInitialized client)

def readRepo (client : ClientId) : RepoM S S.Repo := .reading (.readRepo client) (·.clientRepo client)

/-! ### `impl Inner` -/

namespace Inner

def setupNotify (serverSdkKey : ServerSdkKey) (client : ClientId) : RepoM S Unit := do
  let clientSdkKey ← .guarded .secretMapping .read do
    return (← readMapping).clientSdkKey serverSdkKey
  .perform (.setUpdateCallback client ⟨serverSdkKey, clientSdkKey⟩)

def sync (serverSdkKey : ServerSdkKey) : RepoM S (Option Unit) := do
  let shouldSync ← .guarded .sdkClients .read do
    return !(← containsKey serverSdkKey)
  if !shouldSync then
    return some ()
  .guarded .sdkClients .write do
    match ← newClient serverSdkKey with
    | some client =>
      setupNotify serverSdkKey client
      .perform (.insertClient serverSdkKey client)
      return some ()
    | none => return none

def removeClient (serverSdkKey : ServerSdkKey) : RepoM S Unit :=
  .guarded .sdkClients .write (.perform (.removeClient serverSdkKey))

/-- `πr` is the order of `secret_mapping.reverse`, `πc` that of `clients`. -/
def updateClients (πr : IterOrder ServerSdkKey ClientSdkKey) (πc : IterOrder ServerSdkKey ClientId) :
    RepoM S (Option Unit) :=
  .guarded .secretMapping .read do
    let secretMapping ← readMapping
    let clients ← .guarded .sdkClients .read readClients
    if secretMapping.version > 0 then
      let serverSdkKeys := secretMapping.serverSdkKeys πr
      match ← .tryForM sync serverSdkKeys with
      | some () =>
        forM (πc.keys clients) fun serverSdkKey =>
          if serverSdkKey ∉ serverSdkKeys then removeClient serverSdkKey else pure ()
        return some ()
      | none => return none
    else return some ()

def updateMapping (π : IterOrder ClientSdkKey ServerSdkKey) (new : SecretMapping) : RepoM S Unit := do
  let version ← .guarded .secretMapping .read do
    return (← readMapping).version
  if new.version > version then
    .guarded .secretMapping .write (.perform (.updateMapping π new))

/-- The client lookup of the three functions below: `f` of the repository of an initialised client. -/
def ofClient (sdkKey : ServerSdkKey) (f : S.Repo → Except String S.Json) :
    RepoM S (Except FPServerError S.Json) :=
  .guarded .sdkClients .read do
    let clients ← readClients
    match clients.lookup sdkKey with
    | some client =>
      if !(← initialized client) then
        return .error (.notReady sdkKey)
      return (f (← readRepo client)).mapError .jsonError
    | none => return .error (.notReady sdkKey)

def repoString (sdkKey : ServerSdkKey) : RepoM S (Except FPServerError S.Json) :=
  ofClient sdkKey S.repoJson

/-- `repo.toggles.iter().filter(..).map(..).collect()` in the order `π` of the toggles. -/
def evaluated (π : IterOrder String S.Toggle) (repo : S.Repo) (user : S.User) :
    HashMap String S.EvalDetail :=
  HashMap.extend ∅ (((π.entries repo.toggles).filter fun p => S.isForClient p.2).map fun p =>
    (p.1, S.evalDetail p.2 user repo.segments))

def allEvaluatedString (π : IterOrder String S.Toggle) (sdkKey : ServerSdkKey) (user : S.User) :
    RepoM S (Except FPServerError S.Json) :=
  ofClient sdkKey fun repo => S.detailsJson (evaluated π repo user)

def allEventString (sdkKey : ServerSdkKey) : RepoM S (Except FPServerError S.Json) :=
  ofClient sdkKey fun repo => S.eventsJson repo.events

end Inner

/-! ### `impl SdkRepository` -/

namespace SdkRepository

def new (serverConfig : ServerConfig) : Inner S := ⟨serverConfig, ∅, default, []⟩

def secretKeys : RepoM S (HashMap ClientSdkKey ServerSdkKey) :=
  .guarded .secretMapping .read do
    return (← readMapping).mappingClone

def sync (clientSdkKey : ClientSdkKey) (serverSdkKey : ServerSdkKey) (version : Nat) :
    RepoM S (Option Unit) := do
  match ← Inner.sync serverSdkKey with
  | some () =>
    .guarded .secretMapping .write (.perform (.insertMapping clientSdkKey serverSdkKey version))
    return some ()
  | none => return none

def serverSdkRepoString (serverSdkKey : ServerSdkKey) : RepoM S (Except FPServerError S.Json) :=
  .guarded .secretMapping .read do
    let secretMapping ← readMapping
    if secretMapping.version = 0 then
      return .error (.notReady serverSdkKey)
    if !secretMapping.containsServerSdkKey serverSdkKey then
      return .error (.notFound serverSdkKey)
    match ← Inner.repoString serverSdkKey with
    | .ok repo => return .ok repo
    | .error e => return .error e

/-- The key resolution of the two functions below: `k` on the server key of `clientSdkKey`. -/
def byClientKey (clientSdkKey : ClientSdkKey)
    (k : ServerSdkKey → RepoM S (Except FPServerError S.Json)) : RepoM S (Except FPServerError S.Json) :=
  .guarded .secretMapping .read do
    let secretMapping ← readMapping
    if secretMapping.version = 0 then
      return .error (.notReady clientSdkKey)
    match secretMapping.serverSdkKey clientSdkKey with
    | some sdkKey => k sdkKey
    | none => return .error (.notFound clientSdkKey)

def clientSdkEvalString (π : IterOrder String S.Toggle) (clientSdkKey : ClientSdkKey) (user : S.User) :
    RepoM S (Except FPServerError S.Json) :=
  byClientKey clientSdkKey fun serverSdkKey => Inner.allEvaluatedString π serverSdkKey user

def clientSdkEventsString (clientSdkKey : ClientSdkKey) : RepoM S (Except FPServerError S.Json) :=
  byClientKey clientSdkKey Inner.allEventString

def clientSyncNow (sdkKey : ServerSdkKey) (t : SyncType) : RepoM S (Except FPServerError String) :=
  .guarded .sdkClients .write do
    let clients ← readClients
    match clients.lookup sdkKey with
    | some client =>
      .perform (.syncNow client t)
      return .ok sdkKey
    | none => return .error (.notFound sdkKey)

end SdkRepository

/-! ### Calls -/

/-- The calls on a repository; `receive` is an SDK client that has fetched toggles. -/
inductive Call (S : Sdk) where
  | sync (clientSdkKey : ClientSdkKey) (serverSdkKey : ServerSdkKey) (version : Nat)
  | updateMapping (π : IterOrder ClientSdkKey ServerSdkKey) (new : SecretMapping)
  | updateClients (πr : IterOrder ServerSdkKey ClientSdkKey) (πc : IterOrder ServerSdkKey ClientId)
  | serverSdkRepoString (serverSdkKey : ServerSdkKey)
  | clientSdkEvalString (π : IterOrder String S.Toggle) (clientSdkKey : ClientSdkKey) (user : S.User)
  | clientSdkEventsString (clientSdkKey : ClientSdkKey)
  | clientSyncNow (sdkKey : ServerSdkKey) (t : SyncType)
  | secretKeys
  | receive (client : ClientId) (repo : S.Repo)

/-- What a call ends with. -/
inductive Reply (S : Sdk) where
  | unit
  | panic
  | body (r : Except FPServerError S.Json)
  | key (r : Except FPServerError String)
  | keys (m : HashMap ClientSdkKey ServerSdkKey)

def Reply.ofOption : Option Unit → Reply S
  | some () => .unit
  | none => .panic

def Reply.isPanic : Reply S → Bool
  | .panic => true
  | _ => false

def Call.prog : Call S → RepoM S (Reply S)
  | .sync c s v => do return .ofOption (← SdkRepository.sync c s v)
  | .updateMapping π new => do Inner.updateMapping π new; return .unit
  | .updateClients πr πc => do return .ofOption (← Inner.updateClients πr πc)
  | .serverSdkRepoString s => do return .body (← SdkRepository.serverSdkRepoString s)
  | .clientSdkEvalString π c u => do return .body (← SdkRepository.clientSdkEvalString π c u)
  | .clientSdkEventsString c => do return .body (← SdkRepository.clientSdkEventsString c)
  | .clientSyncNow s t => do return .key (← SdkRepository.clientSyncNow s t)
  | .secretKeys => do return .keys (← SdkRepository.secretKeys)
  | .receive id repo => do .perform (.receive id repo); return .unit

/-- A repository with calls running on it. -/
abbrev Server (S : Sdk) := Config Lock (Op S) (Inner S) (Reply S)

/-- The repository `r` with `calls` about to start. -/
def Server.start (r : Inner S) (calls : List (Call S)) : Server S := Config.start r (calls.map Call.prog)

end
end FeatureProbeServer
