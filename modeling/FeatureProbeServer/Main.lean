import FeatureProbeServer.Config
import FeatureProbeServer.Handler
import FeatureProbeServer.Polling
import FeatureProbeServer.Reconcile

/-!
# Starting the server (`init_handler`, `SdkRepository::sync_with`)

With a keys URL the mapping is polled, otherwise the configured pair is registered once. The parser
accepts a configuration only if it says one or the other, so a server that has parsed its
configuration starts.
-/

namespace FeatureProbeServer
open Guarded

/-- The loops `sync_with` spawns. -/
inductive Task where
  | syncSecretKeys (keysUrl : Url) (period : Duration)
  | updateClients (period : Duration)
  deriving DecidableEq, Repr

/-- What a round of the loop comes upon. -/
def Task.Round : Task → Type
  | .syncSecretKeys .. => Poll
  | .updateClients .. => Pass

/-- The first rounds of the loop. -/
def Task.loop {S : Sdk} : (task : Task) → List task.Round → RepoM S (Option Unit)
  | .syncSecretKeys .., polls => do SdkRepository.syncSecretKeys polls; return some ()
  | .updateClients .., passes => SdkRepository.updateClients passes

/-- What `init_handler` leaves: the repository, the handler, and the tasks it has spawned. -/
structure Started (S : Sdk) where
  repo : Inner S
  handler : FpHttpHandler
  tasks : List Task

variable {S : Sdk}

/-- `none` is a panic. The interval of `sync_secret_keys` is made before its task is spawned, that of
`update_clients` in the task. -/
def SdkRepository.syncWith (T : Tokio) (self : Inner S) (keysUrl : Url) : Option (List Task) := do
  let period ← interval T self.serverConfig.refreshInterval
  return [.syncSecretKeys keysUrl period, .updateClients self.serverConfig.refreshInterval]

def initHandler (T : Tokio) (serverConfig : ServerConfig) : Option (Except FPServerError (Started S)) := do
  let repo : Inner S := SdkRepository.new serverConfig
  let handler : FpHttpHandler :=
    ⟨serverConfig.eventsUrl, serverConfig.analysisUrl, serverConfig.refreshInterval⟩
  match serverConfig.keysUrl with
  | some keysUrl =>
    let tasks ← SdkRepository.syncWith T repo keysUrl
    return .ok ⟨repo, handler, tasks⟩
  | none =>
    match serverConfig.clientSdkKey, serverConfig.serverSdkKey with
    | some clientSdkKey, some serverSdkKey =>
      let synced := (SdkRepository.sync clientSdkKey serverSdkKey 1).run repo
      synced.1
      return .ok ⟨synced.2, handler, []⟩
    | _, _ => return .error (.configError "not set FP_SERVER_SDK and FP_CLIENT_SDK")

/-! ### The two modes -/

/-- The keys are polled from `keysUrl`, nothing has been written yet: the first loop takes the newest
payload into the mapping, the second sets up the clients for it. -/
structure Polls (cfg : ServerConfig) (keysUrl : Url) (started : Started S) : Prop where
  tasks : started.tasks = [.syncSecretKeys keysUrl cfg.refreshInterval, .updateClients cfg.refreshInterval]
  mapping : started.repo.secretMapping = default
  clients : started.repo.sdkClients = ∅
  polled : ∀ (polls : List Poll) (pass : Pass), ∃ r,
    ((Task.syncSecretKeys keysUrl cfg.refreshInterval).loop polls).run started.repo = (some (), r) ∧
      Poll.Whole polls r.secretMapping ∧
      IsGreatest {v | v = 0 ∨ ∃ new ∈ Poll.delivered polls, new.version = v} r.secretMapping.version ∧
      (0 < r.secretMapping.version → r.CanPass → ∃ r',
        ((Task.updateClients cfg.refreshInterval).loop [pass]).run r = (some (), r') ∧
          ∀ s, s ∈ r'.sdkClients ↔ s ∈ r.secretMapping.reverse)

/-- The pair `c` and `s` is served, now and in every state reached by requests and deliveries. -/
structure Serves (c : ClientSdkKey) (s : ServerSdkKey) (started : Started S) : Prop where
  tasks : started.tasks = []
  version : started.repo.secretMapping.version = 1
  mapping : ∀ c' s', started.repo.secretMapping.mapping.lookup c' = some s' ↔ c' = c ∧ s' = s
  clients : ∀ s' id, started.repo.sdkClients.lookup s' = some id ↔ s' = s ∧ id = 0
  instances : ∃ i, started.repo.instances = [i] ∧ i.config.serverSdkKey = s
  found : ∀ calls : List (Call S), (∀ call ∈ calls, call.Aside) → ∀ server : Server S,
    Config.Reach (Server.start started.repo calls) server → ∀ k,
      (∀ π u, server.store.evalAnswer π c u ≠ .error (.notFound k)) ∧
        server.store.eventsAnswer c ≠ .error (.notFound k) ∧
        server.store.serverAnswer s ≠ .error (.notFound k)

/-! ### Polling -/

section
variable {T : Tokio} {limit : Nat} {cfg : ServerConfig}

end

/-! ### One static pair -/

/-- Nothing but `sync` and payloads moves the mapping. -/
theorem Call.Aside.moves {call : Call S} (h : call.Aside) : call.Moves Eq := by
  cases call with
  | sync c s v => exact h.elim
  | updateMapping π new => exact h.elim
  | _ => trivial

/-- The repository of a static server. -/
theorem run_sync_new (cfg : ServerConfig) (c : ClientSdkKey) {s : ServerSdkKey} (hs : S.accepts s = true) :
    (SdkRepository.sync c s 1).run (SdkRepository.new cfg : Inner S) =
      (some (),
        { serverConfig := cfg
          sdkClients := (∅ : HashMap ServerSdkKey ClientId).insert s 0
          secretMapping := SecretMapping.insert default c s 1
          instances := [(SdkRepository.new cfg : Inner S).fresh s] }) := by
  have hnew : s ∉ (SdkRepository.new cfg : Inner S).sdkClients := Finmap.notMem_empty
  have hsync : (SdkRepository.new cfg : Inner S).CanSync s := .inr hs
  rw [SdkRepository.run_sync, if_pos hsync, Inner.ensured_of_new hnew hs]
  rfl

theorem initHandler_static {T : Tokio} {cfg : ServerConfig} (hk : cfg.keysUrl = none) {c s : String}
    (hc : cfg.clientSdkKey = some c) (hs : cfg.serverSdkKey = some s) (ha : S.accepts s = true) :
    initHandler T cfg = some (.ok (⟨((SdkRepository.sync c s 1).run (SdkRepository.new cfg)).2,
      ⟨cfg.eventsUrl, cfg.analysisUrl, cfg.refreshInterval⟩, []⟩ : Started S)) := by
  have hsync := run_sync_new (S := S) cfg c ha
  simp [initHandler, hk, hc, hs, hsync]

/-- The server panics while it sets up the client of the pair. -/
theorem initHandler_refused {T : Tokio} {cfg : ServerConfig} (hk : cfg.keysUrl = none) {c s : String}
    (hc : cfg.clientSdkKey = some c) (hs : cfg.serverSdkKey = some s) (ha : S.accepts s = false) :
    (initHandler T cfg : Option (Except FPServerError (Started S))) = none := by
  have hno : ¬ (SdkRepository.new cfg : Inner S).CanSync s := by
    rintro (hmem | hacc)
    · exact Finmap.notMem_empty hmem
    · rw [ha] at hacc; cases hacc
  have hsync : (SdkRepository.sync c s 1).run (SdkRepository.new cfg : Inner S) =
      (none, SdkRepository.new cfg) := by
    rw [SdkRepository.run_sync, if_neg hno]
  simp [initHandler, hk, hc, hs, hsync]

/-- The server is in the mode its configuration describes. -/
def Started.Follows (started : Started S) (cfg : ServerConfig) : Prop :=
  started.handler = ⟨cfg.eventsUrl, cfg.analysisUrl, cfg.refreshInterval⟩ ∧
    match cfg.keysUrl with
    | some keysUrl => Polls cfg keysUrl started
    | none => ∃ c s, cfg.clientSdkKey = some c ∧ cfg.serverSdkKey = some s ∧ Serves c s started

end FeatureProbeServer
