import FeatureProbeServer.Base
import FeatureProbeServer.Lib.HashMap

/-!
# What the server uses of the FeatureProbe SDK and of `serde_json`

`Sdk` stands for the crates outside the repository: toggles, their evaluation, clients that fetch them,
and serialisation. A serialised value is its JSON value, so two texts that differ in the order of an
object's members are the same body. An `FPClient` handle is shared: the state behind it (`FPClient`
below) belongs to the instance `FPClient::new` created, and changes when the instance has fetched
toggles.
-/

namespace FeatureProbeServer

/-- The toggles of one environment, as the SDK holds and serves them. -/
structure Repository (Toggle Segment Events : Type) where
  segments : HashMap String Segment
  toggles : HashMap String Toggle
  events : Events
  version : Option Nat

structure Sdk where
  Toggle : Type
  Segment : Type
  Events : Type
  User : Type
  EvalDetail : Type
  Json : Type
  /-- `Repository::default()` -/
  defaultRepo : Repository Toggle Segment Events
  /-- The keys on which `FPClient::new` does not panic. -/
  accepts : String → Bool
  /-- A client that has the first repository and fetches the second goes over to it. -/
  takes : Repository Toggle Segment Events → Repository Toggle Segment Events → Bool
  isForClient : Toggle → Bool
  evalDetail : Toggle → User → HashMap String Segment → EvalDetail
  repoJson : Repository Toggle Segment Events → Except String Json
  detailsJson : HashMap String EvalDetail → Except String Json
  eventsJson : Events → Except String Json

namespace Sdk

abbrev Repo (S : Sdk) := Repository S.Toggle S.Segment S.Events

/-- What a client that has `repo` has after it fetched `new`. -/
def fetched (S : Sdk) (repo new : S.Repo) : S.Repo := if S.takes repo new then new else repo

/-- `serde_json` serialises the SDK's types without error. -/
structure Serializes (S : Sdk) : Prop where
  repo : ∀ r, ∃ j, S.repoJson r = .ok j
  details : ∀ m, ∃ j, S.detailsJson m = .ok j
  events : ∀ e, ∃ j, S.eventsJson e = .ok j

/-- JSON values that are the serialised data itself. -/
inductive PlainJson where
  | repo (r : Repository Bool Unit Unit)
  | details (m : HashMap String Bool)
  | events

/-- `HeaderValue::from_str` succeeds. -/
def isHeaderValue (text : String) : Bool :=
  text.toList.all fun c => (32 ≤ c.toNat && c.toNat != 127) || c == '\t'

/-- The order of versions, with none before all others. -/
def isNewer : Option Nat → Option Nat → Bool
  | none, some _ => true
  | some old, some new => old < new
  | _, none => false

/-- An SDK whose toggles are booleans, each on or off for everybody and visible to clients. -/
def plain : Sdk where
  Toggle := Bool
  Segment := Unit
  Events := Unit
  User := Unit
  EvalDetail := Bool
  Json := PlainJson
  defaultRepo := ⟨∅, ∅, (), some 0⟩
  accepts := isHeaderValue
  takes old new := isNewer old.version new.version
  isForClient _ := true
  evalDetail t _ _ := t
  repoJson r := .ok (.repo r)
  detailsJson m := .ok (.details m)
  eventsJson _ := .ok .events

theorem plain_serializes : plain.Serializes := ⟨fun _ => ⟨_, rfl⟩, fun _ => ⟨_, rfl⟩, fun _ => ⟨_, rfl⟩⟩

end Sdk

inductive SyncType where
  | polling
  | realtime
  deriving DecidableEq, Repr

structure FPConfig where
  serverSdkKey : String
  remoteUrl : Url
  togglesUrl : Option Url
  refreshInterval : Duration
  deriving DecidableEq, Repr

/-- The two keys an update callback passes to `notify_sdk`. -/
structure NotifyTarget where
  serverSdkKey : String
  clientSdkKey : Option String
  deriving DecidableEq, Repr

structure FPClient (S : Sdk) where
  config : FPConfig
  updateCallback : Option NotifyTarget
  initialized : Bool
  repo : S.Repo

namespace FPClient
variable {S : Sdk}

/-- The instance `FPClient::new` creates where it does not panic. -/
def new (config : FPConfig) : FPClient S := ⟨config, none, false, S.defaultRepo⟩

def setUpdateCallback (self : FPClient S) (target : NotifyTarget) : FPClient S :=
  { self with updateCallback := some target }

/-- The instance has fetched `repo`. -/
def receive (self : FPClient S) (repo : S.Repo) : FPClient S :=
  { self with initialized := true, repo := S.fetched self.repo repo }

@[simp] theorem setUpdateCallback_config (self : FPClient S) (t : NotifyTarget) :
    (self.setUpdateCallback t).config = self.config := rfl
@[simp] theorem receive_config (self : FPClient S) (repo : S.Repo) :
    (self.receive repo).config = self.config := rfl

end FPClient
end FeatureProbeServer
