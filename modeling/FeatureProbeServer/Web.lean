import FeatureProbeServer.Atomic
import FeatureProbeServer.Handler

/-!
# The HTTP endpoints (`http/mod.rs`, `http/handler.rs`)

Each handler makes at most one call on the repository and turns its result into a response; an error
it hands on becomes one in `IntoResponse`. `Web` stands for the crates between a request and the
repository: those that read its text, and `post_events`, which calls `handle_events`. A handler that
panics sends no response.
-/

namespace FeatureProbeServer
open Guarded

inductive Body (S : Sdk) where
  | text (text : String)
  | json (value : S.Json)
  | keys (mapping : HashMap ClientSdkKey ServerSdkKey)
  | error (message : String)

structure HttpResponse (S : Sdk) where
  status : Nat
  headers : List (String × String)
  body : Body S

structure Web where
  sdk : Sdk
  http : Http
  Value : Type
  /-- `base64::decode` -/
  base64Decode : String → Option ByteArray
  /-- `serde_json::from_str::<FPUser>` -/
  userFromStr : String → Option sdk.User
  /-- What `post_events` answers where `handle_events` has returned. -/
  postEvents : Response → HttpResponse sdk

namespace Web

/-- Users are any text but the empty one, as it stands. -/
def plain : Web where
  sdk := Sdk.plain
  http := Http.plain
  Value := Unit
  base64Decode text := some text.toUTF8
  userFromStr text := if text = "" then none else some ()
  postEvents _ := ⟨200, [], .text ""⟩

end Web

/-! ### Responses -/

def contentType : List (String × String) := [("content-type", "application/json")]

/-- `thiserror`'s `Display` -/
def FPServerError.toString : FPServerError → String
  | .notFound key => "not found " ++ key
  | .userDecodeError => "user base64 decode error"
  | .configError message => "config error: " ++ message
  | .notReady key => "not ready error: " ++ key
  | .jsonError message => "json error: " ++ message

def FPServerError.intoResponse {S : Sdk} (self : FPServerError) : HttpResponse S :=
  match self with
  | .notFound _ => ⟨404, corsHeaders, .error self.toString⟩
  | .userDecodeError => ⟨400, corsHeaders, .error self.toString⟩
  | _ => ⟨500, corsHeaders, .error self.toString⟩

/-- What a handler returns; `none` is a panic. -/
abbrev Handled (S : Sdk) := Option (Except FPServerError (HttpResponse S))

def Handled.intoResponse {S : Sdk} : Handled S → Option (HttpResponse S)
  | none => none
  | some (.ok response) => some response
  | some (.error e) => some e.intoResponse

variable {S : Sdk} {W : Web}

/-! ### Handlers -/

def Web.decodeUser (W : Web) (user : String) : Except FPServerError W.sdk.User :=
  match W.base64Decode user with
  | some bytes =>
    match String.fromUTF8? bytes with
    | some text =>
      match W.userFromStr text with
      | some user => .ok user
      | none => .error .userDecodeError
    | none => .error .userDecodeError
  | none => .error .userDecodeError

namespace FpHttpHandler

def serverSdkToggles (sdkKey : String) : RepoM S (Handled S) := do
  match ← SdkRepository.serverSdkRepoString sdkKey with
  | .ok body => return some (.ok ⟨200, contentType, .json body⟩)
  | .error (.notReady _) => return some (.ok ⟨503, contentType, .text "{}"⟩)
  | .error (.notFound _) =>
    -- `serde_json::to_string(&Repository::default()).unwrap()`
    match S.repoJson S.defaultRepo with
    | .ok body => return some (.ok ⟨200, contentType, .json body⟩)
    | .error _ => return none
  | .error e => return some (.error e)

/-- The match of the two client endpoints on what the repository returned. -/
def clientResponse : Except FPServerError S.Json → Handled S
  | .ok body => some (.ok ⟨200, corsHeaders, .json body⟩)
  | .error (.notReady _) => some (.ok ⟨503, corsHeaders, .text "{}"⟩)
  | .error (.notFound _) => some (.ok ⟨200, corsHeaders, .text "{}"⟩)
  | .error e => some (.error e)

/-- `π` is the order of the toggles. -/
def clientSdkToggles (π : IterOrder String W.sdk.Toggle) (user sdkKey : String) :
    RepoM W.sdk (Handled W.sdk) :=
  match W.decodeUser user with
  | .error e => return some (.error e)
  | .ok user => do return clientResponse (← SdkRepository.clientSdkEvalString π sdkKey user)

def clientSdkEvents (sdkKey : String) : RepoM S (Handled S) := do
  return clientResponse (← SdkRepository.clientSdkEventsString sdkKey)

def updateToggles (sdkKey : String) : RepoM S (Handled S) := do
  match ← SdkRepository.clientSyncNow sdkKey .realtime with
  | .ok _ => return some (.ok ⟨200, corsHeaders, .text "{}"⟩)
  | .error (.notFound _) => return some (.ok ⟨400, contentType, .text "{}"⟩)
  | .error e => return some (.error e)

def allSecrets : RepoM S (Handled S) := do
  return some (.ok ⟨200, contentType, .keys (← SdkRepository.secretKeys)⟩)

end FpHttpHandler

/-! ### Requests -/

inductive Request (W : Web) where
  | serverSdkToggles (sdkKey : String)
  | clientSdkToggles (π : IterOrder String W.sdk.Toggle) (user sdkKey : String)
  | clientSdkEvents (sdkKey : String)
  | updateToggles (sdkKey : String)
  | allSecrets
  | postEvents (sdkKey userAgent : String) (headers : W.http.HeaderMap) (data : List W.Value)

/-- The response to a request, and the requests that are sent on. -/
structure Outcome (W : Web) where
  response : Option (HttpResponse W.sdk)
  posts : List (Post W.http W.Value)

def FpHttpHandler.serve (self : FpHttpHandler) : Request W → RepoM W.sdk (Outcome W)
  | .serverSdkToggles sdkKey => do return ⟨(← serverSdkToggles sdkKey).intoResponse, []⟩
  | .clientSdkToggles π user sdkKey => do return ⟨(← clientSdkToggles π user sdkKey).intoResponse, []⟩
  | .clientSdkEvents sdkKey => do return ⟨(← clientSdkEvents sdkKey).intoResponse, []⟩
  | .updateToggles sdkKey => do return ⟨(← updateToggles sdkKey).intoResponse, []⟩
  | .allSecrets => do return ⟨(← allSecrets).intoResponse, []⟩
  | .postEvents sdkKey userAgent headers data => do
    match ← self.handleEvents sdkKey userAgent headers data with
    | some (response, posts) => return ⟨some (W.postEvents response), posts⟩
    | none => return ⟨none, []⟩

end FeatureProbeServer
