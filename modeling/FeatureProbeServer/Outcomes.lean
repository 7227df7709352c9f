import FeatureProbeServer.Service

/-!
# What the endpoints answer

`Service.outcome` is the response to a request and what is sent on, read off the service. Whatever
runs beside a request, it is answered as the service would answer at one of the request's own steps.
-/

namespace FeatureProbeServer
open Guarded

variable {S : Sdk} {W : Web}

/-! ### The answers of the service -/

/-- What the service has for a key. -/
inductive Access (S : Sdk) where
  | unready
  | unknown
  | toggles (repo : S.Repo)

def Feed.access : Feed S → Access S
  | .toggles repo => .toggles repo
  | _ => .unready

/-- 503 with an empty object, `unknown`, or the data that `f` makes of the toggles. -/
def Access.respond (headers : List (String × String)) (unknown : Option (HttpResponse S))
    (f : S.Repo → Except String S.Json) : Access S → Option (HttpResponse S)
  | .unready => some ⟨503, headers, .text "{}"⟩
  | .unknown => unknown
  | .toggles repo =>
    match f repo with
    | .ok body => some ⟨200, headers, .json body⟩
    | .error message => some (FPServerError.jsonError message).intoResponse

/-- The default toggles; a panic if they cannot be written. -/
def defaultResponse (S : Sdk) : Option (HttpResponse S) :=
  match S.repoJson S.defaultRepo with
  | .ok body => some ⟨200, contentType, .json body⟩
  | .error _ => none

namespace Service

open Classical in
noncomputable def byServerKey (v : Service S) (s : ServerSdkKey) : Access S :=
  if v.version = 0 then .unready else if s ∈ v.known then (v.feed s).access else .unknown

def byClientKey (v : Service S) (c : ClientSdkKey) : Access S :=
  if v.version = 0 then .unready else match v.tenants.lookup c with
    | some s => (v.feed s).access
    | none => .unknown

section
variable {v : Service S} {s : ServerSdkKey} {c : ClientSdkKey}

theorem byServerKey_of_zero (hv : v.version = 0) : v.byServerKey s = .unready := if_pos hv

theorem byServerKey_of_known (hv : v.version ≠ 0) (hs : s ∈ v.known) :
    v.byServerKey s = (v.feed s).access := (if_neg hv).trans (if_pos hs)

theorem byServerKey_of_unknown (hv : v.version ≠ 0) (hs : s ∉ v.known) : v.byServerKey s = .unknown :=
  (if_neg hv).trans (if_neg hs)

theorem byClientKey_of_zero (hv : v.version = 0) : v.byClientKey c = .unready := if_pos hv

theorem byClientKey_of_tenant (hv : v.version ≠ 0) (hc : v.tenants.lookup c = some s) :
    v.byClientKey c = (v.feed s).access := by
  rw [byClientKey, if_neg hv, hc]

theorem byClientKey_of_unknown (hv : v.version ≠ 0) (hc : v.tenants.lookup c = none) :
    v.byClientKey c = .unknown := by
  rw [byClientKey, if_neg hv, hc]

end

/-- What an endpoint of client SDKs answers that reads `f`. -/
def client (v : Service S) (c : ClientSdkKey) (f : S.Repo → Except String S.Json) : Option (HttpResponse S) :=
  (v.byClientKey c).respond corsHeaders (some ⟨200, corsHeaders, .text "{}"⟩) f

/-- The key under which events are sent on. -/
def eventKey (v : Service S) (key : String) : Option ServerSdkKey :=
  if startsWith key "client" then v.tenants.lookup key else some key

/-- What `handle_events` returns and sends on. -/
def events {H : Http} {Value : Type} (v : Service S) (handler : FpHttpHandler) (key userAgent : String)
    (headers : H.HeaderMap) (data : List Value) : Option (Response × List (Post H Value)) :=
  match v.eventKey key with
  | none => some (⟨.unauthorized, corsHeaders, "{}"⟩, [])
  | some s => Inner.forward handler s userAgent headers data

noncomputable def outcome (v : Service W.sdk) (handler : FpHttpHandler) : Request W → Outcome W
  | .serverSdkToggles s => ⟨(v.byServerKey s).respond contentType (defaultResponse W.sdk) W.sdk.repoJson, []⟩
  | .clientSdkToggles π user c =>
    match W.decodeUser user with
    | .error e => ⟨some e.intoResponse, []⟩
    | .ok user => ⟨v.client c fun repo => W.sdk.detailsJson (Inner.evaluated π repo user), []⟩
  | .clientSdkEvents c => ⟨v.client c fun repo => W.sdk.eventsJson repo.events, []⟩
  | .updateToggles s =>
    match v.feed s with
    | .closed => ⟨some ⟨400, contentType, .text "{}"⟩, []⟩
    | _ => ⟨some ⟨200, corsHeaders, .text "{}"⟩, []⟩
  | .allSecrets => ⟨some ⟨200, contentType, .keys v.tenants⟩, []⟩
  | .postEvents key userAgent headers data =>
    match v.events handler key userAgent headers data with
    | some (response, posts) => ⟨some (W.postEvents response), posts⟩
    | none => ⟨none, []⟩

end Service

/-! ### One request alone -/

namespace Inner

theorem answer_cases (r : Inner S) (f : S.Repo → Except String S.Json) (s : ServerSdkKey) :
    (∃ repo, (r.service.feed s).access = .toggles repo ∧ r.answer f s = (f repo).mapError .jsonError) ∨
    (r.service.feed s).access = .unready ∧ r.answer f s = .error (.notReady s) := by
  rw [service_feed]
  unfold answer
  cases r.client s with
  | none => exact .inr ⟨rfl, rfl⟩
  | some i => cases hi : i.initialized <;> simp [Feed.of, Feed.access, hi]

/-- What `server_sdk_repo_string` returns, by what the service has for the key. -/
theorem serverAnswer_cases (r : Inner S) (s : ServerSdkKey) :
    (∃ repo, r.service.byServerKey s = .toggles repo ∧
      r.serverAnswer s = (S.repoJson repo).mapError .jsonError) ∨
    (r.service.byServerKey s = .unready ∧ r.serverAnswer s = .error (.notReady s)) ∨
    r.service.byServerKey s = .unknown ∧ r.serverAnswer s = .error (.notFound s) := by
  by_cases hv : r.secretMapping.version = 0
  · exact .inr (.inl ⟨Service.byServerKey_of_zero hv, serverAnswer_of_zero hv s⟩)
  · by_cases hs : s ∈ r.secretMapping.reverse
    · have hanswer : r.serverAnswer s = r.answer S.repoJson s := by
        rw [serverAnswer, SdkRepository.run_serverSdkRepoString, if_neg hv, if_pos hs]
      rw [Service.byServerKey_of_known hv hs, hanswer]
      exact (r.answer_cases S.repoJson s).imp_right .inl
    · refine .inr (.inr ⟨Service.byServerKey_of_unknown hv hs, ?_⟩)
      rw [serverAnswer, SdkRepository.run_serverSdkRepoString, if_neg hv, if_neg hs]

/-- What a client endpoint returns, by what the service has for the key. -/
theorem clientAnswer_cases (r : Inner S) (f : S.Repo → Except String S.Json) (c : ClientSdkKey) :
    (∃ repo, r.service.byClientKey c = .toggles repo ∧ r.clientAnswer f c = (f repo).mapError .jsonError) ∨
    (r.service.byClientKey c = .unready ∧ ∃ k, r.clientAnswer f c = .error (.notReady k)) ∨
    r.service.byClientKey c = .unknown ∧ r.clientAnswer f c = .error (.notFound c) := by
  by_cases hv : r.secretMapping.version = 0
  · exact .inr (.inl ⟨Service.byClientKey_of_zero hv, c, clientAnswer_of_zero hv f c⟩)
  · cases hc : r.secretMapping.mapping.lookup c with
    | none => exact .inr (.inr ⟨Service.byClientKey_of_unknown hv hc, clientAnswer_of_unmapped (by omega) hc f⟩)
    | some s =>
      rw [Service.byClientKey_of_tenant hv hc, clientAnswer_of_mapped (by omega) hc]
      rcases r.answer_cases f s with h | ⟨ha, hr⟩
      · exact .inl h
      · exact .inr (.inl ⟨ha, s, hr⟩)

end Inner

namespace FpHttpHandler

theorem intoResponse_serverSdkToggles (s : ServerSdkKey) (r : Inner S) :
    (((serverSdkToggles s).run r).1).intoResponse =
      (r.service.byServerKey s).respond contentType (defaultResponse S) S.repoJson := by
  have hanswer : ((SdkRepository.serverSdkRepoString s).run r).1 = r.serverAnswer s := rfl
  rw [serverSdkToggles, Prog.run_bind, hanswer]
  rcases r.serverAnswer_cases s with ⟨repo, ha, hr⟩ | ⟨ha, hr⟩ | ⟨ha, hr⟩
  · rw [ha, hr]
    cases hf : S.repoJson repo <;> simp [Handled.intoResponse, Access.respond, Except.mapError, hf]
  · rw [ha, hr]
    rfl
  · rw [ha, hr]
    cases hf : S.repoJson S.defaultRepo <;> simp [Handled.intoResponse, Access.respond, defaultResponse, hf]

theorem intoResponse_clientResponse (r : Inner S) (c : ClientSdkKey) (f : S.Repo → Except String S.Json) :
    (clientResponse (r.clientAnswer f c)).intoResponse = r.service.client c f := by
  unfold Service.client
  rcases r.clientAnswer_cases f c with ⟨repo, ha, hr⟩ | ⟨ha, k, hr⟩ | ⟨ha, hr⟩
  · rw [ha, hr]
    cases hf : f repo <;> simp [clientResponse, Handled.intoResponse, Access.respond, Except.mapError, hf]
  · rw [ha, hr]
    rfl
  · rw [ha, hr]
    rfl

theorem run_handleEvents (self : FpHttpHandler) (r : Inner W.sdk) (key userAgent : String)
    (headers : W.http.HeaderMap) (data : List W.Value) :
    ((self.handleEvents key userAgent headers data : RepoM W.sdk _).run r).1 =
      r.service.events self key userAgent headers data := by
  unfold Service.events
  cases hc : startsWith key "client" with
  | false =>
    have hkey : r.service.eventKey key = some key := if_neg (by rw [hc]; exact Bool.false_ne_true)
    rw [hkey]
    exact Inner.eventsOut_of_other hc
  | true =>
    have hkey : r.service.eventKey key = r.secretMapping.mapping.lookup key := if_pos hc
    rw [hkey]
    cases hk : r.secretMapping.mapping.lookup key with
    | none => exact Inner.eventsOut_of_unknown hc hk
    | some s => exact Inner.eventsOut_of_client hc hk

/-- A request alone is answered as the service would answer it. -/
theorem run_serve (self : FpHttpHandler) {r : Inner W.sdk} (hr : r.RegistryOk) (request : Request W) :
    ((self.serve request).run r).1 = r.service.outcome self request := by
  cases request with
  | serverSdkToggles s =>
    simp only [serve, Service.outcome, Prog.run_bind, Prog.run_pure, intoResponse_serverSdkToggles]
  | clientSdkToggles π user c =>
    rw [serve, clientSdkToggles, Service.outcome]
    cases W.decodeUser user with
    | error e => exact rfl
    | ok u =>
      simp only [Prog.run_bind, Prog.run_pure, SdkRepository.run_clientSdkEvalString,
        intoResponse_clientResponse]
  | clientSdkEvents c =>
    simp only [serve, clientSdkEvents, Service.outcome, Prog.run_bind, Prog.run_pure,
      SdkRepository.run_clientSdkEventsString, intoResponse_clientResponse]
  | updateToggles s =>
    rw [serve, updateToggles, Prog.run_bind, Prog.run_bind, SdkRepository.run_clientSyncNow, Service.outcome,
      Inner.service_feed]
    by_cases hs : s ∈ r.sdkClients
    · obtain ⟨i, hi, -⟩ := hr s hs
      rw [Inner.syncAnswer, if_pos hs, hi]
      cases hn : i.initialized <;> simp [Feed.of, hn, Handled.intoResponse]
    · rw [Inner.syncAnswer, if_neg hs, Inner.client_of_notMem hs]
      exact rfl
  | allSecrets => exact rfl
  | postEvents key userAgent headers data =>
    rw [serve, Prog.run_bind, run_handleEvents, Service.outcome]
    cases r.service.events self key userAgent headers data <;> exact rfl

end FpHttpHandler

/-! ### The contract of the endpoints -/

/-- What a request may get: status and body. Data come from the default toggles or from what `jobs` deliver. -/
inductive Request.Allows (jobs : List (Job W)) : Request W → Nat → Body W.sdk → Prop
  | toggles {s repo j} (hr : (Feed.toggles repo).Open jobs) (hj : W.sdk.repoJson repo = .ok j) :
    Allows jobs (.serverSdkToggles s) 200 (.json j)
  | noToggles {s} : Allows jobs (.serverSdkToggles s) 503 (.text "{}")
  | evaluated {π user c u repo j} (hu : W.decodeUser user = .ok u) (hr : (Feed.toggles repo).Open jobs)
    (hj : W.sdk.detailsJson (Inner.evaluated π repo u) = .ok j) :
    Allows jobs (.clientSdkToggles π user c) 200 (.json j)
  | notEvaluated {π user c u status} (hu : W.decodeUser user = .ok u) (hs : status = 200 ∨ status = 503) :
    Allows jobs (.clientSdkToggles π user c) status (.text "{}")
  | noUser {π user c} (hu : W.decodeUser user = .error .userDecodeError) :
    Allows jobs (.clientSdkToggles π user c) 400 (.error FPServerError.userDecodeError.toString)
  | events {c repo j} (hr : (Feed.toggles repo).Open jobs) (hj : W.sdk.eventsJson repo.events = .ok j) :
    Allows jobs (.clientSdkEvents c) 200 (.json j)
  | noEvents {c status} (hs : status = 200 ∨ status = 503) :
    Allows jobs (.clientSdkEvents c) status (.text "{}")
  | updated {s status} (hs : status = 200 ∨ status = 400) : Allows jobs (.updateToggles s) status (.text "{}")
  | secrets {m} (hm : ∀ c s, m.lookup c = some s → Introduced jobs c s) :
    Allows jobs .allSecrets 200 (.keys m)

/-- The endpoints of SDKs that run in browsers, but the one of `post_events`. -/
def Request.Browser : Request W → Prop
  | .clientSdkToggles .. | .clientSdkEvents _ => True
  | _ => False

/-- Events sent with `key` may go out under the server key `s`. -/
def SentAs (jobs : List (Job W)) (key : String) (s : ServerSdkKey) : Prop :=
  if startsWith key "client" then Introduced jobs key s else s = key

/-- `encode` carries the keys under which the events of the request may go out. -/
def Request.Carried (jobs : List (Job W)) (request : Request W) : Prop :=
  ∀ key userAgent headers data s, request = .postEvents key userAgent headers data → SentAs jobs key s →
    W.http.Carries s

/-- What `handle_events` may return and send on: OK and the events to every collector, or UNAUTHORIZED and
nothing. -/
inductive Outcome.Sent (jobs : List (Job W)) (handler : FpHttpHandler) (key : String) (data : List W.Value) :
    Response → List (Post W.http W.Value) → Prop
  | forwarded {s posts} (hs : SentAs jobs key s)
    (hp : Inner.Forwarded handler data s ⟨.ok, corsHeaders, "{}"⟩ posts) :
    Sent jobs handler key data ⟨.ok, corsHeaders, "{}"⟩ posts
  | refused (hc : startsWith key "client" = true) :
    Sent jobs handler key data ⟨.unauthorized, corsHeaders, "{}"⟩ []

/-- Every request is answered; events are sent on for `postEvents` alone, and as `handle_events` tells
`post_events`. -/
inductive Outcome.Ok (jobs : List (Job W)) (handler : FpHttpHandler) : Request W → Outcome W → Prop
  | response {request r} (ha : request.Allows jobs r.status r.body)
    (hb : request.Browser → r.headers = corsHeaders) : Ok jobs handler request ⟨some r, []⟩
  | events {key userAgent headers data response posts} (hs : Sent jobs handler key data response posts) :
    Ok jobs handler (.postEvents key userAgent headers data) ⟨some (W.postEvents response), posts⟩

theorem Web.decodeUser_error {user : String} {e : FPServerError} (h : W.decodeUser user = .error e) :
    e = .userDecodeError := by
  unfold decodeUser at h
  split at h
  · split at h
    · split at h
      · cases h
      · cases h; rfl
    · cases h; rfl
  · cases h; rfl

namespace Service
variable {jobs : List (Job W)} {v : Service W.sdk}

theorem Ok.access (h : v.Ok jobs) (s : ServerSdkKey) {repo : W.sdk.Repo}
    (ha : (v.feed s).access = .toggles repo) : (Feed.toggles repo).Open jobs := by
  have hf := h.feed s
  cases hfeed : v.feed s with
  | toggles repo' =>
    rw [hfeed] at ha hf
    cases ha
    rcases hf with hf | hf
    · cases hf
    · exact hf
  | _ =>
    rw [hfeed] at ha
    cases ha

theorem Ok.byServerKey (h : v.Ok jobs) {s : ServerSdkKey} {repo : W.sdk.Repo}
    (ha : v.byServerKey s = .toggles repo) : (Feed.toggles repo).Open jobs := by
  unfold Service.byServerKey at ha
  split at ha
  · cases ha
  · split at ha
    · exact h.access s ha
    · cases ha

theorem Ok.byClientKey (h : v.Ok jobs) {c : ClientSdkKey} {repo : W.sdk.Repo}
    (ha : v.byClientKey c = .toggles repo) : (Feed.toggles repo).Open jobs := by
  unfold Service.byClientKey at ha
  split at ha
  · cases ha
  · split at ha
    · exact h.access _ ha
    · cases ha

/-- A client endpoint answers with data made of delivered toggles, or with an empty object. -/
theorem Ok.client (h : v.Ok jobs) (c : ClientSdkKey) {f : W.sdk.Repo → Except String W.sdk.Json}
    (hf : ∀ repo, ∃ j, f repo = .ok j) :
    ∃ r, v.client c f = some r ∧ r.headers = corsHeaders ∧
      ((∃ repo j, (Feed.toggles repo).Open jobs ∧ f repo = .ok j ∧ r.status = 200 ∧ r.body = .json j) ∨
        (r.status = 200 ∨ r.status = 503) ∧ r.body = .text "{}") := by
  unfold Service.client
  cases ha : v.byClientKey c with
  | unready => exact ⟨_, rfl, rfl, .inr ⟨.inr rfl, rfl⟩⟩
  | unknown => exact ⟨_, rfl, rfl, .inr ⟨.inl rfl, rfl⟩⟩
  | toggles repo =>
    obtain ⟨j, hj⟩ := hf repo
    have hrespond : (Access.toggles repo).respond corsHeaders (some ⟨200, corsHeaders, .text "{}"⟩) f =
        some ⟨200, corsHeaders, .json j⟩ := by
      rw [Access.respond, hj]
    rw [hrespond]
    exact ⟨_, rfl, rfl, .inl ⟨repo, j, h.byClientKey ha, hj, rfl, rfl⟩⟩

theorem Ok.eventKey (h : v.Ok jobs) {key : String} {s : ServerSdkKey} (hk : v.eventKey key = some s) :
    SentAs jobs key s := by
  unfold Service.eventKey at hk
  unfold SentAs
  split
  · rw [if_pos ‹_›] at hk
    exact h.tenant key s hk
  · rw [if_neg ‹_›] at hk
    cases hk
    rfl

theorem startsWith_of_eventKey {key : String} (hk : v.eventKey key = none) :
    startsWith key "client" = true := by
  unfold Service.eventKey at hk
  split at hk
  · assumption
  · cases hk

theorem Ok.events (h : v.Ok jobs) (handler : FpHttpHandler) {key : String}
    (hC : ∀ s, SentAs jobs key s → W.http.Carries s) (userAgent : String) (headers : W.http.HeaderMap)
    (data : List W.Value) : ∃ response posts,
    v.events handler key userAgent headers data = some (response, posts) ∧
      Outcome.Sent jobs handler key data response posts := by
  unfold Service.events
  cases hk : v.eventKey key with
  | none => exact ⟨_, _, rfl, .refused (startsWith_of_eventKey hk)⟩
  | some s =>
    have hs := h.eventKey hk
    obtain ⟨response, posts, hout, hforward⟩ := Inner.forwarded_forward (hC s hs) handler userAgent headers data
    refine ⟨response, posts, hout, ?_⟩
    obtain ⟨headers', -, he⟩ := Option.map_eq_some_iff.mp hout
    cases he
    exact .forwarded hs hforward

theorem Ok.outcome (h : v.Ok jobs) (hS : W.sdk.Serializes) (handler : FpHttpHandler) {request : Request W}
    (hC : request.Carried jobs) : Outcome.Ok jobs handler request (v.outcome handler request) := by
  cases request with
  | serverSdkToggles s =>
    rw [Service.outcome]
    cases ha : v.byServerKey s with
    | unready => exact .response .noToggles False.elim
    | unknown =>
      obtain ⟨j, hj⟩ := hS.repo W.sdk.defaultRepo
      have hrespond : defaultResponse W.sdk = some ⟨200, contentType, .json j⟩ := by rw [defaultResponse, hj]
      rw [Access.respond, hrespond]
      exact .response (.toggles (.inl rfl) hj) False.elim
    | toggles repo =>
      obtain ⟨j, hj⟩ := hS.repo repo
      rw [Access.respond, hj]
      exact .response (.toggles (h.byServerKey ha) hj) False.elim
  | clientSdkToggles π user c =>
    rw [Service.outcome]
    cases hu : W.decodeUser user with
    | error e =>
      obtain rfl := Web.decodeUser_error hu
      exact .response (.noUser hu) fun _ => rfl
    | ok u =>
      obtain ⟨r, hr, hcors, hbody⟩ := h.client c fun repo => hS.details (Inner.evaluated π repo u)
      simp only [hr]
      refine .response ?_ fun _ => hcors
      rcases hbody with ⟨repo, j, hopen, hj, hs, hb⟩ | ⟨hs, hb⟩
      · rw [hs, hb]
        exact .evaluated hu hopen hj
      · rw [hb]
        exact .notEvaluated hu hs
  | clientSdkEvents c =>
    obtain ⟨r, hr, hcors, hbody⟩ := h.client c fun repo => hS.events repo.events
    rw [Service.outcome, hr]
    refine .response ?_ fun _ => hcors
    rcases hbody with ⟨repo, j, hopen, hj, hs, hb⟩ | ⟨hs, hb⟩
    · rw [hs, hb]
      exact .events hopen hj
    · rw [hb]
      exact .noEvents hs
  | updateToggles s =>
    rw [Service.outcome]
    cases v.feed s with
    | closed => exact .response (.updated (.inr rfl)) False.elim
    | _ => exact .response (.updated (.inl rfl)) False.elim
  | allSecrets => exact .response (.secrets h.tenant) False.elim
  | postEvents key userAgent headers data =>
    have hcarries : ∀ s, SentAs jobs key s → W.http.Carries s := fun s => hC key userAgent headers data s rfl
    obtain ⟨response, posts, hout, hsent⟩ := h.events handler hcarries userAgent headers data
    rw [Service.outcome, hout]
    exact .events hsent

end Service

/-! ### Requests in runs -/

theorem Call.IsRequest.atOnce {call : Call S} (h : call.IsRequest) : call.AtOnce := by
  cases call <;> trivial

namespace Site

variable {cfg : ServerConfig} {jobs : List (Job W)} {tr : List (Nat × Event Lock (Op W.sdk))} {c : Site W}
  {i : Nat} {handler : FpHttpHandler} {request : Request W}
  {t : Thread Lock (Op W.sdk) (Inner W.sdk) (Answer W)} {a : Answer W}

/-- The state `r` of the run, before a step of the job `i`; any state if the job takes no step. -/
def Moment (cfg : ServerConfig) (jobs : List (Job W)) (tr : List (Nat × Event Lock (Op W.sdk))) (i : Nat)
    (r : Inner W.sdk) : Prop :=
  ∃ tr₁ c₁, tr₁ <+: tr ∧ Config.Exec (start (SdkRepository.new cfg) jobs) tr₁ c₁ ∧ c₁.store = r ∧
    ((∃ e, tr₁ ++ [(i, e)] <+: tr) ∨ ∀ e, (i, e) ∉ tr)

theorem Moment.ok {r : Inner W.sdk} (h : Moment cfg jobs tr i r) : r.service.Ok jobs := by
  obtain ⟨tr₁, c₁, -, h₁, rfl, -⟩ := h
  exact Service.Ok.path (serving_exec h₁).2 Service.ok_empty

theorem getElem?_prog (hj : jobs[i]? = some (.http handler request)) :
    (jobs.map Job.prog)[i]? = some (do return .outcome (← handler.serve request)) := by
  rw [List.getElem?_map, hj]
  rfl

/-- A request that makes a call and has returned did so with its answer before one of its steps. -/
theorem exec_call {r : Inner W.sdk} (h : Config.Exec (start r jobs) tr c)
    (hj : jobs[i]? = some (.http handler request)) {call : Call W.sdk} (hcall : call.IsRequest)
    (hmap : call.prog.IsMap (handler.serve request)) (ht : c.threads[i]? = some t) (ha : t.result = some a) :
    ∃ tr₁ e c₁, tr₁ ++ [(i, e)] <+: tr ∧ Config.Exec (start r jobs) tr₁ c₁ ∧
      a = .outcome ((handler.serve request).run c₁.store).1 := by
  have hp := getElem?_prog hj
  have hatomic : ∀ j p, j = i → (jobs.map Job.prog)[j]? = some p →
      p.Atomic Lock.Same Inner.StaysInitialized := by
    rintro j p rfl hp'
    obtain rfl := Option.some.inj (hp.symm.trans hp')
    obtain ⟨g, hg⟩ := hmap
    rw [hg, map_eq_pure_bind]
    exact (hcall.atOnce.atomic.map g).map _
  have hfollows : ∀ p ∈ jobs.map Job.prog, p.Follows (repoDiscipline W.sdk) (Back []) .idle [] := by
    intro p hp
    obtain ⟨job, -, rfl⟩ := List.mem_map.mp hp
    exact job.follows
  obtain ⟨hist, hh⟩ := Config.exec_history hatomic hfollows (fun _ _ _ _ _ hi ho => owns_exec hi ho)
    Inner.staysInitialized_exec h
  obtain ⟨before, after, hhist, hreply⟩ := hh.replies i _ t a rfl hp ht ha
  obtain ⟨tr₁, _, c₁, ⟨_, o⟩, htr, h₁, hstore⟩ := hh.moment before _ after hhist
  refine ⟨tr₁, .op o, c₁, htr, h₁, ?_⟩
  rw [hreply, ← hstore, Prog.run_bind]
  exact rfl

/-- A request that does not look at the repository takes no step. -/
theorem exec_pure {r : Inner W.sdk} (h : Config.Exec (start r jobs) tr c)
    (hj : jobs[i]? = some (.http handler request)) {o : Outcome W} (ho : handler.serve request = pure o)
    (ht : c.threads[i]? = some t) (ha : t.result = some a) : (∀ e, (i, e) ∉ tr) ∧ a = .outcome o := by
  have hp := getElem?_prog hj
  rw [ho] at hp
  obtain ⟨hstill, hno⟩ := h.pure_still hp
  obtain rfl : t = Thread.start (.pure (.outcome o)) := Option.some.inj (ht.symm.trans hstill)
  cases ha
  exact ⟨hno, rfl⟩

/-- A request that has returned did so with its answer in one state of the run. -/
theorem exec_moment (h : Config.Exec (start (SdkRepository.new cfg) jobs) tr c)
    (hj : jobs[i]? = some (.http handler request)) (ht : c.threads[i]? = some t) (ha : t.result = some a) :
    ∃ r, Moment cfg jobs tr i r ∧ r.RegistryOk ∧ a = .outcome ((handler.serve request).run r).1 := by
  rcases handler.serve_cases request with ⟨o, ho⟩ | ⟨call, hcall, hmap⟩
  · obtain ⟨hno, ha⟩ := exec_pure h hj ho ht ha
    refine ⟨c.store, ⟨tr, c, List.prefix_rfl, h, rfl, .inr hno⟩, (serving_exec h).1.sound.registryOk, ?_⟩
    rw [ha, ho]
    rfl
  · obtain ⟨tr₁, e, c₁, htr, h₁, ha⟩ := exec_call h hj hcall hmap ht ha
    exact ⟨c₁.store, ⟨tr₁, c₁, (List.prefix_append _ _).trans htr, h₁, rfl, .inl ⟨e, htr⟩⟩,
      (serving_exec h₁).1.sound.registryOk, ha⟩

/-- A request that has not moved by `c` is answered as in a state since. -/
theorem exec_since (h : Config.Exec (start (SdkRepository.new cfg) jobs) tr c) {tr' c'}
    (h' : Config.Exec c tr' c') (hj : jobs[i]? = some (.http handler request)) (hnew : ∀ e, (i, e) ∉ tr)
    (ht : c'.threads[i]? = some t) (ha : t.result = some a) :
    ∃ tr₂ c₂, tr₂ <+: tr' ∧ Config.Exec c tr₂ c₂ ∧ a = .outcome ((handler.serve request).run c₂.store).1 := by
  rcases handler.serve_cases request with ⟨o, ho⟩ | ⟨call, hcall, hmap⟩
  · obtain ⟨-, ha⟩ := exec_pure (h.append h') hj ho ht ha
    refine ⟨tr', c', List.prefix_rfl, h', ?_⟩
    rw [ha, ho]
    rfl
  · obtain ⟨tr₁, e, c₁, htr, h₁, ha⟩ := exec_call (h.append h') hj hcall hmap ht ha
    have hlong : tr <+: tr₁ := by
      rcases List.prefix_or_prefix_of_prefix htr (List.prefix_append tr tr') with hshort | hlong
      · exact absurd (hshort.subset (by simp)) (hnew e)
      · refine (List.prefix_concat_iff.mp hlong).resolve_left ?_
        rintro rfl
        exact hnew e (by simp)
    obtain ⟨tr₂, rfl⟩ := hlong
    refine ⟨tr₂, c₁, ?_, h.after h₁, ha⟩
    exact (List.prefix_append_right_inj tr).mp ((List.prefix_append _ _).trans htr)

/-- Whatever runs beside it, a request that returns is answered as the service answers it, before one of
the request's own steps. -/
theorem exec_outcome (h : Config.Exec (start (SdkRepository.new cfg) jobs) tr c)
    (hj : jobs[i]? = some (.http handler request)) (ht : c.threads[i]? = some t) (ha : t.result = some a) :
    ∃ r, Moment cfg jobs tr i r ∧ a = .outcome (r.service.outcome handler request) := by
  obtain ⟨r, hmoment, hr, ha⟩ := exec_moment h hj ht ha
  exact ⟨r, hmoment, by rw [ha, FpHttpHandler.run_serve handler hr request]⟩

/-- The client of `s` is handed its toggles while the request for them holds its guards. -/
theorem exec_outcome_late : ∃ jobs : List (Job Web.plain),
    jobs = [.syncSecretKeys [.payload (.sorted _ _) ⟨1, .singleton "c" "s", ∅⟩],
      .updateClients [(.sorted _ _, .sorted _ _)], .one (.receive 0 ⟨∅, .singleton "t" true, (), some 1⟩),
      .http default (.serverSdkToggles "s")] ∧
    ∃ tr r, Moment default jobs tr 3 r ∧ r.service.outcome default (.serverSdkToggles "s") =
      ⟨some ⟨200, contentType, .json (.repo ⟨∅, .singleton "t" true, (), some 1⟩)⟩, []⟩ := by
  refine ⟨_, rfl, ?_⟩
  obtain ⟨c, t, hc, ht, ha⟩ : ∃ c t, (start (SdkRepository.new default)
      [.syncSecretKeys [.payload (.sorted _ _) ⟨1, .singleton "c" "s", ∅⟩],
        .updateClients [(.sorted _ _, .sorted _ _)],
        .one (.receive 0 ⟨∅, .singleton "t" true, (), some 1⟩),
        .http default (.serverSdkToggles "s")] : Site Web.plain).schedule
      (.replicate 8 0 ++ .replicate 22 1 ++ .replicate 6 3 ++ [2] ++ .replicate 4 3) = some c ∧
      c.threads[3]? = some t ∧ t.result = some (.outcome
        ⟨some ⟨200, contentType, .json (.repo ⟨∅, .singleton "t" true, (), some 1⟩)⟩, []⟩) :=
    ⟨_, _, rfl, rfl, rfl⟩
  obtain ⟨tr, h⟩ := Config.Reach.of_schedule hc
  obtain ⟨r, hr, hanswer⟩ := exec_outcome (i := 3) h rfl ht ha
  exact ⟨tr, r, hr, (Answer.outcome.inj hanswer).symm⟩

/-- Whatever runs, every request is answered: never by a panic, with nothing but the default toggles and
what was delivered, and events go out under keys that were introduced for the key they came with. -/
theorem exec_contract (hS : W.sdk.Serializes) (hC : request.Carried jobs)
    (h : Config.Exec (start (SdkRepository.new cfg) jobs) tr c) (hj : jobs[i]? = some (.http handler request))
    (ht : c.threads[i]? = some t) (ha : t.result = some a) :
    ∃ o, a = .outcome o ∧ Outcome.Ok jobs handler request o := by
  obtain ⟨r, hmoment, hr, ha⟩ := exec_moment h hj ht ha
  refine ⟨_, ha, ?_⟩
  rw [FpHttpHandler.run_serve handler hr request]
  exact hmoment.ok.outcome hS handler hC

/-- Events of a tenant that a static server has registered. -/
theorem exec_contract_static : ∃ jobs : List (Job Web.plain),
    jobs = [.one (.sync "client-c" "s" 1), .http default (.postEvents "client-c" "agent" [] [()])] ∧
    ∃ o : Outcome Web.plain, o.response.isSome = true ∧ o.posts.length = 1 ∧
      Outcome.Ok jobs default (.postEvents "client-c" "agent" [] [()]) o := by
  refine ⟨_, rfl, ?_⟩
  obtain ⟨c, t, o, hc, ht, ho, hr, hp⟩ : ∃ c t o, (start (SdkRepository.new default)
      [.one (.sync "client-c" "s" 1), .http default (.postEvents "client-c" "agent" [] [()])] :
      Site Web.plain).schedule (.replicate 18 0 ++ .replicate 4 1) = some c ∧ c.threads[1]? = some t ∧
      t.result = some (.outcome o) ∧ o.response.isSome = true ∧ o.posts.length = 1 :=
    ⟨_, _, _, rfl, rfl, rfl, rfl, rfl⟩
  obtain ⟨tr, h⟩ := Config.Reach.of_schedule hc
  have hcarried : Request.Carried (W := Web.plain) [.one (.sync "client-c" "s" 1),
      .http default (.postEvents "client-c" "agent" [] [()])]
      (.postEvents "client-c" "agent" [] [()]) := by
    rintro key userAgent headers data s he hs
    cases he
    obtain ⟨job, hjob, hintro⟩ : Introduced _ _ _ := hs
    rcases List.mem_cons.mp hjob with rfl | hjob
    · rcases hintro with ⟨n, he⟩ | ⟨new, hnew, -⟩
      · cases he
        exact Http.plain_carries (by decide)
      · exact hnew.elim
    · obtain rfl := List.mem_singleton.mp hjob
      rcases hintro with ⟨n, he⟩ | ⟨new, hnew, -⟩
      · cases he
      · exact hnew.elim
  obtain ⟨o', ho', hok⟩ := exec_contract Sdk.plain_serializes hcarried (i := 1) h rfl ht ho
  obtain rfl := Answer.outcome.inj ho'
  exact ⟨o, hr, hp, hok⟩

/-- Where nothing registers, a request that begins when another has returned is answered from the same
table or from a newer one. -/
theorem exec_later (hsync : ∀ c s n, .one (.sync c s n) ∉ jobs)
    (h : Config.Exec (start (SdkRepository.new cfg) jobs) tr c) (hj : jobs[i]? = some (.http handler request))
    (ht : c.threads[i]? = some t) (ha : t.result = some a) {tr' c'} (h' : Config.Exec c tr' c') {j : Nat}
    {handler' : FpHttpHandler} {request' : Request W} (hj' : jobs[j]? = some (.http handler' request'))
    (hnew : ∀ e, (j, e) ∉ tr) {t' : Thread Lock (Op W.sdk) (Inner W.sdk) (Answer W)}
    (ht' : c'.threads[j]? = some t') {a' : Answer W} (ha' : t'.result = some a') :
    ∃ r tr₂ c₂, Moment cfg jobs tr i r ∧ a = .outcome (r.service.outcome handler request) ∧
      tr₂ <+: tr' ∧ Config.Exec c tr₂ c₂ ∧ a' = .outcome (c₂.store.service.outcome handler' request') ∧
      r.service.Later c₂.store.service := by
  obtain ⟨r, hmoment, hr, ha⟩ := exec_moment h hj ht ha
  obtain ⟨tr₂, c₂, hp, h₂, ha'⟩ := exec_since h h' hj' hnew ht' ha'
  have hregistry := (serving_exec (h.append h₂)).1.sound.registryOk
  refine ⟨r, tr₂, c₂, hmoment, ?_, hp, h₂, ?_, ?_⟩
  · rw [ha, FpHttpHandler.run_serve handler hr request]
  · rw [ha', FpHttpHandler.run_serve handler' hregistry request']
  · obtain ⟨tr₁, c₁, ⟨rest, rfl⟩, h₁, rfl, -⟩ := hmoment
    have onward : Config.Exec c₁ (rest ++ tr₂) c₂ := (h₁.after h).append h₂
    exact Service.later_of_path hsync ((serving_exec h₁).1.exec ⟨tr₁, h₁⟩ onward).2

/-- A tenant gets another client key between two requests. -/
theorem exec_later_rotated : ∃ jobs : List (Job Web.plain),
    jobs = [.syncSecretKeys [.payload (.sorted _ _) ⟨1, .singleton "c" "s", ∅⟩,
        .payload (.sorted _ _) ⟨2, .singleton "d" "s", ∅⟩], .http default .allSecrets,
      .http default .allSecrets] ∧
    ∃ v v' : Service Web.plain.sdk,
      v.outcome default .allSecrets = ⟨some ⟨200, contentType, .keys (.singleton "c" "s")⟩, []⟩ ∧
      v'.outcome default .allSecrets = ⟨some ⟨200, contentType, .keys (.singleton "d" "s")⟩, []⟩ ∧
      v.Later v' := by
  refine ⟨_, rfl, ?_⟩
  obtain ⟨c, c', t, t', hc, hc', ht, ha, ht', ha'⟩ : ∃ c c' t t', (start (SdkRepository.new default)
      [.syncSecretKeys [.payload (.sorted _ _) ⟨1, .singleton "c" "s", ∅⟩,
          .payload (.sorted _ _) ⟨2, .singleton "d" "s", ∅⟩], .http default .allSecrets,
        .http default .allSecrets] : Site Web.plain).schedule (.replicate 8 0 ++ .replicate 4 1) = some c ∧
      c.schedule (.replicate 8 0 ++ .replicate 4 2) = some c' ∧ c.threads[1]? = some t ∧
      t.result = some (.outcome ⟨some ⟨200, contentType, .keys (.singleton "c" "s")⟩, []⟩) ∧
      c'.threads[2]? = some t' ∧
      t'.result = some (.outcome ⟨some ⟨200, contentType, .keys (.singleton "d" "s")⟩, []⟩) :=
    ⟨_, _, _, _, rfl, rfl, rfl, rfl, rfl, rfl⟩
  obtain ⟨tr, htr, h⟩ := Config.Exec.of_schedule hc
  obtain ⟨tr', -, h'⟩ := Config.Exec.of_schedule hc'
  have hnew : ∀ e, (2, e) ∉ tr := by
    intro e he
    have hmem : 2 ∈ tr.map Prod.fst := List.mem_map.mpr ⟨_, he, rfl⟩
    rw [htr] at hmem
    exact absurd hmem (by decide)
  obtain ⟨r, -, c₂, -, hv, -, -, hv', hlater⟩ :=
    exec_later (i := 1) (j := 2) (by simp) h rfl ht ha h' rfl hnew ht' ha'
  exact ⟨r.service, c₂.store.service, (Answer.outcome.inj hv).symm, (Answer.outcome.inj hv').symm, hlater⟩

end Site
end FeatureProbeServer
