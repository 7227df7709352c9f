import FeatureProbeServer.Endpoints

/-!
# Forwarding events (`FpHttpHandler::handle_events`)

One endpoint takes the events of client and of server SDKs. It tells them apart by the text of the
key: a key that starts with `client` is looked up in the mapping, any other is a server key and
forwarded as it stands. `Http` stands for the crates that build header values.
-/

namespace FeatureProbeServer
open Guarded

inductive StatusCode where
  | ok
  | unauthorized
  deriving DecidableEq, Repr

structure Response where
  status : StatusCode
  headers : List (String × String)
  body : String
  deriving DecidableEq, Repr

def corsHeaders : List (String × String) :=
  [("content-type", "application/json"), ("access-control-allow-headers", "*"),
    ("access-control-allow-origin", "*"),
    ("access-control-allow-methods", "GET, POST, PUT, DELETE, OPTIONS")]

structure Http where
  HeaderValue : Type
  /-- `SdkAuthorization(sdk_key).encode()`; `none` is a panic. -/
  encode : String → Option HeaderValue
  /-- `HeaderValue::from_str` -/
  fromStr : String → Option HeaderValue
  /-- The text of a header value. -/
  text : HeaderValue → String

namespace Http

/-- `SdkAuthorization::encode` carries the key text unchanged. -/
def Carries (H : Http) (key : String) : Prop := ∃ v, H.encode key = some v ∧ H.text v = key

/-- `HeaderValue::from_str` with header values that are their texts. -/
def fromText (text : String) : Option String := if Sdk.isHeaderValue text then some text else none

def plain : Http := ⟨String, fromText, fromText, id⟩

theorem plain_carries {key : String} (h : Sdk.isHeaderValue key = true) : plain.Carries key :=
  ⟨key, if_pos h, rfl⟩

/-- Name and value pairs; `get` is the first value of a name. -/
abbrev HeaderMap (H : Http) := List (String × H.HeaderValue)

def HeaderMap.get {H : Http} (headers : H.HeaderMap) (name : String) : Option H.HeaderValue :=
  headers.lookup name

def HeaderMap.append {H : Http} (headers : H.HeaderMap) (name : String) (value : H.HeaderValue) : H.HeaderMap :=
  headers ++ [(name, value)]

end Http

/-- One request of `do_send_events`. -/
structure Post (H : Http) (Value : Type) where
  url : Url
  headers : H.HeaderMap
  timeout : Duration
  data : List Value

structure FpHttpHandler where
  eventsUrl : Url
  analysisUrl : Option Url
  eventsTimeout : Duration
  deriving DecidableEq, Repr, Inhabited

/-- `text.starts_with(pat)` -/
def startsWith (text pat : String) : Bool := pat.toList.isPrefixOf text.toList

variable {S : Sdk} {H : Http} {Value : Type}

/-- `none` where `encode` panics. -/
def buildHeader (headers : H.HeaderMap) (sdkKey userAgent : String) : Option H.HeaderMap := do
  let ua := headers.get "ua"
  let auth ← H.encode sdkKey
  let headers := Http.HeaderMap.append [] "authorization" auth
  let headers := match H.fromStr userAgent with
    | some v => headers.append "user-agent" v
    | none => headers
  return match ua with
    | some ua => headers.append "ua" ua
    | none => headers

/-- The requests that are spawned, in their order. -/
def sendEvents (headers : H.HeaderMap) (eventsUrl : Url) (analysisUrl : Option Url) (timeout : Duration)
    (data : List Value) : List (Post H Value) :=
  (analysisUrl.map fun analysisUrl => ⟨analysisUrl, headers, timeout, data⟩).toList ++
    [⟨eventsUrl, headers, timeout, data⟩]

namespace FpHttpHandler

/-- The response and the requests that are sent on; `none` is a panic. -/
def handleEvents (self : FpHttpHandler) (sdkKey userAgent : String) (headers : H.HeaderMap)
    (data : List Value) : RepoM S (Option (Response × List (Post H Value))) := do
  let serverSdkKey ←
    if startsWith sdkKey "client" then (·.lookup sdkKey) <$> SdkRepository.secretKeys
    else pure (some sdkKey)
  match serverSdkKey with
  | none => return some (⟨.unauthorized, corsHeaders, "{}"⟩, [])
  | some serverSdkKey =>
    match buildHeader headers serverSdkKey userAgent with
    | some headers => return some (⟨.ok, corsHeaders, "{}"⟩,
        sendEvents headers self.eventsUrl self.analysisUrl self.eventsTimeout data)
    | none => return none

end FpHttpHandler

/-! ### What goes out -/

theorem get_buildHeader {sdkKey : String} {v : H.HeaderValue} (h : H.encode sdkKey = some v)
    (headers : H.HeaderMap) (userAgent : String) :
    ∃ headers', buildHeader headers sdkKey userAgent = some headers' ∧
      headers'.get "authorization" = some v := by
  unfold buildHeader
  rw [h]
  cases H.fromStr userAgent <;> cases headers.get "ua" <;>
    exact ⟨_, rfl, by simp [Http.HeaderMap.append, Http.HeaderMap.get]⟩

theorem urls_sendEvents (headers : H.HeaderMap) (eventsUrl : Url) (analysisUrl : Option Url)
    (timeout : Duration) (data : List Value) :
    (sendEvents headers eventsUrl analysisUrl timeout data).map (·.url) =
      analysisUrl.toList ++ [eventsUrl] := by
  cases analysisUrl <;> rfl

theorem mem_sendEvents {headers : H.HeaderMap} {eventsUrl : Url} {analysisUrl : Option Url}
    {timeout : Duration} {data : List Value} {post : Post H Value}
    (h : post ∈ sendEvents headers eventsUrl analysisUrl timeout data) :
    post.headers = headers ∧ post.timeout = timeout ∧ post.data = data := by
  cases analysisUrl with
  | none =>
    rw [List.mem_singleton.mp h]
    exact ⟨rfl, rfl, rfl⟩
  | some url =>
    rcases List.mem_cons.mp h with rfl | h
    · exact ⟨rfl, rfl, rfl⟩
    · rw [List.mem_singleton.mp h]
      exact ⟨rfl, rfl, rfl⟩

namespace Inner

/-- What `handle_events` returns and sends on in the state `r`. -/
def eventsOut (r : Inner S) (handler : FpHttpHandler) (sdkKey userAgent : String) (headers : H.HeaderMap)
    (data : List Value) : Option (Response × List (Post H Value)) :=
  ((handler.handleEvents sdkKey userAgent headers data).run r).1

/-- `response` and `posts` forward the events to every collector with an authorization of `key`. -/
structure Forwarded (handler : FpHttpHandler) (data : List Value) (key : ServerSdkKey) (response : Response)
    (posts : List (Post H Value)) : Prop where
  status : response.status = .ok
  urls : posts.map (·.url) = handler.analysisUrl.toList ++ [handler.eventsUrl]
  authorization : ∀ post ∈ posts, ∃ v, post.headers.get "authorization" = some v ∧ H.text v = key
  data : ∀ post ∈ posts, post.data = data

/-- The events sent with `sdkKey` go to every collector with an authorization of `key`. -/
def ForwardsAs (r : Inner S) (handler : FpHttpHandler) (sdkKey userAgent : String) (headers : H.HeaderMap)
    (data : List Value) (key : ServerSdkKey) : Prop :=
  ∃ response posts, r.eventsOut handler sdkKey userAgent headers data = some (response, posts) ∧
    Forwarded handler data key response posts

/-- The events sent with `sdkKey` go nowhere. -/
def Refuses (r : Inner S) (handler : FpHttpHandler) (sdkKey userAgent : String) (headers : H.HeaderMap)
    (data : List Value) : Prop :=
  ∃ response, r.eventsOut handler sdkKey userAgent headers data = some (response, []) ∧
    response.status = .unauthorized

variable {r : Inner S} {handler : FpHttpHandler} {sdkKey userAgent : String} {headers : H.HeaderMap}
  {data : List Value}

/-- What goes out for the server key `key`. -/
def forward (handler : FpHttpHandler) (key userAgent : String) (headers : H.HeaderMap) (data : List Value) :
    Option (Response × List (Post H Value)) :=
  (buildHeader headers key userAgent).map fun headers => (⟨.ok, corsHeaders, "{}"⟩,
    sendEvents headers handler.eventsUrl handler.analysisUrl handler.eventsTimeout data)

theorem eventsOut_of_client (h : startsWith sdkKey "client" = true) {key : ServerSdkKey}
    (hk : r.secretMapping.mapping.lookup sdkKey = some key) :
    r.eventsOut handler sdkKey userAgent headers data = forward handler key userAgent headers data := by
  cases hb : buildHeader headers key userAgent <;>
    simp [eventsOut, forward, FpHttpHandler.handleEvents, h, SdkRepository.secretKeys, readMapping, exec,
      SecretMapping.mappingClone, hk, hb]

theorem eventsOut_of_unknown (h : startsWith sdkKey "client" = true)
    (hk : r.secretMapping.mapping.lookup sdkKey = none) :
    r.eventsOut handler sdkKey userAgent headers data = some (⟨.unauthorized, corsHeaders, "{}"⟩, []) := by
  simp [eventsOut, FpHttpHandler.handleEvents, h, SdkRepository.secretKeys, readMapping, exec,
    SecretMapping.mappingClone, hk]

theorem eventsOut_of_other (h : startsWith sdkKey "client" = false) :
    r.eventsOut handler sdkKey userAgent headers data = forward handler sdkKey userAgent headers data := by
  cases hb : buildHeader headers sdkKey userAgent <;>
    simp [eventsOut, forward, FpHttpHandler.handleEvents, h, hb]

theorem forwarded_forward {key : ServerSdkKey} (hH : H.Carries key) (handler : FpHttpHandler)
    (userAgent : String) (headers : H.HeaderMap) (data : List Value) :
    ∃ response posts, forward handler key userAgent headers data = some (response, posts) ∧
      Forwarded handler data key response posts := by
  obtain ⟨v, hv, ht⟩ := hH
  obtain ⟨headers', hb, hauth⟩ := get_buildHeader hv headers userAgent
  refine ⟨_, _, by rw [forward, hb]; rfl, rfl, urls_sendEvents .., fun post hp => ?_, fun post hp => ?_⟩
  · obtain ⟨hheaders, -, -⟩ := mem_sendEvents hp
    rw [hheaders]
    exact ⟨v, hauth, ht⟩
  · exact (mem_sendEvents hp).2.2

theorem forwardsAs_of_client (h : startsWith sdkKey "client" = true) {key : ServerSdkKey}
    (hH : H.Carries key) (hk : r.secretMapping.mapping.lookup sdkKey = some key) :
    r.ForwardsAs handler sdkKey userAgent headers data key := by
  unfold ForwardsAs
  rw [eventsOut_of_client h hk]
  exact forwarded_forward hH handler userAgent headers data

theorem forwardsAs_of_other (h : startsWith sdkKey "client" = false) (hH : H.Carries sdkKey) :
    r.ForwardsAs handler sdkKey userAgent headers data sdkKey := by
  unfold ForwardsAs
  rw [eventsOut_of_other h]
  exact forwarded_forward hH handler userAgent headers data

/-- There is one answer only: the key that goes out is determined. -/
theorem ForwardsAs.unique {key key' : ServerSdkKey} (h : r.ForwardsAs handler sdkKey userAgent headers data key)
    (h' : r.ForwardsAs handler sdkKey userAgent headers data key') : key = key' := by
  obtain ⟨response, posts, hout, h⟩ := h
  obtain ⟨response', posts', hout', h'⟩ := h'
  cases hout.symm.trans hout'
  have hne : posts ≠ [] := by
    intro he
    have hurls := h.urls
    rw [he] at hurls
    simp at hurls
  obtain ⟨post, hp⟩ := List.exists_mem_of_ne_nil _ hne
  obtain ⟨v, hv, hkey⟩ := h.authorization post hp
  obtain ⟨v', hv', hkey'⟩ := h'.authorization post hp
  obtain rfl : v = v' := Option.some.inj (hv.symm.trans hv')
  exact hkey.symm.trans hkey'

/-- A key goes out as another one only if it has the form of a client key. -/
theorem ForwardsAs.startsWith_client (hH : H.Carries sdkKey) {key : ServerSdkKey}
    (h : r.ForwardsAs handler sdkKey userAgent headers data key) (hne : sdkKey ≠ key) :
    startsWith sdkKey "client" = true := by
  by_contra hno
  have hother : r.ForwardsAs handler sdkKey userAgent headers data sdkKey :=
    forwardsAs_of_other (Bool.eq_false_iff.mpr hno) hH
  exact hne (hother.unique h)

/-- What goes out and is no client key does not have the form of one. -/
theorem ForwardsAs.not_unknown {key : ServerSdkKey}
    (h : r.ForwardsAs handler sdkKey userAgent headers data key)
    (hk : r.secretMapping.mapping.lookup sdkKey = none) : startsWith sdkKey "client" = false := by
  by_contra hno
  obtain ⟨response, posts, hout, h⟩ := h
  cases (eventsOut_of_unknown (by simpa using hno) hk).symm.trans hout
  cases h.status

/-- No text is a client key and a server key at once. -/
def KeysDisjoint (r : Inner S) : Prop :=
  ∀ c c' s, r.secretMapping.mapping.lookup c = some s → r.secretMapping.mapping.lookup s ≠ some c'

/-- `encode` carries the keys of the mapping unchanged. -/
def Carried (r : Inner S) (H : Http) : Prop :=
  ∀ c s, r.secretMapping.mapping.lookup c = some s → H.Carries c ∧ H.Carries s

/-- Events sent with a client key go out for its server key, those sent with a server key for itself. -/
def ResolvesEvents (r : Inner S) (handler : FpHttpHandler) (H : Http) (Value : Type) : Prop :=
  ∀ c s, r.secretMapping.mapping.lookup c = some s → ∀ userAgent (headers : H.HeaderMap) (data : List Value),
    r.ForwardsAs handler c userAgent headers data s ∧ r.ForwardsAs handler s userAgent headers data s

structure EventKeys (r : Inner S) (handler : FpHttpHandler) (H : Http) (Value : Type) : Prop where
  client : ∀ c s, r.secretMapping.mapping.lookup c = some s → startsWith c "client" = true →
    ∀ userAgent (headers : H.HeaderMap) (data : List Value),
      r.ForwardsAs handler c userAgent headers data s ∧
        ∀ π u, 0 < r.secretMapping.version → r.evalAnswer π c u =
          r.answer (fun repo => S.detailsJson (evaluated π repo u)) s
  other : ∀ key, H.Carries key → startsWith key "client" = false →
    ∀ userAgent (headers : H.HeaderMap) (data : List Value), r.ForwardsAs handler key userAgent headers data key
  unknown : ∀ key, startsWith key "client" = true → r.secretMapping.mapping.lookup key = none →
    ∀ userAgent (headers : H.HeaderMap) (data : List Value), r.Refuses handler key userAgent headers data
  resolves : r.ResolvesEvents handler H Value ↔ ∀ c s, r.secretMapping.mapping.lookup c = some s →
    startsWith c "client" = true ∧ startsWith s "client" = false

theorem eventKeys (r : Inner S) (hH : r.Carried H) (hd : r.KeysDisjoint) (handler : FpHttpHandler)
    (Value : Type) : EventKeys r handler H Value where
  client c s hc h userAgent headers data := by
    refine ⟨forwardsAs_of_client h (hH c s hc).2 hc, fun π u hv => ?_⟩
    rw [evalAnswer_eq, clientAnswer_of_mapped hv hc]
  other key hkey h userAgent headers data := forwardsAs_of_other h hkey
  unknown key h hk userAgent headers data := ⟨_, eventsOut_of_unknown h hk, rfl⟩
  resolves := by
    constructor
    · intro h c s hc
      obtain ⟨hclient, hserver⟩ := h c s hc "" [] []
      constructor
      · refine hclient.startsWith_client (hH c s hc).1 fun heq => ?_
        subst heq
        exact hd c c c hc hc
      · refine hserver.not_unknown ?_
        cases hs : r.secretMapping.mapping.lookup s with
        | none => rfl
        | some c' => exact absurd hs (hd c c' s hc)
    · intro h c s hc userAgent headers data
      obtain ⟨hclient, hserver⟩ := h c s hc
      exact ⟨forwardsAs_of_client hclient (hH c s hc).2 hc, forwardsAs_of_other hserver (hH c s hc).2⟩

/-- The mapping of a static server. -/
theorem mapping_sync {s : ServerSdkKey} (hs : S.accepts s = true) (c : ClientSdkKey) (v : Nat)
    (cfg : ServerConfig) :
    ((SdkRepository.new cfg : Inner S).after [.sync c s v]).secretMapping.mapping =
      (∅ : HashMap ClientSdkKey ServerSdkKey).insert c s := by
  show ((Call.sync c s v).exec (SdkRepository.new cfg : Inner S)).secretMapping.mapping = _
  rw [Call.exec_sync (.inr hs)]
  rfl

/-- The one pair of a static server. -/
theorem keysDisjoint_sync {c : ClientSdkKey} {s : ServerSdkKey} (hs : S.accepts s = true) (hcs : c ≠ s)
    (v : Nat) (cfg : ServerConfig) :
    ((SdkRepository.new cfg : Inner S).after [.sync c s v]).KeysDisjoint := by
  intro c₁ c₂ s₁ h₁ h₂
  rw [mapping_sync hs, HashMap.lookup_insert_eq] at h₁ h₂
  split at h₁
  · cases h₁
    rw [if_neg (Ne.symm hcs)] at h₂
    simp at h₂
  · simp at h₁

/-- The usual keys. -/
theorem eventKeys_static : EventKeys ((SdkRepository.new default : Inner Sdk.plain).after
    [.sync "client-sdk-key1" "server-sdk-key1" 1]) default Http.plain Unit := by
  refine eventKeys _ (fun c s hc => ?_) (keysDisjoint_sync (by decide) (by decide) 1 default) default Unit
  rw [mapping_sync (by decide), HashMap.lookup_insert_eq] at hc
  split at hc
  · subst c; cases hc
    exact ⟨Http.plain_carries (by decide), Http.plain_carries (by decide)⟩
  · simp at hc

/-- A client key of another form is sent on as it stands. -/
theorem not_resolvesEvents_other_form :
    ((SdkRepository.new default : Inner Sdk.plain).after [.sync "app-key1" "server-sdk-key1" 1]).KeysDisjoint ∧
      ¬ ((SdkRepository.new default : Inner Sdk.plain).after
        [.sync "app-key1" "server-sdk-key1" 1]).ResolvesEvents default Http.plain Unit := by
  refine ⟨keysDisjoint_sync (by decide) (by decide) 1 default, fun h => ?_⟩
  obtain ⟨hclient, -⟩ := h "app-key1" "server-sdk-key1" (by decide) "" [] []
  have hform : startsWith "app-key1" "client" = false := by decide
  have hkey : "server-sdk-key1" = "app-key1" :=
    hclient.unique (forwardsAs_of_other hform (Http.plain_carries (by decide)))
  exact absurd hkey (by decide)

end Inner
end FeatureProbeServer
