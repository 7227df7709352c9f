import FeatureProbeServer.Outcomes

/-!
# Whose toggles a request is given

The toggles in an answer are those of an SDK client that was created for the very server key the request
is for: the one it names, or the one its client key stood for while it ran. They are what that client has
taken of the toggles the run has handed to it.
-/

namespace FeatureProbeServer
open Guarded

variable {W : Web}

namespace Service

/-- The request is for `f` of the toggles of `s`. -/
inductive Reads (v : Service W.sdk) (s : ServerSdkKey) :
    Request W → (W.sdk.Repo → Except String W.sdk.Json) → Prop
  | server : Reads v s (.serverSdkToggles s) W.sdk.repoJson
  | user {π user u c} (hu : W.decodeUser user = .ok u) (hc : v.tenants.lookup c = some s) :
    Reads v s (.clientSdkToggles π user c) fun repo => W.sdk.detailsJson (Inner.evaluated π repo u)
  | events {c} (hc : v.tenants.lookup c = some s) :
    Reads v s (.clientSdkEvents c) fun repo => W.sdk.eventsJson repo.events

variable {v : Service W.sdk} {s : ServerSdkKey} {request : Request W}
  {f : W.sdk.Repo → Except String W.sdk.Json}

theorem Reads.serializes (h : v.Reads s request f) (hS : W.sdk.Serializes) (repo : W.sdk.Repo) :
    ∃ j, f repo = .ok j := by
  cases h with
  | server => exact hS.repo repo
  | user => exact hS.details _
  | events => exact hS.events _

theorem Reads.outcome (h : v.Reads s request f) (hv : v.version ≠ 0) (hs : s ∈ v.known)
    {repo : W.sdk.Repo} (hf : v.feed s = .toggles repo) {j : W.sdk.Json} (hj : f repo = .ok j)
    (handler : FpHttpHandler) :
    ∃ r, v.outcome handler request = ⟨some r, []⟩ ∧ r.status = 200 ∧ r.body = .json j := by
  have client : ∀ {c}, v.tenants.lookup c = some s → v.client c f = some ⟨200, corsHeaders, .json j⟩ := by
    intro c hc
    rw [Service.client, byClientKey_of_tenant hv hc, hf, Feed.access, Access.respond, hj]
  cases h with
  | server =>
    rw [Service.outcome, byServerKey_of_known hv hs, hf, Feed.access, Access.respond, hj]
    exact ⟨_, rfl, rfl, rfl⟩
  | user hu hc =>
    rw [Service.outcome, hu]
    exact ⟨⟨200, corsHeaders, .json j⟩, congrArg (Outcome.mk · []) (client hc), rfl, rfl⟩
  | events hc =>
    rw [Service.outcome]
    exact ⟨⟨200, corsHeaders, .json j⟩, congrArg (Outcome.mk · []) (client hc), rfl, rfl⟩

/-- Where the data of an answer comes from. -/
theorem respond_json {headers : List (String × String)} {unknown : Option (HttpResponse W.sdk)}
    {a : Access W.sdk} {r : HttpResponse W.sdk} {j : W.sdk.Json} (hr : a.respond headers unknown f = some r)
    (hb : r.body = .json j) :
    (∃ repo, a = .toggles repo ∧ f repo = .ok j) ∨ a = .unknown ∧ unknown = some r := by
  cases a with
  | unready => cases hr; cases hb
  | unknown => exact .inr ⟨rfl, hr⟩
  | toggles repo =>
    rw [Access.respond] at hr
    cases hf : f repo with
    | error message => rw [hf] at hr; cases hr; cases hb
    | ok j' => rw [hf] at hr; cases hr; cases hb; exact .inl ⟨repo, rfl, hf⟩

theorem feed_of_access {repo : W.sdk.Repo} (h : (v.feed s).access = .toggles repo) :
    v.feed s = .toggles repo := by
  cases hf : v.feed s with
  | toggles repo' => rw [hf] at h; cases h; rfl
  | _ => rw [hf] at h; cases h

theorem byServerKey_toggles {repo : W.sdk.Repo} (h : v.byServerKey s = .toggles repo) :
    v.feed s = .toggles repo := by
  by_cases hv : v.version = 0
  · rw [byServerKey_of_zero hv] at h
    cases h
  · by_cases hs : s ∈ v.known
    · rw [byServerKey_of_known hv hs] at h
      exact feed_of_access h
    · rw [byServerKey_of_unknown hv hs] at h
      cases h

theorem byServerKey_unknown (h : v.byServerKey s = .unknown) : v.version ≠ 0 ∧ s ∉ v.known := by
  by_cases hv : v.version = 0
  · rw [byServerKey_of_zero hv] at h
    cases h
  · refine ⟨hv, fun hs => ?_⟩
    rw [byServerKey_of_known hv hs] at h
    cases hf : v.feed s <;> rw [hf] at h <;> cases h

theorem byClientKey_toggles {c : ClientSdkKey} {repo : W.sdk.Repo} (h : v.byClientKey c = .toggles repo) :
    ∃ s, v.tenants.lookup c = some s ∧ v.feed s = .toggles repo := by
  by_cases hv : v.version = 0
  · rw [byClientKey_of_zero hv] at h
    cases h
  · cases hc : v.tenants.lookup c with
    | none =>
      rw [byClientKey_of_unknown hv hc] at h
      cases h
    | some s =>
      rw [byClientKey_of_tenant hv hc] at h
      exact ⟨s, rfl, feed_of_access h⟩

theorem client_json {c : ClientSdkKey} {r : HttpResponse W.sdk} {j : W.sdk.Json}
    (hr : v.client c f = some r) (hb : r.body = .json j) :
    ∃ s repo, v.tenants.lookup c = some s ∧ v.feed s = .toggles repo ∧ f repo = .ok j := by
  rcases respond_json hr hb with ⟨repo, ha, hj⟩ | ⟨-, hr⟩
  · obtain ⟨s, hc, hf⟩ := byClientKey_toggles ha
    exact ⟨s, repo, hc, hf, hj⟩
  · cases hr
    cases hb

theorem events_response {handler : FpHttpHandler} {key userAgent : String} {headers : W.http.HeaderMap}
    {data : List W.Value} {out : Response × List (Post W.http W.Value)}
    (h : v.events handler key userAgent headers data = some out) :
    ∃ status, out.1 = ⟨status, corsHeaders, "{}"⟩ := by
  unfold Service.events at h
  cases hk : v.eventKey key with
  | none =>
    rw [hk] at h
    cases h
    exact ⟨_, rfl⟩
  | some s =>
    rw [hk] at h
    obtain ⟨headers', -, rfl⟩ := Option.map_eq_some_iff.mp h
    exact ⟨_, rfl⟩

/-- `r` is what `post_events` makes of the response of `handle_events`, which has no toggles in it. -/
def PostEvents (request : Request W) (r : HttpResponse W.sdk) : Prop :=
  ∃ key userAgent headers data status, request = .postEvents key userAgent headers data ∧
    r = W.postEvents ⟨status, corsHeaders, "{}"⟩

theorem outcome_json {handler : FpHttpHandler} {posts : List (Post W.http W.Value)}
    {r : HttpResponse W.sdk} {j : W.sdk.Json} (ho : v.outcome handler request = ⟨some r, posts⟩)
    (hb : r.body = .json j) :
    (∃ s f repo, v.Reads s request f ∧ v.feed s = .toggles repo ∧ f repo = .ok j) ∨
      (∃ s, request = .serverSdkToggles s ∧ v.version ≠ 0 ∧ s ∉ v.known ∧
        W.sdk.repoJson W.sdk.defaultRepo = .ok j) ∨ PostEvents request r := by
  have hr := congrArg Outcome.response ho
  cases request with
  | serverSdkToggles s =>
    rcases respond_json hr hb with ⟨repo, ha, hj⟩ | ⟨ha, hr⟩
    · exact .inl ⟨s, _, repo, .server, byServerKey_toggles ha, hj⟩
    · obtain ⟨hv, hs⟩ := byServerKey_unknown ha
      refine .inr (.inl ⟨s, rfl, hv, hs, ?_⟩)
      unfold defaultResponse at hr
      cases hj : W.sdk.repoJson W.sdk.defaultRepo with
      | error message => rw [hj] at hr; cases hr
      | ok j' => rw [hj] at hr; cases hr; cases hb; rfl
  | clientSdkToggles π user c =>
    rw [Service.outcome] at hr
    cases hu : W.decodeUser user with
    | error e =>
      rw [hu] at hr
      cases hr
      cases e <;> cases hb
    | ok u =>
      rw [hu] at hr
      obtain ⟨s, repo, hc, hf, hj⟩ := client_json hr hb
      exact .inl ⟨s, _, repo, .user hu hc, hf, hj⟩
  | clientSdkEvents c =>
    obtain ⟨s, repo, hc, hf, hj⟩ := client_json hr hb
    exact .inl ⟨s, _, repo, .events hc, hf, hj⟩
  | updateToggles s =>
    rw [Service.outcome] at hr
    cases hf : v.feed s <;> rw [hf] at hr <;> cases hr <;> cases hb
  | allSecrets =>
    cases hr
    cases hb
  | postEvents key userAgent headers data =>
    refine .inr (.inr ?_)
    rw [Service.outcome] at hr
    cases he : v.events handler key userAgent headers data with
    | none =>
      rw [he] at hr
      cases hr
    | some out =>
      rw [he] at hr
      obtain ⟨status, hresponse⟩ := events_response he
      refine ⟨key, userAgent, headers, data, status, rfl, ?_⟩
      rw [← hresponse]
      exact (Option.some.inj hr).symm

end Service

namespace Inner
variable {S : Sdk}

theorem feed_toggles {r : Inner S} {s : ServerSdkKey} {repo : S.Repo} :
    r.service.feed s = .toggles repo ↔ ∃ i, r.client s = some i ∧ i.initialized = true ∧ i.repo = repo := by
  rw [service_feed]
  cases r.client s with
  | none => simp [Feed.of]
  | some i => cases hi : i.initialized <;> simp [Feed.of, hi]

end Inner

/-! ### Deliveries -/

section
variable {S : Sdk}

namespace Feed

/-- What the client `id` has after an event. -/
def next (id : ClientId) (feed : Feed S) : RepoEvent S → Feed S
  | (_, .op (.receive id' repo)) => if id' = id then feed.receive repo else feed
  | _ => feed

/-- What the client `id` has that had `feed` before the events `tr`. -/
def after (id : ClientId) (feed : Feed S) (tr : List (RepoEvent S)) : Feed S := tr.foldl (next id) feed

theorem after_snoc (id : ClientId) (feed : Feed S) (tr : List (RepoEvent S)) (x : RepoEvent S) :
    feed.after id (tr ++ [x]) = (feed.after id tr).next id x := List.foldl_concat ..

theorem next_of_ne {id : ClientId} {feed : Feed S} {x : RepoEvent S} (hx : ∀ o, x.2 ≠ .op o) :
    feed.next id x = feed := by
  obtain ⟨d, e⟩ := x
  cases e with
  | op o => exact absurd rfl (hx o)
  | _ => rfl

/-- Toggles are replaced by toggles. -/
theorem after_toggles (id : ClientId) (repo : S.Repo) (tr : List (RepoEvent S)) :
    ∃ repo', after id (.toggles repo) tr = .toggles repo' := by
  induction tr using List.reverseRecOn with
  | nil => exact ⟨repo, rfl⟩
  | append_singleton tr x ih =>
    obtain ⟨repo', h⟩ := ih
    rw [after_snoc, h]
    obtain ⟨d, e⟩ := x
    cases e with
    | op o =>
      cases o with
      | receive id' new =>
        rw [next]
        split
        · exact ⟨_, rfl⟩
        · exact ⟨_, rfl⟩
      | _ => exact ⟨repo', rfl⟩
    | _ => exact ⟨repo', rfl⟩

/-- An operation changes the feed of an instance by what it delivers. -/
theorem of_exec {r : Inner S} {id : ClientId} {i : FPClient S} (hi : r.instances[id]? = some i)
    (hunused : i.Unused) (d : Nat) (o : Op S) :
    ∃ i', (Inner.exec o r).instances[id]? = some i' ∧ i'.config = i.config ∧ i'.Unused ∧
      Feed.of (some i') = (Feed.of (some i)).next id (d, .op o) := by
  cases o with
  | newClient s =>
    exact ⟨i, (List.getElem?_append_left (List.getElem?_eq_some_iff.mp hi).1).trans hi, rfl, hunused, rfl⟩
  | setUpdateCallback id' t =>
    refine ⟨if id' = id then i.setUpdateCallback t else i, ?_, ?_⟩
    · show (r.instances.modify id' _)[id]? = _
      rw [List.getElem?_modify, hi]
      rfl
    · split <;> exact ⟨rfl, hunused, rfl⟩
  | receive id' repo =>
    refine ⟨if id' = id then i.receive repo else i, ?_, ?_⟩
    · show (r.instances.modify id' _)[id]? = _
      rw [List.getElem?_modify, hi]
      rfl
    · rw [next]
      split
      · exact ⟨rfl, nofun, Inner.of_receive hunused repo⟩
      · exact ⟨rfl, hunused, rfl⟩
  | _ => exact ⟨i, hi, rfl, hunused, rfl⟩

end Feed

/-- How many clients the run has created. -/
def creations (tr : List (RepoEvent S)) : Nat :=
  tr.countP fun x => match x.2 with | .op (.newClient _) => true | _ => false

theorem creations_snoc (tr : List (RepoEvent S)) (x : RepoEvent S) :
    creations (tr ++ [x]) = creations tr + creations [x] := List.countP_append

/-- The run has created the client `id` for the key `s`, and what it has handed to it since makes `feed`. -/
def Given (s : ServerSdkKey) (id : ClientId) (feed : Feed S) (tr : List (RepoEvent S)) : Prop :=
  ∃ tr₁ d tr₂, tr = tr₁ ++ (d, .op (.newClient s)) :: tr₂ ∧ creations tr₁ = id ∧
    feed = Feed.after id .waiting tr₂

theorem Given.snoc {s : ServerSdkKey} {id : ClientId} {feed : Feed S} {tr : List (RepoEvent S)}
    (h : Given s id feed tr) (x : RepoEvent S) : Given s id (feed.next id x) (tr ++ [x]) := by
  obtain ⟨tr₁, d, tr₂, rfl, hid, rfl⟩ := h
  exact ⟨tr₁, d, tr₂ ++ [x], by simp, hid, (Feed.after_snoc id .waiting tr₂ x).symm⟩

namespace Inner

/-- Each client of the repository has what the run has handed to it. -/
structure Delivered (tr : List (RepoEvent S)) (r : Inner S) : Prop where
  created : r.instances.length = creations tr
  given : ∀ (id : ClientId) (i : FPClient S), r.instances[id]? = some i →
    Given i.config.serverSdkKey id (Feed.of (some i)) tr

theorem delivered_new (cfg : ServerConfig) : (SdkRepository.new cfg : Inner S).Delivered [] :=
  ⟨rfl, fun _ _ hi => absurd hi (by simp [SdkRepository.new])⟩

theorem Delivered.still {tr : List (RepoEvent S)} {r : Inner S} (h : r.Delivered tr) {x : RepoEvent S}
    (hx : ∀ o, x.2 ≠ .op o) : r.Delivered (tr ++ [x]) where
  created := by
    obtain ⟨d, e⟩ := x
    rw [h.created, creations_snoc]
    cases e with
    | op o => exact absurd rfl (hx o)
    | _ => rfl
  given id i hi := by
    have hgiven := (h.given id i hi).snoc x
    rwa [Feed.next_of_ne hx] at hgiven

theorem length_exec (d : Nat) (o : Op S) (r : Inner S) :
    (exec o r).instances.length = r.instances.length + creations [(d, .op o)] := by
  cases o with
  | newClient s => exact List.length_append
  | setUpdateCallback id t => exact List.length_modify ..
  | receive id repo => exact List.length_modify ..
  | _ => rfl

theorem Delivered.exec {tr : List (RepoEvent S)} {r : Inner S} (h : r.Delivered tr)
    (hunused : ∀ (id : ClientId) (i : FPClient S), r.instances[id]? = some i → i.Unused) (d : Nat) (o : Op S) :
    (exec o r).Delivered (tr ++ [(d, .op o)]) where
  created := by rw [length_exec d, h.created, creations_snoc]
  given id i' hi' := by
    cases hi : r.instances[id]? with
    | some i =>
      obtain ⟨i'', hi'', hconfig, -, hfeed⟩ := Feed.of_exec hi (hunused id i hi) d o
      obtain rfl := Option.some.inj (hi'.symm.trans hi'')
      rw [hconfig, hfeed]
      exact (h.given id i hi).snoc _
    | none =>
      rcases instance_cases hi' with ⟨s, rfl, rfl, rfl⟩ | ⟨i, hold, -⟩
      · exact ⟨tr, d, [], rfl, h.created.symm, rfl⟩
      · cases hi.symm.trans hold

end Inner
end

/-! ### Runs -/

namespace Site

variable {cfg : ServerConfig} {jobs : List (Job W)} {tr : List (Nat × Event Lock (Op W.sdk))} {c : Site W}

theorem delivered_exec (h : Config.Exec (start (SdkRepository.new cfg) jobs) tr c) :
    c.store.Delivered tr := by
  induction h with
  | nil => exact Inner.delivered_new cfg
  | @snoc tr c d e c' h hs ih =>
    rcases hs.store_cases with ⟨hst, he⟩ | ⟨o, rfl, hst⟩
    · rw [hst]
      exact ih.still he
    · rw [hst]
      exact ih.exec (serving_exec h).1.sound.unused d o

/-- Toggles in an answer are, as of one of the request's steps, those of the SDK client of the key they are
asked for, which was created for that key: what has been handed to it since. The default ones are given for
a key that the table then in place does not have. -/
theorem exec_isolated (h : Config.Exec (start (SdkRepository.new cfg) jobs) tr c) {i : Nat}
    {handler : FpHttpHandler} {request : Request W} (hj : jobs[i]? = some (.http handler request))
    {t : Thread Lock (Op W.sdk) (Inner W.sdk) (Answer W)} (ht : c.threads[i]? = some t)
    {r : HttpResponse W.sdk} {posts : List (Post W.http W.Value)}
    (ha : t.result = some (.outcome ⟨some r, posts⟩)) {j : W.sdk.Json} (hb : r.body = .json j) :
    Service.PostEvents request r ∨
    ∃ tr₁ e c₁, tr₁ ++ [(i, e)] <+: tr ∧ Config.Exec (start (SdkRepository.new cfg) jobs) tr₁ c₁ ∧
      ((∃ s f id repo, c₁.store.service.Reads s request f ∧ c₁.store.sdkClients.lookup s = some id ∧
          Given s id (.toggles repo) tr₁ ∧ f repo = .ok j) ∨
        ∃ s, request = .serverSdkToggles s ∧ c₁.store.service.version ≠ 0 ∧ s ∉ c₁.store.service.known ∧
          W.sdk.repoJson W.sdk.defaultRepo = .ok j) := by
  rcases handler.serve_cases request with ⟨o, ho⟩ | ⟨call, hcall, hmap⟩
  · -- it is answered as by the empty repository, which has no toggles to give
    obtain ⟨-, ha⟩ := exec_pure h hj ho ht ha
    have hnew := FpHttpHandler.run_serve handler (registryOk_new cfg) request
    rw [ho, Inner.service_new] at hnew
    have hempty := hnew.symm.trans (Answer.outcome.inj ha).symm
    rcases Service.outcome_json hempty hb with ⟨s, f, repo, -, hfeed, -⟩ | ⟨s, -, hv, -⟩ | hpost
    · cases hfeed
    · exact absurd rfl hv
    · exact .inl hpost
  · obtain ⟨tr₁, e, c₁, htr, h₁, hanswer⟩ := exec_call h hj hcall hmap ht ha
    have hsound := (serving_exec h₁).1.sound
    rw [FpHttpHandler.run_serve handler hsound.registryOk request] at hanswer
    have ho := (Answer.outcome.inj hanswer).symm
    rcases Service.outcome_json ho hb with ⟨s, f, repo, hreads, hfeed, hj⟩ | hdefault | hpost
    · refine .inr ⟨tr₁, e, c₁, htr, h₁, .inl ?_⟩
      obtain ⟨inst, hi, hn, rfl⟩ := Inner.feed_toggles.mp hfeed
      have hkey := hsound.registryOk.key hi
      obtain ⟨id, hid, hi⟩ := Inner.client_eq_some.mp hi
      have hgiven := (delivered_exec h₁).given id inst hi
      rw [hkey, Feed.of, if_pos hn] at hgiven
      exact ⟨s, f, id, inst.repo, hreads, hid, hgiven, hj⟩
    · exact .inr ⟨tr₁, e, c₁, htr, h₁, .inr hdefault⟩
    · exact .inl hpost

/-- A second payload hands the client key to another tenant while a request with it is under way. -/
theorem exec_isolated_reassigned : ∃ jobs : List (Job Web.plain),
    jobs = [.syncSecretKeys [.payload (.sorted _ _) ⟨1, .singleton "c" "s1", ∅⟩,
        .payload (.sorted _ _) ⟨2, .singleton "c" "s2", ∅⟩],
      .updateClients [(.sorted _ _, .sorted _ _)], .one (.receive 0 ⟨∅, .singleton "t" true, (), some 1⟩),
      .http default (.clientSdkEvents "c")] ∧
    ∃ (tr₁ : List (Nat × Event Lock (Op Web.plain.sdk))) (c₁ : Site Web.plain) (j : Web.plain.sdk.Json),
      Config.Exec (start (SdkRepository.new default) jobs) tr₁ c₁ ∧
      ∃ s f id repo, c₁.store.service.Reads s (.clientSdkEvents "c") f ∧
        c₁.store.sdkClients.lookup s = some id ∧ Given s id (.toggles repo) tr₁ ∧ f repo = .ok j := by
  refine ⟨_, rfl, ?_⟩
  obtain ⟨c, t, r, j, hc, ht, ha, hb⟩ : ∃ c t r j, (start (SdkRepository.new default)
      [.syncSecretKeys [.payload (.sorted _ _) ⟨1, .singleton "c" "s1", ∅⟩,
          .payload (.sorted _ _) ⟨2, .singleton "c" "s2", ∅⟩],
        .updateClients [(.sorted _ _, .sorted _ _)], .one (.receive 0 ⟨∅, .singleton "t" true, (), some 1⟩),
        .http default (.clientSdkEvents "c")] : Site Web.plain).schedule
      (.replicate 8 0 ++ .replicate 22 1 ++ [2] ++ .replicate 6 3 ++ .replicate 5 0 ++ .replicate 4 3 ++
        .replicate 3 0) = some c ∧
      c.threads[3]? = some t ∧ t.result = some (.outcome ⟨some r, []⟩) ∧ r.body = .json j :=
    ⟨_, _, _, _, rfl, rfl, rfl, rfl⟩
  obtain ⟨tr, h⟩ := Config.Reach.of_schedule hc
  rcases exec_isolated (i := 3) h rfl ht ha hb with hpost | ⟨tr₁, -, c₁, -, h₁, hgiven | ⟨s, hserver, -⟩⟩
  · obtain ⟨_, _, _, _, _, hrequest, -⟩ := hpost
    cases hrequest
  · exact ⟨tr₁, c₁, j, h₁, hgiven⟩
  · cases hserver

end Site
end FeatureProbeServer
