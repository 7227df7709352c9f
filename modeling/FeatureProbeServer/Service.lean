import FeatureProbeServer.Pollers
import FeatureProbeServer.Sources

/-!
# The service behind the repository

What the server is for, without locks, handles and instances: a versioned table of tenants, the
server keys that are known, and for each of them a feed of toggles. The table changes by whole
payloads or single registrations. A feed is opened for a key that is known or being registered,
changes when toggles are fetched, and is closed only while its key is not known. Only where two jobs may
open the same feed can one of them open it anew. `Inner.service` reads the service off a repository;
every step of every run is one of its steps, or none.
-/

namespace FeatureProbeServer
open Guarded

/-! ### Feeds and tenants -/

/-- What there is to serve for a server key. -/
inductive Feed (S : Sdk) where
  | closed
  | waiting
  | toggles (repo : S.Repo)

structure Service (S : Sdk) where
  version : Nat
  tenants : HashMap ClientSdkKey ServerSdkKey
  known : Set ServerSdkKey
  feed : ServerSdkKey → Feed S

namespace Service
variable {S : Sdk}

/-- No table yet, and no feed open. -/
def empty : Service S := ⟨0, ∅, ∅, fun _ => .closed⟩

def publish (v : Service S) (new : SecretMapping) : Service S :=
  { v with
    version := new.version
    tenants := new.mapping
    known := {s | ∃ c, new.mapping.lookup c = some s} }

def register (v : Service S) (c : ClientSdkKey) (s : ServerSdkKey) (version : Nat) : Service S :=
  { v with version := version, tenants := v.tenants.insert c s, known := insert s v.known }

noncomputable def setFeed (v : Service S) (s : ServerSdkKey) (feed : Feed S) : Service S :=
  { v with feed := Function.update v.feed s feed }

end Service

variable {W : Web}

/-- The feed is open, and its toggles are the default ones or were delivered by one of `jobs`. -/
def Feed.Open (jobs : List (Job W)) : Feed W.sdk → Prop
  | .closed => False
  | .waiting => True
  | .toggles repo => repo = W.sdk.defaultRepo ∨ ∃ id, .one (.receive id repo) ∈ jobs

/-- The feed when `new` has been fetched. -/
def Feed.receive {S : Sdk} (feed : Feed S) (new : S.Repo) : Feed S :=
  match feed with
  | .toggles repo => .toggles (S.fetched repo new)
  | _ => .toggles (S.fetched S.defaultRepo new)

/-- The steps that `job`, with the number `i` among `jobs`, makes the service take. A feed is opened while
it is closed, or where another job may open it too. -/
inductive Service.Step (jobs : List (Job W)) (i : Nat) : Job W → Service W.sdk → Service W.sdk → Prop
  | publish {job v} (new : SecretMapping) (hj : job.Delivers new) (hv : v.version < new.version) :
    Step jobs i job v (v.publish new)
  | register {v} (c : ClientSdkKey) (s : ServerSdkKey) (n : Nat) :
    Step jobs i (.one (.sync c s n)) v (v.register c s n)
  | openRegistered {v} (c : ClientSdkKey) (s : ServerSdkKey) (n : Nat) (feed : Feed W.sdk)
    (hc : v.feed s = .closed ∨ Contested jobs i s) (hf : feed.Open jobs) :
    Step jobs i (.one (.sync c s n)) v (v.setFeed s feed)
  | openKnown {job v} (s : ServerSdkKey) (feed : Feed W.sdk) (hj : job.Passes) (hs : s ∈ v.known)
    (hc : v.feed s = .closed ∨ Contested jobs i s) (hf : feed.Open jobs) :
    Step jobs i job v (v.setFeed s feed)
  | fetch {v} (s : ServerSdkKey) (id : ClientId) (repo : W.sdk.Repo) (hf : v.feed s ≠ .closed) :
    Step jobs i (.one (.receive id repo)) v (v.setFeed s ((v.feed s).receive repo))
  | close {job v} (s : ServerSdkKey) (hj : job.Passes) (hv : 0 < v.version) (hs : s ∉ v.known) :
    Step jobs i job v (v.setFeed s .closed)

/-- What is fetched is delivered, or was there before. -/
theorem Feed.Open.receive {jobs : List (Job W)} {feed : Feed W.sdk} (hf : feed = .closed ∨ feed.Open jobs)
    {id : ClientId} {repo : W.sdk.Repo} (hj : .one (.receive id repo) ∈ jobs) :
    (feed.receive repo).Open jobs := by
  cases feed with
  | toggles repo' =>
    show W.sdk.fetched repo' repo = _ ∨ _
    unfold Sdk.fetched
    split
    · exact .inr ⟨id, hj⟩
    · exact hf.resolve_left (by simp)
  | _ =>
    show W.sdk.fetched W.sdk.defaultRepo repo = _ ∨ _
    unfold Sdk.fetched
    split
    · exact .inr ⟨id, hj⟩
    · exact .inl rfl

namespace Service
variable {jobs : List (Job W)} {v v' : Service W.sdk}

/-- A step of one of the jobs. -/
def Next (jobs : List (Job W)) (v v' : Service W.sdk) : Prop :=
  ∃ i job, jobs[i]? = some job ∧ Step jobs i job v v'

/-- What holds of the service however long it runs. -/
structure Ok (jobs : List (Job W)) (v : Service W.sdk) : Prop where
  known : ∀ c s, v.tenants.lookup c = some s → s ∈ v.known
  tenant : ∀ c s, v.tenants.lookup c = some s → Introduced jobs c s
  feed : ∀ s, v.feed s = .closed ∨ (v.feed s).Open jobs

theorem ok_empty : (Service.empty : Service W.sdk).Ok jobs where
  known c s h := by simp [empty] at h
  tenant c s h := by simp [empty] at h
  feed _ := .inl rfl

theorem Ok.setFeed (h : v.Ok jobs) (s : ServerSdkKey) {feed : Feed W.sdk}
    (hf : feed = .closed ∨ feed.Open jobs) : (v.setFeed s feed).Ok jobs where
  known := h.known
  tenant := h.tenant
  feed t := by
    show Function.update v.feed s feed t = .closed ∨ (Function.update v.feed s feed t).Open jobs
    by_cases hts : t = s
    · rw [hts, Function.update_self]
      exact hf
    · rw [Function.update_of_ne hts]
      exact h.feed t

theorem Ok.next (h : v.Ok jobs) (hs : Next jobs v v') : v'.Ok jobs := by
  obtain ⟨i, job, hjob, hs⟩ := hs
  have hjob := List.mem_of_getElem? hjob
  cases hs with
  | publish new hj =>
    exact ⟨fun c s hc => ⟨c, hc⟩, fun c s hc => ⟨job, hjob, .inr ⟨new, hj, hc⟩⟩, h.feed⟩
  | register c s n =>
    have split : ∀ c' s', (v.tenants.insert c s).lookup c' = some s' →
        c' = c ∧ s' = s ∨ v.tenants.lookup c' = some s' := by
      intro c' s' hc
      rw [HashMap.lookup_insert_eq] at hc
      split at hc
      · cases hc
        exact .inl ⟨‹_›, rfl⟩
      · exact .inr hc
    refine ⟨fun c' s' hc => ?_, fun c' s' hc => ?_, h.feed⟩
    · rcases split c' s' hc with ⟨-, rfl⟩ | hc
      · exact .inl rfl
      · exact .inr (h.known c' s' hc)
    · rcases split c' s' hc with ⟨rfl, rfl⟩ | hc
      · exact ⟨_, hjob, .inl ⟨n, rfl⟩⟩
      · exact h.tenant c' s' hc
  | openRegistered c s n feed _ hf => exact h.setFeed s (.inr hf)
  | openKnown s feed _ _ _ hf => exact h.setFeed s (.inr hf)
  | fetch s id repo => exact h.setFeed s (.inr (Feed.Open.receive (h.feed s) hjob))
  | close s => exact h.setFeed s (.inl rfl)

theorem Ok.path (hp : Relation.ReflTransGen (Next jobs) v v') (h : v.Ok jobs) : v'.Ok jobs := by
  induction hp with
  | refl => exact h
  | tail _ hs ih => exact ih.next hs

/-- The same table, or a newer one. -/
structure Later (v v' : Service S) : Prop where
  version : v.version ≤ v'.version
  tenants : v.version = v'.version → v.tenants = v'.tenants
  known : v.version = v'.version → v.known = v'.known

theorem Later.trans {v v' v'' : Service S} (h : v.Later v') (h' : v'.Later v'') : v.Later v'' := by
  have between : v.version = v''.version → v.version = v'.version ∧ v'.version = v''.version := by
    intro hv
    have h₁ := h.version
    have h₂ := h'.version
    omega
  refine ⟨h.version.trans h'.version, fun hv => ?_, fun hv => ?_⟩
  · exact (h.tenants (between hv).1).trans (h'.tenants (between hv).2)
  · exact (h.known (between hv).1).trans (h'.known (between hv).2)

/-- Only a registration can put an older table in place, or change it under its version. -/
theorem Next.later (hsync : ∀ c s n, .one (.sync c s n) ∉ jobs) (h : Next jobs v v') : v.Later v' := by
  obtain ⟨i, job, hjob, hs⟩ := h
  have hjob := List.mem_of_getElem? hjob
  cases hs with
  | publish new _ hv => exact ⟨hv.le, fun he => absurd he hv.ne, fun he => absurd he hv.ne⟩
  | register c s n => exact absurd hjob (hsync c s n)
  | _ => exact ⟨le_rfl, fun _ => rfl, fun _ => rfl⟩

theorem later_of_path (hsync : ∀ c s n, .one (.sync c s n) ∉ jobs)
    (h : Relation.ReflTransGen (Next jobs) v v') : v.Later v' := by
  induction h with
  | refl => exact ⟨le_rfl, fun _ => rfl, fun _ => rfl⟩
  | tail _ hs ih => exact ih.trans (hs.later hsync)

end Service

/-! ### The service of a repository -/

def Feed.of {S : Sdk} : Option (FPClient S) → Feed S
  | none => .closed
  | some i => if i.initialized then .toggles i.repo else .waiting

namespace Inner
variable {S : Sdk}

def service (r : Inner S) : Service S where
  version := r.secretMapping.version
  tenants := r.secretMapping.mapping
  known := {s | s ∈ r.secretMapping.reverse}
  feed s := .of (r.client s)

@[simp] theorem mem_known (r : Inner S) (s : ServerSdkKey) :
    s ∈ r.service.known ↔ s ∈ r.secretMapping.reverse := Iff.rfl
@[simp] theorem service_feed (r : Inner S) (s : ServerSdkKey) : r.service.feed s = .of (r.client s) := rfl

theorem of_ne_closed (i : FPClient S) : Feed.of (some i) ≠ .closed := by
  rw [Feed.of]
  split <;> simp

/-- A delivery to an instance is one to its feed. -/
theorem of_receive {i : FPClient S} (hi : i.Unused) (repo : S.Repo) :
    Feed.of (some (i.receive repo)) = (Feed.of (some i)).receive repo := by
  cases hn : i.initialized with
  | true =>
    rw [Feed.of, Feed.of, hn]
    exact rfl
  | false =>
    rw [Feed.of, Feed.of, hn, FPClient.receive, hi hn]
    exact rfl

theorem service_new (cfg : ServerConfig) : (SdkRepository.new cfg : Inner S).service = .empty := by
  have hknown : {s | s ∈ (default : SecretMapping).reverse} = ∅ := by
    ext s
    simp [Finmap.notMem_empty]
  show Service.mk _ _ _ _ = _
  rw [Service.empty, ← hknown]
  rfl

theorem service_congr {r r' : Inner S} (hm : r'.secretMapping = r.secretMapping)
    (hf : ∀ s, Feed.of (r'.client s) = Feed.of (r.client s)) : r'.service = r.service := by
  unfold service
  rw [hm, funext hf]

theorem service_setFeed (r r' : Inner S) (s : ServerSdkKey) (hm : r'.secretMapping = r.secretMapping)
    (hf : ∀ t, t ≠ s → Feed.of (r'.client t) = Feed.of (r.client t)) :
    r'.service = r.service.setFeed s (.of (r'.client s)) := by
  have hfeed : r'.service.feed = Function.update r.service.feed s (.of (r'.client s)) := by
    funext t
    by_cases hts : t = s
    · subst t
      rw [Function.update_self]
      exact rfl
    · rw [Function.update_of_ne hts]
      exact hf t hts
  unfold Service.setFeed
  rw [← hfeed]
  unfold service
  rw [hm]

/-! ### Single operations -/

theorem client_newClient {r : Inner S} (hr : r.RegistryOk) (s t : ServerSdkKey) :
    (exec (.newClient s) r).client t = r.client t := by
  unfold client
  cases hl : r.sdkClients.lookup t with
  | none => simp [exec, hl]
  | some id =>
    obtain ⟨i, hi, -⟩ := hr.lookup hl
    show ((exec (.newClient s) r).sdkClients.lookup t).bind _ = _
    rw [show (exec (.newClient s) r).sdkClients.lookup t = some id from hl]
    exact List.getElem?_append_left (List.getElem?_eq_some_iff.mp hi).1

theorem client_modify {r : Inner S} (id : ClientId) (f : FPClient S → FPClient S) (t : ServerSdkKey) :
    ({ r with instances := r.instances.modify id f } : Inner S).client t =
      if r.sdkClients.lookup t = some id then (r.client t).map f else r.client t := by
  unfold client
  cases hl : r.sdkClients.lookup t with
  | none => simp
  | some id' =>
    by_cases he : id = id'
    · subst id'
      simp
    · simp [he, Ne.symm he]

theorem service_insertClient {r : Inner S} {id : ClientId} {i : FPClient S} (hi : r.instances[id]? = some i)
    (s : ServerSdkKey) : (exec (.insertClient s id) r).service = r.service.setFeed s (.of (some i)) := by
  have hclient : ∀ t, (exec (.insertClient s id) r).client t = if t = s then some i else r.client t := by
    intro t
    unfold client
    show ((r.sdkClients.insert s id).lookup t).bind _ = _
    rw [HashMap.lookup_insert_eq]
    split
    · exact hi
    · rfl
  have h := service_setFeed r (exec (.insertClient s id) r) s rfl fun t hts => by
    rw [hclient, if_neg hts]
  rwa [hclient, if_pos rfl] at h

theorem service_removeClient (r : Inner S) (s : ServerSdkKey) :
    (exec (.removeClient s) r).service = r.service.setFeed s .closed := by
  have hclient : ∀ t, (exec (.removeClient s) r).client t = if t = s then none else r.client t := by
    intro t
    unfold client
    show ((r.sdkClients.erase s).lookup t).bind _ = _
    rw [HashMap.lookup_erase_eq]
    split <;> rfl
  have h := service_setFeed r (exec (.removeClient s) r) s rfl fun t hts => by
    rw [hclient, if_neg hts]
  rwa [hclient, if_pos rfl] at h

theorem service_receive {r : Inner S} (hr : r.RegistryOk) {s : ServerSdkKey} {id : ClientId}
    (hs : r.sdkClients.lookup s = some id) {i : FPClient S} (hi : r.instances[id]? = some i)
    (hunused : i.Unused) (repo : S.Repo) :
    (exec (.receive id repo) r).service = r.service.setFeed s ((r.service.feed s).receive repo) := by
  have hclient : r.client s = some i := client_eq_some.mpr ⟨id, hs, hi⟩
  have h := service_setFeed r (exec (.receive id repo) r) s rfl fun t hts => by
    rw [exec, client_modify, if_neg fun ht => hts (hr.lookup_inj ht hs)]
  rwa [exec, client_modify, if_pos hs, hclient, Option.map_some, of_receive hunused, ← hclient] at h

theorem service_updateMapping {r : Inner S} {new : SecretMapping} (hv : r.secretMapping.version < new.version)
    (π : IterOrder ClientSdkKey ServerSdkKey) :
    (exec (.updateMapping π new) r).service = r.service.publish new := by
  have hknown : {s | s ∈ SecretMapping.buildReverse π new.mapping} =
      {s | ∃ c, new.mapping.lookup c = some s} := by
    ext s
    exact SecretMapping.mem_buildReverse
  unfold service Service.publish
  rw [← hknown, exec, SecretMapping.updateMapping_of_newer π hv]
  exact rfl

theorem service_insertMapping (r : Inner S) (c : ClientSdkKey) (s : ServerSdkKey) (n : Nat) :
    (exec (.insertMapping c s n) r).service = r.service.register c s n := by
  have hknown : {t | t ∈ r.secretMapping.reverse.insert s c} = insert s {t | t ∈ r.secretMapping.reverse} := by
    ext t
    exact Finmap.mem_insert
  unfold service Service.register
  rw [← hknown]
  exact rfl

/-! ### Steps -/

/-- The steps of the others, as the job `i` sees them: none of them sets up a client for a key that they
do not contest. -/
structure Amid (jobs : List (Job W)) (i : Nat) (r r' : Inner W.sdk) : Prop where
  onward : Onward jobs r r'
  contested : ∀ s, s ∉ r.sdkClients → s ∈ r'.sdkClients → Contested jobs i s

instance (jobs : List (Job W)) (i : Nat) : IsPreorder (Inner W.sdk) (Amid jobs i) where
  refl r := ⟨refl_of (Onward jobs) r, fun _ hs hs' => absurd hs' hs⟩
  trans r r' _ h h' := by
    refine ⟨trans_of (Onward jobs) h.onward h'.onward, fun s hs hs'' => ?_⟩
    by_cases hs' : s ∈ r'.sdkClients
    · exact h.contested s hs hs'
    · exact h'.contested s hs' hs''

/-- What a step of `job`, the one with the number `i`, does to the repository. -/
structure Serves (jobs : List (Job W)) (i : Nat) (job : Job W) (r r' : Inner W.sdk) : Prop where
  onward : Onward jobs r r'
  opens : ∀ s, s ∉ r.sdkClients → s ∈ r'.sdkClients → job.Opens s
  service : r.Sound jobs → r'.service = r.service ∨ Service.Step jobs i job r.service r'.service

variable {jobs : List (Job W)} {i : Nat} {job : Job W} {r : Inner W.sdk}

theorem Serves.amid {r' : Inner W.sdk} (h : Serves jobs i job r r') (hj : jobs[i]? = some job) {j : Nat}
    (hij : i ≠ j) : Amid jobs j r r' :=
  ⟨h.onward, fun s hs hs' => ⟨i, job, hij, hj, h.opens s hs hs'⟩⟩

theorem serves_refl (r : Inner W.sdk) : Serves jobs i job r r :=
  ⟨refl_of (Onward jobs) r, fun _ hs hs' => absurd hs' hs, fun _ => .inl rfl⟩

theorem serves_newClient (s : ServerSdkKey) : Serves jobs i job r (exec (.newClient s) r) := by
  refine ⟨onward_exec trivial, fun _ hs hs' => absurd hs' hs, fun hr => ?_⟩
  refine .inl (service_congr rfl fun t => ?_)
  rw [client_newClient hr.registryOk]

theorem serves_setUpdateCallback {id : ClientId} {t : NotifyTarget}
    (ht : r.Fits jobs (.setUpdateCallback id t)) :
    Serves jobs i job r (exec (.setUpdateCallback id t) r) := by
  refine ⟨onward_exec ht, fun _ hs hs' => absurd hs' hs, fun _ => .inl (service_congr rfl fun t => ?_)⟩
  rw [exec, client_modify]
  split
  · cases r.client t <;> rfl
  · rfl

theorem Sound.open_of (h : r.Sound jobs) {id : ClientId} {inst : FPClient W.sdk}
    (hi : r.instances[id]? = some inst) : (Feed.of (some inst)).Open jobs := by
  cases hn : inst.initialized with
  | false =>
    rw [Feed.of, hn]
    exact trivial
  | true =>
    rw [Feed.of, hn]
    exact (h.toggles id inst hi).imp_right fun hj => ⟨id, hj⟩

theorem serves_insertClient {s : ServerSdkKey} {id : ClientId} (ho : job.Opens s) (hw : Wired s id r)
    (hopen : ∀ feed : Feed W.sdk, feed.Open jobs →
      Service.Step jobs i job r.service (r.service.setFeed s feed)) :
    Serves jobs i job r (exec (.insertClient s id) r) := by
  refine ⟨onward_exec hw, fun t ht ht' => ?_, fun hr => .inr ?_⟩
  · rcases Finmap.mem_insert.mp ht' with rfl | ht'
    · exact ho
    · exact absurd ht' ht
  · obtain ⟨inst, -, hi, -⟩ := hw
    rw [service_insertClient hi]
    exact hopen _ (hr.open_of hi)

theorem serves_removeClient (hj : job.Passes) {s : ServerSdkKey} (hv : 0 < r.secretMapping.version)
    (hs : s ∉ r.secretMapping.reverse) : Serves jobs i job r (exec (.removeClient s) r) := by
  refine ⟨onward_exec trivial, fun t ht ht' => absurd (Finmap.mem_erase.mp ht').2 ht, fun _ => .inr ?_⟩
  rw [service_removeClient]
  exact .close s hj hv hs

theorem serves_updateMapping (hjob : job ∈ jobs) {new : SecretMapping} (hj : job.Delivers new)
    (π : IterOrder ClientSdkKey ServerSdkKey) : Serves jobs i job r (exec (.updateMapping π new) r) := by
  refine ⟨onward_exec fun c s hc => ⟨job, hjob, .inr ⟨new, hj, hc⟩⟩, fun _ hs hs' => absurd hs' hs, fun _ => ?_⟩
  rcases Nat.lt_or_ge r.secretMapping.version new.version with hv | hv
  · rw [service_updateMapping hv]
    exact .inr (.publish new hj hv)
  · exact .inl (service_congr (SecretMapping.updateMapping_of_le π hv) fun _ => rfl)

theorem serves_insertMapping {c : ClientSdkKey} {s : ServerSdkKey} {n : Nat}
    (hjob : .one (.sync c s n) ∈ jobs) :
    Serves jobs i (.one (.sync c s n)) r (exec (.insertMapping c s n) r) := by
  refine ⟨onward_exec ⟨_, hjob, .inl ⟨n, rfl⟩⟩, fun _ hs hs' => absurd hs' hs, fun _ => .inr ?_⟩
  rw [service_insertMapping]
  exact .register c s n

theorem serves_receive {id : ClientId} {repo : W.sdk.Repo} (hj : .one (.receive id repo) ∈ jobs) :
    Serves jobs i (.one (.receive id repo)) r (exec (.receive id repo) r) := by
  refine ⟨onward_exec hj, fun _ hs hs' => absurd hs' hs, fun hr => ?_⟩
  by_cases hheld : ∃ s, r.sdkClients.lookup s = some id
  · obtain ⟨s, hs⟩ := hheld
    obtain ⟨inst, hi, -⟩ := hr.registryOk.lookup hs
    have hopen : r.service.feed s ≠ .closed := by
      show Feed.of (r.client s) ≠ _
      rw [client_eq_some.mpr ⟨id, hs, hi⟩]
      exact of_ne_closed inst
    rw [service_receive hr.registryOk hs hi (hr.unused id inst hi)]
    exact .inr (.fetch s id repo hopen)
  · refine .inl (service_congr rfl fun t => ?_)
    rw [exec, client_modify, if_neg fun ht => hheld ⟨t, ht⟩]

/-! ### Jobs -/

theorem grows_of_amid (r r' : Inner W.sdk) (h : Amid jobs i r r') : r.Grows r' := h.onward.grows

/-- While the key has no client that the job knows of, it gets one only from others that contest it. -/
theorem Amid.open_of {r' : Inner W.sdk} (h : Amid jobs i r r') {s : ServerSdkKey}
    (hs : s ∈ r.sdkClients → Contested jobs i s) (hs' : s ∈ r'.sdkClients) : Contested jobs i s := by
  by_cases hmem : s ∈ r.sdkClients
  · exact hs hmem
  · exact h.contested s hmem hs'

theorem syncRule_serves {h : List (Lock × Mode)} {s : ServerSdkKey} {P : SecretMapping → Prop}
    (ho : job.Opens s)
    (hP : ∀ r r', Around Lock.Same (Amid jobs i) h r r' → P r.secretMapping → P r'.secretMapping)
    (hopen : ∀ (r : Inner W.sdk) (feed : Feed W.sdk), P r.secretMapping →
      r.service.feed s = .closed ∨ Contested jobs i s → feed.Open jobs →
        Service.Step jobs i job r.service (r.service.setFeed s feed)) :
    SyncRule (Amid jobs i) (Serves jobs i job) (fun _ _ => True) h s
      (fun r => r.Sound jobs ∧ P r.secretMapping)
      (fun r => (r.Sound jobs ∧ P r.secretMapping) ∧ (s ∈ r.sdkClients → Contested jobs i s))
      (fun r => r.Sound jobs ∧ P r.secretMapping) (fun r => r.Sound jobs ∧ P r.secretMapping) where
  refl := serves_refl
  puts _ _ := trivial
  before r r' ha hp := ⟨ha.rel.onward.sound hp.1, hP r r' ha hp.2⟩
  between r r' ha hp := ⟨⟨ha.rel.onward.sound hp.1.1, hP r r' ha hp.1.2⟩, ha.rel.open_of hp.2⟩
  after r r' ha hp := ⟨ha.rel.onward.sound hp.1, hP r r' ha hp.2⟩
  broken r r' ha hp := ⟨ha.rel.onward.sound hp.1, hP r r' ha hp.2⟩
  present _ hp _ := hp
  absent _ hp hs := ⟨hp, fun hs' => absurd hs' hs⟩
  panics _ _ hp := hp.1
  newClient _ _ hp := ⟨serves_newClient s, ⟨sound_exec trivial hp.1.1, hp.1.2⟩, hp.2⟩
  setUpdateCallback r₀ r id hp₀ hp hc := by
    have hfits : r.Fits jobs (.setUpdateCallback id ⟨s, r₀.secretMapping.clientSdkKey s⟩) :=
      ⟨hc, fun _ => hp₀.1.1.clientSdkKey⟩
    exact ⟨serves_setUpdateCallback hfits, ⟨sound_exec hfits hp.1.1, hp.1.2⟩, hp.2⟩
  insertClient r id hp hw := by
    have hclosed : r.service.feed s = .closed ∨ Contested jobs i s := by
      by_cases hs : s ∈ r.sdkClients
      · exact .inr (hp.2 hs)
      · rw [service_feed, client_of_notMem hs]
        exact .inl rfl
    exact ⟨serves_insertClient ho hw fun feed hf => hopen r feed hp.1.2 hclosed hf, sound_exec hw hp.1.1,
      hp.1.2⟩

theorem wpb_serves_sync {c : ClientSdkKey} {s : ServerSdkKey} {n : Nat} (hjob : .one (.sync c s n) ∈ jobs)
    (hr : r.Sound jobs) :
    (SdkRepository.sync c s n).wpb Lock.Same (Amid jobs i) (Serves jobs i (.one (.sync c s n)))
      (fun _ _ => True) (fun _ _ => True) [] r := by
  have hrule : SyncRule (Amid jobs i) (Serves jobs i (.one (.sync c s n))) (fun _ _ => True) [] s _ _ _ _ :=
    syncRule_serves (P := fun _ => True) (.inr ⟨c, n, rfl⟩) (fun _ _ _ => id) fun r feed _ hc hf =>
      .openRegistered c s n feed hc hf
  refine Prog.wpb_bind (Prog.wpb_mono (wpb_sync grows_of_amid hrule ⟨hr, trivial⟩) fun synced r₁ _ => ?_)
  cases synced with
  | none => exact Prog.wpb_pure fun _ _ => trivial
  | some =>
    refine Prog.wpb_bind (Prog.wpb_guarded fun r₂ _ => Prog.wpb_perform fun r₃ _ =>
      ⟨serves_insertMapping hjob, fun _ _ _ _ => ⟨trivial, fun _ _ => ?_⟩⟩)
    exact Prog.wpb_pure fun _ _ => trivial

theorem wpb_serves_updateMapping (hjob : job ∈ jobs) {new : SecretMapping} (hj : job.Delivers new)
    (π : IterOrder ClientSdkKey ServerSdkKey) (r : Inner W.sdk) :
    (updateMapping π new).wpb Lock.Same (Amid jobs i) (Serves jobs i job) (fun _ _ => True) (fun _ _ => True)
      [] r := by
  refine Prog.wpb_bind (Prog.wpb_guarded fun r₁ _ => Prog.wpb_bind (Prog.wpb_reading fun r₂ _ =>
    ⟨serves_refl r₂, fun r₃ _ => Prog.wpb_pure fun r₄ _ r₅ _ => ⟨trivial, fun r₆ _ => ?_⟩⟩))
  split
  · refine Prog.wpb_guarded fun r₇ _ => Prog.wpb_perform fun r₈ _ => ⟨serves_updateMapping hjob hj π, ?_⟩
    exact fun _ _ _ _ => ⟨trivial, fun _ _ => trivial⟩
  · exact Prog.wpb_pure fun _ _ => trivial

/-- A pass opens feeds of keys that are known at that moment, and closes those of keys that are not. -/
theorem wpb_serves_updateClients (hj : job.Passes) (πr : IterOrder ServerSdkKey ClientSdkKey)
    (πc : IterOrder ServerSdkKey ClientId) (hr : r.Sound jobs) :
    (updateClients πr πc).wpb Lock.Same (Amid jobs i) (Serves jobs i job) (fun _ _ => True) (fun _ _ => True)
      [] r := by
  refine wpb_updateClients grows_of_amid serves_refl (fun _ _ _ => trivial) (fun _ _ => trivial) πr πc
    (fun _ _ h => h.onward.sound) ?_ hr
  intro r₀ hr₀ hv
  have held : ∀ r r' : Inner W.sdk, Around Lock.Same (Amid jobs i) [(.secretMapping, .read)] r r' →
      r.secretMapping = r₀.secretMapping → r'.secretMapping = r₀.secretMapping :=
    fun r r' ha hm => (ha.held .secretMapping .read (by simp)).symm.trans hm
  refine ⟨fun _ r => r.Sound jobs ∧ r.secretMapping = r₀.secretMapping,
    fun _ r => r.secretMapping = r₀.secretMapping,
    fun r => r.Sound jobs ∧ r.secretMapping = r₀.secretMapping, ⟨hr₀, rfl⟩, ?_⟩
  constructor
  · exact fun _ r r' ha => ⟨fun h => ⟨ha.rel.onward.sound h.1, held r r' ha h.2⟩, held r r' ha⟩
  · exact fun r r' ha h => ⟨ha.rel.onward.sound h.1, held r r' ha h.2⟩
  · intro d s hd
    refine ⟨_, syncRule_serves (P := (· = r₀.secretMapping)) (.inl hj) held fun r feed hm hc hf => ?_⟩
    have hs : s ∈ r₀.secretMapping.serverSdkKeys πr := hd.subset (by simp)
    refine .openKnown s feed hj ?_ hc hf
    show s ∈ r.secretMapping.reverse
    rw [hm]
    exact (SecretMapping.mem_serverSdkKeys _ πr s).mp hs
  · exact fun _ h => h.2
  · exact fun _ _ _ _ => id
  · intro d s hs r hm
    refine ⟨serves_removeClient hj (by rw [hm]; exact hv) ?_, hm⟩
    rw [hm]
    exact fun hrev => hs ((SecretMapping.mem_serverSdkKeys _ πr s).mpr hrev)
  · exact fun _ _ => trivial
  · exact fun _ _ => trivial

end Inner

/-- What one pass after another does, each from a state with `P`, the loop does. -/
theorem Job.wpl_updateClients {R G : Inner W.sdk → Inner W.sdk → Prop} [IsPreorder (Inner W.sdk) R]
    {J : List (Lock × Mode) → Inner W.sdk → Prop} {P : Inner W.sdk → Prop} (hR : Stable R P) (hG : Stable G P)
    (hpass : ∀ (pass : Pass) r, P r →
      (Inner.updateClients pass.1 pass.2).wpb Lock.Same R G J (fun _ _ => True) [] r)
    (passes : List Pass) {r : Inner W.sdk} (hp : P r) :
    (Job.updateClients passes : Job W).prog.wpl Lock.Same R G J (fun _ _ _ => True) [] r := by
  refine Prog.wpl_map (Prog.wpb_wpl (Prog.wpb_tryForM (I := fun _ => P) (K := fun _ => True)
    (fun _ r r' h => hR r r' h.rel) (fun _ _ _ _ => trivial) ?_ hp))
  intro _ pass _ r hr
  refine Prog.wpb_mono (Prog.wpb_frame hR hG (hpass pass r hr) hr) ?_
  rintro (_ | _) r h
  · trivial
  · exact h.2

theorem Job.serves {jobs : List (Job W)} {i : Nat} {job : Job W} (hjob : jobs[i]? = some job)
    {r : Inner W.sdk} (hr : r.Sound jobs) : job.prog.wpl Lock.Same (Inner.Amid jobs i)
    (Inner.Serves jobs i job) (fun _ _ => True) (fun _ _ _ => True) [] r := by
  have hjob := List.mem_of_getElem? hjob
  have request : ∀ {job : Job W} {α : Type} {p : RepoM W.sdk α}, p.ReadOnly →
      p.wpl Lock.Same (Inner.Amid jobs i) (Inner.Serves jobs i job) (fun _ _ => True) (fun _ _ _ => True)
        [] r := by
    intro job α p hp
    refine Prog.Within.wpl (E := Eq) hp.within ?_ fun _ _ => trivial
    rintro r _ rfl
    exact Inner.serves_refl r
  cases job with
  | one call =>
    refine Prog.wpl_map ?_
    cases call with
    | sync c s v => exact Prog.wpl_map (Prog.wpb_wpl (Inner.wpb_serves_sync hjob hr))
    | updateMapping π new =>
      have hj : Job.Delivers new (.one (.updateMapping π new) : Job W) := rfl
      exact Prog.wpl_map (Prog.wpb_wpl (Inner.wpb_serves_updateMapping hjob hj π r))
    | updateClients πr πc =>
      have hj : Job.Passes (.one (.updateClients πr πc) : Job W) := trivial
      exact Prog.wpl_map (Prog.wpb_wpl (Inner.wpb_serves_updateClients hj πr πc hr))
    | receive id repo =>
      exact Prog.wpl_map fun r₁ _ => ⟨Inner.serves_receive hjob, fun _ _ => trivial⟩
    | _ => exact request (Call.IsRequest.readOnly (by trivial))
  | syncSecretKeys polls =>
    refine Prog.wpl_map (Prog.wpb_wpl (Prog.wpb_forM (I := fun _ _ => True) (fun _ _ _ _ => id) ?_ trivial))
    intro d poll hd r _
    cases poll with
    | payload π new =>
      have hj : Job.Delivers new (.syncSecretKeys polls : Job W) :=
        Poll.mem_delivered.mpr ⟨π, hd.subset (by simp)⟩
      exact Inner.wpb_serves_updateMapping hjob hj π r
    | _ => exact Prog.wpb_pure fun _ _ => trivial
  | updateClients passes =>
    have hj : Job.Passes (.updateClients passes : Job W) := trivial
    exact Job.wpl_updateClients (fun _ _ h => h.onward.sound) (fun _ _ h => h.onward.sound)
      (fun pass _ => Inner.wpb_serves_updateClients hj pass.1 pass.2) passes hr
  | http handler req => exact Prog.wpl_map (request (handler.readOnly_serve req))

/-! ### Runs -/

namespace Site

/-- What every state of a run is known to be. -/
structure Serving (jobs : List (Job W)) (c : Site W) : Prop where
  sound : c.store.Sound jobs
  meets : c.MeetsL Lock.Same (Inner.Amid jobs)
    (fun i r r' => ∃ job, jobs[i]? = some job ∧ Inner.Serves jobs i job r r') fun _ _ _ => True

variable {cfg : ServerConfig} {jobs : List (Job W)} {tr : List (Nat × Event Lock (Op W.sdk))} {c : Site W}

theorem serving_start (cfg : ServerConfig) (jobs : List (Job W)) :
    Serving jobs (start (SdkRepository.new cfg) jobs) := by
  refine ⟨Inner.sound_new cfg, Config.MeetsL.start fun i p hp => ?_⟩
  rw [List.getElem?_map, Option.map_eq_some_iff] at hp
  obtain ⟨job, hj, rfl⟩ := hp
  have hserves := Job.serves hj (Inner.sound_new cfg)
  exact Prog.wpl_conseq hserves (fun _ _ => id) (fun r r' h => ⟨job, hj, h⟩) fun _ _ => id

/-- A step of the job `i` is a step of the service, or changes nothing that it shows. -/
theorem Serving.step (h : Serving jobs c) (hreach : Config.Reach (start (SdkRepository.new cfg) jobs) c)
    {i : Nat} {e : Event Lock (Op W.sdk)} {c' : Site W} (hs : Config.Step c i e c') :
    Serving jobs c' ∧ (c'.store.service = c.store.service ∨
      ∃ job, jobs[i]? = some job ∧ Service.Step jobs i job c.store.service c'.store.service) := by
  obtain ⟨ph, hf⟩ := (follow_start _ jobs).reach hreach
  obtain ⟨hst, hm⟩ := h.meets.step hf hreach.exclusive (fun _ _ _ _ _ hi ho => owns_exec hi ho)
    (fun _ _ hij _ _ ⟨_, hj, h⟩ => h.amid hj hij) hs
  rcases hst with hst | ⟨job, hj, hserves⟩
  · refine ⟨⟨?_, hm⟩, .inl (by rw [hst])⟩
    rw [hst]
    exact h.sound
  · refine ⟨⟨hserves.onward.sound h.sound, hm⟩, ?_⟩
    exact (hserves.service h.sound).imp_right fun hstep => ⟨job, hj, hstep⟩

theorem Serving.exec (h : Serving jobs c) (hreach : Config.Reach (start (SdkRepository.new cfg) jobs) c)
    {c' : Site W} (h' : Config.Exec c tr c') :
    Serving jobs c' ∧ Relation.ReflTransGen (Service.Next jobs) c.store.service c'.store.service := by
  induction h' with
  | nil => exact ⟨h, .refl⟩
  | @snoc tr c₁ i e c' h₁ hs ih =>
    obtain ⟨hserving, hpath⟩ := ih
    obtain ⟨hserving', hstep⟩ := hserving.step (hreach.trans ⟨tr, h₁⟩) hs
    refine ⟨hserving', ?_⟩
    rcases hstep with hsame | ⟨job, hj, hstep⟩
    · rwa [hsame]
    · exact hpath.tail ⟨i, job, hj, hstep⟩

theorem serving_exec (h : Config.Exec (start (SdkRepository.new cfg) jobs) tr c) :
    Serving jobs c ∧ Relation.ReflTransGen (Service.Next jobs) .empty c.store.service := by
  obtain ⟨hserving, hpath⟩ := (serving_start cfg jobs).exec .refl h
  refine ⟨hserving, ?_⟩
  change Relation.ReflTransGen _ (Inner.service (SdkRepository.new cfg)) _ at hpath
  rwa [Inner.service_new] at hpath

/-- Every run of any jobs is a run of the service: each step of a job is one that the service may take
for this job, or none. -/
theorem exec_service (h : Config.Exec (start (SdkRepository.new cfg) jobs) tr c) :
    Relation.ReflTransGen (Service.Next jobs) .empty c.store.service ∧
    ∀ i e c', Config.Step c i e c' → c'.store.service = c.store.service ∨
      ∃ job, jobs[i]? = some job ∧ Service.Step jobs i job c.store.service c'.store.service := by
  obtain ⟨hserving, hpath⟩ := serving_exec h
  exact ⟨hpath, fun i e c' hs => (hserving.step ⟨tr, h⟩ hs).2⟩

/-- The two loops, each with one round, and a delivery to the client that the pass creates. -/
theorem exec_service_polling : ∃ jobs : List (Job Web.plain),
    jobs = [.syncSecretKeys [.payload (.sorted _ _) ⟨1, .singleton "c" "s", ∅⟩],
      .updateClients [(.sorted _ _, .sorted _ _)], .one (.receive 0 ⟨∅, .singleton "t" true, (), some 1⟩)] ∧
    ∃ c : Site Web.plain, c.Returned ∧ c.store.clientInitialized 0 = true ∧
      Relation.ReflTransGen (Service.Next jobs) .empty c.store.service ∧
      ∀ i e c', Config.Step c i e c' → c'.store.service = c.store.service ∨
        ∃ job, jobs[i]? = some job ∧ Service.Step jobs i job c.store.service c'.store.service := by
  refine ⟨_, rfl, ?_⟩
  obtain ⟨c, hc, hr, hi⟩ : ∃ c, (start (SdkRepository.new default)
      [.syncSecretKeys [.payload (.sorted _ _) ⟨1, .singleton "c" "s", ∅⟩],
        .updateClients [(.sorted _ _, .sorted _ _)],
        .one (.receive 0 ⟨∅, .singleton "t" true, (), some 1⟩)] : Site Web.plain).schedule
      (.replicate 8 0 ++ .replicate 22 1 ++ [2]) = some c ∧ c.Returned ∧
      c.store.clientInitialized 0 = true := by decide
  obtain ⟨tr, h⟩ := Config.Reach.of_schedule hc
  exact ⟨c, hr, hi, exec_service h⟩

end Site
end FeatureProbeServer
