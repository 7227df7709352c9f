import FeatureProbeServer.Jobs
import FeatureProbeServer.Lib.Order

/-!
# A server whose server keys stay

Only `setup_notify` takes the lock of the mapping under the one of the registry. Where the server keys
stay the same ones, all with clients, no client is ever set up: then all locks are taken in order, the
mapping's before the registry's, and whatever runs, runs to its end.
-/

namespace FeatureProbeServer
open Guarded

/-- The order in which the locks are taken. -/
def Lock.rank : Lock → Nat
  | .secretMapping => 0
  | .sdkClients => 1

namespace Inner
variable {S : Sdk}

/-- The server keys are those of `K`, and all have clients. -/
structure Steady (K : Set ServerSdkKey) (r : Inner S) : Prop where
  known : ∀ s, s ∈ r.secretMapping.reverse ↔ s ∈ K
  clients : ∀ s ∈ K, s ∈ r.sdkClients

/-- The server keys have the clients that they have in `clients`. -/
structure Stays (K : Set ServerSdkKey) (clients : HashMap ServerSdkKey ClientId) (r : Inner S) : Prop where
  steady : r.Steady K
  same : ∀ s ∈ K, r.sdkClients.lookup s = clients.lookup s

variable {K : Set ServerSdkKey} {clients : HashMap ServerSdkKey ClientId} {α β : Type} {h : List (Lock × Mode)}

/-- A part of a call that leaves the server keys and their clients alone and takes its locks in order. -/
abbrev Runs (K : Set ServerSdkKey) (clients : HashMap ServerSdkKey ClientId) (p : RepoM S α) (Q : α → Prop)
    (h : List (Lock × Mode)) : Prop := p.Orderly Lock.rank (Stays K clients) Q h

/-- The guards below that of the registry. -/
def Beneath (h : List (Lock × Mode)) : Prop := ∀ g ∈ h, g.1.rank < Lock.sdkClients.rank

theorem beneath_nil : Beneath [] := fun _ hg => absurd hg List.not_mem_nil

theorem beneath_mapping (m : Mode) : Beneath [(.secretMapping, m)] := by
  intro g hg
  rw [List.mem_singleton.mp hg]
  exact Nat.zero_lt_one

theorem runs_mapping {m : Mode} {p : RepoM S α} {Q : α → Prop} (hp : Runs K clients p Q [(.secretMapping, m)]) :
    Runs K clients (.guarded .secretMapping m p) Q [] :=
  Prog.orderly_guarded (fun _ hg => absurd hg List.not_mem_nil) hp

theorem runs_readMapping : Runs (S := S) K clients readMapping (fun m => ∀ s, s ∈ m.reverse ↔ s ∈ K) h :=
  Prog.orderly_reading fun _ hr => ⟨hr, hr.steady.known⟩

/-! ### Requests -/

theorem runs_ofClient (hh : Beneath h) (s : ServerSdkKey) (f : S.Repo → Except String S.Json) :
    Runs K clients (ofClient s f) (fun _ => True) h := by
  refine Prog.orderly_guarded hh (Prog.orderly_bind (Prog.orderly_reading fun r hr => ⟨hr, ?_⟩))
  split
  · refine Prog.orderly_bind (Prog.orderly_reading fun r hr => ⟨hr, ?_⟩)
    split
    · exact Prog.orderly_pure trivial
    · exact Prog.orderly_bind (Prog.orderly_reading fun r hr => ⟨hr, Prog.orderly_pure trivial⟩)
  · exact Prog.orderly_pure trivial

theorem runs_byClientKey {c : ClientSdkKey} {k : ServerSdkKey → RepoM S (Except FPServerError S.Json)}
    (hk : ∀ s, Runs K clients (k s) (fun _ => True) [(.secretMapping, .read)]) :
    Runs K clients (SdkRepository.byClientKey c k) (fun _ => True) [] := by
  refine runs_mapping (Prog.orderly_bind (Prog.orderly_mono runs_readMapping fun mapping _ => ?_))
  split
  · exact Prog.orderly_pure trivial
  · cases mapping.serverSdkKey c with
    | some s => exact hk s
    | none => exact Prog.orderly_pure trivial

theorem runs_serverSdkRepoString (s : ServerSdkKey) :
    Runs (S := S) K clients (SdkRepository.serverSdkRepoString s) (fun _ => True) [] := by
  refine runs_mapping (Prog.orderly_bind (Prog.orderly_mono runs_readMapping fun mapping _ => ?_))
  split
  · exact Prog.orderly_pure trivial
  · split
    · exact Prog.orderly_pure trivial
    · refine Prog.orderly_bind (Prog.orderly_mono (runs_ofClient (beneath_mapping _) s _) fun e _ => ?_)
      cases e <;> exact Prog.orderly_pure trivial

theorem runs_clientSyncNow (s : ServerSdkKey) (t : SyncType) :
    Runs (S := S) K clients (SdkRepository.clientSyncNow s t) (fun _ => True) [] := by
  refine Prog.orderly_guarded beneath_nil (Prog.orderly_bind (Prog.orderly_reading fun r hr => ⟨hr, ?_⟩))
  split
  · refine Prog.orderly_bind (Prog.orderly_mono (Prog.orderly_perform fun _ => id) fun _ _ => ?_)
    exact Prog.orderly_pure trivial
  · exact Prog.orderly_pure trivial

/-! ### Changes of mapping and registry -/

/-- A key that has a client is not set up again. -/
theorem runs_sync (hh : Beneath h) {s : ServerSdkKey} (hs : s ∈ K) :
    Runs (S := S) K clients (sync s) (fun _ => True) h := by
  have present : Runs (S := S) K clients (.guarded .sdkClients .read do return !(← containsKey s))
      (· = false) h := by
    refine Prog.orderly_guarded hh (Prog.orderly_bind (Prog.orderly_reading fun r hr => ⟨hr, ?_⟩))
    rw [decide_eq_true (hr.steady.clients s hs)]
    exact Prog.orderly_pure rfl
  refine Prog.orderly_bind (Prog.orderly_mono present ?_)
  rintro _ rfl
  exact Prog.orderly_pure trivial

theorem runs_removeClient (hh : Beneath h) {s : ServerSdkKey} (hs : s ∉ K) :
    Runs (S := S) K clients (removeClient s) (fun _ => True) h := by
  refine Prog.orderly_guarded hh (Prog.orderly_perform fun r hr => ⟨⟨hr.steady.known, fun t ht => ?_⟩, ?_⟩)
  · show t ∈ r.sdkClients.erase s
    exact Finmap.mem_erase.mpr ⟨fun he => hs (he ▸ ht), hr.steady.clients t ht⟩
  · intro t ht
    show (r.sdkClients.erase s).lookup t = _
    have hts : t ≠ s := fun he => hs (he ▸ ht)
    rw [HashMap.lookup_erase_eq, if_neg hts, hr.same t ht]

theorem runs_updateClients (πr : IterOrder ServerSdkKey ClientSdkKey) (πc : IterOrder ServerSdkKey ClientId) :
    Runs (S := S) K clients (updateClients πr πc) (fun _ => True) [] := by
  refine runs_mapping (Prog.orderly_bind (Prog.orderly_mono runs_readMapping fun mapping hm => ?_))
  have keys : ∀ s, s ∈ mapping.serverSdkKeys πr ↔ s ∈ K :=
    fun s => (mapping.mem_serverSdkKeys πr s).trans (hm s)
  refine Prog.orderly_bind (Prog.orderly_guarded (beneath_mapping _) ?_)
  refine Prog.orderly_reading fun r hr => ⟨hr, ?_⟩
  split
  · refine Prog.orderly_bind (Prog.orderly_mono (Prog.orderly_tryForM fun s hs => ?_) fun synced _ => ?_)
    · exact runs_sync (beneath_mapping _) ((keys s).mp hs)
    · cases synced with
      | none => exact Prog.orderly_pure trivial
      | some =>
        refine Prog.orderly_bind (Prog.orderly_mono (Prog.orderly_forM fun s _ => ?_) fun _ _ => ?_)
        · split
          · exact runs_removeClient (beneath_mapping _) fun hs => ‹s ∉ _› ((keys s).mpr hs)
          · exact Prog.orderly_pure trivial
        · exact Prog.orderly_pure trivial
  · exact Prog.orderly_pure trivial

theorem runs_updateMapping (π : IterOrder ClientSdkKey ServerSdkKey) {new : SecretMapping}
    (hnew : ∀ s, (∃ c, new.mapping.lookup c = some s) ↔ s ∈ K) :
    Runs (S := S) K clients (updateMapping π new) (fun _ => True) [] := by
  refine Prog.orderly_bind (Prog.orderly_mono (Q := fun _ => True) ?_ fun version _ => ?_)
  · refine runs_mapping (Prog.orderly_bind (Prog.orderly_mono runs_readMapping fun _ _ => ?_))
    exact Prog.orderly_pure trivial
  · split
    · refine runs_mapping (Prog.orderly_perform fun r hr => ⟨⟨fun s => ?_, hr.steady.clients⟩, hr.same⟩)
      show s ∈ (r.secretMapping.updateMapping π new).reverse ↔ s ∈ K
      rcases r.secretMapping.updateMapping_cases π new with ⟨-, he⟩ | ⟨-, he⟩ <;> rw [he]
      · exact SecretMapping.mem_buildReverse.trans (hnew s)
      · exact hr.steady.known s
    · exact Prog.orderly_pure trivial

theorem runs_sdkSync (c : ClientSdkKey) {s : ServerSdkKey} (hs : s ∈ K) (n : Nat) :
    Runs (S := S) K clients (SdkRepository.sync c s n) (fun _ => True) [] := by
  refine Prog.orderly_bind (Prog.orderly_mono (runs_sync beneath_nil hs) fun synced _ => ?_)
  cases synced with
  | none => exact Prog.orderly_pure trivial
  | some => ?_
  refine Prog.orderly_bind (Prog.orderly_mono (runs_mapping (Prog.orderly_perform fun r hr =>
    ⟨⟨fun t => ?_, hr.steady.clients⟩, hr.same⟩)) fun _ _ => Prog.orderly_pure trivial)
  show t ∈ r.secretMapping.reverse.insert s c ↔ t ∈ K
  rw [Finmap.mem_insert, hr.steady.known t]
  constructor
  · rintro (rfl | ht)
    · exact hs
    · exact ht
  · exact .inr

end Inner

/-! ### Jobs -/

variable {W : Web} {K : Set ServerSdkKey} {clients : HashMap ServerSdkKey ClientId}

theorem Call.IsRequest.runs {S : Sdk} {call : Call S} (h : call.IsRequest) :
    Inner.Runs K clients call.prog (fun _ => True) [] := by
  cases call with
  | serverSdkRepoString s => exact Prog.orderly_map (Inner.runs_serverSdkRepoString s)
  | clientSdkEvalString π c u =>
    exact Prog.orderly_map (Inner.runs_byClientKey fun s => Inner.runs_ofClient (Inner.beneath_mapping _) s _)
  | clientSdkEventsString c =>
    exact Prog.orderly_map (Inner.runs_byClientKey fun s => Inner.runs_ofClient (Inner.beneath_mapping _) s _)
  | clientSyncNow s t => exact Prog.orderly_map (Inner.runs_clientSyncNow s t)
  | secretKeys =>
    refine Prog.orderly_map (Inner.runs_mapping (Prog.orderly_map ?_))
    exact Prog.orderly_mono Inner.runs_readMapping fun _ _ => trivial
  | _ => exact h.elim

/-- The job brings the server keys `K` and no others: each of its payloads has just these, and it registers
none but these. -/
structure Job.Keeps (K : Set ServerSdkKey) (job : Job W) : Prop where
  payloads : ∀ new, job.Delivers new → ∀ s, (∃ c, new.mapping.lookup c = some s) ↔ s ∈ K
  registers : ∀ c s n, job = .one (.sync c s n) → s ∈ K

theorem Job.Keeps.runs {job : Job W} (h : job.Keeps K) : Inner.Runs K clients job.prog (fun _ => True) [] := by
  cases job with
  | one call =>
    refine Prog.orderly_map ?_
    cases call with
    | sync c s n => exact Prog.orderly_map (Inner.runs_sdkSync c (h.registers c s n rfl) n)
    | updateMapping π new => exact Prog.orderly_map (Inner.runs_updateMapping π (h.payloads new rfl))
    | updateClients πr πc => exact Prog.orderly_map (Inner.runs_updateClients πr πc)
    | receive id repo => exact Prog.orderly_map (Prog.orderly_perform fun r hr =>
      ⟨⟨hr.steady.known, hr.steady.clients⟩, hr.same⟩)
    | _ => exact Call.IsRequest.runs (by trivial)
  | syncSecretKeys polls =>
    refine Prog.orderly_map (Prog.orderly_forM fun poll hpoll => ?_)
    cases poll with
    | payload π new => exact Inner.runs_updateMapping π (h.payloads new (Poll.mem_delivered.mpr ⟨π, hpoll⟩))
    | _ => exact Prog.orderly_pure trivial
  | updateClients passes =>
    exact Prog.orderly_map (Prog.orderly_tryForM fun pass _ => Inner.runs_updateClients pass.1 pass.2)
  | http handler request =>
    refine Prog.orderly_map ?_
    rcases handler.serve_cases request with ⟨o, ho⟩ | ⟨call, hcall, g, hg⟩
    · rw [ho]
      exact Prog.orderly_pure trivial
    · rw [hg, map_eq_pure_bind]
      exact Prog.orderly_map hcall.runs

namespace Site

theorem ascending_reach {r : Inner W.sdk} (hr : r.Steady K) {jobs : List (Job W)}
    (hjobs : ∀ job ∈ jobs, job.Keeps K) {c : Site W} (h : Config.Reach (start r jobs) c) :
    c.Ascending Lock.rank (Inner.Stays K r.sdkClients) := by
  refine Config.Ascending.reach (.start ⟨hr, fun _ _ => rfl⟩ fun p hp => ?_) h
  obtain ⟨job, hjob, rfl⟩ := List.mem_map.mp hp
  exact (hjobs job hjob).runs

/-- From a repository with clients for all its server keys, and with jobs that leave the server keys as they
are, no run gets stuck: it can be continued until everything has returned, and ends only then. Each server
key keeps its client. -/
theorem exec_returns {r : Inner W.sdk} (hr : r.Steady K) {jobs : List (Job W)}
    (hjobs : ∀ job ∈ jobs, job.Keeps K) {c : Site W} (h : Config.Reach (start r jobs) c) :
    (∃ c', Config.Reach c c' ∧ c'.Returned) ∧ ((∀ i e c', ¬ Config.Step c i e c') → c.Returned) ∧
      c.store.Steady K ∧ ∀ s ∈ K, c.store.sdkClients.lookup s = r.sdkClients.lookup s :=
  have hc := ascending_reach hr hjobs h
  ⟨hc.returns, hc.returned, hc.store.steady, hc.store.same⟩

/-- The client key of a server key is replaced while a pass and a request run. -/
theorem exec_returns_rotated : ∃ (r : Inner Web.plain.sdk) (jobs : List (Job Web.plain)),
    r = (SdkRepository.new default).after [.sync "c" "s" 1] ∧
    jobs = [.syncSecretKeys [.payload (.sorted _ _) ⟨2, .singleton "d" "s", ∅⟩],
      .updateClients [(.sorted _ _, .sorted _ _)], .http default (.serverSdkToggles "s")] ∧
    ∃ c c' : Site Web.plain, Config.Reach (start r jobs) c ∧ ¬ c.Returned ∧ Config.Reach c c' ∧
      c'.Returned ∧ c'.store.Steady {"s"} ∧ c'.store.sdkClients.lookup "s" = some 0 := by
  refine ⟨_, _, rfl, rfl, ?_⟩
  obtain ⟨c, hc, hopen⟩ : ∃ c, (start ((SdkRepository.new default).after [.sync "c" "s" 1])
      [.syncSecretKeys [.payload (.sorted _ _) ⟨2, .singleton "d" "s", ∅⟩],
        .updateClients [(.sorted _ _, .sorted _ _)], .http default (.serverSdkToggles "s")] :
        Site Web.plain).schedule [0, 0, 0, 0, 0, 1, 2] = some c ∧ c.threads.all Thread.done = false :=
    ⟨_, rfl, rfl⟩
  have hr : ((SdkRepository.new default : Inner Web.plain.sdk).after [.sync "c" "s" 1]).Steady {"s"} := by
    refine ⟨fun s => ?_, ?_⟩
    · show s ∈ Finmap.singleton "s" "c" ↔ s ∈ _
      exact Finmap.mem_singleton _ _ _
    · rintro s rfl
      decide
  have hjobs : ∀ job ∈ ([.syncSecretKeys [.payload (.sorted _ _) ⟨2, .singleton "d" "s", ∅⟩],
      .updateClients [(.sorted _ _, .sorted _ _)], .http default (.serverSdkToggles "s")] :
      List (Job Web.plain)), job.Keeps {"s"} := by
    have payload : ∀ s, (∃ c, (Finmap.singleton "d" "s" :
        HashMap ClientSdkKey ServerSdkKey).lookup c = some s) ↔ s ∈ ({"s"} : Set ServerSdkKey) := by
      intro s
      constructor
      · rintro ⟨c, hc⟩
        obtain rfl : c = "d" := (Finmap.mem_singleton _ _ _).mp (Finmap.mem_of_lookup_eq_some hc)
        rw [Finmap.lookup_singleton_eq] at hc
        exact (Option.some.inj hc).symm
      · rintro rfl
        exact ⟨"d", Finmap.lookup_singleton_eq⟩
    simp only [List.forall_mem_cons]
    refine ⟨⟨?_, nofun⟩, ⟨nofun, nofun⟩, ⟨nofun, nofun⟩, nofun⟩
    intro new hnew
    obtain rfl : new = _ := List.mem_singleton.mp hnew
    exact payload
  have h := Config.Reach.of_schedule hc
  obtain ⟨⟨c', hc', hdone⟩, -, -⟩ := exec_returns hr hjobs h
  obtain ⟨-, -, hsteady, hsame⟩ := exec_returns hr hjobs (h.trans hc')
  refine ⟨c, c', h, fun hall => ?_, hc', hdone, hsteady, (hsame "s" rfl).trans (by decide)⟩
  exact Bool.false_ne_true (hopen.symm.trans (List.all_eq_true.mpr hall))

end Site
end FeatureProbeServer
