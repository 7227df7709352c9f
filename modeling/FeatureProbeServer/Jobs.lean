import FeatureProbeServer.Polling
import FeatureProbeServer.Web

/-!
# What runs on the repository

The two loops that `sync_with` spawns, the requests that the HTTP handlers serve, and single calls.
A loop is its first rounds, any number of them.
-/

namespace FeatureProbeServer
open Guarded

variable {W : Web}

inductive Job (W : Web) where
  | one (call : Call W.sdk)
  | syncSecretKeys (polls : List Poll)
  | updateClients (passes : List Pass)
  | http (handler : FpHttpHandler) (request : Request W)

/-- What a job ends with. -/
inductive Answer (W : Web) where
  | reply (r : Reply W.sdk)
  | ended
  | panicked
  | outcome (o : Outcome W)

/-- How a loop ends whose rounds may panic. -/
def Answer.ofOption : Option Unit → Answer W
  | some () => .ended
  | none => .panicked

def Job.prog : Job W → RepoM W.sdk (Answer W)
  | .one call => do return .reply (← call.prog)
  | .syncSecretKeys polls => do SdkRepository.syncSecretKeys polls; return .ended
  | .updateClients passes => do return .ofOption (← SdkRepository.updateClients passes)
  | .http handler request => do return .outcome (← handler.serve request)

/-- The job may hand `new` to `update_mapping`. -/
def Job.Delivers (new : SecretMapping) : Job W → Prop
  | .one (.updateMapping _ new') => new' = new
  | .syncSecretKeys polls => new ∈ Poll.delivered polls
  | _ => False

/-- The job may put the pair into the mapping. -/
def Job.Introduces (c : ClientSdkKey) (s : ServerSdkKey) (job : Job W) : Prop :=
  (∃ n, job = .one (.sync c s n)) ∨ ∃ new, job.Delivers new ∧ new.mapping.lookup c = some s

/-- The job runs `update_clients`. -/
def Job.Passes : Job W → Prop
  | .one (.updateClients ..) | .updateClients _ => True
  | _ => False

/-- The job may set up a client for the server key. -/
def Job.Opens (s : ServerSdkKey) (job : Job W) : Prop := job.Passes ∨ ∃ c n, job = .one (.sync c s n)

/-- A repository with jobs running on it. -/
abbrev Site (W : Web) := Config Lock (Op W.sdk) (Inner W.sdk) (Answer W)

def Site.start (r : Inner W.sdk) (jobs : List (Job W)) : Site W := Config.start r (jobs.map Job.prog)

/-! ### Requests are calls -/

namespace FpHttpHandler
variable {S : Sdk}

theorem isMap_serverSdkToggles (sdkKey : String) :
    (SdkRepository.serverSdkRepoString sdkKey).IsMap (serverSdkToggles sdkKey : RepoM S (Handled S)) := by
  refine .bind (.refl _) fun a => ?_
  rcases a with e | body
  · cases e with
    | notFound key => cases S.repoJson S.defaultRepo <;> exact ⟨_, rfl⟩
    | _ => exact ⟨_, rfl⟩
  · exact ⟨_, rfl⟩

theorem isMap_updateToggles (sdkKey : String) :
    (SdkRepository.clientSyncNow sdkKey .realtime).IsMap (updateToggles sdkKey : RepoM S (Handled S)) := by
  refine .bind (.refl _) fun a => ?_
  rcases a with e | key
  · cases e <;> exact ⟨_, rfl⟩
  · exact ⟨_, rfl⟩

/-- A request is answered without the repository, or it makes one call and answers with what that
returns. -/
theorem serve_cases (self : FpHttpHandler) (request : Request W) :
    (∃ o, self.serve request = pure o) ∨
    ∃ call : Call W.sdk, call.IsRequest ∧ call.prog.IsMap (self.serve request) := by
  have body : Function.Injective (Reply.body : _ → Reply W.sdk) := fun _ _ h => Reply.body.inj h
  have key : Function.Injective (Reply.key : _ → Reply W.sdk) := fun _ _ h => Reply.key.inj h
  have keys : Function.Injective (Reply.keys : _ → Reply W.sdk) := fun _ _ h => Reply.keys.inj h
  cases request with
  | serverSdkToggles sdkKey =>
    refine .inr ⟨.serverSdkRepoString sdkKey, trivial, .of_injective body ⟨none, []⟩ ?_⟩
    exact (isMap_serverSdkToggles sdkKey).bind fun _ => ⟨_, rfl⟩
  | clientSdkToggles π user sdkKey =>
    cases hu : W.decodeUser user with
    | error e => exact .inl ⟨_, by rw [serve, clientSdkToggles, hu]; rfl⟩
    | ok u =>
      refine .inr ⟨.clientSdkEvalString π sdkKey u, trivial, .of_injective body ⟨none, []⟩ ?_⟩
      rw [serve, clientSdkToggles, hu]
      exact Prog.IsMap.bind (.bind (.refl _) fun _ => ⟨_, rfl⟩) fun _ => ⟨_, rfl⟩
  | clientSdkEvents sdkKey =>
    refine .inr ⟨.clientSdkEventsString sdkKey, trivial, .of_injective body ⟨none, []⟩ ?_⟩
    exact .bind (.bind (.refl _) fun _ => ⟨_, rfl⟩) fun _ => ⟨_, rfl⟩
  | updateToggles sdkKey =>
    refine .inr ⟨.clientSyncNow sdkKey .realtime, trivial, .of_injective key ⟨none, []⟩ ?_⟩
    exact (isMap_updateToggles sdkKey).bind fun _ => ⟨_, rfl⟩
  | allSecrets =>
    refine .inr ⟨.secretKeys, trivial, .of_injective keys ⟨none, []⟩ ?_⟩
    exact .bind (.bind (.refl _) fun _ => ⟨_, rfl⟩) fun _ => ⟨_, rfl⟩
  | postEvents sdkKey userAgent headers data =>
    cases hc : startsWith sdkKey "client" with
    | false =>
      rw [serve, handleEvents, hc]
      cases hb : buildHeader headers sdkKey userAgent with
      | none => exact .inl ⟨⟨none, []⟩, by simp [hb]⟩
      | some headers' => exact .inl ⟨⟨some (W.postEvents _), _⟩, by simp [hb]; rfl⟩
    | true =>
      refine .inr ⟨.secretKeys, trivial, .of_injective keys ⟨none, []⟩ ?_⟩
      rw [serve, handleEvents, hc]
      refine .bind (.bind (.bind (.refl _) fun _ => ⟨_, rfl⟩) fun k => ?_) fun sent => ?_
      · cases k with
        | none => exact ⟨_, rfl⟩
        | some s =>
          cases hb : buildHeader headers s userAgent with
          | none => exact ⟨none, by simp only [hb]⟩
          | some headers' => exact ⟨some _, by simp only [hb]; rfl⟩
      · cases sent <;> exact ⟨_, rfl⟩

theorem readOnly_serve (self : FpHttpHandler) (request : Request W) : (self.serve request).ReadOnly := by
  rcases self.serve_cases request with ⟨o, ho⟩ | ⟨call, hcall, g, hg⟩
  · rw [ho]
    exact .pure o
  · rw [hg, map_eq_pure_bind]
    exact hcall.readOnly.bind fun _ => .pure _

end FpHttpHandler

/-! ### Guards -/

theorem follows_syncSecretKeys {S : Sdk} (polls : List Poll) :
    (SdkRepository.syncSecretKeys polls : RepoM S Unit).Follows (repoDiscipline S) (Back []) .idle [] := by
  refine .forM trivial fun poll _ => ?_
  cases poll with
  | payload π new => exact follows_updateMapping π new
  | _ => exact follows_pure ()

theorem Job.follows (job : Job W) : job.prog.Follows (repoDiscipline W.sdk) (Back []) .idle [] := by
  cases job with
  | one call => exact follows_bind call.follows fun _ => follows_pure _
  | syncSecretKeys polls => exact follows_bind (follows_syncSecretKeys polls) fun _ => follows_pure _
  | updateClients passes =>
    refine follows_bind (.tryForM trivial fun pass _ => ?_) fun _ => follows_pure _
    exact follows_updateClients pass.1 pass.2
  | http handler request =>
    refine follows_bind ?_ fun _ => follows_pure _
    rcases handler.serve_cases request with ⟨o, ho⟩ | ⟨call, -, g, hg⟩
    · rw [ho]
      exact follows_pure o
    · rw [hg, map_eq_pure_bind]
      exact follows_bind call.follows fun _ => follows_pure _

theorem Site.follow_start (r : Inner W.sdk) (jobs : List (Job W)) :
    (Site.start r jobs).Follow (repoDiscipline W.sdk) (Back []) fun _ => .idle := by
  refine Config.Follow.start fun p hp => ?_
  obtain ⟨job, -, rfl⟩ := List.mem_map.mp hp
  exact job.follows

end FeatureProbeServer
