import FeatureProbeServer.RepoRely
import Mathlib.Data.String.Basic

/-!
# What the three endpoints answer

The server endpoint decides on the reverse index, the client endpoints on the forward map, and all
three take their data from the registry, which lags behind. `Indexed` (polling) and `Covered` (every
mode) tie the two maps together in every state reached, `RegistryOk` ties the registry to the
identities of its clients.
-/

namespace FeatureProbeServer
open Guarded

namespace Inner
variable {S : Sdk}

/-! ### The server endpoint -/

/-- The answer of `server_sdk_repo_string(s)` in the state `r`. -/
def serverAnswer (r : Inner S) (s : ServerSdkKey) : Except FPServerError S.Json :=
  ((SdkRepository.serverSdkRepoString s).run r).1

structure ServerAnswers (r : Inner S) (s : ServerSdkKey) : Prop where
  unready : r.secretMapping.version = 0 → r.serverAnswer s = .error (.notReady s)
  unmapped : 0 < r.secretMapping.version →
    (r.serverAnswer s = .error (.notFound s) ↔ ∀ c, r.secretMapping.mapping.lookup c ≠ some s)
  waiting : 0 < r.secretMapping.version → (∃ c, r.secretMapping.mapping.lookup c = some s) →
    (r.serverAnswer s = .error (.notReady s) ↔
      s ∉ r.sdkClients ∨ ∃ i, r.client s = some i ∧ i.initialized = false)
  serves : 0 < r.secretMapping.version → (∃ c, r.secretMapping.mapping.lookup c = some s) →
    ∀ i, r.client s = some i → i.initialized = true →
      i.config.serverSdkKey = s ∧ ∃ j, S.repoJson i.repo = .ok j ∧ r.serverAnswer s = .ok j

theorem serverAnswer_of_zero {r : Inner S} (hv : r.secretMapping.version = 0) (s : ServerSdkKey) :
    r.serverAnswer s = .error (.notReady s) := by
  rw [serverAnswer, SdkRepository.run_serverSdkRepoString, if_pos hv]

theorem serverAnswer_of_mapped {r : Inner S} (hi : r.secretMapping.Covered)
    (hv : 0 < r.secretMapping.version) {c : ClientSdkKey} {s : ServerSdkKey}
    (hc : r.secretMapping.mapping.lookup c = some s) : r.serverAnswer s = r.answer S.repoJson s := by
  rw [serverAnswer, SdkRepository.run_serverSdkRepoString, if_neg (by omega), if_pos (hi c s hc)]

theorem answer_repoJson_ok (hS : S.Serializes) {r : Inner S} {s : ServerSdkKey} {i : FPClient S}
    (hi : r.client s = some i) (hn : i.initialized = true) :
    ∃ j, S.repoJson i.repo = .ok j ∧ r.answer S.repoJson s = .ok j := by
  obtain ⟨j, hj⟩ := hS.repo i.repo
  exact ⟨j, hj, by rw [answer_of_initialized hi hn, hj]; rfl⟩

theorem serverAnswers (hS : S.Serializes) {r : Inner S} (hm : r.secretMapping.Indexed)
    (hr : r.RegistryOk) (s : ServerSdkKey) : r.ServerAnswers s where
  unready hv := serverAnswer_of_zero hv s
  unmapped hv := by
    constructor
    · intro h c hc
      rw [serverAnswer_of_mapped hm.covered hv hc] at h
      by_cases hn : r.Ready s
      · obtain ⟨i, hi, hn⟩ := hn
        obtain ⟨j, -, hj⟩ := answer_repoJson_ok hS hi hn
        rw [hj] at h; cases h
      · rw [answer_of_not_ready hn] at h; cases h
    · intro h
      have hs : s ∉ r.secretMapping.reverse := fun hs => by
        obtain ⟨c, hc⟩ := (hm.mem_reverse s).mp hs
        exact h c hc
      rw [serverAnswer, SdkRepository.run_serverSdkRepoString, if_neg (by omega), if_neg hs]
  waiting hv hc := by
    obtain ⟨c, hc⟩ := hc
    rw [serverAnswer_of_mapped hm.covered hv hc]
    constructor
    · intro h
      by_contra hn
      rw [not_or, not_not] at hn
      obtain ⟨i, hi, -⟩ := hr s hn.1
      cases hb : i.initialized with
      | false => exact hn.2 ⟨i, hi, hb⟩
      | true =>
        obtain ⟨j, -, hj⟩ := answer_repoJson_ok hS hi hb
        rw [hj] at h; cases h
    · intro h
      refine answer_of_not_ready ?_ _
      rintro ⟨i, hi, hn⟩
      rcases h with h | ⟨i', hi', hn'⟩
      · exact h (mem_of_client hi)
      · obtain rfl : i = i' := Option.some.inj (hi.symm.trans hi')
        rw [hn] at hn'; cases hn'
  serves hv hc i hi hn := by
    obtain ⟨c, hc⟩ := hc
    rw [serverAnswer_of_mapped hm.covered hv hc]
    exact ⟨hr.key hi, answer_repoJson_ok hS hi hn⟩

end Inner

/-- The calls of a server with a keys URL: no `SdkRepository::sync`. -/
def Call.KeysUrl {S : Sdk} : Call S → Prop
  | .sync .. => False
  | _ => True

namespace Server
variable {S : Sdk}

/-- Polling: the server endpoint in every state reached. -/
theorem reach_serverAnswers (hS : S.Serializes) {cfg : ServerConfig} {calls : List (Call S)}
    (hc : ∀ call ∈ calls, call.KeysUrl) {c : Server S}
    (h : Config.Reach (start (SdkRepository.new cfg) calls) c) (s : ServerSdkKey) :
    c.store.ServerAnswers s := by
  have hmoves : ∀ call ∈ calls, call.Moves (Keeps SecretMapping.Indexed) := by
    intro call hcall
    refine call.moves_indexed ?_
    rintro _ _ _ rfl
    exact hc _ hcall
  have hr := rely hmoves h
  exact c.store.serverAnswers hS (hr.mapping SecretMapping.indexed_default)
    (hr.registry (registryOk_new cfg)) s

/-- One payload, one pass, and the client of `s` has its toggles. -/
theorem reach_serverAnswers_served :
    ∃ c : Server Sdk.plain, c.store.clientInitialized 0 = true ∧ c.store.ServerAnswers "s" := by
  obtain ⟨c, hc, hi⟩ : ∃ c, (start (SdkRepository.new default)
      [.updateMapping (.sorted _ _) ⟨1, .singleton "c" "s", ∅⟩, .updateClients (.sorted _ _) (.sorted _ _),
        .receive 0 ⟨∅, .singleton "t" true, (), some 1⟩] : Server Sdk.plain).schedule
      (.replicate 8 0 ++ .replicate 22 1 ++ [2]) = some c ∧ c.store.clientInitialized 0 = true := by
    decide
  refine ⟨c, hi, reach_serverAnswers Sdk.plain_serializes (fun call h => ?_) (.of_schedule hc) "s"⟩
  simp only [List.mem_cons, List.not_mem_nil, or_false] at h
  rcases h with rfl | rfl | rfl <;> trivial

end Server

/-! ### The three endpoints together -/

namespace Inner
variable {S : Sdk}

/-- The answer of `client_sdk_eval_string(c, u)` in the state `r`. -/
def evalAnswer (r : Inner S) (π : IterOrder String S.Toggle) (c : ClientSdkKey) (u : S.User) :
    Except FPServerError S.Json :=
  ((SdkRepository.clientSdkEvalString π c u).run r).1

/-- The answer of `client_sdk_events_string(c)` in the state `r`. -/
def eventsAnswer (r : Inner S) (c : ClientSdkKey) : Except FPServerError S.Json :=
  ((SdkRepository.clientSdkEventsString c).run r).1

/-- The endpoints agree on every mapped pair, and know no other client key. -/
structure SameFate (r : Inner S) : Prop where
  mapped : ∀ c s, r.secretMapping.mapping.lookup c = some s → ∀ π u,
    (∃ j₁ j₂ j₃, r.serverAnswer s = .ok j₁ ∧ r.evalAnswer π c u = .ok j₂ ∧ r.eventsAnswer c = .ok j₃) ∨
    ∃ k, r.serverAnswer s = .error (.notReady s) ∧ r.evalAnswer π c u = .error (.notReady k) ∧
      r.eventsAnswer c = .error (.notReady k)
  unmapped : 0 < r.secretMapping.version → ∀ c, r.secretMapping.mapping.lookup c = none → ∀ π u,
    r.evalAnswer π c u = .error (.notFound c) ∧ r.eventsAnswer c = .error (.notFound c)

theorem evalAnswer_eq (r : Inner S) (π : IterOrder String S.Toggle) (c : ClientSdkKey) (u : S.User) :
    r.evalAnswer π c u = r.clientAnswer (fun repo => S.detailsJson (evaluated π repo u)) c := by
  rw [evalAnswer, SdkRepository.run_clientSdkEvalString]

theorem eventsAnswer_eq (r : Inner S) (c : ClientSdkKey) :
    r.eventsAnswer c = r.clientAnswer (fun repo => S.eventsJson repo.events) c := by
  rw [eventsAnswer, SdkRepository.run_clientSdkEventsString]

theorem sameFate (hS : S.Serializes) {r : Inner S} (hm : r.secretMapping.Covered) : r.SameFate where
  mapped c s hc π u := by
    rw [evalAnswer_eq, eventsAnswer_eq]
    rcases Nat.eq_zero_or_pos r.secretMapping.version with hv | hv
    · exact .inr ⟨c, serverAnswer_of_zero hv s, clientAnswer_of_zero hv _ c, clientAnswer_of_zero hv _ c⟩
    · -- all three read the client of `s`
      rw [serverAnswer_of_mapped hm hv hc, clientAnswer_of_mapped hv hc, clientAnswer_of_mapped hv hc]
      by_cases hr : r.Ready s
      · obtain ⟨i, hi, hb⟩ := hr
        obtain ⟨j₁, h₁⟩ := hS.repo i.repo
        obtain ⟨j₂, h₂⟩ := hS.details (evaluated π i.repo u)
        obtain ⟨j₃, h₃⟩ := hS.events i.repo.events
        refine .inl ⟨j₁, j₂, j₃, ?_⟩
        simp only [answer_of_initialized hi hb, h₁, h₂, h₃]
        exact ⟨rfl, rfl, rfl⟩
      · exact .inr ⟨s, answer_of_not_ready hr _, answer_of_not_ready hr _, answer_of_not_ready hr _⟩
  unmapped hv c hc π u := by
    rw [evalAnswer_eq, eventsAnswer_eq]
    exact ⟨clientAnswer_of_unmapped hv hc _, clientAnswer_of_unmapped hv hc _⟩

end Inner

theorem Call.moves_covered {S : Sdk} (call : Call S) : call.Moves (Keeps SecretMapping.Covered) := by
  cases call with
  | sync c s v => exact fun m hm => hm.insert c s v
  | updateMapping π new => exact fun m hm => hm.updateMapping π new
  | _ => trivial

namespace Server
variable {S : Sdk}

/-- Any calls whatever: the endpoints agree in every state reached. -/
theorem reach_sameFate (hS : S.Serializes) {cfg : ServerConfig} {calls : List (Call S)} {c : Server S}
    (h : Config.Reach (start (SdkRepository.new cfg) calls) c) : c.store.SameFate :=
  c.store.sameFate hS ((rely (fun call _ => call.moves_covered) h).mapping
    SecretMapping.indexed_default.covered)

/-- `sync` of two client keys with one server key; its client has its toggles. -/
theorem reach_sameFate_shared : ∃ c : Server Sdk.plain, c.Returned ∧ c.store.SameFate := by
  obtain ⟨c, hc, hr⟩ : ∃ c, (start (SdkRepository.new default)
      [.sync "c1" "s" 1, .sync "c2" "s" 1, .receive 0 ⟨∅, .singleton "t" true, (), some 1⟩] :
      Server Sdk.plain).schedule
      (.replicate 18 0 ++ .replicate 8 1 ++ [2]) = some c ∧ c.Returned := by
    decide
  exact ⟨c, hr, reach_sameFate Sdk.plain_serializes (.of_schedule hc)⟩

end Server
end FeatureProbeServer
