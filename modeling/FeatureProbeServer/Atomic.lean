import FeatureProbeServer.Lib.Linear
import FeatureProbeServer.Registry

/-!
# Calls that take effect at once

A request holds its guard of the mapping to its end and reads the registry under a guard of its own,
and a client that has its toggles keeps having some: what a request returns is its answer in one
state. `update_mapping` tests the version twice, the second time under the write guard. So all calls
but `SdkRepository::sync` and `update_clients`, which work in several steps, take effect at once,
whatever runs beside them.
-/

namespace FeatureProbeServer
open Guarded

variable {S : Sdk}

/-- The stores agree on what the lock protects. -/
def Lock.Same : Lock → Inner S → Inner S → Prop
  | .secretMapping, r, r' => r.secretMapping = r'.secretMapping
  | .sdkClients, r, r' => r.sdkClients = r'.sdkClients

instance (l : Lock) : IsPreorder (Inner S) l.Same where
  refl r := by cases l <;> rfl
  trans r r' r'' h h' := by
    cases l with
    | secretMapping => exact Eq.trans (α := SecretMapping) h h'
    | sdkClients => exact Eq.trans (α := HashMap ServerSdkKey ClientId) h h'

/-- A client that has received toggles has toggles from then on. -/
def Inner.StaysInitialized (r r' : Inner S) : Prop :=
  ∀ id, r.clientInitialized id = true → r'.clientInitialized id = true

instance : IsPreorder (Inner S) Inner.StaysInitialized where
  refl _ _ h := h
  trans _ _ _ h h' id hid := h' id (h id hid)

theorem Inner.staysInitialized_exec (o : Op S) (r : Inner S) : r.StaysInitialized (exec o r) := by
  intro id hid
  obtain ⟨i, hi, hn⟩ := (Option.any_eq_true ..).mp hid
  obtain ⟨i', hi', hn'⟩ := initialized_exec o hi hn
  exact (Option.any_eq_true ..).mpr ⟨i', hi', hn'⟩

/-- An operation changes mapping and registry under a write guard of their lock only. -/
theorem owns_exec {ph ph' : Phase} {h : List (Lock × Mode)} {o : Op S} {r : Inner S} (hi : ph.Holds h)
    (ho : MayRun ph h o r ph') : Owns Lock.Same h r (Inner.exec o r) := by
  intro l
  cases ho with
  | insertClient =>
    cases l with
    | secretMapping => exact .inl rfl
    | sdkClients => exact .inr hi
  | removeClient hl =>
    cases l with
    | secretMapping => exact .inl rfl
    | sdkClients => exact .inr hl
  | insertMapping hl =>
    cases l with
    | secretMapping => exact .inr hl
    | sdkClients => exact .inl rfl
  | updateMapping hl =>
    cases l with
    | secretMapping => exact .inr hl
    | sdkClients => exact .inl rfl
  | _ => exact .inl (by cases l <;> rfl)

/-! ### Requests -/

namespace Inner

theorem answer_of_lookup {r : Inner S} {s : ServerSdkKey} {id : ClientId} (hl : r.sdkClients.lookup s = some id)
    (f : S.Repo → Except String S.Json) :
    r.answer f s = if r.clientInitialized id = true then (f (r.clientRepo id)).mapError .jsonError
      else .error (.notReady s) := by
  cases hi : r.instances[id]? with
  | none => simp [answer, client, hl, hi, clientInitialized]
  | some i => simp [answer, client, hl, hi, clientInitialized, clientRepo]

end Inner

/-- `f` of the repository of the client of `s`, read under a guard of the mapping `m`. -/
theorem pending_ofClient {s : ServerSdkKey} {f : S.Repo → Except String S.Json}
    {h : List (Lock × Mode)} (hh : (.secretMapping, .read) ∈ h) {m : SecretMapping}
    {spec : Inner S → Except FPServerError S.Json × Inner S}
    (hspec : ∀ r, r.secretMapping = m → spec r = (r.answer f s, r)) {r : Inner S} (hr : r.secretMapping = m) :
    (Inner.ofClient s f).Pending Lock.Same Inner.StaysInitialized spec h r := by
  refine .guarded fun r₁ h₁ => .reading fun r₂ h₂ => ?_
  have held : (.secretMapping, .read) ∈ (.sdkClients, .read) :: h := List.mem_cons_of_mem _ hh
  have m₁ : r₁.secretMapping = m := (h₁.held .secretMapping .read hh).symm.trans hr
  have m₂ : r₂.secretMapping = m := (h₂.held .secretMapping .read held).symm.trans m₁
  rw [hspec r₂ m₂]
  cases hl : r₂.sdkClients.lookup s with
  | none =>
    have hans : r₂.answer f s = .error (.notReady s) := by simp [Inner.answer, Inner.client, hl]
    rw [hans]
    exact .inr ⟨rfl, rfl⟩
  | some id =>
    refine .inl ⟨rfl, .reading fun r₃ h₃ => ?_⟩
    have m₃ : r₃.secretMapping = m := (h₃.held .secretMapping .read held).symm.trans m₂
    have c₃ : r₂.sdkClients = r₃.sdkClients := h₃.held .sdkClients .read (by simp)
    have l₃ : r₃.sdkClients.lookup s = some id := by rw [← c₃, hl]
    rw [hspec r₃ m₃, Inner.answer_of_lookup l₃]
    cases hn : r₃.clientInitialized id with
    | false => exact .inr ⟨rfl, rfl⟩
    | true =>
      refine .inl ⟨rfl, .reading fun r₄ h₄ => .inr ?_⟩
      have m₄ : r₄.secretMapping = m := (h₄.held .secretMapping .read held).symm.trans m₃
      have c₄ : r₃.sdkClients = r₄.sdkClients := h₄.held .sdkClients .read (by simp)
      have l₄ : r₄.sdkClients.lookup s = some id := by rw [← c₄, l₃]
      have n₄ : r₄.clientInitialized id = true := h₄.rel id hn
      rw [hspec r₄ m₄, Inner.answer_of_lookup l₄, if_pos n₄]
      exact ⟨rfl, rfl⟩

/-- The key resolution of the client endpoints. -/
theorem atomic_byClientKey (c : ClientSdkKey) (f : S.Repo → Except String S.Json) :
    (SdkRepository.byClientKey c fun s => Inner.ofClient s f).Atomic Lock.Same Inner.StaysInitialized := by
  intro r
  rw [show (SdkRepository.byClientKey c fun s => Inner.ofClient s f).run =
    fun r => (r.clientAnswer f c, r) from funext (SdkRepository.run_byClientKey c f)]
  refine .guarded fun r₁ h₁ => .reading fun r₂ h₂ => ?_
  by_cases hv : r₂.secretMapping.version = 0
  · rw [Inner.clientAnswer_of_zero hv]
    simp only [hv]
    exact .inr ⟨rfl, rfl⟩
  · have hpos : 0 < r₂.secretMapping.version := by omega
    cases hc : r₂.secretMapping.mapping.lookup c with
    | none =>
      rw [Inner.clientAnswer_of_unmapped hpos hc]
      simp only [hv, SecretMapping.serverSdkKey, hc]
      exact .inr ⟨rfl, rfl⟩
    | some s =>
      simp only [hv, SecretMapping.serverSdkKey, hc]
      refine .inl ⟨rfl, pending_ofClient (by simp) (fun r hr => ?_) rfl⟩
      rw [Inner.clientAnswer_of_mapped (by rw [hr]; exact hpos) (by rw [hr]; exact hc)]

theorem atomic_serverSdkRepoString (s : ServerSdkKey) :
    (SdkRepository.serverSdkRepoString s : RepoM S _).Atomic Lock.Same Inner.StaysInitialized := by
  intro r
  refine .guarded fun _ _ => .reading fun r₂ _ => ?_
  rw [SdkRepository.run_serverSdkRepoString]
  by_cases hv : r₂.secretMapping.version = 0
  · simp only [hv]
    exact .inr ⟨rfl, rfl⟩
  · by_cases hs : s ∈ r₂.secretMapping.reverse
    · have hclient : (Inner.repoString s).Pending Lock.Same Inner.StaysInitialized
          (SdkRepository.serverSdkRepoString s).run [(.secretMapping, .read)] r₂ := by
        refine pending_ofClient (List.mem_cons_self ..) (fun r hr => ?_) rfl
        rw [SdkRepository.run_serverSdkRepoString, hr, if_neg hv, if_pos hs]
      simp only [hv, SecretMapping.containsServerSdkKey, hs]
      refine .inl ⟨rfl, hclient.map (g := id) fun a => ?_⟩
      cases a <;> exact rfl
    · simp only [hv, SecretMapping.containsServerSdkKey, hs]
      exact .inr ⟨rfl, rfl⟩

/-! ### The other calls -/

theorem atomic_updateMapping (π : IterOrder ClientSdkKey ServerSdkKey) (new : SecretMapping) :
    (Inner.updateMapping π new : RepoM S Unit).Atomic Lock.Same Inner.StaysInitialized := by
  intro r
  rw [show (Inner.updateMapping π new : RepoM S Unit).run =
      fun r => ((), { r with secretMapping := r.secretMapping.updateMapping π new }) from
    funext fun r => Prod.ext rfl (Inner.run_updateMapping π new r)]
  refine .guarded_bind fun r₁ h₁ => .reading fun r₂ h₂ => ?_
  by_cases hv : new.version > r₂.secretMapping.version
  · refine .inl ⟨rfl, fun r₃ h₃ => ?_⟩
    rw [if_pos hv]
    exact .guarded fun r₄ h₄ r₅ h₅ => .inr ⟨rfl, rfl⟩
  · refine .inr ⟨?_, ?_⟩
    · show r₂ = { r₂ with secretMapping := r₂.secretMapping.updateMapping π new }
      rw [SecretMapping.updateMapping_of_le π (Nat.not_lt.mp hv)]
    · show Prog.Bound () (if new.version > r₂.secretMapping.version then _ else _)
      rw [if_neg hv]
      exact rfl

/-- What `client_sync_now` returns. -/
def Inner.syncAnswer (r : Inner S) (s : ServerSdkKey) : Except FPServerError String :=
  if s ∈ r.sdkClients then .ok s else .error (.notFound s)

theorem SdkRepository.run_clientSyncNow (s : ServerSdkKey) (t : SyncType) (r : Inner S) :
    (clientSyncNow s t).run r = (r.syncAnswer s, r) := by
  cases hl : r.sdkClients.lookup s with
  | none =>
    have hs : s ∉ r.sdkClients := Finmap.lookup_eq_none.mp hl
    simp [clientSyncNow, readClients, Inner.exec, Inner.syncAnswer, hl, hs]
  | some id =>
    have hs : s ∈ r.sdkClients := Finmap.mem_of_lookup_eq_some hl
    simp [clientSyncNow, readClients, Inner.exec, Inner.syncAnswer, hl, hs]

theorem atomic_clientSyncNow (s : ServerSdkKey) (t : SyncType) :
    (SdkRepository.clientSyncNow s t : RepoM S _).Atomic Lock.Same Inner.StaysInitialized := by
  intro r
  rw [show (SdkRepository.clientSyncNow s t : RepoM S _).run = fun r => (r.syncAnswer s, r) from
    funext (SdkRepository.run_clientSyncNow s t)]
  refine .guarded fun _ _ => .reading fun r₂ _ => .inr ⟨rfl, ?_⟩
  cases hl : r₂.sdkClients.lookup s with
  | none =>
    have hs : s ∉ r₂.sdkClients := Finmap.lookup_eq_none.mp hl
    rw [Inner.syncAnswer, if_neg hs]
    exact rfl
  | some id =>
    have hs : s ∈ r₂.sdkClients := Finmap.mem_of_lookup_eq_some hl
    rw [Inner.syncAnswer, if_pos hs]
    exact fun _ => ⟨rfl, rfl⟩

theorem atomic_secretKeys : (SdkRepository.secretKeys : RepoM S _).Atomic Lock.Same Inner.StaysInitialized :=
  fun _ => .guarded fun _ _ => .reading fun _ _ => .inr ⟨rfl, rfl⟩

/-- All calls but those that work in several steps. -/
def Call.AtOnce : Call S → Prop
  | .sync .. | .updateClients .. => False
  | _ => True

theorem Call.AtOnce.atomic {call : Call S} (h : call.AtOnce) :
    call.prog.Atomic Lock.Same Inner.StaysInitialized := by
  cases call with
  | sync c s v => exact h.elim
  | updateClients πr πc => exact h.elim
  | updateMapping π new => exact (atomic_updateMapping π new).map fun _ => Reply.unit
  | serverSdkRepoString s => exact (atomic_serverSdkRepoString s).map Reply.body
  | clientSdkEvalString π c u => exact (atomic_byClientKey c _).map Reply.body
  | clientSdkEventsString c => exact (atomic_byClientKey c _).map Reply.body
  | clientSyncNow s t => exact (atomic_clientSyncNow s t).map Reply.key
  | secretKeys => exact atomic_secretKeys.map Reply.keys
  | receive id repo => exact fun _ => .perform fun _ _ => ⟨rfl, rfl⟩

namespace Server

/-- The call `i` takes effect at once. -/
def AtOnce (calls : List (Call S)) (i : Nat) : Prop := ∃ call, calls[i]? = some call ∧ call.AtOnce

/-- Any calls from any repository: each run is as a history in which every request, every payload and
every delivery stands whole, with the reply it has there, and the other calls with the operations they
ran. -/
theorem exec_linearizable {r : Inner S} {calls : List (Call S)} {tr : List (Nat × Event Lock (Op S))}
    {c : Server S} (h : Config.Exec (start r calls) tr c) :
    ∃ hist, Config.History (AtOnce calls) r (calls.map Call.prog) tr hist c := by
  have atomic : ∀ i p, AtOnce calls i → (calls.map Call.prog)[i]? = some p →
      p.Atomic Lock.Same Inner.StaysInitialized := by
    rintro i p ⟨call, hcall, hat⟩ hp
    rw [List.getElem?_map, hcall] at hp
    cases hp
    exact hat.atomic
  have follows : ∀ p ∈ calls.map Call.prog, p.Follows (repoDiscipline S) (Back []) .idle [] := by
    intro p hp
    obtain ⟨call, -, rfl⟩ := List.mem_map.mp hp
    exact call.follows
  exact Config.exec_history atomic follows (fun _ _ _ _ _ hi ho => owns_exec hi ho)
    Inner.staysInitialized_exec h

/-- Two payloads that both read version 0 before either writes, and a request between the writes. -/
theorem exec_linearizable_race : ∃ calls : List (Call Sdk.plain),
    calls = [.updateMapping (.sorted _ _) ⟨2, .singleton "c" "s", ∅⟩,
      .updateMapping (.sorted _ _) ⟨1, ∅, ∅⟩, .clientSdkEventsString "c"] ∧
    ∃ tr c hist, c.Returned ∧
      Config.History (AtOnce calls) (SdkRepository.new default) (calls.map Call.prog) tr hist c := by
  refine ⟨_, rfl, ?_⟩
  obtain ⟨c, hc, hr⟩ : ∃ c, (start (SdkRepository.new default)
      [.updateMapping (.sorted _ _) ⟨2, .singleton "c" "s", ∅⟩, .updateMapping (.sorted _ _) ⟨1, ∅, ∅⟩,
        .clientSdkEventsString "c"] : Server Sdk.plain).schedule
      (.replicate 4 0 ++ .replicate 4 1 ++ .replicate 4 0 ++ .replicate 8 2 ++ .replicate 4 1) = some c ∧
      c.Returned := by decide
  obtain ⟨tr, h⟩ := Config.Reach.of_schedule hc
  obtain ⟨hist, hh⟩ := exec_linearizable h
  exact ⟨tr, c, hist, hr, hh⟩

end Server
end FeatureProbeServer
