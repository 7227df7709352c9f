import FeatureProbeServer.Endpoints
import FeatureProbeServer.Reconcile
import Mathlib.Data.List.Induction

/-!
# SDK clients that keep running (`Inner::sync`, `Inner::remove_client`)

An SDK client polls and calls back from its creation until it is closed, and nothing in `repo.rs`
closes one: `remove_client` drops the handle. So the clients that run are those the registry holds
exactly as long as no pass removes one.
-/

namespace FeatureProbeServer
open Guarded

namespace Inner
variable {S : Sdk}

/-- The client has been started, and not been stopped since: no code stops one. -/
def Running (r : Inner S) (id : ClientId) : Prop := id < r.instances.length

/-- The client is in `sdk_clients`. -/
def Held (r : Inner S) (id : ClientId) : Prop := ∃ s, r.sdkClients.lookup s = some id

/-- No running client polls with `s` or calls `notify_sdk` for `s`. -/
def Silent (r : Inner S) (s : ServerSdkKey) : Prop :=
  ∀ id i, r.Running id → r.instances[id]? = some i →
    i.config.serverSdkKey ≠ s ∧ ∀ t, i.updateCallback = some t → t.serverSdkKey ≠ s

/-- The clients that run are those in `sdk_clients`, and a pass leaves none for a withdrawn key. -/
structure NoOrphans (r : Inner S) (calls : List (Call S)) : Prop where
  exact : ∀ p, p <+: calls → ∀ id, (r.after p).Running id ↔ (r.after p).Held id
  withdrawn : ∀ p πr πc, p ++ [.updateClients πr πc] <+: calls → 0 < (r.after p).secretMapping.version →
    ∀ s ∉ (r.after p).secretMapping.reverse, (r.after (p ++ [.updateClients πr πc])).Silent s

/-- No pass with a positive version finds a client whose key is not in the index. -/
def PassesKeep (r : Inner S) (calls : List (Call S)) : Prop :=
  ∀ p πr πc, p ++ [.updateClients πr πc] <+: calls → 0 < (r.after p).secretMapping.version →
    ∀ s ∈ (r.after p).sdkClients, s ∈ (r.after p).secretMapping.reverse

/-! ### What a call starts -/

theorem mem_instances_ensured {r : Inner S} {s : ServerSdkKey} {i : FPClient S}
    (h : i ∈ (r.ensured s).instances) : i ∈ r.instances ∨ ∃ s, i = r.fresh s := by
  rw [instances_ensured, List.mem_append] at h
  rcases h with h | h
  · exact .inl h
  · split at h
    · exact .inr ⟨s, List.mem_singleton.mp h⟩
    · cases h

theorem mem_instances_ensuredAll {r : Inner S} {keys : List ServerSdkKey} {i : FPClient S}
    (h : i ∈ (r.ensuredAll keys).instances) : i ∈ r.instances ∨ ∃ s, i = r.fresh s := by
  induction keys generalizing r with
  | nil => exact .inl h
  | cons s keys ih =>
    rcases ih (r := r.ensured s) h with h | ⟨t, rfl⟩
    · exact mem_instances_ensured h
    · exact .inr ⟨t, fresh_ensured r s t⟩

/-- Every instance was there with the same key and callback, or is a new one. -/
theorem mem_instances_exec {call : Call S} {r : Inner S} {i : FPClient S} (h : i ∈ (call.exec r).instances) :
    (∃ i₀ ∈ r.instances, origin i₀ = origin i) ∨ ∃ s, i = r.fresh s := by
  cases call with
  | sync c s v =>
    by_cases hs : r.CanSync s
    · rw [Call.exec_sync hs] at h
      exact (mem_instances_ensured h).imp_left fun h => ⟨i, h, rfl⟩
    · rw [Call.exec_sync_of_not hs] at h
      exact .inl ⟨i, h, rfl⟩
  | updateMapping π new =>
    rw [Call.exec_updateMapping] at h
    exact .inl ⟨i, h, rfl⟩
  | updateClients πr πc =>
    rw [exec_reconciled] at h
    have hstarted : i ∈ r.instances ∨ ∃ s, i = r.fresh s :=
      run_updateClients_cases πr πc (P := fun r' => i ∈ r'.instances → i ∈ r.instances ∨ ∃ s, i = r.fresh s)
        .inl (fun _ => mem_instances_ensuredAll) (fun _ _ ih => ih) h
    exact hstarted.imp_left fun h => ⟨i, h, rfl⟩
  | receive id repo =>
    have horigin : origin i ∈ (r.instances.modify id (·.receive repo)).map origin := List.mem_map_of_mem h
    rw [map_receive_origin] at horigin
    exact .inl (List.mem_map.mp horigin)
  | _ =>
    rw [Call.IsRequest.exec (by trivial)] at h
    exact .inl ⟨i, h, rfl⟩

/-- Every callback speaks for the key its client polls with. -/
def OwnCallbacks (r : Inner S) : Prop :=
  ∀ i ∈ r.instances, ∀ t, i.updateCallback = some t → t.serverSdkKey = i.config.serverSdkKey

theorem OwnCallbacks.exec {r : Inner S} (h : r.OwnCallbacks) (call : Call S) :
    (call.exec r).OwnCallbacks := by
  intro i hi t ht
  rcases mem_instances_exec hi with ⟨i₀, hi₀, horigin⟩ | ⟨s, rfl⟩
  · obtain ⟨hconfig, hcallback⟩ := Prod.mk.inj horigin
    rw [← hconfig]
    exact h i₀ hi₀ t (hcallback.trans ht)
  · cases ht; rfl

/-! ### Without removals -/

/-- Every client that runs is in `sdk_clients`. -/
def Tracked (r : Inner S) : Prop := ∀ id, r.Running id → r.Held id

theorem Tracked.ensured {r : Inner S} (h : r.Tracked) (s : ServerSdkKey) : (r.ensured s).Tracked := by
  intro id hid
  by_cases hs : r.Missing s
  · have hlen : (r.ensured s).instances.length = r.instances.length + 1 := by simp [instances_ensured, hs]
    have hlt : id < r.instances.length + 1 := hlen ▸ hid
    rcases Nat.lt_succ_iff_lt_or_eq.mp hlt with hlt | rfl
    · obtain ⟨t, ht⟩ := h id hlt
      have hts : t ≠ s := fun he => hs.1 (he ▸ Finmap.mem_of_lookup_eq_some ht)
      refine ⟨t, ?_⟩
      rw [lookup_ensured, if_neg fun h => hts h.1, ht]
    · refine ⟨s, ?_⟩
      rw [lookup_ensured, if_pos ⟨rfl, hs⟩]
  · have hlen : (r.ensured s).instances.length = r.instances.length := by simp [instances_ensured, hs]
    have hlt : id < r.instances.length := hlen ▸ hid
    obtain ⟨t, ht⟩ := h id hlt
    have hold : t ∈ r.sdkClients := Finmap.mem_of_lookup_eq_some ht
    refine ⟨t, ?_⟩
    rw [lookup_ensured, if_neg fun h => h.2.1 hold, ht]

theorem Tracked.ensuredAll {r : Inner S} (h : r.Tracked) (keys : List ServerSdkKey) :
    (r.ensuredAll keys).Tracked := by
  induction keys generalizing r with
  | nil => exact h
  | cons s keys ih => exact ih (h.ensured s)

/-- A call leaves no client behind, if it is not a pass that finds a stale key. -/
theorem Tracked.exec {r : Inner S} (h : r.Tracked) {call : Call S}
    (hkeep : ∀ πr πc, call = .updateClients πr πc → 0 < r.secretMapping.version →
      ∀ s ∈ r.sdkClients, s ∈ r.secretMapping.reverse) : (call.exec r).Tracked := by
  cases call with
  | sync c s v =>
    by_cases hs : r.CanSync s
    · rw [Call.exec_sync hs]
      exact h.ensured s
    · rwa [Call.exec_sync_of_not hs]
  | updateMapping π new =>
    rw [Call.exec_updateMapping]
    exact h
  | updateClients πr πc =>
    rw [exec_reconciled]
    rcases Nat.eq_zero_or_pos r.secretMapping.version with hv | hv
    · rwa [reconciled_of_zero πr πc hv]
    · obtain ⟨keys, hkeys⟩ := reconciled_of_kept hv (hkeep πr πc rfl hv) πr πc
      rw [hkeys]
      exact h.ensuredAll keys
  | receive id repo =>
    intro id' hid
    rw [Call.exec_receive] at hid ⊢
    exact h id' (by simpa [Running] using hid)
  | _ =>
    rw [Call.IsRequest.exec (by trivial)]
    exact h

/-! ### Passes -/

/-- A pass adds clients for keys of the index only. -/
theorem mem_of_mem_reconciled {r : Inner S} {πr : IterOrder ServerSdkKey ClientSdkKey}
    {πc : IterOrder ServerSdkKey ClientId} {s : ServerSdkKey} (h : s ∈ (r.reconciled πr πc).sdkClients) :
    s ∈ r.sdkClients ∨ s ∈ r.secretMapping.reverse := by
  by_cases hp : r.CanPass
  · rcases Nat.eq_zero_or_pos r.secretMapping.version with hv | hv
    · rw [reconciled_of_zero πr πc hv] at h
      exact .inl h
    · exact .inr ((mem_reconciled πr πc hv hp).mp h)
  · rw [reconciled_of_not πr πc hp] at h
    rcases mem_ensuredAll.mp h with hs | hs
    · have hkey : s ∈ r.secretMapping.serverSdkKeys πr := List.takeWhile_subset _ hs.1
      exact .inr ((SecretMapping.mem_serverSdkKeys _ πr s).mp hkey)
    · exact .inl hs

/-- A registered client polls for its key before and after a pass. -/
theorem RegistryOk.polls_reconciled {r : Inner S} (hr : r.RegistryOk) {s : ServerSdkKey}
    (hs : s ∈ r.sdkClients) (πr : IterOrder ServerSdkKey ClientSdkKey) (πc : IterOrder ServerSdkKey ClientId) :
    ¬ (r.reconciled πr πc).Silent s := by
  obtain ⟨id, hid⟩ := Finmap.mem_iff.mp hs
  obtain ⟨i, hi, hkey⟩ := hr.lookup hid
  have hafter := getElem?_reconciled πr πc hi
  exact fun hsilent => (hsilent id i (List.getElem?_eq_some_iff.mp hafter).1 hafter).1 hkey

theorem RegistryOk.running {r : Inner S} (h : r.RegistryOk) {id : ClientId} (hid : r.Held id) :
    r.Running id := by
  obtain ⟨s, hs⟩ := hid
  obtain ⟨i, hi, -⟩ := h.lookup hs
  exact (List.getElem?_eq_some_iff.mp hi).1

/-! ### Runs -/

theorem OwnCallbacks.after {r : Inner S} (h : r.OwnCallbacks) (calls : List (Call S)) :
    (r.after calls).OwnCallbacks := by
  induction calls generalizing r with
  | nil => exact h
  | cons call calls ih => exact ih (h.exec call)

theorem Tracked.after {r : Inner S} (h : r.Tracked) {calls : List (Call S)} (hkeep : r.PassesKeep calls) :
    (r.after calls).Tracked := by
  induction calls using List.reverseRecOn with
  | nil => exact h
  | append_singleton calls call ih =>
    have hprefix : calls <+: calls ++ [call] := List.prefix_append ..
    have hbefore : (r.after calls).Tracked := ih fun p πr πc hp => hkeep p πr πc (hp.trans hprefix)
    rw [after_snoc]
    refine hbefore.exec ?_
    rintro πr πc rfl
    exact hkeep calls πr πc List.prefix_rfl

theorem PassesKeep.of_prefix {r : Inner S} {calls p : List (Call S)} (h : r.PassesKeep calls)
    (hp : p <+: calls) :
    r.PassesKeep p := fun q πr πc hq => h q πr πc (hq.trans hp)

theorem registryOk_after (cfg : ServerConfig) (calls : List (Call S)) :
    ((SdkRepository.new cfg : Inner S).after calls).RegistryOk :=
  (rely_after (fun call _ => call.moves_covered) _).registry (registryOk_new cfg)

/-- A running client that is held polls and calls back for a registered key. -/
theorem silent_of_tracked {r : Inner S} (hr : r.RegistryOk) (ho : r.OwnCallbacks) (ht : r.Tracked)
    {s : ServerSdkKey} (hs : s ∉ r.sdkClients) : r.Silent s := by
  intro id i hid hi
  obtain ⟨t, hheld⟩ := ht id hid
  obtain ⟨i', hi', hkey⟩ := hr.lookup hheld
  obtain rfl : i = i' := Option.some.inj (hi.symm.trans hi')
  have hne : i.config.serverSdkKey ≠ s := by
    rw [hkey]
    rintro rfl
    exact hs (Finmap.mem_of_lookup_eq_some hheld)
  exact ⟨hne, fun target htarget => ho i (List.mem_of_getElem? hi) target htarget ▸ hne⟩

end Inner

namespace SdkRepository
variable {S : Sdk}

/-- No client is orphaned in a run if and only if no pass finds one whose key has been withdrawn. -/
theorem noOrphans_iff (cfg : ServerConfig) (calls : List (Call S)) :
    (SdkRepository.new cfg : Inner S).NoOrphans calls ↔ (SdkRepository.new cfg : Inner S).PassesKeep calls := by
  have hempty : (SdkRepository.new cfg : Inner S).Tracked := fun id hid => absurd hid (Nat.not_lt_zero id)
  constructor
  · intro h p πr πc hp hv s hs
    by_contra hrev
    have hsilent := h.withdrawn p πr πc hp hv s hrev
    rw [Inner.after_snoc, Inner.exec_reconciled] at hsilent
    -- the client of `s` runs, whether the pass has removed it or has panicked
    exact (Inner.registryOk_after cfg p).polls_reconciled hs πr πc hsilent
  · intro h
    have htracked : ∀ p, p <+: calls → ((SdkRepository.new cfg : Inner S).after p).Tracked :=
      fun p hp => hempty.after (h.of_prefix hp)
    refine ⟨fun p hp id => ⟨htracked p hp id, (Inner.registryOk_after cfg p).running⟩, ?_⟩
    intro p πr πc hp hv s hs
    have hown : (SdkRepository.new cfg : Inner S).OwnCallbacks := fun i hi => absurd hi List.not_mem_nil
    refine Inner.silent_of_tracked (Inner.registryOk_after cfg _) (hown.after _) (htracked _ hp) ?_
    rw [Inner.after_snoc, Inner.exec_reconciled]
    intro hmem
    exact hs ((Inner.mem_of_mem_reconciled hmem).elim (h p πr πc hp hv s) id)

/-- A payload with one tenant, a payload that withdraws it, and the passes after them. -/
theorem not_noOrphans_withdrawn : ¬ (SdkRepository.new default : Inner Sdk.plain).NoOrphans
    [.updateMapping (.sorted _ _) ⟨1, .singleton "c" "s", ∅⟩, .updateClients (.sorted _ _) (.sorted _ _),
      .updateMapping (.sorted _ _) ⟨2, ∅, ∅⟩, .updateClients (.sorted _ _) (.sorted _ _)] := by
  intro h
  have hsilent := h.withdrawn [.updateMapping (.sorted _ _) ⟨1, .singleton "c" "s", ∅⟩,
    .updateClients (.sorted _ _) (.sorted _ _), .updateMapping (.sorted _ _) ⟨2, ∅, ∅⟩]
    (.sorted _ _) (.sorted _ _)
    List.prefix_rfl (by decide) "s" (by decide)
  exact (hsilent 0 _ (by show 0 < List.length _; decide) rfl).1 (by decide)

end SdkRepository
end FeatureProbeServer
