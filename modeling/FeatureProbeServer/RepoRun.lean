import FeatureProbeServer.Repo

/-!
# One call at a time

What each call of `repo.rs` does to the repository and returns when nothing runs beside it. All that
a request sees of the registry is `client`: the instance registered under a key.
-/

namespace FeatureProbeServer
open Guarded

namespace Inner
variable {S : Sdk}

/-- The instance registered for `serverSdkKey`. -/
def client (r : Inner S) (serverSdkKey : ServerSdkKey) : Option (FPClient S) :=
  (r.sdkClients.lookup serverSdkKey).bind (r.instances[·]?)

/-- Every registered handle points to an instance created with the key it is registered under. -/
def RegistryOk (r : Inner S) : Prop :=
  ∀ s ∈ r.sdkClients, ∃ i, r.client s = some i ∧ i.config.serverSdkKey = s

theorem client_eq_some {r : Inner S} {s : ServerSdkKey} {i : FPClient S} :
    r.client s = some i ↔ ∃ id, r.sdkClients.lookup s = some id ∧ r.instances[id]? = some i :=
  Option.bind_eq_some_iff

theorem mem_of_client {r : Inner S} {s : ServerSdkKey} {i : FPClient S} (h : r.client s = some i) :
    s ∈ r.sdkClients := by
  obtain ⟨id, h, -⟩ := client_eq_some.mp h
  exact Finmap.mem_of_lookup_eq_some h

theorem client_of_notMem {r : Inner S} {s : ServerSdkKey} (h : s ∉ r.sdkClients) : r.client s = none := by
  rw [client, Finmap.lookup_eq_none.mpr h]; rfl

theorem RegistryOk.lookup {r : Inner S} (h : r.RegistryOk) {s : ServerSdkKey} {id : ClientId}
    (hs : r.sdkClients.lookup s = some id) :
    ∃ i, r.instances[id]? = some i ∧ i.config.serverSdkKey = s := by
  obtain ⟨i, hi, hk⟩ := h s (Finmap.mem_of_lookup_eq_some hs)
  obtain ⟨id', hs', hi⟩ := client_eq_some.mp hi
  obtain rfl : id = id' := Option.some.inj (hs.symm.trans hs')
  exact ⟨i, hi, hk⟩

/-- A client is registered under one key. -/
theorem RegistryOk.lookup_inj {r : Inner S} (h : r.RegistryOk) {s t : ServerSdkKey} {id : ClientId}
    (hs : r.sdkClients.lookup s = some id) (ht : r.sdkClients.lookup t = some id) : s = t := by
  obtain ⟨i, hi, hsi⟩ := h.lookup hs
  obtain ⟨i', hi', hti⟩ := h.lookup ht
  obtain rfl : i = i' := Option.some.inj (hi.symm.trans hi')
  exact hsi.symm.trans hti

theorem RegistryOk.key {r : Inner S} (h : r.RegistryOk) {s : ServerSdkKey} {i : FPClient S}
    (hi : r.client s = some i) : i.config.serverSdkKey = s := by
  obtain ⟨i', hi', hk⟩ := h s (mem_of_client hi)
  obtain rfl : i = i' := Option.some.inj (hi.symm.trans hi')
  exact hk

/-! ### `sync` -/

/-- `sync` does not panic on the key: it has a client, or can be given one. -/
def CanSync (r : Inner S) (serverSdkKey : ServerSdkKey) : Prop :=
  serverSdkKey ∈ r.sdkClients ∨ S.accepts serverSdkKey = true

instance (r : Inner S) (s : ServerSdkKey) : Decidable (r.CanSync s) := inferInstanceAs (Decidable (_ ∨ _))

/-- The instance `sync` creates for `serverSdkKey`. -/
def fresh (r : Inner S) (serverSdkKey : ServerSdkKey) : FPClient S :=
  (FPClient.new (r.fpConfig serverSdkKey)).setUpdateCallback
    ⟨serverSdkKey, r.secretMapping.clientSdkKey serverSdkKey⟩

/-- The repository with a client for `serverSdkKey`, a new one if there was none and it can be given one. -/
def ensured (r : Inner S) (serverSdkKey : ServerSdkKey) : Inner S :=
  if serverSdkKey ∈ r.sdkClients ∨ S.accepts serverSdkKey = false then r
  else { r with
    instances := r.instances ++ [r.fresh serverSdkKey]
    sdkClients := r.sdkClients.insert serverSdkKey r.instances.length }

theorem run_sync (r : Inner S) (s : ServerSdkKey) :
    (sync s).run r = (if r.CanSync s then some () else none, r.ensured s) := by
  by_cases h : s ∈ r.sdkClients
  · simp [sync, containsKey, h, exec, ensured, CanSync]
  · cases ha : S.accepts s with
    | false => simp [sync, containsKey, h, ha, exec, newClient, ensured, CanSync]
    | true =>
      simp [sync, containsKey, h, ha, exec, newClient, setupNotify, readMapping, ensured, fresh, CanSync,
        List.modify_eq_take_drop]

theorem ensured_of_mem {r : Inner S} {s : ServerSdkKey} (hs : s ∈ r.sdkClients) : r.ensured s = r :=
  if_pos (.inl hs)

theorem ensured_of_not {r : Inner S} {s : ServerSdkKey} (hs : ¬ r.CanSync s) : r.ensured s = r :=
  if_pos (.inr (Bool.eq_false_iff.mpr fun ha => hs (.inr ha)))

theorem ensured_of_new {r : Inner S} {s : ServerSdkKey} (hs : s ∉ r.sdkClients) (ha : S.accepts s = true) :
    r.ensured s = { r with
      instances := r.instances ++ [r.fresh s]
      sdkClients := r.sdkClients.insert s r.instances.length } :=
  if_neg (by simp [hs, ha])

@[simp] theorem ensured_secretMapping (r : Inner S) (s : ServerSdkKey) :
    (r.ensured s).secretMapping = r.secretMapping := by
  unfold ensured; split <;> rfl

@[simp] theorem fresh_ensured (r : Inner S) (s t : ServerSdkKey) : (r.ensured s).fresh t = r.fresh t := by
  unfold ensured; split <;> rfl

theorem mem_ensured {r : Inner S} {s t : ServerSdkKey} :
    t ∈ (r.ensured s).sdkClients ↔ (t = s ∧ S.accepts t = true) ∨ t ∈ r.sdkClients := by
  unfold ensured
  split
  case isTrue h =>
    refine ⟨.inr, fun ht => ht.elim ?_ id⟩
    rintro ⟨rfl, ha⟩
    exact h.resolve_right (by simp [ha])
  case isFalse h =>
    refine Finmap.mem_insert.trans (or_congr_left ⟨?_, And.left⟩)
    rintro rfl
    exact ⟨rfl, Bool.of_not_eq_false fun ha => h (.inr ha)⟩

/-- What can be given a client can after another key was given one. -/
theorem canSync_ensured {r : Inner S} {s t : ServerSdkKey} : (r.ensured s).CanSync t ↔ r.CanSync t := by
  unfold CanSync
  rw [mem_ensured]
  tauto

theorem client_ensured {r : Inner S} (h : r.RegistryOk) (s t : ServerSdkKey) :
    (r.ensured s).client t =
      if t = s ∧ r.CanSync t then some ((r.client t).getD (r.fresh t)) else r.client t := by
  by_cases hs : s ∈ r.sdkClients
  · rw [ensured_of_mem hs]
    split
    case isTrue ht =>
      obtain ⟨rfl, -⟩ := ht
      obtain ⟨i, hi, -⟩ := h t hs
      rw [hi]; rfl
    case isFalse => rfl
  · cases ha : S.accepts s with
    | false =>
      have hno : ¬ r.CanSync s := by simp [CanSync, hs, ha]
      rw [ensured_of_not hno, if_neg]
      rintro ⟨rfl, ht⟩
      exact hno ht
    | true =>
      rw [ensured_of_new hs ha]
      by_cases ht : t = s
      · subst t
        rw [if_pos ⟨rfl, .inr ha⟩, client_of_notMem hs]
        simp [client]
      · rw [if_neg fun h => ht h.1]
        unfold client
        rw [HashMap.lookup_insert_eq, if_neg ht]
        cases hl : r.sdkClients.lookup t with
        | none => rfl
        | some id =>
          obtain ⟨i, hi, -⟩ := h.lookup hl
          exact List.getElem?_append_left (List.getElem?_eq_some_iff.mp hi).1

theorem RegistryOk.ensured {r : Inner S} (h : r.RegistryOk) (s : ServerSdkKey) :
    (r.ensured s).RegistryOk := by
  intro t ht
  rw [client_ensured h]
  by_cases hts : t = s ∧ r.CanSync t
  · rw [if_pos hts]
    refine ⟨_, rfl, ?_⟩
    cases hc : r.client t with
    | none => rfl
    | some i => exact h.key hc
  · rw [if_neg hts]
    refine h t ((mem_ensured.mp ht).resolve_left fun hn => hts ⟨hn.1, .inr hn.2⟩)

/-! ### `update_clients` -/

/-- The repository with a client for each of `keys` that can be given one. -/
def ensuredAll (r : Inner S) (keys : List ServerSdkKey) : Inner S := keys.foldl ensured r

/-- The keys a loop over `keys` gets through before it panics. -/
def synced (r : Inner S) (keys : List ServerSdkKey) : List ServerSdkKey := keys.takeWhile fun s => r.CanSync s

theorem synced_ensured (r : Inner S) (s : ServerSdkKey) (keys : List ServerSdkKey) :
    (r.ensured s).synced keys = r.synced keys := by
  unfold synced
  congr 1
  funext t
  exact decide_eq_decide.mpr canSync_ensured

theorem synced_cons {r : Inner S} {s : ServerSdkKey} (hs : r.CanSync s) (keys : List ServerSdkKey) :
    r.synced (s :: keys) = s :: r.synced keys :=
  List.takeWhile_cons_of_pos (decide_eq_true hs)

theorem synced_eq_self {r : Inner S} {keys : List ServerSdkKey} (h : ∀ s ∈ keys, r.CanSync s) :
    r.synced keys = keys := by
  induction keys with
  | nil => rfl
  | cons s keys ih => rw [synced_cons (h s (by simp)), ih fun t ht => h t (by simp [ht])]

/-- The loop stops at the first key on which `sync` panics. -/
theorem run_tryForM_sync (r : Inner S) (keys : List ServerSdkKey) :
    (Prog.tryForM sync keys).run r =
      (if ∀ s ∈ keys, r.CanSync s then some () else none, r.ensuredAll (r.synced keys)) := by
  induction keys generalizing r with
  | nil => rfl
  | cons s keys ih =>
    rw [Prog.tryForM, Prog.run_bind, run_sync]
    by_cases hs : r.CanSync s
    · simp only [hs, if_true, ih, canSync_ensured, synced_ensured, List.forall_mem_cons, true_and]
      rw [synced_cons hs]
      rfl
    · have hnone : r.synced (s :: keys) = [] := List.takeWhile_cons_of_neg (by simp [hs])
      simp only [hs, if_false, hnone, List.forall_mem_cons, false_and, ensured_of_not hs]
      rfl

@[simp] theorem ensuredAll_secretMapping (r : Inner S) (keys : List ServerSdkKey) :
    (r.ensuredAll keys).secretMapping = r.secretMapping := by
  induction keys generalizing r with
  | nil => rfl
  | cons s keys ih => exact (ih _).trans (ensured_secretMapping r s)

theorem mem_ensuredAll {r : Inner S} {keys : List ServerSdkKey} {t : ServerSdkKey} :
    t ∈ (r.ensuredAll keys).sdkClients ↔ (t ∈ keys ∧ S.accepts t = true) ∨ t ∈ r.sdkClients := by
  induction keys generalizing r with
  | nil => simp [ensuredAll]
  | cons s keys ih =>
    refine ih.trans ?_
    rw [mem_ensured, List.mem_cons]
    tauto

theorem client_ensuredAll {r : Inner S} (h : r.RegistryOk) (keys : List ServerSdkKey) (t : ServerSdkKey) :
    (r.ensuredAll keys).client t =
      if t ∈ keys ∧ r.CanSync t then some ((r.client t).getD (r.fresh t)) else r.client t := by
  induction keys generalizing r with
  | nil => simp [ensuredAll]
  | cons s keys ih =>
    refine (ih (h.ensured s)).trans ?_
    rw [client_ensured h, fresh_ensured]
    simp only [canSync_ensured]
    by_cases ht : r.CanSync t
    · by_cases hts : t = s
      · subst t; simp [ht]
      · simp [hts, ht]
    · simp [ht]

/-- The repository without the clients of `keys`. -/
def removedAll (r : Inner S) (keys : List ServerSdkKey) : Inner S :=
  { r with sdkClients := keys.foldl (fun m s => m.erase s) r.sdkClients }

theorem run_forM_remove (r : Inner S) (keys kept : List ServerSdkKey) :
    ((forM keys fun s => if s ∉ kept then removeClient s else pure ()).run r).2 =
      r.removedAll (keys.filter (· ∉ kept)) := by
  induction keys generalizing r with
  | nil => rfl
  | cons s keys ih =>
    rw [List.forM_cons, Prog.run_bind, ih]
    by_cases hs : s ∈ kept
    · simp [hs]
    · simp [hs, removeClient, removedAll, exec]

theorem lookup_removedAll (r : Inner S) (keys : List ServerSdkKey) (t : ServerSdkKey) :
    (r.removedAll keys).sdkClients.lookup t = if t ∈ keys then none else r.sdkClients.lookup t := by
  show (keys.foldl (fun m s => m.erase s) r.sdkClients).lookup t = _
  generalize r.sdkClients = m
  induction keys generalizing m with
  | nil => simp
  | cons s keys ih =>
    rw [List.foldl_cons, ih, HashMap.lookup_erase_eq]
    by_cases hts : t = s <;> simp [hts]

theorem client_removedAll (r : Inner S) (keys : List ServerSdkKey) (t : ServerSdkKey) :
    (r.removedAll keys).client t = if t ∈ keys then none else r.client t := by
  unfold client
  rw [lookup_removedAll]
  split <;> rfl

theorem mem_removedAll {r : Inner S} {keys : List ServerSdkKey} {t : ServerSdkKey} :
    t ∈ (r.removedAll keys).sdkClients ↔ t ∉ keys ∧ t ∈ r.sdkClients := by
  rw [← Finmap.lookup_isSome, ← Finmap.lookup_isSome, lookup_removedAll]
  by_cases ht : t ∈ keys <;> simp [ht]

/-- A pass does not panic: `sync` does not on any key of the reverse index. -/
def CanPass (r : Inner S) : Prop :=
  0 < r.secretMapping.version → ∀ s ∈ r.secretMapping.reverse, r.CanSync s

section
variable {r : Inner S} (πr : IterOrder ServerSdkKey ClientSdkKey) (πc : IterOrder ServerSdkKey ClientId)

theorem run_updateClients_of_zero (hv : r.secretMapping.version = 0) :
    (updateClients πr πc).run r = (some (), r) := by
  simp [updateClients, readMapping, readClients, exec, hv]

theorem canSync_serverSdkKeys :
    (∀ s ∈ r.secretMapping.serverSdkKeys πr, r.CanSync s) ↔ ∀ s ∈ r.secretMapping.reverse, r.CanSync s := by
  simp only [SecretMapping.mem_serverSdkKeys]

theorem run_updateClients_of_ready (hv : 0 < r.secretMapping.version) (hp : r.CanPass) :
    (updateClients πr πc).run r = (some (), (r.ensuredAll (r.secretMapping.serverSdkKeys πr)).removedAll
      ((πc.keys r.sdkClients).filter (· ∉ r.secretMapping.serverSdkKeys πr))) := by
  have hkeys := (canSync_serverSdkKeys πr).mpr (hp hv)
  simp only [updateClients, readMapping, readClients, Prog.run_guarded, Prog.run_bind, Prog.run_reading,
    interp_exec, exec, if_pos hv, run_tryForM_sync, if_pos hkeys, synced_eq_self hkeys]
  exact congrArg (Prod.mk (some ())) (run_forM_remove _ _ _)

theorem run_updateClients_of_not (hp : ¬ r.CanPass) :
    (updateClients πr πc).run r = (none, r.ensuredAll (r.synced (r.secretMapping.serverSdkKeys πr))) := by
  obtain ⟨hv, hkeys⟩ := Classical.not_imp.mp hp
  rw [← canSync_serverSdkKeys πr] at hkeys
  simp only [updateClients, readMapping, readClients, Prog.run_guarded, Prog.run_bind, Prog.run_reading,
    interp_exec, exec, if_pos hv, run_tryForM_sync, if_neg hkeys]
  rfl

/-- A pass panics exactly when it comes to a key without a client that `FPClient::new` does not accept. -/
theorem run_updateClients_isSome : ((updateClients πr πc).run r).1 = some () ↔ r.CanPass := by
  constructor
  · intro h
    by_contra hp
    rw [run_updateClients_of_not πr πc hp] at h
    cases h
  · intro hp
    rcases Nat.eq_zero_or_pos r.secretMapping.version with hv | hv
    · rw [run_updateClients_of_zero πr πc hv]
    · rw [run_updateClients_of_ready πr πc hv hp]

end

/-- What is true of the repository after its first loop, and after removals, is true after a pass. -/
theorem run_updateClients_cases {r : Inner S} (πr : IterOrder ServerSdkKey ClientSdkKey)
    (πc : IterOrder ServerSdkKey ClientId) {P : Inner S → Prop} (hr : P r)
    (hadd : ∀ keys, P (r.ensuredAll keys)) (hremove : ∀ r keys, P r → P (r.removedAll keys)) :
    P ((updateClients πr πc).run r).2 := by
  rcases Nat.eq_zero_or_pos r.secretMapping.version with hv | hv
  · rwa [run_updateClients_of_zero πr πc hv]
  · by_cases hp : r.CanPass
    · rw [run_updateClients_of_ready πr πc hv hp]
      exact hremove _ _ (hadd _)
    · rw [run_updateClients_of_not πr πc hp]
      exact hadd _

/-- A pass with a positive version leaves a client for exactly the keys of the reverse index. -/
theorem mem_updateClients {r : Inner S} (hv : 0 < r.secretMapping.version) (hp : r.CanPass)
    (πr : IterOrder ServerSdkKey ClientSdkKey) (πc : IterOrder ServerSdkKey ClientId) (t : ServerSdkKey) :
    t ∈ ((updateClients πr πc).run r).2.sdkClients ↔ t ∈ r.secretMapping.reverse := by
  rw [run_updateClients_of_ready πr πc hv hp, mem_removedAll, mem_ensuredAll]
  by_cases ht : t ∈ r.secretMapping.reverse
  · have hsync : t ∈ r.sdkClients ∨ S.accepts t = true := hp hv t ht
    simp [ht, πc.mem_keys, hsync.symm]
  · simp [ht, πc.mem_keys]

/-- A pass with a positive version leaves exactly the keys of the reverse index registered: old
clients as they were, the others new. -/
theorem client_updateClients {r : Inner S} (h : r.RegistryOk) (hv : 0 < r.secretMapping.version)
    (hp : r.CanPass) (πr : IterOrder ServerSdkKey ClientSdkKey) (πc : IterOrder ServerSdkKey ClientId)
    (t : ServerSdkKey) :
    ((updateClients πr πc).run r).2.client t =
      if t ∈ r.secretMapping.reverse then some ((r.client t).getD (r.fresh t)) else none := by
  rw [run_updateClients_of_ready πr πc hv hp, client_removedAll, client_ensuredAll h]
  by_cases ht : t ∈ r.secretMapping.reverse
  · simp [ht, hp hv t ht]
  · by_cases hc : t ∈ r.sdkClients
    · simp [ht, hc, πc.mem_keys]
    · simp [ht, hc, πc.mem_keys, client_of_notMem hc]

@[simp] theorem updateClients_secretMapping (r : Inner S) (πr : IterOrder ServerSdkKey ClientSdkKey)
    (πc : IterOrder ServerSdkKey ClientId) :
    ((updateClients πr πc).run r).2.secretMapping = r.secretMapping :=
  run_updateClients_cases πr πc (P := fun r' => r'.secretMapping = r.secretMapping) rfl
    (ensuredAll_secretMapping r) fun _ _ h => h

/-! ### `update_mapping` -/

theorem run_updateMapping (π : IterOrder ClientSdkKey ServerSdkKey) (new : SecretMapping) (r : Inner S) :
    ((updateMapping π new).run r).2 = { r with secretMapping := r.secretMapping.updateMapping π new } := by
  by_cases hv : new.version > r.secretMapping.version
  · simp [updateMapping, readMapping, exec, hv]
  · have hle : new.version ≤ r.secretMapping.version := Nat.not_lt.mp hv
    simp [updateMapping, readMapping, exec, hv, SecretMapping.updateMapping_of_le π hle]

/-! ### Requests -/

/-- What a request that reads `f` of the repository of `sdkKey`'s client returns. -/
def answer (r : Inner S) (f : S.Repo → Except String S.Json) (sdkKey : ServerSdkKey) :
    Except FPServerError S.Json :=
  match r.client sdkKey with
  | some i => if i.initialized then (f i.repo).mapError .jsonError else .error (.notReady sdkKey)
  | none => .error (.notReady sdkKey)

/-- What a client endpoint that reads `f` returns. -/
def clientAnswer (r : Inner S) (f : S.Repo → Except String S.Json) (clientSdkKey : ClientSdkKey) :
    Except FPServerError S.Json :=
  if r.secretMapping.version = 0 then .error (.notReady clientSdkKey)
  else match r.secretMapping.mapping.lookup clientSdkKey with
    | some sdkKey => r.answer f sdkKey
    | none => .error (.notFound clientSdkKey)

/-- The client of `sdkKey` has received its toggles. -/
def Ready (r : Inner S) (sdkKey : ServerSdkKey) : Prop :=
  ∃ i, r.client sdkKey = some i ∧ i.initialized = true

theorem answer_of_initialized {r : Inner S} {s : ServerSdkKey} {i : FPClient S} (hi : r.client s = some i)
    (h : i.initialized = true) (f : S.Repo → Except String S.Json) :
    r.answer f s = (f i.repo).mapError .jsonError := by
  simp [answer, hi, h]

theorem answer_of_not_ready {r : Inner S} {s : ServerSdkKey} (h : ¬ r.Ready s)
    (f : S.Repo → Except String S.Json) : r.answer f s = .error (.notReady s) := by
  unfold answer
  cases hi : r.client s with
  | none => rfl
  | some i => exact if_neg fun hn => h ⟨i, hi, hn⟩

theorem clientAnswer_of_zero {r : Inner S} (hv : r.secretMapping.version = 0)
    (f : S.Repo → Except String S.Json) (c : ClientSdkKey) : r.clientAnswer f c = .error (.notReady c) :=
  if_pos hv

theorem clientAnswer_of_mapped {r : Inner S} (hv : 0 < r.secretMapping.version) {c : ClientSdkKey}
    {s : ServerSdkKey} (hc : r.secretMapping.mapping.lookup c = some s) (f : S.Repo → Except String S.Json) :
    r.clientAnswer f c = r.answer f s := by
  unfold clientAnswer
  rw [if_neg (by omega), hc]

theorem clientAnswer_of_unmapped {r : Inner S} (hv : 0 < r.secretMapping.version) {c : ClientSdkKey}
    (hc : r.secretMapping.mapping.lookup c = none) (f : S.Repo → Except String S.Json) :
    r.clientAnswer f c = .error (.notFound c) := by
  unfold clientAnswer
  rw [if_neg (by omega), hc]

theorem run_ofClient (s : ServerSdkKey) (f : S.Repo → Except String S.Json) (r : Inner S) :
    (ofClient s f).run r = (r.answer f s, r) := by
  cases hl : r.sdkClients.lookup s with
  | none => simp [ofClient, readClients, exec, answer, client, hl]
  | some id =>
    cases hi : r.instances[id]? with
    | none =>
      simp [ofClient, readClients, exec, answer, client, hl, hi, initialized, clientInitialized]
    | some i =>
      cases hn : i.initialized <;>
        simp [ofClient, readClients, exec, answer, client, hl, hi, hn, initialized, clientInitialized,
          readRepo, clientRepo]

end Inner

namespace SdkRepository
variable {S : Sdk}

theorem run_sync (c : ClientSdkKey) (s : ServerSdkKey) (v : Nat) (r : Inner S) :
    (sync c s v).run r = if r.CanSync s then
      (some (), { r.ensured s with secretMapping := r.secretMapping.insert c s v }) else (none, r) := by
  by_cases hs : r.CanSync s
  · simp [sync, Inner.exec, Inner.run_sync, hs]
  · simp [sync, Inner.run_sync, hs, Inner.ensured_of_not hs]

theorem run_serverSdkRepoString (s : ServerSdkKey) (r : Inner S) :
    (serverSdkRepoString s).run r =
      (if r.secretMapping.version = 0 then .error (.notReady s)
        else if s ∈ r.secretMapping.reverse then r.answer S.repoJson s else .error (.notFound s), r) := by
  by_cases hv : r.secretMapping.version = 0
  · simp [serverSdkRepoString, readMapping, Inner.exec, hv]
  · by_cases hs : s ∈ r.secretMapping.reverse
    · cases ha : r.answer S.repoJson s <;>
        simp [serverSdkRepoString, readMapping, Inner.exec, hv, hs, SecretMapping.containsServerSdkKey,
          Inner.repoString, Inner.run_ofClient, ha]
    · simp [serverSdkRepoString, readMapping, Inner.exec, hv, hs, SecretMapping.containsServerSdkKey]

theorem run_byClientKey (c : ClientSdkKey) (f : S.Repo → Except String S.Json) (r : Inner S) :
    (byClientKey c fun s => Inner.ofClient s f).run r = (r.clientAnswer f c, r) := by
  by_cases hv : r.secretMapping.version = 0
  · rw [Inner.clientAnswer_of_zero hv]
    simp [byClientKey, readMapping, Inner.exec, hv]
  · have hpos : 0 < r.secretMapping.version := by omega
    cases hs : r.secretMapping.mapping.lookup c with
    | none =>
      rw [Inner.clientAnswer_of_unmapped hpos hs]
      simp [byClientKey, readMapping, Inner.exec, hv, hs, SecretMapping.serverSdkKey]
    | some s =>
      rw [Inner.clientAnswer_of_mapped hpos hs]
      simp [byClientKey, readMapping, Inner.exec, hv, hs, SecretMapping.serverSdkKey, Inner.run_ofClient]

theorem run_clientSdkEvalString (π : IterOrder String S.Toggle) (c : ClientSdkKey) (u : S.User)
    (r : Inner S) :
    (clientSdkEvalString π c u).run r =
      (r.clientAnswer (fun repo => S.detailsJson (Inner.evaluated π repo u)) c, r) :=
  run_byClientKey c _ r

theorem run_clientSdkEventsString (c : ClientSdkKey) (r : Inner S) :
    (clientSdkEventsString c).run r = (r.clientAnswer (fun repo => S.eventsJson repo.events) c, r) :=
  run_byClientKey c _ r

end SdkRepository

/-! ### Sequences of calls -/

section
variable {S : Sdk}

/-- The call does not panic on `r`. -/
def Call.Returns (call : Call S) (r : Inner S) : Prop := (call.prog.run r).1 ≠ .panic

/-- The repository after the call. -/
def Call.exec (call : Call S) (r : Inner S) : Inner S := (call.prog.run r).2

theorem Call.exec_sync {r : Inner S} {s : ServerSdkKey} (hs : r.CanSync s) (c : ClientSdkKey) (v : Nat) :
    (Call.sync c s v).exec r = { r.ensured s with secretMapping := r.secretMapping.insert c s v } := by
  simp [Call.exec, Call.prog, SdkRepository.run_sync, hs]

/-- A `sync` that panics leaves the repository as it is. -/
theorem Call.exec_sync_of_not {r : Inner S} {s : ServerSdkKey} (hs : ¬ r.CanSync s) (c : ClientSdkKey)
    (v : Nat) : (Call.sync c s v).exec r = r := by
  simp [Call.exec, Call.prog, SdkRepository.run_sync, hs]

theorem Call.returns_sync {r : Inner S} {c : ClientSdkKey} {s : ServerSdkKey} {v : Nat} :
    (Call.sync c s v).Returns r ↔ r.CanSync s := by
  by_cases hs : r.CanSync s <;> simp [Call.Returns, Call.prog, SdkRepository.run_sync, hs, Reply.ofOption]

theorem Call.returns_updateClients {r : Inner S} {πr : IterOrder ServerSdkKey ClientSdkKey}
    {πc : IterOrder ServerSdkKey ClientId} : (Call.updateClients πr πc).Returns r ↔ r.CanPass := by
  rw [← Inner.run_updateClients_isSome πr πc]
  unfold Call.Returns Call.prog
  rw [Prog.run_bind, Prog.run_pure]
  cases ((Inner.updateClients πr πc).run r).1 <;> simp [Reply.ofOption]

theorem Call.exec_updateMapping (π : IterOrder ClientSdkKey ServerSdkKey) (new : SecretMapping)
    (r : Inner S) :
    (Call.updateMapping π new).exec r = { r with secretMapping := r.secretMapping.updateMapping π new } := by
  simp [Call.exec, Call.prog, Inner.run_updateMapping]

theorem Call.exec_updateClients (πr : IterOrder ServerSdkKey ClientSdkKey)
    (πc : IterOrder ServerSdkKey ClientId) (r : Inner S) :
    (Call.updateClients πr πc).exec r = ((Inner.updateClients πr πc).run r).2 := by
  simp [Call.exec, Call.prog]

theorem Call.exec_receive (id : ClientId) (repo : S.Repo) (r : Inner S) :
    (Call.receive id repo).exec r = { r with instances := r.instances.modify id (·.receive repo) } := rfl

/-- The repository after `calls`, one after the other. -/
def Inner.after (r : Inner S) (calls : List (Call S)) : Inner S := calls.foldl (fun r call => call.exec r) r

theorem Inner.after_snoc (r : Inner S) (calls : List (Call S)) (call : Call S) :
    r.after (calls ++ [call]) = call.exec (r.after calls) := List.foldl_concat ..

end
end FeatureProbeServer
