import FeatureProbeServer.Lib.Rely
import FeatureProbeServer.RepoRun

/-!
# Calls beside each other

Rely and guarantee for the calls of `repo.rs`. `Admits R`: the relation `R` allows what any call does
to instances and registry. What is left to show for a claim is in `Call.Guarantees`: the changes of
the mapping, and the removals of a pass.
-/

namespace FeatureProbeServer
open Guarded

namespace Inner
variable {S : Sdk}

/-- The instance `id` was created for the key `s`. -/
def Created (s : ServerSdkKey) (id : ClientId) (r : Inner S) : Prop :=
  ∃ i, r.instances[id]? = some i ∧ i.config.serverSdkKey = s

structure Admits (R : Inner S → Inner S → Prop) : Prop where
  created : ∀ s id, Stable R (Created s id)
  newClient : ∀ r s, R r (exec (.newClient s) r)
  setUpdateCallback : ∀ r id t, R r (exec (.setUpdateCallback id t) r)
  insertClient : ∀ r s id, S.accepts s = true → Created s id r → R r (exec (.insertClient s id) r)
  receive : ∀ r id repo, R r (exec (.receive id repo) r)

theorem created_newClient (r : Inner S) (s : ServerSdkKey) :
    Created s r.instances.length (exec (.newClient s) r) :=
  ⟨FPClient.new (r.fpConfig s), by simp [exec], rfl⟩

variable {R : Inner S → Inner S → Prop} [IsPreorder (Inner S) R]

theorem wp_readMapping {Q : SecretMapping → Inner S → Prop} {r : Inner S}
    (h : ∀ r', R r r' → ∀ r'', R r' r'' → Q r'.secretMapping r'') : readMapping.wp R Q r :=
  Prog.wp_reading fun r' h' => ⟨refl_of R r', h r' h'⟩

theorem wp_setupNotify (hR : Admits R) (s : ServerSdkKey) (id : ClientId) (r : Inner S) :
    (setupNotify s id).wp R (fun _ _ => True) r := by
  refine Prog.wp_bind (Prog.wp_guarded (Prog.wp_bind (wp_readMapping fun r₁ _ r₂ _ => ?_)))
  exact fun r₃ _ r₄ _ => Prog.wp_perform fun r₅ _ => ⟨hR.setUpdateCallback r₅ _ _, fun _ _ => trivial⟩

/-- After `sync s`, `K` holds if it follows from `P` and the presence of `s`, unless `sync` panics. -/
theorem wp_sync (hR : Admits R) {P K : Inner S → Prop} (hP : Stable R P) (hK : Stable R K)
    {s : ServerSdkKey} (hPK : ∀ r, P r → s ∈ r.sdkClients → K r) {r : Inner S} (h : P r) :
    (sync s).wp R (fun a r' => a.elim (P r') fun _ => K r') r := by
  refine Prog.wp_bind (Prog.wp_guarded (Prog.wp_bind (Prog.wp_reading fun r₁ h₁ => ⟨refl_of R r₁, ?_⟩)))
  intro r₂ h₂ r₃ h₃ r₄ h₄
  have h₁₄ : R r₁ r₄ := trans_of R h₂ (trans_of R h₃ h₄)
  have P₁ : P r₁ := hP _ _ h₁ h
  by_cases hs : s ∈ r₁.sdkClients
  · -- there is a client already
    rw [decide_eq_true hs]
    have K₁ : K r₁ := hPK r₁ P₁ hs
    exact fun r₅ h₅ => hK _ _ (trans_of R h₁₄ h₅) K₁
  · rw [decide_eq_false hs]
    have P₄ : P r₄ := hP _ _ h₁₄ P₁
    refine Prog.wp_guarded (Prog.wp_bind ?_)
    cases ha : S.accepts s with
    | false =>
      rw [newClient, if_neg (by simp [ha])]
      refine Prog.wp_reading fun r₅ h₅ => ⟨refl_of R r₅, fun r₆ h₆ r₇ h₇ r₈ h₈ => ?_⟩
      exact hP _ _ (trans_of R h₅ (trans_of R h₆ (trans_of R h₇ h₈))) P₄
    | true =>
      rw [newClient, if_pos ha]
      refine Prog.wp_reading fun r₅ h₅ => ⟨hR.newClient r₅ s, fun r₆ h₆ => ?_⟩
      have P₅ : P r₅ := hP _ _ h₅ P₄
      have P₆ : P r₆ := hP _ _ (trans_of R (hR.newClient r₅ s) h₆) P₅
      have C₆ : Created s r₅.instances.length r₆ := hR.created s _ _ _ h₆ (created_newClient r₅ s)
      -- the callback changes neither
      have hnotify := Prog.wp_frame hP
        (Prog.wp_frame (hR.created s _) (wp_setupNotify hR s r₅.instances.length r₆) C₆) P₆
      refine Prog.wp_bind (Prog.wp_mono hnotify ?_)
      rintro - r₇ ⟨⟨-, C₇⟩, P₇⟩
      refine Prog.wp_bind (Prog.wp_perform fun r₈ h₈ => ?_)
      have C₈ : Created s r₅.instances.length r₈ := hR.created s _ _ _ h₈ C₇
      have hinsert := hR.insertClient r₈ s _ ha C₈
      have P₉ := hP _ _ hinsert (hP _ _ h₈ P₇)
      have K₉ := hPK _ P₉ (Finmap.mem_insert.mpr (.inl rfl))
      exact ⟨hinsert, fun r₉ h₉ r₁₀ h₁₀ r₁₁ h₁₁ => hK _ _ (trans_of R h₉ (trans_of R h₁₀ h₁₁)) K₉⟩

/-- A pass keeps what is stable if its removals are admitted; `m` is the mapping it has read. It removes only
after it has gone through all keys of the mapping. -/
theorem wp_updateClients (hR : Admits R) {P : Inner S → Prop} (hP : Stable R P)
    (hrm : ∀ r₀ r t, P r₀ → r₀.secretMapping.version > 0 → t ∉ r₀.secretMapping.reverse → P r →
      (∀ s ∈ r₀.secretMapping.reverse, ∃ r', P r' ∧ s ∈ r'.sdkClients) → R r (exec (.removeClient t) r))
    (πr : IterOrder ServerSdkKey ClientSdkKey) (πc : IterOrder ServerSdkKey ClientId) {r : Inner S}
    (h : P r) : (updateClients πr πc).wp R (fun _ => P) r := by
  refine Prog.wp_guarded (Prog.wp_bind (wp_readMapping fun r₀ h₀ r₁ h₁ => ?_))
  have P₀ : P r₀ := hP _ _ h₀ h
  refine Prog.wp_bind (Prog.wp_guarded (Prog.wp_reading fun r₂ h₂ => ⟨refl_of R r₂, ?_⟩))
  intro r₃ h₃ r₄ h₄
  have P₂ : P r₂ := hP _ _ (trans_of R h₁ h₂) P₀
  have P₄ : P r₄ := hP _ _ (trans_of R h₃ h₄) P₂
  split
  case isTrue hv =>
    -- the keys gone through have had a client
    have hI : ∀ d : List ServerSdkKey, Stable R fun r => P r ∧ ∀ s ∈ d, ∃ r', P r' ∧ s ∈ r'.sdkClients :=
      fun d _ _ h ⟨hp, hd⟩ => ⟨hP _ _ h hp, hd⟩
    have add : ∀ d s, d ++ [s] <+: r₀.secretMapping.serverSdkKeys πr →
        ∀ r, (P r ∧ ∀ s ∈ d, ∃ r', P r' ∧ s ∈ r'.sdkClients) → (sync s).wp R (fun a r' => a.elim (P r') fun _ =>
          P r' ∧ ∀ t ∈ d ++ [s], ∃ r', P r' ∧ t ∈ r'.sdkClients) r := by
      rintro d s - r ⟨hp, hd⟩
      refine wp_sync hR hP (hI _) (fun r hp hs => ⟨hp, List.forall_mem_append.mpr ⟨hd, ?_⟩⟩) hp
      exact List.forall_mem_singleton.mpr ⟨r, hp, hs⟩
    refine Prog.wp_bind (Prog.wp_mono (Prog.wp_tryForM hI hP add ⟨P₄, by simp⟩) fun synced r₅ h₅ => ?_)
    cases synced with
    | none => exact fun r₆ h₆ r₇ h₇ => hP _ _ (trans_of R h₆ h₇) h₅
    | some =>
      obtain ⟨P₅, hsynced⟩ := h₅
      have hreverse : ∀ s ∈ r₀.secretMapping.reverse, ∃ r', P r' ∧ s ∈ r'.sdkClients :=
        fun s hs => hsynced s ((SecretMapping.mem_serverSdkKeys _ πr s).mpr hs)
      refine Prog.wp_bind (Prog.wp_mono (Prog.wp_forM hP ?_ P₅) fun _ r₆ P₆ r₇ h₇ r₈ h₈ => ?_)
      · intro t _ r P'
        split
        case isTrue ht =>
          have hrev : t ∉ r₀.secretMapping.reverse := by simpa using ht
          refine Prog.wp_guarded (Prog.wp_perform fun r₆ h₆ => ?_)
          have P₆ : P r₆ := hP _ _ h₆ P'
          have hremove := hrm r₀ r₆ t P₀ hv hrev P₆ hreverse
          have P₇ := hP _ _ hremove P₆
          exact ⟨hremove, fun r₇ h₇ r₈ h₈ => hP _ _ (trans_of R h₇ h₈) P₇⟩
        case isFalse => exact fun r₆ h₆ => hP _ _ h₆ P'
      · exact hP _ _ (trans_of R h₇ h₈) P₆
  case isFalse => exact fun r₅ h₅ r₆ h₆ => hP _ _ (trans_of R h₅ h₆) P₄

theorem wp_updateMapping {P K : Inner S → Prop} (hP : Stable R P) (hK : Stable R K)
    {π : IterOrder ClientSdkKey ServerSdkKey} {new : SecretMapping}
    (hup : ∀ r, P r → R r (exec (.updateMapping π new) r))
    (hold : ∀ r, P r → new.version ≤ r.secretMapping.version → K r)
    (hnew : ∀ r, P r → K (exec (.updateMapping π new) r)) {r : Inner S} (h : P r) :
    (updateMapping π new).wp R (fun _ => K) r := by
  refine Prog.wp_bind (Prog.wp_guarded (Prog.wp_bind (wp_readMapping fun r₁ h₁ r₂ h₂ r₃ h₃ r₄ h₄ => ?_)))
  have h₁₄ : R r₁ r₄ := trans_of R h₂ (trans_of R h₃ h₄)
  have P₁ : P r₁ := hP _ _ h₁ h
  split
  · refine Prog.wp_guarded (Prog.wp_perform fun r₅ h₅ => ?_)
    have P₅ : P r₅ := hP _ _ (trans_of R h₁₄ h₅) P₁
    have K₆ := hnew r₅ P₅
    exact ⟨hup r₅ P₅, fun r₆ h₆ r₇ h₇ => hK _ _ (trans_of R h₆ h₇) K₆⟩
  · -- the version that was read is new enough, and `K` is stable
    have K₁ : K r₁ := hold r₁ P₁ (by omega)
    exact fun r₅ h₅ => hK _ _ (trans_of R h₁₄ h₅) K₁

end Inner

/-! ### Requests -/

section
variable {S : Sdk}

theorem Inner.readOnly_ofClient (s : ServerSdkKey) (f : S.Repo → Except String S.Json) :
    (Inner.ofClient s f).ReadOnly := by
  refine .guarded (.bind ⟨fun _ => rfl, fun _ => trivial⟩ fun clients => ?_)
  split
  · refine .bind ⟨fun _ => rfl, fun _ => trivial⟩ fun ready => ?_
    split
    · exact .pure _
    · exact .bind ⟨fun _ => rfl, fun _ => trivial⟩ fun _ => .pure _
  · exact .pure _

theorem SdkRepository.readOnly_byClientKey {c : ClientSdkKey}
    {k : ServerSdkKey → RepoM S (Except FPServerError S.Json)} (hk : ∀ s, (k s).ReadOnly) :
    (SdkRepository.byClientKey c k).ReadOnly := by
  refine .guarded (.bind ⟨fun _ => rfl, fun _ => trivial⟩ fun m => ?_)
  split
  · exact .pure _
  · cases m.serverSdkKey c with
    | some s => exact hk s
    | none => exact .pure _

theorem SdkRepository.readOnly_serverSdkRepoString (s : ServerSdkKey) :
    (SdkRepository.serverSdkRepoString s : RepoM S _).ReadOnly := by
  refine .guarded (.bind ⟨fun _ => rfl, fun _ => trivial⟩ fun m => ?_)
  split
  · exact .pure _
  · split
    · exact .pure _
    · refine .bind (Inner.readOnly_ofClient s _) fun e => ?_
      cases e with
      | ok j => exact .pure _
      | error e => exact .pure _

theorem SdkRepository.readOnly_clientSyncNow (s : ServerSdkKey) (t : SyncType) :
    (SdkRepository.clientSyncNow s t : RepoM S _).ReadOnly := by
  refine .guarded (.bind ⟨fun _ => rfl, fun _ => trivial⟩ fun clients => ?_)
  split
  · exact .bind ⟨fun _ => rfl, fun _ => trivial⟩ fun _ => .pure _
  · exact .pure _

/-- A request: a call that changes nothing here. -/
def Call.IsRequest : Call S → Prop
  | .sync .. | .updateMapping .. | .updateClients .. | .receive .. => False
  | _ => True

theorem Call.IsRequest.readOnly {call : Call S} (h : call.IsRequest) : call.prog.ReadOnly := by
  cases call with
  | serverSdkRepoString s => exact .bind (SdkRepository.readOnly_serverSdkRepoString s) fun _ => .pure _
  | clientSdkEvalString π c u =>
    exact .bind (SdkRepository.readOnly_byClientKey fun s => Inner.readOnly_ofClient s _) fun _ => .pure _
  | clientSdkEventsString c =>
    exact .bind (SdkRepository.readOnly_byClientKey fun s => Inner.readOnly_ofClient s _) fun _ => .pure _
  | clientSyncNow s t => exact .bind (SdkRepository.readOnly_clientSyncNow s t) fun _ => .pure _
  | secretKeys =>
    exact .bind (.guarded (.bind ⟨fun _ => rfl, fun _ => trivial⟩ fun _ => .pure _)) fun _ => .pure _
  | _ => exact h.elim

theorem Call.IsRequest.exec {call : Call S} (h : call.IsRequest) (r : Inner S) : call.exec r = r :=
  h.readOnly.run r

/-! ### All calls -/

/-- What is left to check of a call once `R` admits the registry's operations. -/
def Call.Guarantees (R : Inner S → Inner S → Prop) (P : Inner S → Prop) : Call S → Prop
  | .sync c s v => ∀ r, P r → R r (Inner.exec (.insertMapping c s v) r)
  | .updateMapping π new => ∀ r, P r → R r (Inner.exec (.updateMapping π new) r)
  | .updateClients _ _ => ∀ r₀ r t, P r₀ → r₀.secretMapping.version > 0 →
      t ∉ r₀.secretMapping.reverse → P r →
      (∀ s ∈ r₀.secretMapping.reverse, ∃ r', P r' ∧ s ∈ r'.sdkClients) → R r (Inner.exec (.removeClient t) r)
  | _ => True

theorem Call.Guarantees.wp {R : Inner S → Inner S → Prop} [IsPreorder (Inner S) R]
    (hR : Inner.Admits R) {P : Inner S → Prop} (hP : Stable R P) {call : Call S}
    (hc : call.Guarantees R P) {r : Inner S} (h : P r) : call.prog.wp R (fun _ _ => True) r := by
  have ret : ∀ (a : Reply S) (r : Inner S), (Pure.pure a : RepoM S (Reply S)).wp R (fun _ _ => True) r :=
    fun _ _ _ _ => trivial
  cases call with
  | sync c s v =>
    refine Prog.wp_bind (Prog.wp_bind (Prog.wp_mono (Inner.wp_sync hR hP hP (fun _ h _ => h) h) ?_))
    intro synced r₁ P₁
    cases synced with
    | none => exact fun _ _ => ret _ _
    | some =>
      refine Prog.wp_bind (Prog.wp_guarded (Prog.wp_perform fun r₂ h₂ => ⟨hc r₂ (hP _ _ h₂ P₁), ?_⟩))
      exact fun _ _ _ _ _ _ => ret _ _
  | updateMapping π new =>
    exact Prog.wp_bind (Prog.wp_mono (Inner.wp_updateMapping hP (stable_true R) hc
      (fun _ _ _ => trivial) (fun _ _ => trivial) h) fun _ r₁ _ => ret _ r₁)
  | updateClients πr πc =>
    exact Prog.wp_bind (Prog.wp_mono (Inner.wp_updateClients hR hP hc πr πc h) fun _ r₁ _ => ret _ r₁)
  | receive id repo =>
    exact Prog.wp_bind (Prog.wp_perform fun r₁ _ => ⟨hR.receive r₁ id repo, fun r₂ _ => ret _ r₂⟩)
  | _ => exact (Call.IsRequest.readOnly (by trivial)).wp r

end

/-! ### Changes of the mapping -/

namespace Inner
variable {S : Sdk}

/-- The mapping changes along `T`; instances stay, with their keys; the registry stays in order. -/
structure Rely (T : SecretMapping → SecretMapping → Prop) (r r' : Inner S) : Prop where
  mapping : T r.secretMapping r'.secretMapping
  created : ∀ s id, Created s id r → Created s id r'
  registry : r.RegistryOk → r'.RegistryOk

variable {T : SecretMapping → SecretMapping → Prop}

instance [IsPreorder SecretMapping T] : IsPreorder (Inner S) (Rely T) where
  refl _ := ⟨refl_of T _, fun _ _ h => h, id⟩
  trans _ _ _ h h' := ⟨trans_of T h.mapping h'.mapping, fun s id hc => h'.created s id (h.created s id hc),
    h'.registry ∘ h.registry⟩

theorem registryOk_iff {r : Inner S} :
    r.RegistryOk ↔ ∀ s id, r.sdkClients.lookup s = some id → Created s id r := by
  refine ⟨fun h s id hs => h.lookup hs, fun h s hs => ?_⟩
  obtain ⟨id, hid⟩ := Finmap.mem_iff.mp hs
  obtain ⟨i, hi, hk⟩ := h s id hid
  exact ⟨i, client_eq_some.mpr ⟨id, hid, hi⟩, hk⟩

theorem created_modify {s : ServerSdkKey} {id id' : ClientId} {r : Inner S} {f : FPClient S → FPClient S}
    (hf : ∀ i, (f i).config = i.config) (h : Created s id r) :
    Created s id { r with instances := r.instances.modify id' f } := by
  obtain ⟨i, hi, hk⟩ := h
  by_cases he : id' = id
  · subst id'
    exact ⟨f i, by simp [hi], by rw [hf, hk]⟩
  · exact ⟨i, by simp [hi, he], hk⟩

theorem created_exec (o : Op S) {s : ServerSdkKey} {id : ClientId} {r : Inner S} (h : Created s id r) :
    Created s id (exec o r) := by
  cases o with
  | newClient t =>
    obtain ⟨i, hi, hk⟩ := h
    exact ⟨i, (List.getElem?_append_left (List.getElem?_eq_some_iff.mp hi).1).trans hi, hk⟩
  | setUpdateCallback id' t => exact created_modify (fun i => i.setUpdateCallback_config t) h
  | receive id' repo => exact created_modify (fun i => i.receive_config repo) h
  | _ => exact h

theorem registryOk_exec {o : Op S} {r : Inner S} (ho : ∀ s id, o = .insertClient s id → Created s id r)
    (h : r.RegistryOk) : (exec o r).RegistryOk := by
  rw [registryOk_iff] at h ⊢
  intro s id hs
  refine created_exec o ?_
  cases o with
  | insertClient s' id' =>
    change (r.sdkClients.insert s' id').lookup s = some id at hs
    rw [HashMap.lookup_insert_eq] at hs
    split at hs
    · subst s'; cases hs
      exact ho s id rfl
    · exact h s id hs
  | removeClient s' =>
    change (r.sdkClients.erase s').lookup s = some id at hs
    rw [HashMap.lookup_erase_eq] at hs
    split at hs
    · cases hs
    · exact h s id hs
  | _ => exact h s id hs

theorem rely_exec {o : Op S} {r : Inner S} (hT : T r.secretMapping (exec o r).secretMapping)
    (ho : ∀ s id, o = .insertClient s id → Created s id r) : Rely T r (exec o r) :=
  ⟨hT, fun _ _ => created_exec o, registryOk_exec ho⟩

theorem admits_rely [IsPreorder SecretMapping T] : Admits (Rely T : Inner S → Inner S → Prop) where
  created s id _ _ h := h.created s id
  newClient r s := rely_exec (refl_of T _) nofun
  setUpdateCallback r id t := rely_exec (refl_of T _) nofun
  insertClient r s id _ h := rely_exec (refl_of T _) fun _ _ he => by cases he; exact h
  receive r id repo := rely_exec (refl_of T _) nofun

end Inner

section
variable {S : Sdk} {T : SecretMapping → SecretMapping → Prop}

/-- The call's own change of the mapping is along `T`. -/
def Call.Moves (T : SecretMapping → SecretMapping → Prop) : Call S → Prop
  | .sync c s v => ∀ m : SecretMapping, T m (m.insert c s v)
  | .updateMapping π new => ∀ m : SecretMapping, T m (m.updateMapping π new)
  | _ => True

variable [IsPreorder SecretMapping T]

theorem Call.Moves.wp {call : Call S} (h : call.Moves T) (r : Inner S) :
    call.prog.wp (Inner.Rely T) (fun _ _ => True) r := by
  refine Call.Guarantees.wp (P := fun _ => True) Inner.admits_rely (stable_true _) ?_ trivial
  cases call with
  | sync c s v => exact fun r _ => Inner.rely_exec (h _) nofun
  | updateMapping π new => exact fun r _ => Inner.rely_exec (h _) nofun
  | updateClients πr πc => exact fun _ r t _ _ _ _ _ => Inner.rely_exec (refl_of T _) nofun
  | _ => trivial

/-- Every state reached is related to the start. -/
theorem Server.rely {r : Inner S} {calls : List (Call S)} {c : Server S}
    (hm : ∀ call ∈ calls, call.Moves T) (h : Config.Reach (Server.start r calls) c) :
    Inner.Rely T r c.store := by
  refine (Config.Meets.reach (Q := fun _ _ _ => True) (Config.Meets.start fun i p hp => ?_) h).1
  obtain ⟨call, hc, rfl⟩ := List.mem_map.mp (List.mem_of_getElem? hp)
  exact (hm call hc).wp r

theorem Call.Moves.exec {call : Call S} (h : call.Moves T) (r : Inner S) : Inner.Rely T r (call.exec r) :=
  (Prog.wp_run (h.wp r)).1

theorem Inner.rely_after {calls : List (Call S)} (hm : ∀ call ∈ calls, call.Moves T) (r : Inner S) :
    Inner.Rely T r (r.after calls) := by
  induction calls generalizing r with
  | nil => exact refl_of _ r
  | cons call calls ih =>
    exact trans_of (Inner.Rely T) ((hm call (by simp)).exec r) (ih (fun c hc => hm c (by simp [hc])) _)

end

/-- Without `SdkRepository::sync` the index stays exact. -/
theorem Call.moves_indexed {S : Sdk} {call : Call S} (h : ∀ c s v, call ≠ .sync c s v) :
    call.Moves (Keeps SecretMapping.Indexed) := by
  cases call with
  | sync c s v => exact (h c s v rfl).elim
  | updateMapping π new => exact fun m hm => hm.updateMapping π new
  | _ => trivial

theorem registryOk_new {S : Sdk} (cfg : ServerConfig) : (SdkRepository.new cfg : Inner S).RegistryOk :=
  fun _ h => (Finmap.notMem_empty h).elim

end FeatureProbeServer
