import FeatureProbeServer.Jobs
import FeatureProbeServer.RepoGuards

/-!
# Where the contents of the repository come from

In every state, toggles are the SDK's default ones or were delivered, key pairs are ones that a job
brought, and every registered client has a callback that names its own key and at most one client key,
paired with it by a job.
-/

namespace FeatureProbeServer
open Guarded

variable {W : Web}

/-- One of `jobs` may put the pair into the mapping. -/
def Introduced (jobs : List (Job W)) (c : ClientSdkKey) (s : ServerSdkKey) : Prop :=
  ∃ job ∈ jobs, job.Introduces c s

/-- Before a first delivery there are the SDK's default toggles. -/
def FPClient.Unused {S : Sdk} (i : FPClient S) : Prop := i.initialized = false → i.repo = S.defaultRepo

/-- Another job than the one with number `i` may set up a client for the server key. -/
def Contested (jobs : List (Job W)) (i : Nat) (s : ServerSdkKey) : Prop :=
  ∃ j job, j ≠ i ∧ jobs[j]? = some job ∧ job.Opens s

namespace Inner

/-- An instance after an operation: a new one, or an old one with what the operation gives it. -/
theorem instance_cases {S : Sdk} {r : Inner S} {o : Op S} {id : ClientId} {i' : FPClient S}
    (hi : (exec o r).instances[id]? = some i') :
    (∃ s, o = .newClient s ∧ id = r.instances.length ∧ i' = FPClient.new (r.fpConfig s)) ∨
    ∃ i, r.instances[id]? = some i ∧
      (i' = i ∨ (∃ t, o = .setUpdateCallback id t ∧ i' = i.setUpdateCallback t) ∨
        ∃ repo, o = .receive id repo ∧ i' = i.receive repo) := by
  have modified : ∀ {id' : ClientId} {f : FPClient S → FPClient S},
      (r.instances.modify id' f)[id]? = some i' → ∃ i, r.instances[id]? = some i ∧
        (i' = i ∨ id' = id ∧ i' = f i) := by
    intro id' f hi
    rw [List.getElem?_modify] at hi
    obtain ⟨i, hi, he⟩ := Option.map_eq_some_iff.mp hi
    refine ⟨i, hi, ?_⟩
    split at he
    · exact .inr ⟨‹_›, he.symm⟩
    · exact .inl he.symm
  cases o with
  | newClient s =>
    change (r.instances ++ [FPClient.new (r.fpConfig s)])[id]? = some i' at hi
    rcases Nat.lt_or_ge id r.instances.length with hlt | hge
    · rw [List.getElem?_append_left hlt] at hi
      exact .inr ⟨i', hi, .inl rfl⟩
    · rw [List.getElem?_append_right hge, List.getElem?_singleton] at hi
      split at hi
      · cases hi
        exact .inl ⟨s, rfl, Nat.le_antisymm (Nat.sub_eq_zero_iff_le.mp ‹_›) hge, rfl⟩
      · cases hi
  | setUpdateCallback id' t =>
    obtain ⟨i, hi, he | ⟨rfl, he⟩⟩ := modified hi
    · exact .inr ⟨i, hi, .inl he⟩
    · exact .inr ⟨i, hi, .inr (.inl ⟨t, rfl, he⟩)⟩
  | receive id' repo =>
    obtain ⟨i, hi, he | ⟨rfl, he⟩⟩ := modified hi
    · exact .inr ⟨i, hi, .inl he⟩
    · exact .inr ⟨i, hi, .inr (.inr ⟨repo, rfl, he⟩)⟩
  | _ => exact .inr ⟨i', hi, .inl rfl⟩

structure Sound (jobs : List (Job W)) (r : Inner W.sdk) : Prop where
  wired : ∀ s id, r.sdkClients.lookup s = some id → Wired s id r
  unused : ∀ (id : ClientId) (i : FPClient W.sdk), r.instances[id]? = some i → i.Unused
  toggles : ∀ id i, r.instances[id]? = some i →
    i.repo = W.sdk.defaultRepo ∨ .one (.receive id i.repo) ∈ jobs
  reverse : ∀ s c, r.secretMapping.reverse.lookup s = some c → Introduced jobs c s
  callbacks : ∀ (id : ClientId) (i : FPClient W.sdk) (t : NotifyTarget), r.instances[id]? = some i →
    i.updateCallback = some t → t.serverSdkKey = i.config.serverSdkKey ∧
      ∀ c, t.clientSdkKey = some c → Introduced jobs c t.serverSdkKey

/-- What `jobs` may do to the repository. -/
def Fits (jobs : List (Job W)) (r : Inner W.sdk) : Op W.sdk → Prop
  | .setUpdateCallback id t => Created t.serverSdkKey id r ∧
      ∀ c, t.clientSdkKey = some c → Introduced jobs c t.serverSdkKey
  | .insertClient s id => Wired s id r
  | .insertMapping c s _ => Introduced jobs c s
  | .updateMapping _ new => ∀ c s, new.mapping.lookup c = some s → Introduced jobs c s
  | .receive id repo => .one (.receive id repo) ∈ jobs
  | _ => True

variable {jobs : List (Job W)} {r : Inner W.sdk} {o : Op W.sdk}

theorem Sound.registryOk (h : r.Sound jobs) : r.RegistryOk :=
  registryOk_iff.mpr fun s id hs => (h.wired s id hs).created

theorem Sound.clientSdkKey (h : r.Sound jobs) {s : ServerSdkKey} {c : ClientSdkKey}
    (hc : r.secretMapping.clientSdkKey s = some c) : Introduced jobs c s := h.reverse s c hc

theorem sound_new (cfg : ServerConfig) : (SdkRepository.new cfg : Inner W.sdk).Sound jobs where
  wired s id h := by
    change (∅ : HashMap ServerSdkKey ClientId).lookup s = some id at h
    rw [Finmap.lookup_empty] at h
    cases h
  unused id i h := by cases h
  toggles id i h := by cases h
  reverse s c h := by
    change (∅ : HashMap ServerSdkKey ClientSdkKey).lookup s = some c at h
    rw [Finmap.lookup_empty] at h
    cases h
  callbacks id i t h := by cases h

theorem grows_of_fits (ho : r.Fits jobs o) : r.Grows (exec o r) :=
  grows_exec fun _ _ he => by subst he; exact ho.1

theorem wired_lookup_exec (ho : r.Fits jobs o) (h : r.Sound jobs) {s : ServerSdkKey} {id : ClientId}
    (hs : (exec o r).sdkClients.lookup s = some id) : Wired s id (exec o r) := by
  refine (grows_of_fits ho).wired s id ?_
  cases o with
  | insertClient s' id' =>
    change (r.sdkClients.insert s' id').lookup s = some id at hs
    rw [HashMap.lookup_insert_eq] at hs
    split at hs
    · subst s'; cases hs
      exact ho
    · exact h.wired s id hs
  | removeClient s' =>
    change (r.sdkClients.erase s').lookup s = some id at hs
    rw [HashMap.lookup_erase_eq] at hs
    split at hs
    · cases hs
    · exact h.wired s id hs
  | _ => exact h.wired s id hs

theorem introduced_exec (ho : r.Fits jobs o) (h : r.Sound jobs) {s : ServerSdkKey} {c : ClientSdkKey}
    (hc : (exec o r).secretMapping.reverse.lookup s = some c) : Introduced jobs c s := by
  cases o with
  | insertMapping c' s' v =>
    change (r.secretMapping.reverse.insert s' c').lookup s = some c at hc
    rw [HashMap.lookup_insert_eq] at hc
    split at hc
    · subst s'; cases hc
      exact ho
    · exact h.reverse s c hc
  | updateMapping π new =>
    change (r.secretMapping.updateMapping π new).reverse.lookup s = some c at hc
    rcases r.secretMapping.updateMapping_cases π new with ⟨-, he⟩ | ⟨-, he⟩ <;> rw [he] at hc
    · exact ho c s (SecretMapping.lookup_buildReverse hc)
    · exact h.reverse s c hc
  | _ => exact h.reverse s c hc

theorem sound_exec (ho : r.Fits jobs o) (h : r.Sound jobs) : (exec o r).Sound jobs where
  wired _ _ := wired_lookup_exec ho h
  unused id i' hi' hn := by
    rcases instance_cases hi' with ⟨s, -, -, rfl⟩ | ⟨i, hi, rfl | ⟨t, rfl, rfl⟩ | ⟨repo, rfl, rfl⟩⟩
    · rfl
    · exact h.unused id i' hi hn
    · exact h.unused id i hi hn
    · cases hn
  toggles id i' hi' := by
    rcases instance_cases hi' with ⟨s, -, -, rfl⟩ | ⟨i, hi, rfl | ⟨t, rfl, rfl⟩ | ⟨repo, rfl, rfl⟩⟩
    · exact .inl rfl
    · exact h.toggles id i' hi
    · exact h.toggles id i hi
    · show W.sdk.fetched i.repo repo = _ ∨ .one (.receive id (W.sdk.fetched i.repo repo)) ∈ jobs
      unfold Sdk.fetched
      split
      · exact .inr ho
      · exact h.toggles id i hi
  reverse _ _ := introduced_exec ho h
  callbacks id i' t hi' ht := by
    rcases instance_cases hi' with ⟨s, -, -, rfl⟩ | ⟨i, hi, rfl | ⟨t', rfl, rfl⟩ | ⟨repo, rfl, rfl⟩⟩
    · cases ht
    · exact h.callbacks id i' t hi ht
    · cases ht
      obtain ⟨⟨i₀, hi₀, hs⟩, hc⟩ := ho
      obtain rfl : i = i₀ := Option.some.inj (hi.symm.trans hi₀)
      exact ⟨hs.symm, hc⟩
    · exact h.callbacks id i t hi ht

/-- The others' steps. -/
structure Onward (jobs : List (Job W)) (r r' : Inner W.sdk) : Prop where
  grows : r.Grows r'
  sound : r.Sound jobs → r'.Sound jobs

instance : IsPreorder (Inner W.sdk) (Onward jobs) where
  refl r := ⟨refl_of Grows r, id⟩
  trans _ _ _ h h' := ⟨trans_of Grows h.grows h'.grows, h'.sound ∘ h.sound⟩

theorem onward_exec (ho : r.Fits jobs o) : Onward jobs r (exec o r) := ⟨grows_of_fits ho, sound_exec ho⟩

end Inner
end FeatureProbeServer
