import FeatureProbeServer.Evaluation

/-!
# Tenant isolation

Two polling runs that agree on the tenant `s` answer every request for `s` alike, whatever the other
tenants do in either, as long as no pass that has work to do for `s` panics on another tenant's key.
`Low` is what the runs keep in common: the version, the client keys mapped to `s`, and what `s`'s client
holds.
-/

namespace FeatureProbeServer
open Guarded

namespace Inner
variable {S : Sdk}

/-! ### What the tenant sees -/

/-- What the client of `s` holds. -/
def content (r : Inner S) (s : ServerSdkKey) : Option (Bool × S.Repo) :=
  (r.client s).map fun i => (i.initialized, i.repo)

structure Low (s : ServerSdkKey) (r r' : Inner S) : Prop where
  indexed : r.secretMapping.Indexed ∧ r'.secretMapping.Indexed
  registry : r.RegistryOk ∧ r'.RegistryOk
  version : r.secretMapping.version = r'.secretMapping.version
  clients : ∀ c, r.secretMapping.mapping.lookup c = some s ↔ r'.secretMapping.mapping.lookup c = some s
  content : r.content s = r'.content s
  refused : S.accepts s = false → s ∉ r.sdkClients ∧ s ∉ r'.sdkClients

variable {s : ServerSdkKey} {r r' : Inner S}

theorem answer_eq (f : S.Repo → Except String S.Json) :
    r.answer f s = match r.content s with
      | some (true, repo) => (f repo).mapError .jsonError
      | _ => .error (.notReady s) := by
  unfold answer Inner.content
  cases r.client s with
  | none => rfl
  | some i => cases h : i.initialized <;> simp [h]

theorem Low.answer (h : Low s r r') (f : S.Repo → Except String S.Json) : r.answer f s = r'.answer f s := by
  rw [answer_eq, answer_eq, h.content]

theorem Low.clientAnswer (h : Low s r r') (f : S.Repo → Except String S.Json) {c : ClientSdkKey}
    (hc : r.secretMapping.mapping.lookup c = some s) : r.clientAnswer f c = r'.clientAnswer f c := by
  have hc' := (h.clients c).mp hc
  have hver := h.version
  rcases Nat.eq_zero_or_pos r.secretMapping.version with hv | hv
  · rw [clientAnswer_of_zero hv, clientAnswer_of_zero (hver ▸ hv)]
  · rw [clientAnswer_of_mapped hv hc, clientAnswer_of_mapped (hver ▸ hv) hc', h.answer]

theorem Low.mem_reverse (h : Low s r r') : s ∈ r.secretMapping.reverse ↔ s ∈ r'.secretMapping.reverse := by
  rw [h.indexed.1.mem_reverse, h.indexed.2.mem_reverse]
  exact exists_congr h.clients

/-- The requests for `s` and for its client keys have the same outcomes. -/
structure SameOutcomes (s : ServerSdkKey) (r r' : Inner S) : Prop where
  server : r.serverAnswer s = r'.serverAnswer s
  eval : ∀ c, r.secretMapping.mapping.lookup c = some s → ∀ π π' u,
    r.evalAnswer π c u = r'.evalAnswer π' c u
  events : ∀ c, r.secretMapping.mapping.lookup c = some s → r.eventsAnswer c = r'.eventsAnswer c

theorem Low.sameOutcomes (h : Low s r r') : SameOutcomes s r r' where
  server := by
    simp only [serverAnswer, SdkRepository.run_serverSdkRepoString, h.version, h.mem_reverse, h.answer]
  eval c hc π π' u := by
    rw [evalAnswer_eq, evalAnswer_eq, h.clientAnswer _ hc]
    simp only [evaluated_congr π π']
  events c hc := by
    rw [eventsAnswer_eq, eventsAnswer_eq, h.clientAnswer _ hc]

/-! ### Steps of the two runs -/

theorem low_new (s : ServerSdkKey) (cfg cfg' : ServerConfig) :
    Low s (SdkRepository.new cfg : Inner S) (SdkRepository.new cfg') where
  indexed := ⟨SecretMapping.indexed_default, SecretMapping.indexed_default⟩
  registry := ⟨registryOk_new cfg, registryOk_new cfg'⟩
  version := rfl
  clients _ := Iff.rfl
  content := rfl
  refused _ := ⟨Finmap.notMem_empty, Finmap.notMem_empty⟩

theorem Low.updateMapping (h : Low s r r') (π π' : IterOrder ClientSdkKey ServerSdkKey)
    {new new' : SecretMapping} (hv : new.version = new'.version)
    (hc : ∀ c, new.mapping.lookup c = some s ↔ new'.mapping.lookup c = some s) :
    Low s ((Call.updateMapping π new).exec r) ((Call.updateMapping π' new').exec r') := by
  rw [Call.exec_updateMapping, Call.exec_updateMapping]
  refine ⟨⟨h.indexed.1.updateMapping π new, h.indexed.2.updateMapping π' new'⟩, h.registry, ?_, ?_, h.content,
    h.refused⟩
  · show (r.secretMapping.updateMapping π new).version = (r'.secretMapping.updateMapping π' new').version
    rw [SecretMapping.version_updateMapping, SecretMapping.version_updateMapping, h.version, hv]
  · intro c
    show (r.secretMapping.updateMapping π new).mapping.lookup c = some s ↔
      (r'.secretMapping.updateMapping π' new').mapping.lookup c = some s
    have hver := h.version
    -- both runs take their payload or both ignore it
    rcases r.secretMapping.updateMapping_cases π new with ⟨hlt, he⟩ | ⟨hle, he⟩
    · rw [he, SecretMapping.updateMapping_of_newer π' (by omega)]
      exact hc c
    · rw [he, SecretMapping.updateMapping_of_le π' (by omega)]
      exact h.clients c

/-- A pass from here reaches the tenant: it does not panic, or has nothing to do for `s`. -/
def PassReaches (s : ServerSdkKey) (r : Inner S) : Prop :=
  r.CanPass ∨ (s ∈ r.sdkClients ↔ s ∈ r.secretMapping.reverse) ∨ S.accepts s = false

/-- A pass that panics changes nothing for a key that has a client, is not mapped or is refused itself. -/
theorem client_of_not_canPass (hr : r.RegistryOk) (hp : ¬ r.CanPass)
    (hs : s ∈ r.sdkClients ∨ s ∉ r.secretMapping.reverse ∨ S.accepts s = false)
    (πr : IterOrder ServerSdkKey ClientSdkKey) (πc : IterOrder ServerSdkKey ClientId) :
    ((Inner.updateClients πr πc).run r).2.client s = r.client s := by
  rw [run_updateClients_of_not πr πc hp, client_ensuredAll hr]
  split
  case isTrue h =>
    obtain ⟨hkeys, hsync⟩ := h
    have hrev : s ∈ r.secretMapping.reverse :=
      (SecretMapping.mem_serverSdkKeys _ πr s).mp (List.takeWhile_subset _ hkeys)
    have hmem : s ∈ r.sdkClients := by
      rcases hs with hs | hs | hs
      · exact hs
      · exact absurd hrev hs
      · exact hsync.resolve_right (by simp [hs])
    obtain ⟨i, hi, -⟩ := hr s hmem
    rw [hi]; rfl
  case isFalse => rfl

theorem content_updateClients (hr : r.RegistryOk) (hv : 0 < r.secretMapping.version)
    (hp : r.PassReaches s) (href : S.accepts s = false → s ∉ r.sdkClients)
    (πr : IterOrder ServerSdkKey ClientSdkKey) (πc : IterOrder ServerSdkKey ClientId) :
    ((Inner.updateClients πr πc).run r).2.content s =
      if s ∈ r.secretMapping.reverse ∧ S.accepts s = true then
        some ((r.content s).getD (false, S.defaultRepo)) else none := by
  have accepted : s ∈ r.sdkClients → S.accepts s = true := fun hs =>
    Bool.of_not_eq_false fun ha => href ha hs
  rw [Inner.content, Inner.content]
  by_cases hpass : r.CanPass
  · rw [client_updateClients hr hv hpass]
    by_cases hs : s ∈ r.secretMapping.reverse
    · have ha : S.accepts s = true := (hpass hv s hs).elim accepted id
      rw [if_pos hs, if_pos ⟨hs, ha⟩]
      cases r.client s <;> rfl
    · rw [if_neg hs, if_neg fun h => hs h.1]
      rfl
  · rcases hp.resolve_left hpass with hsame | ha
    · have hsettled : s ∈ r.sdkClients ∨ s ∉ r.secretMapping.reverse := by tauto
      rw [client_of_not_canPass hr hpass (hsettled.imp_right .inl)]
      by_cases hs : s ∈ r.secretMapping.reverse
      · have hmem := hsame.mpr hs
        obtain ⟨i, hi, -⟩ := hr s hmem
        rw [if_pos ⟨hs, accepted hmem⟩, hi]
        rfl
      · rw [if_neg fun h => hs h.1, client_of_notMem fun hmem => hs (hsame.mp hmem)]
        rfl
    · rw [client_of_not_canPass hr hpass (.inr (.inr ha)), if_neg (by simp [ha]), client_of_notMem (href ha)]
      rfl

/-- No pass gives a refused key a client. -/
theorem refused_updateClients (ha : S.accepts s = false) (hs : s ∉ r.sdkClients)
    (πr : IterOrder ServerSdkKey ClientSdkKey) (πc : IterOrder ServerSdkKey ClientId) :
    s ∉ ((Inner.updateClients πr πc).run r).2.sdkClients := by
  refine run_updateClients_cases πr πc (P := fun r' => s ∉ r'.sdkClients) hs (fun keys h => ?_)
    fun r' keys h => ?_
  · rcases mem_ensuredAll.mp h with ⟨-, ha'⟩ | h
    · rw [ha] at ha'; cases ha'
    · exact hs h
  · exact fun h' => h (mem_removedAll.mp h').2

theorem Low.updateClients (h : Low s r r') (hp : r.PassReaches s) (hp' : r'.PassReaches s)
    (πr πr' : IterOrder ServerSdkKey ClientSdkKey) (πc πc' : IterOrder ServerSdkKey ClientId) :
    Low s ((Call.updateClients πr πc).exec r) ((Call.updateClients πr' πc').exec r') := by
  have keeps : ∀ πr πc, (Call.updateClients πr πc : Call S).Moves (Keeps SecretMapping.Indexed) :=
    fun _ _ => trivial
  have hr := (keeps πr πc).exec r
  have hr' := (keeps πr' πc').exec r'
  refine ⟨⟨hr.mapping h.indexed.1, hr'.mapping h.indexed.2⟩,
    ⟨hr.registry h.registry.1, hr'.registry h.registry.2⟩, ?_, ?_, ?_, ?_⟩ <;>
    rw [Call.exec_updateClients, Call.exec_updateClients]
  · simpa using h.version
  · simpa using h.clients
  · rcases Nat.eq_zero_or_pos r.secretMapping.version with hv | hv
    · rw [run_updateClients_of_zero πr πc hv, run_updateClients_of_zero πr' πc' (h.version ▸ hv)]
      exact h.content
    · rw [content_updateClients h.registry.1 hv hp fun ha => (h.refused ha).1,
        content_updateClients h.registry.2 (h.version ▸ hv) hp' fun ha => (h.refused ha).2, h.content]
      simp only [h.mem_reverse]
  · intro ha
    obtain ⟨hs, hs'⟩ := h.refused ha
    exact ⟨refused_updateClients ha hs πr πc, refused_updateClients ha hs' πr' πc'⟩

theorem content_receive (r : Inner S) (id : ClientId) (repo : S.Repo) :
    ((Call.receive id repo).exec r).content s =
      if r.sdkClients.lookup s = some id then (r.content s).map fun p => (true, S.fetched p.2 repo)
      else r.content s := by
  rw [Call.exec_receive]
  unfold Inner.content client
  cases hl : r.sdkClients.lookup s with
  | none => simp
  | some id' =>
    by_cases hid : id' = id
    · subst id'
      simp [FPClient.receive, Function.comp_def]
    · simp [hid, Ne.symm hid]

theorem receive_invariants (hi : r.secretMapping.Indexed) (hr : r.RegistryOk) (id : ClientId)
    (repo : S.Repo) :
    ((Call.receive id repo).exec r).secretMapping.Indexed ∧ ((Call.receive id repo).exec r).RegistryOk := by
  have keeps : (Call.receive id repo).Moves (Keeps SecretMapping.Indexed) := trivial
  exact ⟨(keeps.exec r).mapping hi, (keeps.exec r).registry hr⟩

/-- The client of `s` receives the same toggles in both runs. -/
theorem Low.deliver (h : Low s r r') {id id' : ClientId} (hid : r.sdkClients.lookup s = some id)
    (hid' : r'.sdkClients.lookup s = some id') (repo : S.Repo) :
    Low s ((Call.receive id repo).exec r) ((Call.receive id' repo).exec r') := by
  obtain ⟨hi, hr⟩ := receive_invariants h.indexed.1 h.registry.1 id repo
  obtain ⟨hi', hr'⟩ := receive_invariants h.indexed.2 h.registry.2 id' repo
  refine ⟨⟨hi, hi'⟩, ⟨hr, hr'⟩, h.version, h.clients, ?_, h.refused⟩
  rw [content_receive, content_receive, if_pos hid, if_pos hid', h.content]

/-- An instance that is not the client of `s` receives toggles in one run. -/
theorem Low.elsewhere (h : Low s r r') {id : ClientId} (hid : r.sdkClients.lookup s ≠ some id)
    (repo : S.Repo) : Low s ((Call.receive id repo).exec r) r' := by
  obtain ⟨hi, hr⟩ := receive_invariants h.indexed.1 h.registry.1 id repo
  refine ⟨⟨hi, h.indexed.2⟩, ⟨hr, h.registry.2⟩, h.version, h.clients, ?_, h.refused⟩
  rw [content_receive, if_neg hid, h.content]

theorem Low.symm (h : Low s r r') : Low s r' r :=
  ⟨h.indexed.symm, h.registry.symm, h.version.symm, fun c => (h.clients c).symm, h.content.symm,
    fun ha => (h.refused ha).symm⟩

/-! ### Two runs -/

/-- The states after corresponding steps of two polling runs that agree on `s`, whose passes start in states
with `P`. Payloads correspond when their versions and the client keys they map to `s` are the same;
deliveries to the client of `s` correspond, any other delivery happens in one run alone. -/
inductive Twin (s : ServerSdkKey) (P : Inner S → Prop) : Inner S → Inner S → Prop
  | new (cfg cfg' : ServerConfig) : Twin s P (SdkRepository.new cfg) (SdkRepository.new cfg')
  | updateMapping {r r' : Inner S} (h : Twin s P r r') (π π' : IterOrder ClientSdkKey ServerSdkKey)
    (new new' : SecretMapping) (hv : new.version = new'.version)
    (hc : ∀ c, new.mapping.lookup c = some s ↔ new'.mapping.lookup c = some s) :
    Twin s P ((Call.updateMapping π new).exec r) ((Call.updateMapping π' new').exec r')
  | updateClients {r r' : Inner S} (h : Twin s P r r') (hp : P r) (hp' : P r')
    (πr πr' : IterOrder ServerSdkKey ClientSdkKey) (πc πc' : IterOrder ServerSdkKey ClientId) :
    Twin s P ((Call.updateClients πr πc).exec r) ((Call.updateClients πr' πc').exec r')
  | deliver {r r' : Inner S} (h : Twin s P r r') (id id' : ClientId) (repo : S.Repo)
    (hid : r.sdkClients.lookup s = some id) (hid' : r'.sdkClients.lookup s = some id') :
    Twin s P ((Call.receive id repo).exec r) ((Call.receive id' repo).exec r')
  | left {r r' : Inner S} (h : Twin s P r r') (id : ClientId) (repo : S.Repo)
    (hid : r.sdkClients.lookup s ≠ some id) : Twin s P ((Call.receive id repo).exec r) r'
  | right {r r' : Inner S} (h : Twin s P r r') (id : ClientId) (repo : S.Repo)
    (hid : r'.sdkClients.lookup s ≠ some id) : Twin s P r ((Call.receive id repo).exec r')

theorem Twin.low (h : Twin s (PassReaches s) r r') : Low s r r' := by
  induction h with
  | new cfg cfg' => exact low_new s cfg cfg'
  | updateMapping _ π π' new new' hv hc ih => exact ih.updateMapping π π' hv hc
  | updateClients _ hp hp' πr πr' πc πc' ih => exact ih.updateClients hp hp' πr πr' πc πc'
  | deliver _ id id' repo hid hid' ih => exact ih.deliver hid hid' repo
  | left _ id repo hid ih => exact ih.elsewhere hid repo
  | right _ id repo hid ih => exact (ih.symm.elsewhere hid repo).symm

/-- Noninterference: where all passes reach the tenant, the outcomes of its requests do not depend on the
other tenants. -/
theorem Twin.isolated (h : Twin s (PassReaches s) r r') : SameOutcomes s r r' := h.low.sameOutcomes

theorem lookup_second {c d : ClientSdkKey} {s a : ServerSdkKey} (ha : a ≠ s) (hcd : c ≠ d) (c' : ClientSdkKey) :
    (Finmap.singleton c s : HashMap ClientSdkKey ServerSdkKey).lookup c' = some s ↔
      ((Finmap.singleton c s : HashMap ClientSdkKey ServerSdkKey).insert d a).lookup c' = some s := by
  rw [HashMap.lookup_insert_eq]
  by_cases hc : c' = d
  · subst c'
    rw [if_pos rfl]
    have hnone : (Finmap.singleton c s : HashMap ClientSdkKey ServerSdkKey).lookup d = none :=
      Finmap.lookup_eq_none.mpr fun h => hcd ((Finmap.mem_singleton _ _ _).mp h).symm
    simp [hnone, ha]
  · rw [if_neg hc]

/-- The second run has another tenant, created first, which also receives toggles. -/
theorem isolated_second_tenant : ∃ r r' : Inner Sdk.plain,
    r.sdkClients.keys = {"s"} ∧ r'.sdkClients.keys = {"s", "a"} ∧ SameOutcomes "s" r r' := by
  have h₁ := (Twin.new (s := "s") (P := PassReaches "s") (S := Sdk.plain) default default).updateMapping
    (.sorted _ _) (.sorted _ _) ⟨1, .singleton "c" "s", ∅⟩ ⟨1, (Finmap.singleton "c" "s").insert "d" "a", ∅⟩ rfl
    (lookup_second (by decide) (by decide))
  have h₂ := h₁.updateClients (.inl ((run_updateClients_isSome (.sorted _ _) (.sorted _ _)).mp (by decide)))
    (.inl ((run_updateClients_isSome (.sorted _ _) (.sorted _ _)).mp (by decide))) (.sorted _ _) (.sorted _ _)
    (.sorted _ _) (.sorted _ _)
  have h₃ := h₂.deliver 0 1 ⟨∅, .singleton "t" true, (), some 1⟩ (by decide) (by decide)
  have h₄ := h₃.right 0 ⟨∅, .singleton "t" false, (), some 9⟩ (by decide)
  exact ⟨_, _, by decide, by decide, h₄.isolated⟩

/-- The client of `s` is initialised in both runs. A payload withdraws `s`, in the second run with a key that
`FPClient::new` refuses: the pass removes the client in the first run only. Then `s` is back. -/
theorem not_isolated_refused :
    ¬ ∀ r r' : Inner Sdk.plain, Twin "s" (fun _ => True) r r' → SameOutcomes "s" r r' := by
  intro h
  have h₁ := (Twin.new (s := "s") (P := fun _ => True) (S := Sdk.plain) default default).updateMapping
    (.sorted _ _) (.sorted _ _) ⟨1, .singleton "c" "s", ∅⟩ ⟨1, .singleton "c" "s", ∅⟩ rfl fun _ => Iff.rfl
  have h₂ := h₁.updateClients trivial trivial (.sorted _ _) (.sorted _ _) (.sorted _ _) (.sorted _ _)
  have h₃ := h₂.deliver 0 0 ⟨∅, .singleton "t" true, (), some 1⟩ (by decide) (by decide)
  have hgone : ∀ c, (∅ : HashMap ClientSdkKey ServerSdkKey).lookup c = some "s" ↔
      (Finmap.singleton "d" "s\n" : HashMap ClientSdkKey ServerSdkKey).lookup c = some "s" := by
    intro c
    refine ⟨fun hc => by simp at hc, fun hc => ?_⟩
    obtain rfl := (Finmap.mem_singleton _ _ _).mp (Finmap.mem_of_lookup_eq_some hc)
    exact absurd hc (by decide)
  have h₄ := h₃.updateMapping (.sorted _ _) (.sorted _ _) ⟨2, ∅, ∅⟩ ⟨2, .singleton "d" "s\n", ∅⟩ rfl hgone
  have h₅ := h₄.updateClients trivial trivial (.sorted _ _) (.sorted _ _) (.sorted _ _) (.sorted _ _)
  have h₆ := h₅.updateMapping (.sorted _ _) (.sorted _ _) ⟨3, .singleton "c" "s", ∅⟩
    ⟨3, .singleton "c" "s", ∅⟩ rfl fun _ => Iff.rfl
  have hsame := congrArg (fun e => e.isOk) (h _ _ h₆).server
  revert hsame
  decide

end Inner
end FeatureProbeServer
