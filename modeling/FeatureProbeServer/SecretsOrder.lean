import FeatureProbeServer.Notify
import FeatureProbeServer.Reconcile

/-!
# What a payload determines (`SecretMapping::update_mapping`)

The forward map and the keys of the index come from the payload alone. Which client key the index
names for a server key depends on the order of iteration as soon as the payload has two of them: the
last one wins.
-/

namespace FeatureProbeServer
open Guarded

namespace SecretMapping

theorem lookup_buildReverse_last {mapping : HashMap ClientSdkKey ServerSdkKey} {c : ClientSdkKey}
    {s : ServerSdkKey} (h : mapping.lookup c = some s) (π : IterOrder ClientSdkKey ServerSdkKey) :
    (buildReverse (π.last c) mapping).lookup s = some c := by
  obtain ⟨l, hl⟩ := π.entries_last h
  rw [buildReverse, hl, List.map_append]
  exact HashMap.lookup_extend_concat ..

/-- `s` has one client key at most. -/
def Distinct (m : SecretMapping) (s : ServerSdkKey) : Prop :=
  ∀ c c', m.mapping.lookup c = some s → m.mapping.lookup c' = some s → c = c'

variable {m m' new : SecretMapping}

theorem clientSdkKey_updateMapping (h : m.version < new.version) (π : IterOrder ClientSdkKey ServerSdkKey)
    (s : ServerSdkKey) : (m.updateMapping π new).clientSdkKey s = (buildReverse π new.mapping).lookup s := by
  rw [updateMapping_of_newer π h]; rfl

theorem clientSdkKey_eq_none {π : IterOrder ClientSdkKey ServerSdkKey} {s : ServerSdkKey}
    (h : ¬ ∃ c, new.mapping.lookup c = some s) : (buildReverse π new.mapping).lookup s = none :=
  Finmap.lookup_eq_none.mpr fun hs => h (mem_buildReverse.mp hs)

/-- All orders name one client key for `s` if and only if there is one at most. -/
theorem lookup_buildReverse_iff {s : ServerSdkKey} :
    (∀ π π', (buildReverse π new.mapping).lookup s = (buildReverse π' new.mapping).lookup s) ↔
      new.Distinct s := by
  constructor
  · intro h c c' hc hc'
    have hlast := h ((IterOrder.sorted _ _).last c) ((IterOrder.sorted _ _).last c')
    rw [lookup_buildReverse_last hc, lookup_buildReverse_last hc'] at hlast
    exact Option.some.inj hlast
  · intro h π π'
    by_cases hs : ∃ c, new.mapping.lookup c = some s
    · obtain ⟨c₁, h₁⟩ := Finmap.mem_iff.mp (mem_buildReverse.mpr hs : s ∈ buildReverse π new.mapping)
      obtain ⟨c₂, h₂⟩ := Finmap.mem_iff.mp (mem_buildReverse.mpr hs : s ∈ buildReverse π' new.mapping)
      rw [h₁, h₂, h c₁ c₂ (lookup_buildReverse h₁) (lookup_buildReverse h₂)]
    · rw [clientSdkKey_eq_none hs, clientSdkKey_eq_none hs]

end SecretMapping

namespace Inner
variable {S : Sdk}

/-- The server has taken the payload and made a pass. -/
def accepted (r : Inner S) (new : SecretMapping) (π : IterOrder ClientSdkKey ServerSdkKey)
    (πr : IterOrder ServerSdkKey ClientSdkKey) (πc : IterOrder ServerSdkKey ClientId) : Inner S :=
  r.after [.updateMapping π new, .updateClients πr πc]

/-- The rooms that are told of an update of `s`. -/
def announced (r : Inner S) (s : ServerSdkKey) : Option (List String) := (r.captured s).map notifySdk

/-- `sync` panics on no server key of `new`. -/
def SyncsAll (r : Inner S) (new : SecretMapping) : Prop := ∀ c s, new.mapping.lookup c = some s → r.CanSync s

/-- The servers `r` and `r'` take `new`, each in its own orders. -/
structure TakesAlike (r r' : Inner S) (new : SecretMapping) : Prop where
  serverSdkKey : ∀ π π' c, (r.secretMapping.updateMapping π new).serverSdkKey c =
    (r'.secretMapping.updateMapping π' new).serverSdkKey c
  serverSdkKeys : ∀ π π' πr πr' s, s ∈ (r.secretMapping.updateMapping π new).serverSdkKeys πr ↔
    s ∈ (r'.secretMapping.updateMapping π' new).serverSdkKeys πr'
  named : ∀ π s c, (r.secretMapping.updateMapping π new).clientSdkKey s = some c →
    new.mapping.lookup c = some s
  clientSdkKey : ∀ s, (∀ π π', (r.secretMapping.updateMapping π new).clientSdkKey s =
    (r'.secretMapping.updateMapping π' new).clientSdkKey s) ↔ new.Distinct s
  announced : r.SyncsAll new → r'.SyncsAll new → ∀ s ∉ r.sdkClients, s ∉ r'.sdkClients →
    ((∀ π π' πr πr' πc πc', (r.accepted new π πr πc).announced s = (r'.accepted new π' πr' πc').announced s) ↔
      new.Distinct s)

/-- A client that a pass creates announces to the client key the index names. -/
theorem announced_reconciled {r : Inner S} (hv : 0 < r.secretMapping.version) (hp : r.CanPass)
    {s : ServerSdkKey} (hs : s ∉ r.sdkClients) (πr : IterOrder ServerSdkKey ClientSdkKey)
    (πc : IterOrder ServerSdkKey ClientId) :
    (r.reconciled πr πc).announced s = (r.secretMapping.clientSdkKey s).map fun c => [s, c] := by
  cases hl : r.secretMapping.clientSdkKey s with
  | none =>
    have hs' : s ∉ (r.reconciled πr πc).sdkClients :=
      (mem_reconciled πr πc hv hp).not.mpr (Finmap.lookup_eq_none.mp hl)
    rw [announced, captured, client_of_notMem hs']
    rfl
  | some c =>
    have hs' : s ∈ (r.reconciled πr πc).sdkClients :=
      (mem_reconciled πr πc hv hp).mpr (Finmap.mem_of_lookup_eq_some hl)
    rw [announced, captured, client_reconciled_of_notMem πr πc hs hs']
    show some (s :: (r.secretMapping.clientSdkKey s).toList) = _
    rw [hl]
    rfl

theorem announced_accepted {r : Inner S} {new : SecretMapping} (h : r.secretMapping.version < new.version)
    (hp : r.SyncsAll new) {s : ServerSdkKey} (hs : s ∉ r.sdkClients) (π : IterOrder ClientSdkKey ServerSdkKey)
    (πr : IterOrder ServerSdkKey ClientSdkKey) (πc : IterOrder ServerSdkKey ClientId) :
    (r.accepted new π πr πc).announced s =
      ((r.secretMapping.updateMapping π new).clientSdkKey s).map fun c => [s, c] := by
  have hv : 0 < (r.secretMapping.updateMapping π new).version := by
    rw [SecretMapping.version_updateMapping]
    omega
  have hpass : CanPass { r with secretMapping := r.secretMapping.updateMapping π new } := by
    intro _ t ht
    rw [SecretMapping.updateMapping_of_newer π h, SecretMapping.mem_buildReverse] at ht
    obtain ⟨c, hc⟩ := ht
    exact hp c t hc
  show ((Call.updateClients πr πc).exec ((Call.updateMapping π new).exec r)).announced s = _
  rw [Call.exec_updateMapping, exec_reconciled]
  exact announced_reconciled (r := { r with secretMapping := _ }) hv hpass hs πr πc

theorem updateMapping_takesAlike {r r' : Inner S} {new : SecretMapping}
    (h : r.secretMapping.version < new.version) (h' : r'.secretMapping.version < new.version) :
    TakesAlike r r' new where
  serverSdkKey π π' c := by
    rw [SecretMapping.updateMapping_of_newer π h, SecretMapping.updateMapping_of_newer π' h']
    rfl
  serverSdkKeys π π' πr πr' s := by
    rw [SecretMapping.mem_serverSdkKeys, SecretMapping.mem_serverSdkKeys,
      SecretMapping.updateMapping_of_newer π h, SecretMapping.updateMapping_of_newer π' h',
      SecretMapping.mem_buildReverse, SecretMapping.mem_buildReverse]
  named π s c hc := by
    rw [SecretMapping.clientSdkKey_updateMapping h] at hc
    exact SecretMapping.lookup_buildReverse hc
  clientSdkKey s := by
    simp only [SecretMapping.clientSdkKey_updateMapping h, SecretMapping.clientSdkKey_updateMapping h']
    exact SecretMapping.lookup_buildReverse_iff
  announced hp hp' s hs hs' := by
    simp only [announced_accepted h hp hs, announced_accepted h' hp' hs',
      SecretMapping.clientSdkKey_updateMapping h, SecretMapping.clientSdkKey_updateMapping h']
    rw [← SecretMapping.lookup_buildReverse_iff]
    have hinj : Function.Injective (Option.map fun c : ClientSdkKey => [s, c]) :=
      Option.map_injective fun c c' he => by cases he; rfl
    constructor
    · intro hall π π'
      exact hinj (hall π π' (.sorted _ _) (.sorted _ _) (.sorted _ _) (.sorted _ _))
    · intro hall π π' _ _ _ _
      rw [hall π π']

/-- A new server and one that has served an older payload. -/
theorem updateMapping_takesAlike_older : TakesAlike (SdkRepository.new default : Inner Sdk.plain)
    ((SdkRepository.new default).after [.updateMapping (.sorted _ _) ⟨1, .singleton "c1" "s", ∅⟩])
    ⟨2, (Finmap.singleton "c1" "s").insert "c2" "s", ∅⟩ :=
  updateMapping_takesAlike (by decide) (by decide)

/-- Two client keys of one server key: the order decides which of them hears of its updates. -/
theorem updateMapping_order_decides : ∃ π π' : IterOrder ClientSdkKey ServerSdkKey,
    (SecretMapping.updateMapping default π
      ⟨1, (Finmap.singleton "c1" "s").insert "c2" "s", ∅⟩).clientSdkKey "s" ≠
    (SecretMapping.updateMapping default π'
      ⟨1, (Finmap.singleton "c1" "s").insert "c2" "s", ∅⟩).clientSdkKey "s" :=
  ⟨(IterOrder.sorted _ _).last "c1", (IterOrder.sorted _ _).last "c2", by decide⟩

end Inner
end FeatureProbeServer
