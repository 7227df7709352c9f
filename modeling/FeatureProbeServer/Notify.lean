import FeatureProbeServer.RepoRely
import Mathlib.Data.String.Basic

/-!
# Whom a toggle update is announced to (`setup_notify`, `RealtimeSocket::notify_sdk`)

The callback of a client captures the client key of its server key when the client is created, and
later passes keep the client. So a pass leaves every callback naming a current client key exactly
when no client it keeps had its client key withdrawn since. `SdkRepository::sync` creates the client
before it writes the mapping: its callback names the new client key exactly when the index had it.
-/

namespace FeatureProbeServer
open Guarded

/-- The rooms `notify_sdk` emits to. -/
def notifySdk (target : NotifyTarget) : List String := target.serverSdkKey :: target.clientSdkKey.toList

namespace Inner
variable {S : Sdk}

/-- The keys captured by the callback of the client of `s`. -/
def captured (r : Inner S) (s : ServerSdkKey) : Option NotifyTarget :=
  (r.client s).bind (·.updateCallback)

/-- The captured client key maps to `s`. -/
def CapturedCurrent (r : Inner S) (s : ServerSdkKey) : Prop :=
  ∃ c, r.captured s = some ⟨s, some c⟩ ∧ r.secretMapping.mapping.lookup c = some s

/-- An update of `s` is announced to `s` and to a client key of `s`, the only one if there is one. -/
def Announces (r : Inner S) (s : ServerSdkKey) : Prop :=
  ∃ c, (r.captured s).map notifySdk = some [s, c] ∧ r.secretMapping.mapping.lookup c = some s ∧
    ∀ c₀, (∀ c', r.secretMapping.mapping.lookup c' = some s ↔ c' = c₀) → c = c₀

theorem announces_iff {r : Inner S} {s : ServerSdkKey} : r.Announces s ↔ r.CapturedCurrent s := by
  constructor
  · rintro ⟨c, hc, hm, -⟩
    obtain ⟨t, ht, hk⟩ := Option.map_eq_some_iff.mp hc
    refine ⟨c, ht.trans ?_, hm⟩
    obtain ⟨s', c'⟩ := t
    cases c' with
    | none => cases hk
    | some c' => cases hk; rfl
  · rintro ⟨c, hc, hm⟩
    exact ⟨c, by rw [hc]; rfl, hm, fun c₀ h => (h c).mp hm⟩

/-- Every registered server key that is still mapped has a current client key captured. -/
def Unrotated (r : Inner S) : Prop :=
  ∀ s ∈ r.sdkClients, (∃ c, r.secretMapping.mapping.lookup c = some s) → r.CapturedCurrent s

theorem capturedCurrent_congr {r r' : Inner S} {s : ServerSdkKey} (hc : r'.client s = r.client s)
    (hm : r'.secretMapping = r.secretMapping) : r'.CapturedCurrent s ↔ r.CapturedCurrent s := by
  unfold CapturedCurrent captured
  rw [hc, hm]

theorem capturedCurrent_fresh {r r' : Inner S} {s : ServerSdkKey} (hi : r.secretMapping.Indexed)
    (hs : s ∈ r.secretMapping.reverse) (hc : r'.client s = some (r.fresh s))
    (hm : r'.secretMapping = r.secretMapping) : r'.CapturedCurrent s := by
  obtain ⟨c, hl⟩ := Finmap.mem_iff.mp hs
  refine ⟨c, ?_, hm ▸ hi.lookup s c hl⟩
  rw [captured, hc, ← hl]
  rfl

/-- One pass: the callbacks are current after it if and only if those it keeps were before. -/
theorem announces_updateClients {r : Inner S} (hm : r.secretMapping.Indexed) (hr : r.RegistryOk)
    (hv : 0 < r.secretMapping.version) (hp : r.CanPass) (πr : IterOrder ServerSdkKey ClientSdkKey)
    (πc : IterOrder ServerSdkKey ClientId) :
    (∀ s ∈ ((Call.updateClients πr πc).exec r).sdkClients, ((Call.updateClients πr πc).exec r).Announces s) ↔
      r.Unrotated := by
  have hpass : (Call.updateClients πr πc : Call S).Moves (Keeps SecretMapping.Indexed) := trivial
  have hr' := (hpass.exec r).registry hr
  have hclient := client_updateClients hr hv hp πr πc
  have hmap := updateClients_secretMapping r πr πc
  rw [Call.exec_updateClients] at hr' ⊢
  generalize ((updateClients πr πc).run r).2 = r' at hr' hclient hmap ⊢
  simp only [announces_iff]
  have kept : ∀ {s i}, s ∈ r.secretMapping.reverse → r.client s = some i → r'.client s = r.client s := by
    intro s i hs hi
    rw [hclient, if_pos hs, hi]; rfl
  constructor
  · intro h s hs hc
    obtain ⟨i, hi, -⟩ := hr s hs
    have hk := kept ((hm.mem_reverse s).mpr hc) hi
    exact (capturedCurrent_congr hk hmap).mp (h s (mem_of_client (hk.trans hi)))
  · intro h s hs
    obtain ⟨i', hi', -⟩ := hr' s hs
    have hrev : s ∈ r.secretMapping.reverse := by
      by_contra hrev
      rw [hclient, if_neg hrev] at hi'; cases hi'
    cases hi : r.client s with
    | none =>
      refine capturedCurrent_fresh hm hrev ?_ hmap
      rw [hclient, if_pos hrev, hi]; rfl
    | some i =>
      refine (capturedCurrent_congr (kept hrev hi) hmap).mpr ?_
      exact h s (mem_of_client hi) ((hm.mem_reverse s).mp hrev)

end Inner

/-- The calls of the two polling loops. -/
def Call.Polls {S : Sdk} : Call S → Prop
  | .updateMapping .. | .updateClients .. => True
  | _ => False

/-! ### `SdkRepository::sync` -/

namespace Inner
variable {S : Sdk}

/-- The client of `s` tells the sockets of `c` of every update. -/
def Tells (r : Inner S) (s : ServerSdkKey) (c : ClientSdkKey) : Prop :=
  ∃ t, r.captured s = some t ∧ t.serverSdkKey = s ∧ t.clientSdkKey = some c ∧ c ∈ notifySdk t

/-- The callback captures what the index holds before the pair is inserted. -/
theorem captured_sync {r : Inner S} {s : ServerSdkKey} (hs : s ∉ r.sdkClients) (ha : S.accepts s = true)
    (c : ClientSdkKey) (v : Nat) :
    ((Call.sync c s v).exec r).captured s = some ⟨s, r.secretMapping.clientSdkKey s⟩ := by
  have hclient : (r.ensured s).client s = some (r.fresh s) := by
    rw [ensured_of_new hs ha]
    simp [client]
  rw [captured, Call.exec_sync (.inr ha)]
  show ((r.ensured s).client s).bind (·.updateCallback) = _
  rw [hclient]
  rfl

end Inner

namespace SdkRepository
variable {S : Sdk}

/-- `sync` wires up the client key, where it returns, if and only if the index has it already. -/
theorem sync_tells_iff {r : Inner S} {s : ServerSdkKey} (hs : s ∉ r.sdkClients) (c : ClientSdkKey) (v : Nat) :
    ((Call.sync c s v).Returns r → ((Call.sync c s v).exec r).Tells s c) ↔
      (S.accepts s = true → r.secretMapping.clientSdkKey s = some c) := by
  constructor
  · intro h ha
    obtain ⟨t, ht, -, hc, -⟩ := h (Call.returns_sync.mpr (.inr ha))
    cases (Inner.captured_sync hs ha c v).symm.trans ht
    exact hc
  · intro h hret
    have ha : S.accepts s = true := (Call.returns_sync.mp hret).resolve_left hs
    refine ⟨_, Inner.captured_sync hs ha c v, rfl, h ha, ?_⟩
    rw [h ha]
    exact List.mem_cons_of_mem s (List.mem_singleton_self c)

/-- The payload that maps `c` to `s` has been taken, and no pass has run. -/
theorem sync_tells_iff_mapped :
    ((Call.sync "c" "s" 2).exec ((SdkRepository.new default : Inner Sdk.plain).after
      [.updateMapping (.sorted _ _) ⟨1, .singleton "c" "s", ∅⟩])).Tells "s" "c" :=
  (sync_tells_iff (by decide) "c" 2).mpr (by decide) (Call.returns_sync.mpr (by decide))

/-- The empty repository of a static server. -/
theorem not_sync_tells : "s" ∉ (SdkRepository.new default : Inner Sdk.plain).sdkClients ∧
    (Call.sync "c" "s" 1).Returns (SdkRepository.new default : Inner Sdk.plain) ∧
    ¬ ((Call.sync "c" "s" 1).exec (SdkRepository.new default : Inner Sdk.plain)).Tells "s" "c" := by
  have hs : "s" ∉ (SdkRepository.new default : Inner Sdk.plain).sdkClients := by decide
  refine ⟨hs, Call.returns_sync.mpr (by decide), ?_⟩
  rintro ⟨t, ht, -, hc, -⟩
  cases (Inner.captured_sync hs (by decide) "c" 1).symm.trans ht
  cases hc

end SdkRepository

/-! ### Runs -/

namespace Inner
variable {S : Sdk}

/-- After every completed pass with a positive version, updates are announced to current client keys. -/
def PassesAnnounce (r : Inner S) (calls : List (Call S)) : Prop :=
  ∀ p πr πc, p ++ [.updateClients πr πc] <+: calls → (Call.updateClients πr πc).Returns (r.after p) →
    0 < (r.after (p ++ [.updateClients πr πc])).secretMapping.version →
    ∀ s ∈ (r.after (p ++ [.updateClients πr πc])).sdkClients,
      (r.after (p ++ [.updateClients πr πc])).Announces s

/-- No pass with a positive version keeps a client whose captured client key has been withdrawn, if it does
not panic. -/
def PassesUnrotated (r : Inner S) (calls : List (Call S)) : Prop :=
  ∀ p πr πc, p ++ [.updateClients πr πc] <+: calls → (r.after p).CanPass →
    0 < (r.after p).secretMapping.version → (r.after p).Unrotated

end Inner

namespace SdkRepository
variable {S : Sdk}

theorem passesAnnounce_iff (cfg : ServerConfig) {calls : List (Call S)} (hc : ∀ call ∈ calls, call.Polls) :
    (SdkRepository.new cfg : Inner S).PassesAnnounce calls ↔
      (SdkRepository.new cfg : Inner S).PassesUnrotated calls := by
  have pass : ∀ p πr πc, p ++ [.updateClients πr πc] <+: calls →
      let r := (SdkRepository.new cfg : Inner S).after p
      let r' := (SdkRepository.new cfg : Inner S).after (p ++ [.updateClients πr πc])
      r'.secretMapping = r.secretMapping ∧
        (r.CanPass → 0 < r.secretMapping.version → ((∀ s ∈ r'.sdkClients, r'.Announces s) ↔ r.Unrotated)) := by
    intro p πr πc hp r r'
    have hr' : r' = (Call.updateClients πr πc).exec r := Inner.after_snoc ..
    have hmoves : ∀ call ∈ p, call.Moves (Keeps SecretMapping.Indexed) := by
      intro call hcall
      refine call.moves_indexed ?_
      rintro _ _ _ rfl
      exact hc _ (((List.prefix_append p _).trans hp).subset hcall)
    have hrel := Inner.rely_after hmoves (SdkRepository.new cfg : Inner S)
    rw [hr']
    refine ⟨(congrArg _ (Call.exec_updateClients ..)).trans (Inner.updateClients_secretMapping r πr πc),
      fun hpass hv => Inner.announces_updateClients (hrel.mapping SecretMapping.indexed_default)
        (hrel.registry (registryOk_new cfg)) hv hpass πr πc⟩
  constructor
  · intro h p πr πc hp hpass hv
    obtain ⟨hm, hiff⟩ := pass p πr πc hp
    exact (hiff hpass hv).mp (h p πr πc hp (Call.returns_updateClients.mpr hpass) (by rwa [hm]))
  · intro h p πr πc hp hret hv
    obtain ⟨hm, hiff⟩ := pass p πr πc hp
    have hpass := Call.returns_updateClients.mp hret
    rw [hm] at hv
    exact (hiff hpass hv).mpr (h p πr πc hp hpass hv)

/-- A newer payload that keeps the client key of `s` and adds another tenant. -/
theorem passesAnnounce_iff_added :
    (SdkRepository.new default : Inner Sdk.plain).PassesAnnounce
      [.updateMapping (.sorted _ _) ⟨1, .singleton "c" "s", ∅⟩, .updateClients (.sorted _ _) (.sorted _ _),
        .updateMapping (.sorted _ _) ⟨2, (Finmap.singleton "c" "s").insert "d" "t", ∅⟩,
        .updateClients (.sorted _ _) (.sorted _ _)] ↔
      (SdkRepository.new default : Inner Sdk.plain).PassesUnrotated
      [.updateMapping (.sorted _ _) ⟨1, .singleton "c" "s", ∅⟩, .updateClients (.sorted _ _) (.sorted _ _),
        .updateMapping (.sorted _ _) ⟨2, (Finmap.singleton "c" "s").insert "d" "t", ∅⟩,
        .updateClients (.sorted _ _) (.sorted _ _)] :=
  passesAnnounce_iff default fun call h => by
    simp only [List.mem_cons, List.not_mem_nil, or_false] at h
    rcases h with rfl | rfl | rfl | rfl <;> trivial

/-- The client key of `s` is rotated from `c1` to `c2`; the callback keeps announcing to `c1`. -/
theorem not_passesAnnounce_rotated :
    ¬ (SdkRepository.new default : Inner Sdk.plain).PassesAnnounce
      [.updateMapping (.sorted _ _) ⟨1, .singleton "c1" "s", ∅⟩, .updateClients (.sorted _ _) (.sorted _ _),
        .updateMapping (.sorted _ _) ⟨2, .singleton "c2" "s", ∅⟩,
        .updateClients (.sorted _ _) (.sorted _ _)] := by
  intro h
  have hs := h [.updateMapping (.sorted _ _) ⟨1, .singleton "c1" "s", ∅⟩,
    .updateClients (.sorted _ _) (.sorted _ _), .updateMapping (.sorted _ _) ⟨2, .singleton "c2" "s", ∅⟩]
    (.sorted _ _) (.sorted _ _) List.prefix_rfl
    (Call.returns_updateClients.mpr ((Inner.run_updateClients_isSome (.sorted _ _) (.sorted _ _)).mp (by decide)))
    (by decide) "s" (by decide)
  obtain ⟨c, hc, hm⟩ := Inner.announces_iff.mp hs
  have hc1 : some ⟨"s", some "c1"⟩ = some (NotifyTarget.mk "s" (some c)) :=
    .trans (by decide) hc
  cases hc1
  revert hm
  decide

end SdkRepository
end FeatureProbeServer
