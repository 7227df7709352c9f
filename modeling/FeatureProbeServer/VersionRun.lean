import FeatureProbeServer.RepoRely
import Mathlib.Data.String.Basic

/-!
# The version of the secret mapping over a run

`updateMapping` only moves the version up. `SecretMapping::insert`, which `SdkRepository::sync` calls,
writes the version it is given, whatever the current one.
-/

namespace FeatureProbeServer
open Guarded

namespace SecretMapping

/-- `m'` is at least as new as `m`. -/
def Newer (m m' : SecretMapping) : Prop := m.version ≤ m'.version

instance : IsPreorder SecretMapping Newer where
  refl m := le_refl m.version
  trans _ _ _ h h' := le_trans h h'

theorem newer_updateMapping (m : SecretMapping) (π : IterOrder ClientSdkKey ServerSdkKey)
    (new : SecretMapping) : m.Newer (m.updateMapping π new) := by
  unfold Newer
  rw [version_updateMapping]
  omega

end SecretMapping

section
variable {S : Sdk}

/-- The only call that may move the version down is a `sync` with a version below the current one. -/
theorem Call.version_le_exec {call : Call S} {r : Inner S}
    (h : ∀ c s v, call = .sync c s v → r.CanSync s → r.secretMapping.version ≤ v) :
    r.secretMapping.version ≤ (call.exec r).secretMapping.version := by
  have other : call.Moves SecretMapping.Newer →
      r.secretMapping.version ≤ (call.exec r).secretMapping.version := fun hm => (hm.exec r).mapping
  cases call with
  | sync c s v =>
    by_cases hs : r.CanSync s
    · rw [Call.exec_sync hs]
      exact h c s v rfl hs
    · rw [Call.exec_sync_of_not hs]
  | updateMapping π new => exact other fun m => m.newer_updateMapping π new
  | _ => exact other trivial

/-- What the version promises over a run from `r`. -/
structure Inner.VersionKept (r : Inner S) (calls : List (Call S)) : Prop where
  monotone : ∀ p call, p ++ [call] <+: calls →
    (r.after p).secretMapping.version ≤ (r.after (p ++ [call])).secretMapping.version
  ready : ∀ p q, p ++ q <+: calls → 0 < (r.after p).secretMapping.version →
    0 < (r.after (p ++ q)).secretMapping.version
  noRollback : ∀ p q π new, p ++ q ++ [.updateMapping π new] <+: calls →
    new.version < (r.after p).secretMapping.version →
    (r.after (p ++ q ++ [.updateMapping π new])).secretMapping = (r.after (p ++ q)).secretMapping

/-- No `sync` of the run inserts a version below the current one; one that panics inserts none. -/
def Inner.SyncsNewer (r : Inner S) (calls : List (Call S)) : Prop :=
  ∀ p c s v, p ++ [.sync c s v] <+: calls → (r.after p).CanSync s → (r.after p).secretMapping.version ≤ v

theorem Inner.SyncsNewer.version_le {r : Inner S} {calls : List (Call S)} (h : r.SyncsNewer calls)
    {p q : List (Call S)} (hp : p ++ q <+: calls) :
    (r.after p).secretMapping.version ≤ (r.after (p ++ q)).secretMapping.version := by
  induction q using List.reverseRecOn with
  | nil => rw [List.append_nil]
  | append_singleton q call ih =>
    rw [← List.append_assoc] at hp ⊢
    refine (ih ((List.prefix_append _ _).trans hp)).trans ?_
    rw [Inner.after_snoc]
    exact Call.version_le_exec fun c s v hc => h (p ++ q) c s v (hc ▸ hp)

theorem SdkRepository.versionKept_iff (cfg : ServerConfig) (calls : List (Call S)) :
    (SdkRepository.new cfg : Inner S).VersionKept calls ↔ (SdkRepository.new cfg).SyncsNewer calls := by
  constructor
  · intro h p c s v hp hs
    have hm := h.monotone p _ hp
    rw [Inner.after_snoc, Call.exec_sync hs] at hm
    exact hm
  · intro h
    refine ⟨fun p call hp => h.version_le hp, fun p q hp hv => hv.trans_le (h.version_le hp), ?_⟩
    intro p q π new hp hv
    have hpq := h.version_le ((List.prefix_append (p ++ q) _).trans hp)
    rw [Inner.after_snoc, Call.exec_updateMapping]
    exact SecretMapping.updateMapping_of_le π (by omega)

/-- A `sync` with version 1 takes a mapping of version 5 back to 1. -/
theorem SdkRepository.not_versionKept_sync :
    ¬ (SdkRepository.new default : Inner Sdk.plain).VersionKept
      [.updateMapping (.sorted _ _) ⟨5, ∅, ∅⟩, .sync "c" "s" 1] := by
  intro h
  have hm := h.monotone [.updateMapping (.sorted _ _) ⟨5, ∅, ∅⟩] (.sync "c" "s" 1) List.prefix_rfl
  revert hm
  decide

end
end FeatureProbeServer
