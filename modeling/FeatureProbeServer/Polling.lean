import FeatureProbeServer.RepoRely
import Mathlib.Data.String.Basic
import Mathlib.Order.Bounds.Basic

/-!
# Polling for secret keys (`SdkRepository::sync_with`)

Each round of the polling loop delivers a payload to `update_mapping` or fails and calls nothing. With
any number of rounds in flight the mapping is always one payload, taken whole, and the newest
delivered one in the end. A loop is its first rounds, any number of them.
-/

namespace FeatureProbeServer
open Guarded

/-- What a round of the polling loop gets; `π` is the order in which `new` is iterated. -/
inductive Poll where
  | sendError
  | textError
  | jsonError
  | payload (π : IterOrder ClientSdkKey ServerSdkKey) (new : SecretMapping)

namespace Poll

def call? {S : Sdk} : Poll → Option (Call S)
  | .payload π new => some (.updateMapping π new)
  | _ => none

def new? : Poll → Option SecretMapping
  | .payload _ new => some new
  | _ => none

/-- The payloads delivered by `polls`. -/
def delivered (polls : List Poll) : List SecretMapping := polls.filterMap new?

theorem mem_delivered {polls : List Poll} {new : SecretMapping} :
    new ∈ delivered polls ↔ ∃ π, payload π new ∈ polls := by
  rw [delivered, List.mem_filterMap]
  constructor
  · rintro ⟨p, hp, h⟩
    cases p with
    | payload π m => cases h; exact ⟨π, hp⟩
    | _ => cases h
  · exact fun ⟨π, hp⟩ => ⟨_, hp, rfl⟩

/-- The body of the loop in `sync_secret_keys`. -/
def round {S : Sdk} : Poll → RepoM S Unit
  | .payload π new => Inner.updateMapping π new
  | _ => pure ()

/-- `m` is the default mapping or one payload of `polls`, whole, with an index of its own. -/
def Whole (polls : List Poll) (m : SecretMapping) : Prop :=
  m = default ∨ ∃ π new, payload π new ∈ polls ∧ 0 < new.version ∧
    m = ⟨new.version, new.mapping, SecretMapping.buildReverse π new.mapping⟩

/-- The version grows, and payloads are taken whole. -/
def Newer (polls : List Poll) (m m' : SecretMapping) : Prop :=
  m.version ≤ m'.version ∧ Keeps (Whole polls) m m'

instance (polls : List Poll) : IsPreorder SecretMapping (Newer polls) where
  refl m := ⟨le_refl _, refl_of (Keeps _) m⟩
  trans _ _ _ h h' := ⟨h.1.trans h'.1, trans_of (Keeps _) h.2 h'.2⟩

theorem newer_updateMapping {polls : List Poll} {π : IterOrder ClientSdkKey ServerSdkKey}
    {new : SecretMapping} (h : payload π new ∈ polls) (m : SecretMapping) :
    Newer polls m (m.updateMapping π new) := by
  rcases m.updateMapping_cases π new with ⟨hv, he⟩ | ⟨-, he⟩ <;> rw [he]
  · exact ⟨hv.le, fun _ => .inr ⟨π, new, h, by omega, rfl⟩⟩
  · exact refl_of (Newer polls) m

end Poll

section
variable {S : Sdk}

def SdkRepository.syncSecretKeys (polls : List Poll) : RepoM S Unit := forM polls Poll.round

/-- The orders in which one round of the loop in `sync_with` goes over index and registry. -/
abbrev Pass := IterOrder ServerSdkKey ClientSdkKey × IterOrder ServerSdkKey ClientId

/-- A pass that panics ends the task of the loop. -/
def SdkRepository.updateClients (passes : List Pass) : RepoM S (Option Unit) :=
  .tryForM (fun pass => Inner.updateClients pass.1 pass.2) passes

end

namespace Server
variable {S : Sdk}

/-- The repository with the calls of `polls` about to start. -/
def polling (cfg : ServerConfig) (polls : List Poll) : Server S :=
  start (SdkRepository.new cfg) (polls.filterMap Poll.call?)

theorem wp_polling (polls : List Poll) {π : IterOrder ClientSdkKey ServerSdkKey} {new : SecretMapping}
    (h : .payload π new ∈ polls) (r : Inner S) :
    (Call.updateMapping π new : Call S).prog.wp (Inner.Rely (Poll.Newer polls))
      (fun _ r' => new.version ≤ r'.secretMapping.version) r := by
  have stable : Stable (Inner.Rely (Poll.Newer polls) : Inner S → _ → _)
      fun r' => new.version ≤ r'.secretMapping.version := fun _ _ h h' => h'.trans h.mapping.1
  refine Prog.wp_bind (Prog.wp_mono (Inner.wp_updateMapping (stable_true _) stable ?_ ?_ ?_ trivial) ?_)
  · exact fun r _ => Inner.rely_exec (Poll.newer_updateMapping h _) nofun
  · exact fun _ _ h => h
  · intro r _
    show new.version ≤ (r.secretMapping.updateMapping π new).version
    rw [SecretMapping.version_updateMapping]
    omega
  · exact fun _ r₁ h₁ r₂ h₂ => stable _ _ h₂ h₁

/-- Every poller in flight will leave the mapping at least as new as its payload. -/
theorem polling_meets (cfg : ServerConfig) (polls : List Poll) :
    (polling cfg polls : Server S).Meets (Inner.Rely (Poll.Newer polls)) fun i _ r =>
      ∀ π new, (polls.filterMap Poll.call?)[i]? = some (Call.updateMapping π new : Call S) →
        new.version ≤ r.secretMapping.version := by
  refine Config.Meets.start fun i p hp => ?_
  rw [List.getElem?_map, Option.map_eq_some_iff] at hp
  obtain ⟨call, hc, rfl⟩ := hp
  obtain ⟨poll, hpoll, he⟩ := List.mem_filterMap.mp (List.mem_of_getElem? hc)
  cases poll with
  | payload π new =>
    cases he
    refine Prog.wp_mono (wp_polling polls hpoll _) fun _ r h π' new' he => ?_
    cases Option.some.inj (hc.symm.trans he)
    exact h
  | _ => cases he

theorem polling_whole {cfg : ServerConfig} {polls : List Poll} {c : Server S}
    (h : Config.Reach (polling cfg polls) c) : Poll.Whole polls c.store.secretMapping :=
  ((polling_meets cfg polls).reach h).1.mapping.2 (.inl rfl)

theorem polling_version_le {cfg : ServerConfig} {polls : List Poll} {c c' : Server S}
    (h : Config.Reach (polling cfg polls) c) (h' : Config.Reach c c') :
    c.store.secretMapping.version ≤ c'.store.secretMapping.version :=
  (((polling_meets cfg polls).reach h).2.reach h').1.mapping.1

/-- When all polls have returned the version is the largest one delivered. -/
theorem polling_returned {cfg : ServerConfig} {polls : List Poll} {c : Server S}
    (h : Config.Reach (polling cfg polls) c) (hr : c.Returned) :
    IsGreatest {v | v = 0 ∨ ∃ new ∈ Poll.delivered polls, new.version = v}
      c.store.secretMapping.version := by
  constructor
  · rcases polling_whole h with hm | ⟨π, new, hp, -, hm⟩
    · exact .inl (by rw [hm]; rfl)
    · exact .inr ⟨new, Poll.mem_delivered.mpr ⟨π, hp⟩, by rw [hm]⟩
  · rintro v (rfl | ⟨new, hn, rfl⟩)
    · exact Nat.zero_le _
    · obtain ⟨π, hp⟩ := Poll.mem_delivered.mp hn
      have hmem : Call.updateMapping π new ∈ polls.filterMap (Poll.call? (S := S)) :=
        List.mem_filterMap.mpr ⟨_, hp, rfl⟩
      obtain ⟨i, hi⟩ := List.mem_iff_getElem?.mp hmem
      have hlt : i < c.threads.length := by
        rw [h.length]
        simpa [polling, start, Config.start] using (List.getElem?_eq_some_iff.mp hi).1
      obtain ⟨a, ha⟩ := Option.isSome_iff_exists.mp (hr _ (List.getElem_mem hlt))
      exact ((polling_meets cfg polls).reach h).2.result (List.getElem?_eq_getElem hlt) ha π new hi

/-- With distinct versions the final mapping is the same in every order and every interleaving. -/
theorem polling_final {cfg cfg' : ServerConfig} {polls polls' : List Poll} {c c' : Server S}
    (hd : ((Poll.delivered polls).map (·.version)).Nodup)
    (hp : (Poll.delivered polls).Perm (Poll.delivered polls'))
    (h : Config.Reach (polling cfg polls) c) (h' : Config.Reach (polling cfg' polls') c')
    (hr : c.Returned) (hr' : c'.Returned) :
    c'.store.secretMapping.mapping = c.store.secretMapping.mapping := by
  have hv : c'.store.secretMapping.version = c.store.secretMapping.version := by
    have hg := polling_returned h' hr'
    simp only [← hp.mem_iff] at hg
    exact hg.unique (polling_returned h hr)
  rcases polling_whole h with hm | ⟨π, new, hn, hpos, hm⟩ <;>
    rcases polling_whole h' with hm' | ⟨π', new', hn', hpos', hm'⟩ <;> rw [hm, hm'] at hv ⊢
  · exact absurd hv (by simp only [SecretMapping.default_version]; omega)
  · exact absurd hv (by simp only [SecretMapping.default_version]; omega)
  · have hn' := hp.mem_iff.mpr (Poll.mem_delivered.mpr ⟨π', hn'⟩)
    rw [List.inj_on_of_nodup_map hd hn' (Poll.mem_delivered.mpr ⟨π, hn⟩) hv]

/-- What polling guarantees of a state. -/
structure Polled (polls : List Poll) (c : Server S) : Prop where
  whole : Poll.Whole polls c.store.secretMapping
  version_le : ∀ c', Config.Reach c c' → c.store.secretMapping.version ≤ c'.store.secretMapping.version
  greatest : c.Returned → IsGreatest {v | v = 0 ∨ ∃ new ∈ Poll.delivered polls, new.version = v}
    c.store.secretMapping.version
  final : ((Poll.delivered polls).map (·.version)).Nodup → ∀ cfg' polls' (c' : Server S),
    (Poll.delivered polls).Perm (Poll.delivered polls') → Config.Reach (polling cfg' polls') c' →
    c.Returned → c'.Returned → c'.store.secretMapping.mapping = c.store.secretMapping.mapping

theorem polling_polled {cfg : ServerConfig} {polls : List Poll} {c : Server S}
    (h : Config.Reach (polling cfg polls) c) : Polled polls c where
  whole := polling_whole h
  version_le _ h' := polling_version_le h h'
  greatest hr := polling_returned h hr
  final hd _ _ _ hp h' hr hr' := polling_final hd hp h h' hr hr'

/-- Both pollers read version 0 before either writes; the older payload comes second. -/
theorem polling_polled_race :
    ∃ c : Server Sdk.plain, c.Returned ∧ Polled [.payload (.sorted _ _) ⟨2, .singleton "c" "s", ∅⟩,
      .sendError, .payload (.sorted _ _) ⟨1, ∅, ∅⟩] c := by
  obtain ⟨c, hc, hr⟩ : ∃ c, (polling default [.payload (.sorted _ _) ⟨2, .singleton "c" "s", ∅⟩,
      .sendError, .payload (.sorted _ _) ⟨1, ∅, ∅⟩] : Server Sdk.plain).schedule
      [0, 0, 0, 0, 1, 1, 1, 1, 0, 0, 0, 0, 1, 1, 1, 1] = some c ∧ c.Returned := by decide
  exact ⟨c, hr, polling_polled (.of_schedule hc)⟩

end Server
end FeatureProbeServer
