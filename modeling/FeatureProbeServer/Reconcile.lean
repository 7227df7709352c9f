import FeatureProbeServer.Atomic
import FeatureProbeServer.Deadlock
import FeatureProbeServer.Lib.Alone
import FeatureProbeServer.RepoRely

/-!
# What a pass leaves (`Inner::update_clients`)

The first loop creates clients for the keys of the reverse index that have none, the second drops the
clients whose key is not in the index, going over the keys there were before the first. Nothing is
assumed of the registry a pass finds.
-/

namespace FeatureProbeServer
open Guarded

variable {S : Sdk}

namespace Inner

/-! ### The first loop -/

theorem lookup_ensured (r : Inner S) (s t : ServerSdkKey) :
    (r.ensured s).sdkClients.lookup t =
      if t = s ∧ t ∉ r.sdkClients ∧ S.accepts t = true then some r.instances.length
      else r.sdkClients.lookup t := by
  by_cases hs : s ∈ r.sdkClients
  · rw [ensured_of_mem hs, if_neg]
    rintro ⟨rfl, h, -⟩
    exact h hs
  · cases ha : S.accepts s with
    | false =>
      rw [ensured_of_not (by simp [CanSync, hs, ha]), if_neg]
      rintro ⟨rfl, -, h⟩
      rw [ha] at h; cases h
    | true =>
      rw [ensured_of_new hs ha]
      show (r.sdkClients.insert s r.instances.length).lookup t = _
      rw [HashMap.lookup_insert_eq]
      by_cases hts : t = s
      · subst t; simp [hs, ha]
      · simp [hts]

/-- `sync` creates a client for the key. -/
def Missing (r : Inner S) (s : ServerSdkKey) : Prop := s ∉ r.sdkClients ∧ S.accepts s = true

instance (r : Inner S) (s : ServerSdkKey) : Decidable (r.Missing s) := inferInstanceAs (Decidable (_ ∧ _))

theorem missing_ensured {r : Inner S} {s t : ServerSdkKey} (hts : t ≠ s) :
    (r.ensured s).Missing t ↔ r.Missing t := by
  unfold Missing
  rw [mem_ensured]
  tauto

theorem instances_ensured (r : Inner S) (s : ServerSdkKey) :
    (r.ensured s).instances = r.instances ++ if r.Missing s then [r.fresh s] else [] := by
  by_cases hs : s ∈ r.sdkClients
  · simp [ensured_of_mem hs, Missing, hs]
  · by_cases ha : S.accepts s = true
    · simp [ensured_of_new hs ha, Missing, hs, ha]
    · simp [ensured_of_not, CanSync, Missing, hs, ha]

/-- The loop appends the new instances in the order of its keys. -/
theorem instances_ensuredAll {r : Inner S} {keys : List ServerSdkKey} (hn : keys.Nodup) :
    (r.ensuredAll keys).instances = r.instances ++ (keys.filter (r.Missing ·)).map r.fresh := by
  induction keys generalizing r with
  | nil => simp [ensuredAll]
  | cons s keys ih =>
    obtain ⟨hs, hn⟩ := List.nodup_cons.mp hn
    have hfresh : (r.ensured s).fresh = r.fresh := funext fun t => fresh_ensured r s t
    have hleft : keys.filter ((r.ensured s).Missing ·) = keys.filter (r.Missing ·) :=
      List.filter_congr fun t ht => decide_eq_decide.mpr (missing_ensured fun h => hs (h ▸ ht))
    show ((r.ensured s).ensuredAll keys).instances = _
    rw [ih hn, hfresh, hleft, instances_ensured]
    by_cases hr : r.Missing s <;> simp [hr]

theorem getElem?_ensured {r : Inner S} {id : ClientId} {i : FPClient S} (h : r.instances[id]? = some i)
    (s : ServerSdkKey) : (r.ensured s).instances[id]? = some i := by
  rw [instances_ensured, List.getElem?_append_left (List.getElem?_eq_some_iff.mp h).1, h]

theorem getElem?_ensuredAll {r : Inner S} {id : ClientId} {i : FPClient S} (h : r.instances[id]? = some i)
    (keys : List ServerSdkKey) : (r.ensuredAll keys).instances[id]? = some i := by
  induction keys generalizing r with
  | nil => exact h
  | cons s keys ih => exact ih (getElem?_ensured h s)

/-- A key that has a client keeps its handle. -/
theorem lookup_ensuredAll_of_mem {r : Inner S} {s : ServerSdkKey} (hs : s ∈ r.sdkClients)
    (keys : List ServerSdkKey) : (r.ensuredAll keys).sdkClients.lookup s = r.sdkClients.lookup s := by
  induction keys generalizing r with
  | nil => rfl
  | cons t keys ih =>
    have hkeep : (r.ensured t).sdkClients.lookup s = r.sdkClients.lookup s := by
      rw [lookup_ensured, if_neg]
      rintro ⟨-, h, -⟩
      exact h hs
    exact (ih (mem_ensured.mpr (.inr hs))).trans hkeep

/-- A key that comes to have one gets the handle of a new instance. -/
theorem lookup_ensuredAll_of_notMem {r : Inner S} {s : ServerSdkKey} (hs : s ∉ r.sdkClients)
    {keys : List ServerSdkKey} (hk : s ∈ (r.ensuredAll keys).sdkClients) :
    ∃ id, (r.ensuredAll keys).sdkClients.lookup s = some id ∧ r.instances.length ≤ id ∧
      (r.ensuredAll keys).instances[id]? = some (r.fresh s) := by
  induction keys generalizing r with
  | nil => exact absurd hk hs
  | cons t keys ih =>
    change s ∈ ((r.ensured t).ensuredAll keys).sdkClients at hk
    show ∃ id, ((r.ensured t).ensuredAll keys).sdkClients.lookup s = some id ∧ _ ∧
      ((r.ensured t).ensuredAll keys).instances[id]? = _
    by_cases hs' : s ∈ (r.ensured t).sdkClients
    · obtain ⟨rfl, ha⟩ := (mem_ensured.mp hs').resolve_right hs
      have hnew : (r.ensured s).instances[r.instances.length]? = some (r.fresh s) := by
        simp [instances_ensured, Missing, hs, ha]
      refine ⟨r.instances.length, ?_, Nat.le_refl _, getElem?_ensuredAll hnew keys⟩
      rw [lookup_ensuredAll_of_mem hs', lookup_ensured, if_pos ⟨rfl, hs, ha⟩]
    · obtain ⟨id, hl, hle, hi⟩ := ih hs' hk
      rw [fresh_ensured] at hi
      refine ⟨id, hl, Nat.le_trans ?_ hle, hi⟩
      rw [instances_ensured, List.length_append]
      omega

theorem ensuredAll_of_mem {r : Inner S} {keys : List ServerSdkKey} (h : ∀ s ∈ keys, s ∈ r.sdkClients) :
    r.ensuredAll keys = r := by
  induction keys with
  | nil => rfl
  | cons s keys ih =>
    show (r.ensured s).ensuredAll keys = r
    rw [ensured_of_mem (h s (by simp))]
    exact ih fun t ht => h t (by simp [ht])

/-! ### A pass -/

/-- The repository after a pass. -/
def reconciled (r : Inner S) (πr : IterOrder ServerSdkKey ClientSdkKey) (πc : IterOrder ServerSdkKey ClientId) :
    Inner S :=
  ((updateClients πr πc).run r).2

section
variable {r : Inner S} (πr : IterOrder ServerSdkKey ClientSdkKey) (πc : IterOrder ServerSdkKey ClientId)

theorem exec_reconciled : (Call.updateClients πr πc).exec r = r.reconciled πr πc :=
  Call.exec_updateClients πr πc r

theorem reconciled_of_zero (hv : r.secretMapping.version = 0) : r.reconciled πr πc = r :=
  congrArg Prod.snd (run_updateClients_of_zero πr πc hv)

theorem reconciled_of_ready (hv : 0 < r.secretMapping.version) (hp : r.CanPass) :
    r.reconciled πr πc = (r.ensuredAll (r.secretMapping.serverSdkKeys πr)).removedAll
      ((πc.keys r.sdkClients).filter (· ∉ r.secretMapping.serverSdkKeys πr)) :=
  congrArg Prod.snd (run_updateClients_of_ready πr πc hv hp)

/-- A pass that panics has only added. -/
theorem reconciled_of_not (hp : ¬ r.CanPass) :
    r.reconciled πr πc = r.ensuredAll (r.synced (r.secretMapping.serverSdkKeys πr)) :=
  congrArg Prod.snd (run_updateClients_of_not πr πc hp)

theorem instances_reconciled (hv : 0 < r.secretMapping.version) (hp : r.CanPass) :
    (r.reconciled πr πc).instances = r.instances ++
      ((r.secretMapping.serverSdkKeys πr).filter (· ∉ r.sdkClients)).map r.fresh := by
  rw [reconciled_of_ready πr πc hv hp]
  refine (instances_ensuredAll (πr.nodup _)).trans ?_
  congr 2
  refine List.filter_congr fun s hs => decide_eq_decide.mpr (and_iff_left_of_imp fun hnew => ?_)
  exact (hp hv s ((SecretMapping.mem_serverSdkKeys _ πr s).mp hs)).resolve_left hnew

theorem mem_reconciled (hv : 0 < r.secretMapping.version) (hp : r.CanPass) {s : ServerSdkKey} :
    s ∈ (r.reconciled πr πc).sdkClients ↔ s ∈ r.secretMapping.reverse :=
  mem_updateClients hv hp πr πc s

/-- Instances keep their places. -/
theorem getElem?_reconciled {id : ClientId} {i : FPClient S} (h : r.instances[id]? = some i) :
    (r.reconciled πr πc).instances[id]? = some i :=
  run_updateClients_cases πr πc (P := fun r' => r'.instances[id]? = some i) h (getElem?_ensuredAll h)
    fun _ _ h => h

/-- A key registered before and after keeps its handle. -/
theorem lookup_reconciled_of_mem {s : ServerSdkKey} (hs : s ∈ r.sdkClients)
    (h : s ∈ (r.reconciled πr πc).sdkClients) :
    (r.reconciled πr πc).sdkClients.lookup s = r.sdkClients.lookup s := by
  refine run_updateClients_cases πr πc
    (P := fun r' => s ∈ r'.sdkClients → r'.sdkClients.lookup s = r.sdkClients.lookup s)
    (fun _ => rfl) (fun keys _ => lookup_ensuredAll_of_mem hs keys) (fun r' keys ih h => ?_) h
  obtain ⟨hkeys, h⟩ := mem_removedAll.mp h
  rw [lookup_removedAll, if_neg hkeys, ih h]

/-- A key registered after only has the handle of a new instance. -/
theorem lookup_reconciled_of_notMem {s : ServerSdkKey} (hs : s ∉ r.sdkClients)
    (h : s ∈ (r.reconciled πr πc).sdkClients) :
    ∃ id, (r.reconciled πr πc).sdkClients.lookup s = some id ∧ r.instances.length ≤ id ∧
      (r.reconciled πr πc).instances[id]? = some (r.fresh s) := by
  refine run_updateClients_cases πr πc (P := fun r' => s ∈ r'.sdkClients →
    ∃ id, r'.sdkClients.lookup s = some id ∧ r.instances.length ≤ id ∧ r'.instances[id]? = some (r.fresh s))
    (fun h => absurd h hs) (fun keys => lookup_ensuredAll_of_notMem hs) (fun r' keys ih h => ?_) h
  obtain ⟨hkeys, h⟩ := mem_removedAll.mp h
  obtain ⟨id, hl, hi⟩ := ih h
  exact ⟨id, by rw [lookup_removedAll, if_neg hkeys, hl], hi⟩

theorem client_reconciled_of_notMem {s : ServerSdkKey} (hs : s ∉ r.sdkClients)
    (h : s ∈ (r.reconciled πr πc).sdkClients) : (r.reconciled πr πc).client s = some (r.fresh s) := by
  obtain ⟨id, hl, -, hi⟩ := lookup_reconciled_of_notMem πr πc hs h
  exact client_eq_some.mpr ⟨id, hl, hi⟩

end

/-- A pass that finds no stale key only adds. -/
theorem reconciled_of_kept {r : Inner S} (hv : 0 < r.secretMapping.version)
    (h : ∀ s ∈ r.sdkClients, s ∈ r.secretMapping.reverse) (πr : IterOrder ServerSdkKey ClientSdkKey)
    (πc : IterOrder ServerSdkKey ClientId) : ∃ keys, r.reconciled πr πc = r.ensuredAll keys := by
  have hnone : (πc.keys r.sdkClients).filter (· ∉ r.secretMapping.serverSdkKeys πr) = [] := by
    refine List.filter_eq_nil_iff.mpr fun s hs => ?_
    have hrev := h s ((πc.mem_keys _ s).mp hs)
    simp [hrev]
  by_cases hp : r.CanPass
  · rw [reconciled_of_ready πr πc hv hp, hnone]
    exact ⟨_, rfl⟩
  · exact ⟨_, reconciled_of_not πr πc hp⟩

/-- A pass that finds the keys of the index changes nothing. -/
theorem reconciled_of_reconciled {r : Inner S} (hv : 0 < r.secretMapping.version)
    (h : ∀ s, s ∈ r.sdkClients ↔ s ∈ r.secretMapping.reverse)
    (πr : IterOrder ServerSdkKey ClientSdkKey) (πc : IterOrder ServerSdkKey ClientId) :
    r.reconciled πr πc = r := by
  have hkeys : ∀ s ∈ r.secretMapping.serverSdkKeys πr, s ∈ r.sdkClients := fun s hs =>
    (h s).mpr ((SecretMapping.mem_serverSdkKeys _ πr s).mp hs)
  have hnone : (πc.keys r.sdkClients).filter (· ∉ r.secretMapping.serverSdkKeys πr) = [] := by
    refine List.filter_eq_nil_iff.mpr fun s hs => ?_
    have hrev := (h s).mp ((πc.mem_keys _ s).mp hs)
    simp [hrev]
  rw [reconciled_of_ready πr πc hv fun _ s hs => .inl ((h s).mpr hs), hnone, ensuredAll_of_mem hkeys]
  rfl

/-! ### Requests, deliveries and payloads beside a pass -/

/-- What is fixed of an instance when it is set up. -/
def origin (i : FPClient S) : FPConfig × Option NotifyTarget := (i.config, i.updateCallback)

/-- The same clients under the same keys, up to what they have received. -/
structure SameClients (r r' : Inner S) : Prop where
  serverConfig : r.serverConfig = r'.serverConfig
  sdkClients : r.sdkClients = r'.sdkClients
  origins : r.instances.map origin = r'.instances.map origin

instance : IsPreorder (Inner S) SameClients where
  refl _ := ⟨rfl, rfl, rfl⟩
  trans _ _ _ h h' := ⟨h.serverConfig.trans h'.serverConfig, h.sdkClients.trans h'.sdkClients,
    h.origins.trans h'.origins⟩

/-- One repository up to what its instances have received. -/
structure Alike (r r' : Inner S) : Prop extends SameClients r r' where
  secretMapping : r.secretMapping = r'.secretMapping

instance : IsPreorder (Inner S) Alike where
  refl r := ⟨refl_of SameClients r, rfl⟩
  trans _ _ _ h h' := ⟨trans_of SameClients h.toSameClients h'.toSameClients,
    h.secretMapping.trans h'.secretMapping⟩

theorem Alike.length {r r' : Inner S} (h : r.Alike r') : r.instances.length = r'.instances.length := by
  simpa using congrArg List.length h.origins

theorem map_modify_origin {f : FPClient S → FPClient S}
    {g : FPConfig × Option NotifyTarget → FPConfig × Option NotifyTarget}
    (hf : ∀ i, origin (f i) = g (origin i)) (l : List (FPClient S)) (id : ClientId) :
    (l.modify id f).map origin = (l.map origin).modify id g := by
  refine List.ext_getElem? fun j => ?_
  simp only [List.getElem?_map, List.getElem?_modify]
  cases l[j]? with
  | none => rfl
  | some i =>
    by_cases hj : id = j
    · simp [hj, hf]
    · simp [hj]

theorem map_receive_origin (l : List (FPClient S)) (client : ClientId) (repo : S.Repo) :
    (l.modify client (·.receive repo)).map origin = l.map origin := by
  have hsame : ∀ i : FPClient S, origin (i.receive repo) = id (origin i) := fun _ => rfl
  rw [map_modify_origin hsame, List.modify_id]

theorem sameClients_receive (client : ClientId) (repo : S.Repo) (r : Inner S) :
    r.SameClients (exec (.receive client repo) r) :=
  ⟨rfl, rfl, (map_receive_origin r.instances client repo).symm⟩

/-- An operation that needs no guard leaves the clients alone. -/
theorem sameClients_exec {ph ph' : Phase} {o : Op S} {r : Inner S} (hi : ph.Holds [])
    (ho : MayRun ph [] o r ph') : r.SameClients (exec o r) := by
  cases ho with
  | newClient hl => cases hl
  | removeClient hl => cases hl
  | insertMapping hl => cases hl
  | updateMapping hl => cases hl
  | setUpdateCallback => cases hi
  | insertClient => cases hi
  | receive => exact sameClients_receive _ _ r
  | _ => exact refl_of SameClients r

/-- No operation tells alike repositories apart. -/
theorem Alike.exec (o : Op S) {r r' : Inner S} (h : r.Alike r') : (exec o r).Alike (exec o r') := by
  obtain ⟨⟨hcfg, hclients, horig⟩, hmap⟩ := h
  cases o with
  | newClient s =>
    refine ⟨⟨hcfg, hclients, ?_⟩, hmap⟩
    show (r.instances ++ _).map origin = (r'.instances ++ _).map origin
    rw [List.map_append, List.map_append, horig]
    simp only [fpConfig, hcfg]
  | setUpdateCallback id t =>
    refine ⟨⟨hcfg, hclients, ?_⟩, hmap⟩
    have hset : ∀ l : List (FPClient S), (l.modify id (·.setUpdateCallback t)).map origin =
        (l.map origin).modify id (fun p => (p.1, some t)) := fun l => map_modify_origin (fun _ => rfl) l id
    show (r.instances.modify id _).map origin = (r'.instances.modify id _).map origin
    rw [hset, hset, horig]
  | insertClient s id => exact ⟨⟨hcfg, congrArg (·.insert s id) hclients, horig⟩, hmap⟩
  | removeClient s => exact ⟨⟨hcfg, congrArg (·.erase s) hclients, horig⟩, hmap⟩
  | insertMapping c s v => exact ⟨⟨hcfg, hclients, horig⟩, congrArg (·.insert c s v) hmap⟩
  | updateMapping π new => exact ⟨⟨hcfg, hclients, horig⟩, congrArg (·.updateMapping π new) hmap⟩
  | receive id repo =>
    refine ⟨⟨hcfg, hclients, ?_⟩, hmap⟩
    show (r.instances.modify id _).map origin = (r'.instances.modify id _).map origin
    rw [map_receive_origin, map_receive_origin, horig]
  | _ => exact ⟨⟨hcfg, hclients, horig⟩, hmap⟩

/-! ### A pass, as alone under its guard of the mapping -/

section
variable {J : List (Lock × Mode) → Inner S → Prop}

/-- Beside calls that write no client, a guard of the mapping leaves deliveries only. -/
theorem shields_mapping (hJ : ∀ h r, (.secretMapping, .read) ∈ h → J h r) :
    Shields Lock.Same SameClients J Alike [(.secretMapping, .read)] where
  around h hg r₀ r r' hr h' := by
    have hread : (.secretMapping, .read) ∈ h := hg (List.mem_singleton_self _)
    exact trans_of Alike hr ⟨h'.rel, h'.held .secretMapping .read hread⟩
  puts h hg r := hJ h r (hg (List.mem_singleton_self _))

variable (hg : Shields Lock.Same SameClients J Alike [(.secretMapping, .read)])
include hg

theorem asAlone_reading {α : Type} {o : Op S} {f : Inner S → α} (hf : ∀ r r', r.Alike r' → f r = f r') :
    (Prog.reading o f : RepoM S α).AsAlone Lock.Same SameClients J Alike [(.secretMapping, .read)] :=
  .reading hg hf fun _ _ h => h.exec o

theorem asAlone_perform (o : Op S) :
    (Prog.perform o : RepoM S Unit).AsAlone Lock.Same SameClients J Alike [(.secretMapping, .read)] :=
  .perform hg fun _ _ h => h.exec o

theorem asAlone_sync (s : ServerSdkKey) :
    (sync s : RepoM S (Option Unit)).AsAlone Lock.Same SameClients J Alike [(.secretMapping, .read)] := by
  refine .bind (.guarded hg (.bind (asAlone_reading hg fun r r' h => ?_) fun _ => .pure hg _)) fun missing => ?_
  · simp only [h.sdkClients]
  · split
    · exact .pure hg _
    · refine .guarded hg (.bind ?_ fun id => ?_)
      · unfold newClient
        split
        · exact asAlone_reading hg fun _ _ h => congrArg some h.length
        · exact asAlone_reading hg fun _ _ _ => rfl
      · cases id with
        | none => exact .pure hg none
        | some id =>
          refine .bind (.bind (.guarded hg (.bind ?_ fun _ => .pure hg _)) fun c => ?_) fun _ => ?_
          · exact asAlone_reading hg fun _ _ h => h.secretMapping
          · exact asAlone_perform hg _
          · exact .bind (asAlone_perform hg _) fun _ => .pure hg _

/-- The body of a pass, under its guard of the mapping. -/
theorem asAlone_updateClients (πr : IterOrder ServerSdkKey ClientSdkKey)
    (πc : IterOrder ServerSdkKey ClientId) : ∃ body : RepoM S (Option Unit),
      updateClients πr πc = .guarded .secretMapping .read body ∧
      body.AsAlone Lock.Same SameClients J Alike [(.secretMapping, .read)] := by
  refine ⟨_, rfl, .bind (asAlone_reading hg fun _ _ h => h.secretMapping) fun m => ?_⟩
  refine .bind (.guarded hg (asAlone_reading hg fun _ _ h => h.sdkClients)) fun clients => ?_
  split
  · refine .bind (.tryForM hg (asAlone_sync hg)) fun synced => ?_
    cases synced with
    | none => exact .pure hg none
    | some =>
      refine .bind (.forM hg fun s => ?_) fun _ => .pure hg _
      split
      · exact .guarded hg (asAlone_perform hg _)
      · exact .pure hg ()
  · exact .pure hg _

end

theorem within_sync (s : ServerSdkKey) :
    (sync s : RepoM S (Option Unit)).Within (Lock.Same .secretMapping) := by
  refine .bind (.guarded ⟨fun _ => rfl, fun _ => trivial⟩) fun missing => ?_
  split
  · trivial
  · refine .guarded (.bind ?_ fun id => ?_)
    · unfold newClient
      split
      · exact ⟨fun _ => rfl, fun _ => trivial⟩
      · exact ⟨fun _ => rfl, fun _ => trivial⟩
    · cases id with
      | none => trivial
      | some id =>
        refine .bind (.bind (.guarded ⟨fun _ => rfl, fun _ => trivial⟩) fun c => ?_) fun _ => ?_
        · exact ⟨fun _ => rfl, fun _ => trivial⟩
        · exact .bind ⟨fun _ => rfl, fun _ => trivial⟩ fun _ => trivial

/-- A pass does not write the mapping. -/
theorem within_updateClients (πr : IterOrder ServerSdkKey ClientSdkKey)
    (πc : IterOrder ServerSdkKey ClientId) :
    (updateClients πr πc : RepoM S (Option Unit)).Within (Lock.Same .secretMapping) := by
  refine .guarded (.bind ⟨fun _ => rfl, fun _ => trivial⟩ fun m => ?_)
  refine .bind (.guarded ⟨fun _ => rfl, fun _ => trivial⟩) fun clients => ?_
  split
  · refine .bind (.tryForM within_sync) fun synced => ?_
    cases synced with
    | none => trivial
    | some =>
      refine .bind (.forM fun s => ?_) fun _ => trivial
      split
      · exact .guarded ⟨fun _ => rfl, fun _ => trivial⟩
      · trivial
  · trivial

theorem reconciled_secretMapping (r : Inner S) (πr : IterOrder ServerSdkKey ClientSdkKey)
    (πc : IterOrder ServerSdkKey ClientId) : (r.reconciled πr πc).secretMapping = r.secretMapping :=
  updateClients_secretMapping r πr πc

/-- The clients in `r'` are those a pass leaves, that finds those of `r` and the mapping of `r'`. -/
def PassedTo (r : Inner S) (πr : IterOrder ServerSdkKey ClientSdkKey) (πc : IterOrder ServerSdkKey ClientId)
    (r' : Inner S) : Prop :=
  Alike ({ r with secretMapping := r'.secretMapping }.reconciled πr πc) r'

/-- When a pass puts its last guard down. -/
theorem wpl_updateClients (r : Inner S) (πr : IterOrder ServerSdkKey ClientSdkKey)
    (πc : IterOrder ServerSdkKey ClientId) :
    (Call.updateClients πr πc).prog.wpl Lock.Same SameClients (Lock.Same .secretMapping)
      (fun h r' => h = [] → r.PassedTo πr πc r') (fun _ _ _ => True) [] r := by
  have hshields := shields_mapping (S := S) (J := fun h r' => h = [] → r.PassedTo πr πc r')
    fun h r' hm hh => by rw [hh] at hm; cases hm
  obtain ⟨body, hbody, halone⟩ := asAlone_updateClients hshields πr πc
  have hpass : (updateClients πr πc).wpb Lock.Same SameClients (fun _ _ => True)
      (fun h r' => h = [] → r.PassedTo πr πc r') (fun _ _ => True) [] r := by
    rw [hbody]
    refine Prog.wpb_guarded fun r₁ h₁ => ?_
    -- the pass has its guard of the mapping and finds `r` with the mapping there is
    have hfound : Alike { r with secretMapping := r₁.secretMapping } r₁ :=
      ⟨⟨h₁.rel.serverConfig, h₁.rel.sdkClients, h₁.rel.origins⟩, rfl⟩
    refine Prog.wpb_mono (halone _ (List.Subset.refl _) _ _ hfound) ?_
    rintro _ r₂ ⟨-, h₂⟩ r₃ h₃
    refine ⟨fun _ => ?_, fun _ _ => trivial⟩
    have hleft := hshields.around _ (List.Subset.refl _) _ _ _ h₂ h₃
    have hrun : body.run { r with secretMapping := r₁.secretMapping } =
        (updateClients πr πc).run { r with secretMapping := r₁.secretMapping } := by
      rw [hbody, Prog.run_guarded]
    rw [hrun] at hleft
    have hmap : r₁.secretMapping = r₃.secretMapping :=
      (reconciled_secretMapping { r with secretMapping := r₁.secretMapping } πr πc).symm.trans
        hleft.secretMapping
    unfold PassedTo
    rw [← hmap]
    exact hleft
  have hwithin := Prog.wpl_within (Prog.wpb_wpl hpass) (within_updateClients πr πc)
  exact Prog.wpl_conseq (Prog.wpl_map hwithin) (fun _ _ h => h) (fun _ _ h => h.2) fun _ _ h => h

end Inner

theorem Call.AtOnce.within {call : Call S} (h : call.AtOnce) : call.prog.Within Inner.SameClients := by
  cases call with
  | sync c s v => exact h.elim
  | updateClients πr πc => exact h.elim
  | updateMapping π new =>
    refine .bind (.bind (.guarded ?_) fun version => ?_) fun _ => trivial
    · exact ⟨fun r => refl_of Inner.SameClients r, fun _ => trivial⟩
    · split
      · exact .guarded ⟨fun _ => ⟨rfl, rfl, rfl⟩, fun _ => trivial⟩
      · trivial
  | receive id repo => exact ⟨Inner.sameClients_receive id repo, fun _ => trivial⟩
  | _ => exact (Call.IsRequest.readOnly (by trivial)).within

/-- The calls that leave mapping and registry alone. -/
def Call.Aside : Call S → Prop
  | .sync .. | .updateMapping .. | .updateClients .. => False
  | _ => True

theorem Call.Aside.within {call : Call S} (h : call.Aside) : call.prog.Within Inner.Alike := by
  cases call with
  | sync c s v => exact h.elim
  | updateMapping π new => exact h.elim
  | updateClients πr πc => exact h.elim
  | receive id repo => exact ⟨fun r => ⟨Inner.sameClients_receive id repo r, rfl⟩, fun _ => trivial⟩
  | _ => exact (Call.IsRequest.readOnly (by trivial)).within

namespace Inner

/-- `a` and `b` are one repository up to the numbering of the instances created since `r`. -/
structure SameSince (r a b : Inner S) : Prop where
  serverConfig : a.serverConfig = b.serverConfig
  secretMapping : a.secretMapping = b.secretMapping
  keys : ∀ s, s ∈ a.sdkClients ↔ s ∈ b.sdkClients
  kept : ∀ s ∈ r.sdkClients, a.sdkClients.lookup s = b.sdkClients.lookup s
  added : ∀ s ∉ r.sdkClients, a.client s = b.client s
  instances : a.instances.Perm b.instances

theorem ensuredAll_serverConfig (r : Inner S) (keys : List ServerSdkKey) :
    (r.ensuredAll keys).serverConfig = r.serverConfig := by
  induction keys generalizing r with
  | nil => rfl
  | cons s keys ih =>
    refine (ih _).trans ?_
    unfold ensured
    split <;> rfl

theorem reconciled_serverConfig (r : Inner S) (πr : IterOrder ServerSdkKey ClientSdkKey)
    (πc : IterOrder ServerSdkKey ClientId) : (r.reconciled πr πc).serverConfig = r.serverConfig :=
  run_updateClients_cases πr πc (P := fun r' => r'.serverConfig = r.serverConfig) rfl
    (ensuredAll_serverConfig r) fun _ _ h => h

section
variable {r : Inner S} (hp : r.CanPass) (πr πr' : IterOrder ServerSdkKey ClientSdkKey)
  (πc πc' : IterOrder ServerSdkKey ClientId)
include hp

theorem mem_reconciled_iff (s : ServerSdkKey) :
    s ∈ (r.reconciled πr πc).sdkClients ↔ s ∈ (r.reconciled πr' πc').sdkClients := by
  rcases Nat.eq_zero_or_pos r.secretMapping.version with hv | hv
  · rw [reconciled_of_zero πr πc hv, reconciled_of_zero πr' πc' hv]
  · rw [mem_reconciled πr πc hv hp, mem_reconciled πr' πc' hv hp]

theorem perm_reconciled : (r.reconciled πr πc).instances.Perm (r.reconciled πr' πc').instances := by
  rcases Nat.eq_zero_or_pos r.secretMapping.version with hv | hv
  · rw [reconciled_of_zero πr πc hv, reconciled_of_zero πr' πc' hv]
  · have hperm : (r.secretMapping.serverSdkKeys πr).Perm (r.secretMapping.serverSdkKeys πr') :=
      (List.perm_ext_iff_of_nodup (πr.nodup _) (πr'.nodup _)).mpr fun s => by
        rw [πr.mem_keys, πr'.mem_keys]
    rw [instances_reconciled πr πc hv hp, instances_reconciled πr' πc' hv hp]
    exact List.Perm.append_left _ ((hperm.filter _).map _)

/-- The orders of iteration show in the numbering of the new instances only. -/
theorem sameSince_reconciled : SameSince r (r.reconciled πr πc) (r.reconciled πr' πc') where
  serverConfig := by rw [reconciled_serverConfig, reconciled_serverConfig]
  secretMapping := by rw [reconciled_secretMapping, reconciled_secretMapping]
  keys := mem_reconciled_iff hp πr πr' πc πc'
  kept s hs := by
    have hkeys := mem_reconciled_iff hp πr πr' πc πc' s
    by_cases h : s ∈ (r.reconciled πr πc).sdkClients
    · rw [lookup_reconciled_of_mem πr πc hs h, lookup_reconciled_of_mem πr' πc' hs (hkeys.mp h)]
    · rw [Finmap.lookup_eq_none.mpr h, Finmap.lookup_eq_none.mpr fun h' => h (hkeys.mpr h')]
  added s hs := by
    have hkeys := mem_reconciled_iff hp πr πr' πc πc' s
    by_cases h : s ∈ (r.reconciled πr πc).sdkClients
    · rw [client_reconciled_of_notMem πr πc hs h, client_reconciled_of_notMem πr' πc' hs (hkeys.mp h)]
    · rw [client_of_notMem h, client_of_notMem fun h' => h (hkeys.mpr h')]
  instances := perm_reconciled hp πr πr' πc πc'

end

end Inner

/-! ### A pass beside calls that write no client -/

namespace Server

section
variable {r : Inner S} {πr : IterOrder ServerSdkKey ClientSdkKey} {πc : IterOrder ServerSdkKey ClientId}
  {others : List (Call S)}

/-- What the others leave to the call `i`: they write no client beside the pass, which is call `0`. -/
def SparesPass (i : Nat) (r r' : Inner S) : Prop := i = 0 → r.SameClients r'

instance (i : Nat) : IsPreorder (Inner S) (SparesPass i) where
  refl r _ := refl_of Inner.SameClients r
  trans _ _ _ h h' hi := trans_of Inner.SameClients (h hi) (h' hi)

/-- What the call `i` does itself. -/
def PassOrSpares (i : Nat) (r r' : Inner S) : Prop :=
  (i = 0 → Lock.Same .secretMapping r r') ∧ (i ≠ 0 → r.SameClients r')

abbrev Passing (r : Inner S) (πr : IterOrder ServerSdkKey ClientSdkKey) (πc : IterOrder ServerSdkKey ClientId)
    (c : Server S) : Prop :=
  c.MeetsL Lock.Same SparesPass PassOrSpares fun i h r' => i = 0 → h = [] → r.PassedTo πr πc r'

theorem passing_start (ho : ∀ call ∈ others, call.AtOnce) :
    Passing r πr πc (start r (.updateClients πr πc :: others)) := by
  refine Config.MeetsL.start fun i p hp => ?_
  rcases i with _ | i
  · cases hp
    exact Prog.wpl_conseq (Inner.wpl_updateClients r πr πc) (fun _ _ h => h rfl)
      (fun _ _ h => ⟨fun _ => h, fun h => absurd rfl h⟩) fun _ _ h _ => h
  · rw [List.map_cons, List.getElem?_cons_succ, List.getElem?_map, Option.map_eq_some_iff] at hp
    obtain ⟨call, hcall, rfl⟩ := hp
    have hi : i + 1 ≠ 0 := by omega
    exact (ho call (List.mem_of_getElem? hcall)).within.wpl
      (fun _ _ h => ⟨fun h => absurd h hi, fun _ => h⟩) fun _ _ h => absurd h hi

theorem Passing.step {c c' : Server S} (h : Passing r πr πc c) {calls : List (Call S)}
    (hc : Config.Reach (start r calls) c) {i : Nat} {e : Event Lock (Op S)} (hs : Config.Step c i e c') :
    (c'.store = c.store ∨ PassOrSpares i c.store c'.store) ∧ Passing r πr πc c' := by
  obtain ⟨ph, hf⟩ := Config.Follow.reach (follow_start r calls) hc
  refine Config.MeetsL.step h hf hc.exclusive (fun _ _ _ _ _ hi ho => owns_exec hi ho) ?_ hs
  rintro i j hij _ _ ⟨-, hspares⟩ rfl
  exact hspares hij

theorem passing_reach (ho : ∀ call ∈ others, call.AtOnce) {c : Server S}
    (hc : Config.Reach (start r (.updateClients πr πc :: others)) c) : Passing r πr πc c := by
  obtain ⟨tr, h⟩ := hc
  induction h with
  | nil => exact passing_start ho
  | @snoc tr c i e c' h hs ih => exact (ih.step ⟨tr, h⟩ hs).2

/-- The pass ended at a moment of the run, and no client was written since. -/
def PassEnded (r : Inner S) (πr : IterOrder ServerSdkKey ClientSdkKey) (πc : IterOrder ServerSdkKey ClientId)
    (c₀ c : Server S) : Prop :=
  ∃ c₁, Config.Reach c₀ c₁ ∧ Config.Reach c₁ c ∧ r.PassedTo πr πc c₁.store ∧ c₁.store.SameClients c.store

/-- Without guards the pass is about to take one or has ended. -/
theorem passEnded_reach (ho : ∀ call ∈ others, call.AtOnce) {c : Server S}
    (hc : Config.Reach (start r (.updateClients πr πc :: others)) c)
    {t : Thread Lock (Op S) (Inner S) (Reply S)} (ht : c.threads[0]? = some t) (hh : t.held = []) :
    (∃ g, t.request = some g) ∨ PassEnded r πr πc (start r (.updateClients πr πc :: others)) c := by
  obtain ⟨tr, h⟩ := hc
  induction h generalizing t with
  | nil =>
    cases ht
    exact .inl ⟨_, rfl⟩
  | @snoc tr c i e c' h hs ih =>
    have hc : Config.Reach _ c := ⟨tr, h⟩
    have hpassing := passing_reach ho hc
    have later : c.store.SameClients c'.store →
        PassEnded r πr πc (start r (.updateClients πr πc :: others)) c →
        PassEnded r πr πc (start r (.updateClients πr πc :: others)) c' := by
      rintro hsame ⟨c₁, h₁, h₂, hto, hsame₁⟩
      exact ⟨c₁, h₁, h₂.tail hs, hto, trans_of Inner.SameClients hsame₁ hsame⟩
    by_cases hi : i = 0
    · subst i
      have hput := fun l m (he : e = .release l m) => hpassing.put (he ▸ hs) ht rfl hh
      cases hs with
      | request hu =>
        obtain rfl := Option.some.inj ((Config.getElem?_set_self hu _).symm.trans ht)
        exact .inl ⟨_, rfl⟩
      | acquire hu _ =>
        obtain rfl := Option.some.inj ((Config.getElem?_set_self hu _).symm.trans ht)
        cases hh
      | release hu => exact .inr ⟨_, hc.tail (.release hu), .refl, hput _ _ rfl, refl_of _ _⟩
      | op hu =>
        obtain rfl := Option.some.inj ((Config.getElem?_set_self hu _).symm.trans ht)
        -- an operation without guards writes no client
        obtain ⟨ph, hf⟩ := Config.Follow.reach (follow_start r _) hc
        obtain ⟨hinv, hop⟩ := hf 0 _ hu
        obtain ⟨ph', hrun, -⟩ := hop c.store
        obtain rfl : _ = [] := hh
        have hended := (ih hu rfl).resolve_left fun ⟨_, hg⟩ => by cases hg
        exact .inr (later (Inner.sameClients_exec hinv hrun) hended)
    · rw [hs.other (Ne.symm hi)] at ht
      refine (ih ht hh).imp_right (later ?_)
      rcases (hpassing.step hc hs).1 with hst | hmoves
      · rw [hst]
        exact refl_of _ _
      · exact hmoves.2 hi

end

end Server

namespace Inner

/-- A pass on `r` with calls that write no client beside it: it leaves the mapping alone, runs to its
end unless the calls come to a wedge, and ends with the clients it leaves alone, of the mapping there
is when it ends. -/
structure PassesBeside (r : Inner S) (πr : IterOrder ServerSdkKey ClientSdkKey)
    (πc : IterOrder ServerSdkKey ClientId) (c₀ c : Server S) : Prop where
  mapping : ∀ e c', Config.Step c 0 e c' → c'.store.secretMapping = c.store.secretMapping
  goesOn : ∃ c', Config.Reach c c' ∧ (c'.Returned ∨ Server.Wedged c')
  ended : ∀ t, c.threads[0]? = some t → t.done = true → Server.PassEnded r πr πc c₀ c

/-- A pass on `r` in the orders `πr` and `πc`. -/
structure Reconciles (r : Inner S) (πr : IterOrder ServerSdkKey ClientSdkKey)
    (πc : IterOrder ServerSdkKey ClientId) : Prop where
  mapping : (r.reconciled πr πc).secretMapping = r.secretMapping
  unready : r.secretMapping.version = 0 → r.reconciled πr πc = r
  keys : 0 < r.secretMapping.version → ∀ s, s ∈ (r.reconciled πr πc).sdkClients ↔ s ∈ r.secretMapping.reverse
  kept : ∀ s id, r.sdkClients.lookup s = some id → s ∈ (r.reconciled πr πc).sdkClients →
    (r.reconciled πr πc).sdkClients.lookup s = some id ∧
      ∀ i, r.instances[id]? = some i → (r.reconciled πr πc).instances[id]? = some i
  added : ∀ s ∉ r.sdkClients, s ∈ (r.reconciled πr πc).sdkClients →
    ∃ id i, (r.reconciled πr πc).sdkClients.lookup s = some id ∧ r.instances.length ≤ id ∧
      (r.reconciled πr πc).instances[id]? = some i ∧ i.config.serverSdkKey = s
  order : ∀ πr' πc', SameSince r (r.reconciled πr πc) (r.reconciled πr' πc')
  again : ∀ πr' πc', (r.reconciled πr πc).reconciled πr' πc' = r.reconciled πr πc
  beside : ∀ others : List (Call S), (∀ call ∈ others, call.AtOnce) → ∀ c : Server S,
    Config.Reach (Server.start r (.updateClients πr πc :: others)) c →
    PassesBeside r πr πc (Server.start r (.updateClients πr πc :: others)) c

theorem passesBeside_reach {r : Inner S} {πr : IterOrder ServerSdkKey ClientSdkKey}
    {πc : IterOrder ServerSdkKey ClientId} {others : List (Call S)} (ho : ∀ call ∈ others, call.AtOnce)
    {c : Server S} (hc : Config.Reach (Server.start r (.updateClients πr πc :: others)) c) :
    PassesBeside r πr πc (Server.start r (.updateClients πr πc :: others)) c where
  mapping e c' hs := by
    rcases ((Server.passing_reach ho hc).step hc hs).1 with hst | hmoves
    · rw [hst]
    · exact (hmoves.1 rfl).symm
  goesOn := by
    obtain ⟨c', hreach, hstuck⟩ := c.exists_stuck
    refine ⟨c', hreach, ?_⟩
    by_cases hret : c'.Returned
    · exact .inl hret
    · obtain ⟨t, ht, hd⟩ : ∃ t ∈ c'.threads, t.done = false := by
        simpa [Config.Returned] using hret
      exact .inr (Server.wedged_of_deadlocked (hc.trans hreach) (Config.deadlocked_of_stuck hstuck ht hd))
  ended t ht hd := by
    obtain ⟨ph, hf⟩ := Config.Follow.reach (Server.follow_start r _) hc
    have hheld := Server.held_of_done hf (List.mem_of_getElem? ht) hd
    refine (Server.passEnded_reach ho hc ht hheld).resolve_left ?_
    rintro ⟨g, hg⟩
    obtain ⟨p, held, wait⟩ := t
    cases p with
    | acquire l m p => cases hd
    | _ => cases hg

/-- A pass does all this exactly when it panics on no key. -/
theorem reconciles_iff (r : Inner S) (πr : IterOrder ServerSdkKey ClientSdkKey)
    (πc : IterOrder ServerSdkKey ClientId) : Reconciles r πr πc ↔ r.CanPass := by
  constructor
  · intro h hv s hs
    by_contra hsync
    have hmem := (h.keys hv s).mpr hs
    rw [reconciled_of_not πr πc fun hp => hsync (hp hv s hs), mem_ensuredAll] at hmem
    exact hsync (hmem.symm.imp_right And.right)
  · intro hp
    exact {
      mapping := reconciled_secretMapping r πr πc
      unready := fun hv => reconciled_of_zero πr πc hv
      keys := fun hv s => mem_reconciled πr πc hv hp
      kept := fun s id hid hs => by
        have hold : s ∈ r.sdkClients := Finmap.mem_of_lookup_eq_some hid
        exact ⟨(lookup_reconciled_of_mem πr πc hold hs).trans hid, fun i => getElem?_reconciled πr πc⟩
      added := fun s hnew hs => by
        obtain ⟨id, hl, hle, hi⟩ := lookup_reconciled_of_notMem πr πc hnew hs
        exact ⟨id, r.fresh s, hl, hle, hi, rfl⟩
      order := fun πr' πc' => sameSince_reconciled hp πr πr' πc πc'
      again := fun πr' πc' => by
        have hmap := reconciled_secretMapping r πr πc
        rcases Nat.eq_zero_or_pos r.secretMapping.version with hv | hv
        · exact reconciled_of_zero πr' πc' (by rw [hmap, hv])
        · refine reconciled_of_reconciled (by rwa [hmap]) (fun s => ?_) πr' πc'
          rw [hmap]
          exact mem_reconciled πr πc hv hp
      beside := fun others ho c hc => passesBeside_reach ho hc }

/-- A payload with a key that is no header value: the pass panics and registers nothing. -/
theorem not_reconciles_refused : ¬ ∀ (m : SecretMapping) (clients : HashMap ServerSdkKey ClientId),
    Reconciles (⟨default, clients, m, []⟩ : Inner Sdk.plain) (.sorted _ _) (.sorted _ _) := by
  intro h
  have hkeys := (h (.insert default "c" "s\n" 1) ∅).keys (by decide) "s\n"
  exact absurd hkeys (by decide)

end Inner
end FeatureProbeServer
