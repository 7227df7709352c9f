import FeatureProbeServer.Provenance

/-!
# A server with a keys URL

`sync_with` spawns one loop of passes, and nothing else changes the registry. Then no pass ever finds
that another call has registered or removed a client: every pass that does not panic leaves clients for
exactly the known keys, whatever is polled, delivered and requested meanwhile, and a client stays as long
as its key is known.
-/

namespace FeatureProbeServer
open Guarded

variable {W : Web}

/-- The job `k` is the only one that runs passes, and no job registers a pair. -/
structure KeysUrl (jobs : List (Job W)) (k : Nat) : Prop where
  passes : ∃ passes, jobs[k]? = some (.updateClients passes)
  others : ∀ (i : Nat) job, i ≠ k → jobs[i]? = some job → ¬ job.Passes ∧ ∀ c s n, job ≠ .one (.sync c s n)

namespace Inner

section
variable {S : Sdk}

/-- The clients are those of the known keys. -/
def Settled (r : Inner S) : Prop :=
  0 < r.secretMapping.version → ∀ s, s ∈ r.sdkClients ↔ s ∈ r.secretMapping.reverse

/-- The clients of known keys stay what they are. -/
def KeepsKnown (r r' : Inner S) : Prop :=
  ∀ s ∈ r.secretMapping.reverse, ∀ id, r.sdkClients.lookup s = some id → r'.sdkClients.lookup s = some id

theorem keepsKnown_of_eq {r r' : Inner S} (h : r.sdkClients = r'.sdkClients) : r.KeepsKnown r' :=
  fun _ _ _ hs => h ▸ hs

theorem keepsKnown_insertClient {r : Inner S} {s : ServerSdkKey} (hs : s ∉ r.sdkClients) (id : ClientId) :
    r.KeepsKnown (exec (.insertClient s id) r) := by
  intro t _ id' ht
  show (r.sdkClients.insert s id).lookup t = some id'
  have hts : t ≠ s := fun he => hs (he ▸ Finmap.mem_of_lookup_eq_some ht)
  rw [HashMap.lookup_insert_eq, if_neg hts, ht]

theorem keepsKnown_removeClient {r : Inner S} {s : ServerSdkKey} (hs : s ∉ r.secretMapping.reverse) :
    r.KeepsKnown (exec (.removeClient s) r) := by
  intro t hmem id ht
  show (r.sdkClients.erase s).lookup t = some id
  have hts : t ≠ s := fun he => hs (he ▸ hmem)
  rw [HashMap.lookup_erase_eq, if_neg hts, ht]

end

/-- The steps of the others, as the job `i` sees them: the loop `k` finds its registry as it left it. -/
structure Beside (jobs : List (Job W)) (k i : Nat) (r r' : Inner W.sdk) : Prop where
  onward : Onward jobs r r'
  clients : i = k → r.sdkClients = r'.sdkClients

instance (jobs : List (Job W)) (k i : Nat) : IsPreorder (Inner W.sdk) (Beside jobs k i) where
  refl r := ⟨refl_of (Onward jobs) r, fun _ => rfl⟩
  trans _ _ _ h h' := ⟨trans_of (Onward jobs) h.onward h'.onward,
    fun hi => (h.clients hi).trans (h'.clients hi)⟩

/-- The steps of the job `i`. -/
structure Moves (jobs : List (Job W)) (k i : Nat) (r r' : Inner W.sdk) : Prop where
  onward : Onward jobs r r'
  known : r.KeepsKnown r'
  clients : i ≠ k → r.sdkClients = r'.sdkClients

/-- After a pass the clients are those of the known keys, unless it has panicked at one without a client. -/
def Puts (k i : Nat) (h : List (Lock × Mode)) (r : Inner W.sdk) : Prop :=
  i = k → h = [] → r.CanPass → r.Settled

variable {jobs : List (Job W)} {k : Nat}

theorem moves_exec {r : Inner W.sdk} {o : Op W.sdk} (ho : r.Fits jobs o) (hk : r.KeepsKnown (exec o r)) :
    Moves jobs k k r (exec o r) :=
  ⟨onward_exec ho, hk, fun h => absurd rfl h⟩

/-- What a pass that has read the mapping `m` finds after the others have moved. -/
theorem Beside.around {r r' : Inner W.sdk} {m : SecretMapping}
    (ha : Around Lock.Same (Beside jobs k k) [(.secretMapping, .read)] r r')
    (h : r.Sound jobs ∧ r.secretMapping = m) :
    (r'.Sound jobs ∧ r'.secretMapping = m) ∧ r.sdkClients = r'.sdkClients :=
  ⟨⟨ha.rel.onward.sound h.1, (ha.held .secretMapping .read (by simp)).symm.trans h.2⟩, ha.rel.clients rfl⟩

/-- A pass that has panicked is not one that others can put right. -/
theorem Beside.canPass {r r' : Inner W.sdk}
    (ha : Around Lock.Same (Beside jobs k k) [(.secretMapping, .read)] r r') (h : ¬ r.CanPass) :
    ¬ r'.CanPass := by
  have hm : r.secretMapping = r'.secretMapping := ha.held .secretMapping .read (by simp)
  unfold CanPass CanSync at h ⊢
  rwa [← hm, ← ha.rel.clients rfl]

/-- `sync` in a pass that has read the mapping `m`, while it has clients for `old` and for `d`. -/
theorem syncRule_moves {m : SecretMapping} (hv : 0 < m.version) (old d : ServerSdkKey → Prop)
    {s : ServerSdkKey} (hm : s ∈ m.reverse) :
    SyncRule (Beside jobs k k) (Moves jobs k k) (Puts k k) [(.secretMapping, .read)] s
      (fun r => (r.Sound jobs ∧ r.secretMapping = m) ∧ ∀ t, t ∈ r.sdkClients ↔ d t ∨ old t)
      (fun r => (r.Sound jobs ∧ r.secretMapping = m) ∧ (∀ t, t ∈ r.sdkClients ↔ d t ∨ old t) ∧
        s ∉ r.sdkClients)
      (fun r => (r.Sound jobs ∧ r.secretMapping = m) ∧
        ∀ t, t ∈ r.sdkClients ↔ (d t ∨ t = s) ∨ old t)
      (fun r => ¬ r.CanPass) where
  refl r := ⟨refl_of (Onward jobs) r, keepsKnown_of_eq rfl, fun _ => rfl⟩
  puts h' r _ he := absurd he (by simp)
  before := by
    rintro r r' ha ⟨h, hd⟩
    obtain ⟨h', hclients⟩ := Beside.around ha h
    exact ⟨h', hclients ▸ hd⟩
  between := by
    rintro r r' ha ⟨h, hd⟩
    obtain ⟨h', hclients⟩ := Beside.around ha h
    exact ⟨h', hclients ▸ hd⟩
  after := by
    rintro r r' ha ⟨h, hd⟩
    obtain ⟨h', hclients⟩ := Beside.around ha h
    exact ⟨h', hclients ▸ hd⟩
  broken _ _ := Beside.canPass
  present := by
    rintro r ⟨h, hd⟩ hs
    refine ⟨h, fun t => (hd t).trans ?_⟩
    have hs := (hd s).mp hs
    constructor
    · tauto
    · rintro ((ht | rfl) | ht)
      · exact .inl ht
      · exact hs
      · exact .inr ht
  absent := by
    rintro r ⟨h, hd⟩ hs
    exact ⟨h, hd, hs⟩
  panics := by
    rintro ha r ⟨⟨-, rfl⟩, -, hs⟩ hpass
    exact (hpass hv s hm).elim hs fun hno => Bool.false_ne_true (ha.symm.trans hno)
  newClient := by
    rintro - r ⟨h, hd, hs⟩
    exact ⟨moves_exec trivial (keepsKnown_of_eq rfl), ⟨sound_exec trivial h.1, h.2⟩, hd, hs⟩
  setUpdateCallback := by
    rintro r₀ r id h₀ ⟨h, hd, hs⟩ hc
    have hfits : r.Fits jobs (.setUpdateCallback id ⟨s, r₀.secretMapping.clientSdkKey s⟩) :=
      ⟨hc, fun _ => h₀.1.1.clientSdkKey⟩
    exact ⟨moves_exec hfits (keepsKnown_of_eq rfl), ⟨sound_exec hfits h.1, h.2⟩, hd, hs⟩
  insertClient := by
    rintro r id ⟨h, hd, hs⟩ hw
    refine ⟨moves_exec hw (keepsKnown_insertClient hs id), ⟨sound_exec hw h.1, h.2⟩, fun t => ?_⟩
    show t ∈ r.sdkClients.insert s id ↔ _
    rw [Finmap.mem_insert, hd t]
    tauto

/-- A pass from `r₀`: first there come to be clients for all keys it has read, then the others go. -/
theorem passRule_moves (πr : IterOrder ServerSdkKey ClientSdkKey) (πc : IterOrder ServerSdkKey ClientId)
    {r₀ : Inner W.sdk} (hv : 0 < r₀.secretMapping.version) :
    PassRule (Beside jobs k k) (Moves jobs k k) (Puts k k) (r₀.secretMapping.serverSdkKeys πr)
      (πc.keys r₀.sdkClients)
      (fun d r => (r.Sound jobs ∧ r.secretMapping = r₀.secretMapping) ∧
        ∀ t, t ∈ r.sdkClients ↔ t ∈ d ∨ t ∈ r₀.sdkClients)
      (fun d r => r.secretMapping = r₀.secretMapping ∧
        ∀ t, t ∈ r.sdkClients ↔ t ∈ r₀.secretMapping.reverse ∨ t ∈ r₀.sdkClients ∧ t ∉ d)
      (fun r => ¬ r.CanPass) where
  stable d r r' ha := by
    have hm : r.secretMapping = r'.secretMapping := ha.held .secretMapping .read (by simp)
    rw [← ha.rel.clients rfl, ← hm]
    exact ⟨fun h => ⟨⟨ha.rel.onward.sound h.1.1, h.1.2⟩, h.2⟩, id⟩
  broken _ _ := Beside.canPass
  add d s hd := by
    simp only [List.mem_append, List.mem_singleton]
    have hs : s ∈ r₀.secretMapping.serverSdkKeys πr := hd.subset (by simp)
    have hs := (r₀.secretMapping.mem_serverSdkKeys πr s).mp hs
    exact ⟨_, syncRule_moves hv (· ∈ r₀.sdkClients) (· ∈ d) hs⟩
  added := by
    rintro r ⟨⟨-, hm⟩, hd⟩
    refine ⟨hm, fun t => (hd t).trans ?_⟩
    rw [r₀.secretMapping.mem_serverSdkKeys πr, and_iff_left List.not_mem_nil]
  keep := by
    rintro d s hs r ⟨hm, hd⟩
    refine ⟨hm, fun t => (hd t).trans ?_⟩
    have hs := (r₀.secretMapping.mem_serverSdkKeys πr s).mp hs
    rw [List.mem_append, List.mem_singleton]
    by_cases hts : t = s
    · subst t; tauto
    · tauto
  remove := by
    rintro d s hs r ⟨hm, hd⟩
    have hs : s ∉ r₀.secretMapping.reverse := mt (r₀.secretMapping.mem_serverSdkKeys πr s).mpr hs
    refine ⟨moves_exec trivial (keepsKnown_removeClient (by rwa [hm])), hm, fun t => ?_⟩
    show t ∈ r.sdkClients.erase s ↔ _
    rw [Finmap.mem_erase, hd t, List.mem_append, List.mem_singleton]
    by_cases hts : t = s
    · subst t; tauto
    · tauto
  done := by
    rintro r ⟨hm, hd⟩ _ _ _ _ t
    rw [hd t, hm, πc.mem_keys]
    tauto
  panicked _ h _ _ hpass := absurd hpass h

theorem wpb_moves_updateClients (πr : IterOrder ServerSdkKey ClientSdkKey)
    (πc : IterOrder ServerSdkKey ClientId) {r : Inner W.sdk} (hr : r.Sound jobs) :
    (updateClients πr πc).wpb Lock.Same (Beside jobs k k) (Moves jobs k k) (Puts k k) (fun _ _ => True)
      [] r := by
  refine wpb_updateClients (fun _ _ h => h.onward.grows)
    (fun r => ⟨refl_of (Onward jobs) r, keepsKnown_of_eq rfl, fun _ => rfl⟩) ?_ ?_ πr πc
    (fun _ _ h => h.onward.sound) ?_ hr
  · intro g h r _ he
    cases he
  · intro r hv _ _ _ hpos
    omega
  · intro r₀ hr₀ hv
    exact ⟨_, _, _, ⟨⟨hr₀, rfl⟩, by simp⟩, passRule_moves πr πc hv⟩

end Inner

/-! ### Jobs -/

variable {jobs : List (Job W)} {k : Nat}

theorem KeysUrl.ne_sync (hk : KeysUrl jobs k) {job : Job W} (hj : job ∈ jobs) (c : ClientSdkKey)
    (s : ServerSdkKey) (n : Nat) : job ≠ .one (.sync c s n) := by
  obtain ⟨i, hi⟩ := List.mem_iff_getElem?.mp hj
  by_cases hik : i = k
  · obtain ⟨passes, hp⟩ := hk.passes
    rw [hik, hp] at hi
    cases hi
    simp
  · exact (hk.others i job hik hi).2 c s n

/-- What `sync_with` spawns, with requests and deliveries beside it. -/
theorem keysUrl_syncWith (polls : List Poll) (passes : List Pass) (jobs : List (Job W))
    (hjobs : ∀ job ∈ jobs, ¬ job.Passes ∧ ∀ c s n, job ≠ .one (.sync c s n)) :
    KeysUrl (.syncSecretKeys polls :: .updateClients passes :: jobs) 1 := by
  refine ⟨⟨passes, rfl⟩, fun i job hi hj => ?_⟩
  rcases i with _ | _ | i
  · cases hj
    exact ⟨id, by simp⟩
  · exact absurd rfl hi
  · exact hjobs job (List.mem_of_getElem? hj)

theorem within_updateMapping {S : Sdk} (π : IterOrder ClientSdkKey ServerSdkKey) (new : SecretMapping) :
    (Inner.updateMapping π new : RepoM S Unit).Within (Lock.Same .sdkClients) := by
  refine .bind (.guarded ⟨fun _ => rfl, fun _ => trivial⟩) fun version => ?_
  split
  · exact .guarded ⟨fun _ => rfl, fun _ => trivial⟩
  · trivial

/-- Only passes and registrations change the registry. -/
theorem Job.within {job : Job W} (hpass : ¬ job.Passes) (hsync : ∀ c s n, job ≠ .one (.sync c s n)) :
    job.prog.Within (Lock.Same .sdkClients) := by
  cases job with
  | one call =>
    refine .bind ?_ fun _ => trivial
    cases call with
    | sync c s n => exact absurd rfl (hsync c s n)
    | updateMapping π new => exact (within_updateMapping π new).bind fun _ => trivial
    | updateClients πr πc => exact absurd trivial hpass
    | receive id repo => exact ⟨fun _ => rfl, fun _ => trivial⟩
    | _ => exact (Call.IsRequest.readOnly (by trivial)).within
  | syncSecretKeys polls =>
    refine .bind (.forM fun poll => ?_) fun _ => trivial
    cases poll with
    | payload π new => exact within_updateMapping π new
    | _ => trivial
  | updateClients passes => exact absurd trivial hpass
  | http handler request => exact (handler.readOnly_serve request).within.bind fun _ => trivial

/-- Only the loop may set up clients, and it finds its registry as it left it. -/
theorem KeysUrl.amid (hk : KeysUrl jobs k) {i : Nat} {r r' : Inner W.sdk} (h : Inner.Beside jobs k i r r') :
    Inner.Amid jobs i r r' := by
  refine ⟨h.onward, fun s hs hs' => ?_⟩
  by_cases hik : i = k
  · rw [← h.clients hik] at hs'
    exact absurd hs' hs
  · obtain ⟨passes, hp⟩ := hk.passes
    exact ⟨k, .updateClients passes, Ne.symm hik, hp, .inl trivial⟩

theorem KeysUrl.moves (hk : KeysUrl jobs k) {i : Nat} {job : Job W} (hj : jobs[i]? = some job)
    {r : Inner W.sdk} (hr : r.Sound jobs) : job.prog.wpl Lock.Same (Inner.Beside jobs k i)
    (Inner.Moves jobs k i) (Inner.Puts k i) (fun _ _ _ => True) [] r := by
  by_cases hik : i = k
  · subst i
    obtain ⟨passes, hp⟩ := hk.passes
    obtain rfl := Option.some.inj (hp.symm.trans hj)
    exact Job.wpl_updateClients (fun _ _ h => h.onward.sound) (fun _ _ h => h.onward.sound)
      (fun pass _ => Inner.wpb_moves_updateClients pass.1 pass.2) passes hr
  · have hserves := Job.serves hj hr
    obtain ⟨hpass, hsync⟩ := hk.others i job hik hj
    refine Prog.wpl_conseq (Prog.wpl_within hserves (Job.within hpass hsync)) (fun _ _ => hk.amid) ?_
      fun _ _ _ hi => absurd hi hik
    exact fun r r' h => ⟨h.1.onward, Inner.keepsKnown_of_eq h.2, fun _ => h.2⟩

/-! ### The service of such a server -/

namespace Service

/-- Without a table no key is known and no feed open. -/
def Blank (v : Service W.sdk) : Prop := v.version = 0 → v.known = ∅ ∧ ∀ s, v.feed s = .closed

theorem Blank.next {v v' : Service W.sdk} (h : v.Blank) (hk : KeysUrl jobs k) (hs : Next jobs v v') :
    v'.Blank := by
  obtain ⟨i, job, hjob, hs⟩ := hs
  have hjob := List.mem_of_getElem? hjob
  intro hv
  cases hs with
  | publish new _ hlt =>
    have hv : new.version = 0 := hv
    omega
  | register c s n => exact absurd rfl (hk.ne_sync hjob c s n)
  | openRegistered c s n => exact absurd rfl (hk.ne_sync hjob c s n)
  | openKnown s feed _ hs =>
    rw [(h hv).1] at hs
    exact hs.elim
  | fetch s id repo hf => exact absurd ((h hv).2 s) hf
  | close s _ hpos => exact absurd hv (Nat.pos_iff_ne_zero.mp hpos)

theorem Blank.path {v v' : Service W.sdk} (hp : Relation.ReflTransGen (Next jobs) v v') (hk : KeysUrl jobs k)
    (h : v.Blank) : v'.Blank := by
  induction hp with
  | refl => exact h
  | tail _ hs ih => exact ih.next hk hs

end Service

theorem Inner.Sound.feed {r : Inner W.sdk} (h : r.Sound jobs) {s : ServerSdkKey}
    (hs : s ∈ r.sdkClients) : r.service.feed s ≠ .closed := by
  obtain ⟨id, hid⟩ := Finmap.mem_iff.mp hs
  obtain ⟨i, -, hi, -⟩ := h.wired s id hid
  rw [Inner.service_feed, Inner.client_eq_some.mpr ⟨id, hid, hi⟩]
  exact Inner.of_ne_closed i

/-! ### Runs -/

namespace Site

/-- Every job still does what it may do beside the loop. -/
abbrev Keeping (jobs : List (Job W)) (k : Nat) (c : Site W) : Prop :=
  c.MeetsL Lock.Same (Inner.Beside jobs k) (Inner.Moves jobs k) (Inner.Puts k)

variable {cfg : ServerConfig} {tr : List (Nat × Event Lock (Op W.sdk))} {c c' : Site W}

theorem Keeping.step (h : Keeping jobs k c) (hreach : Config.Reach (start (SdkRepository.new cfg) jobs) c)
    {i : Nat} {e : Event Lock (Op W.sdk)} (hs : Config.Step c i e c') :
    (c'.store = c.store ∨ Inner.Moves jobs k i c.store c'.store) ∧ Keeping jobs k c' := by
  obtain ⟨ph, hf⟩ := (follow_start _ jobs).reach hreach
  refine Config.MeetsL.step h hf hreach.exclusive (fun _ _ _ _ _ hi ho => owns_exec hi ho) ?_ hs
  exact fun i j hij r r' hm => ⟨hm.onward, fun hj => hm.clients fun hi => hij (hi.trans hj.symm)⟩

theorem keeping_exec (hk : KeysUrl jobs k) (h : Config.Exec (start (SdkRepository.new cfg) jobs) tr c) :
    Keeping jobs k c := by
  induction h with
  | nil =>
    refine Config.MeetsL.start fun i p hp => ?_
    rw [List.getElem?_map, Option.map_eq_some_iff] at hp
    obtain ⟨job, hj, rfl⟩ := hp
    exact hk.moves hj (Inner.sound_new cfg)
  | @snoc tr c i e c' h hs ih => exact (ih.step ⟨tr, h⟩ hs).2

theorem blank_exec (hk : KeysUrl jobs k) (h : Config.Exec (start (SdkRepository.new cfg) jobs) tr c) :
    c.store.service.Blank :=
  Service.Blank.path (serving_exec h).2 hk fun _ => ⟨rfl, fun _ => rfl⟩

theorem Keeping.keepsKnown (h : Keeping jobs k c)
    (hreach : Config.Reach (start (SdkRepository.new cfg) jobs) c) {i : Nat} {e : Event Lock (Op W.sdk)}
    (hs : Config.Step c i e c') : c.store.KeepsKnown c'.store := by
  rcases (h.step hreach hs).1 with hst | hmoves
  · exact Inner.keepsKnown_of_eq (congrArg Inner.sdkClients hst.symm)
  · exact hmoves.known

/-- Whatever runs beside the loop, no step takes the client of a known key away or replaces it, and
whenever the loop has put down its last guard there are clients for exactly the known keys, if it has not
panicked: if `FPClient::new` accepts the known keys that have none. -/
theorem exec_settled (hk : KeysUrl jobs k) (h : Config.Exec (start (SdkRepository.new cfg) jobs) tr c) :
    (∀ i e c', Config.Step c i e c' → c.store.KeepsKnown c'.store) ∧
    ∀ l m c' t, Config.Step c k (.release l m) c' → c'.threads[k]? = some t → t.held = [] →
      ((∀ s, s ∈ c'.store.sdkClients ↔ s ∈ c'.store.secretMapping.reverse) ↔ c'.store.CanPass) := by
  have hkeep := keeping_exec hk h
  refine ⟨fun i e c' hs => hkeep.keepsKnown ⟨tr, h⟩ hs, ?_⟩
  intro l m c' t hs ht hheld
  refine ⟨fun hall _ s hmem => .inl ((hall s).mpr hmem), fun hpass s => ?_⟩
  have hsettled : c'.store.Settled := hkeep.put hs ht rfl hheld hpass
  rcases Nat.eq_zero_or_pos c'.store.secretMapping.version with hv | hv
  · -- there has been no table yet
    obtain ⟨hknown, hclosed⟩ := blank_exec hk (h.snoc hs) hv
    have hsound := (serving_exec (h.snoc hs)).1.sound
    constructor
    · exact fun hmem => absurd (hclosed s) (hsound.feed hmem)
    · exact fun hmem => absurd ((Inner.mem_known _ s).mpr hmem) (by rw [hknown]; simp)
  · exact hsettled hv s

/-- The first pass after a payload, while the client that it has just created is handed its toggles. -/
theorem exec_settled_delivery : ∃ jobs : List (Job Web.plain),
    jobs = [.syncSecretKeys [.payload (.sorted _ _) ⟨1, .singleton "c" "s", ∅⟩],
      .updateClients [(.sorted _ _, .sorted _ _)], .one (.receive 0 ⟨∅, .singleton "t" true, (), some 1⟩)] ∧
    ∃ c : Site Web.plain, c.store.clientInitialized 0 = true ∧ "s" ∈ c.store.secretMapping.reverse ∧
      ∀ s, s ∈ c.store.sdkClients ↔ s ∈ c.store.secretMapping.reverse := by
  refine ⟨_, rfl, ?_⟩
  obtain ⟨c, c', hc, hstep, ht, hi, hs⟩ : ∃ c c', (start (SdkRepository.new default)
      [.syncSecretKeys [.payload (.sorted _ _) ⟨1, .singleton "c" "s", ∅⟩],
        .updateClients [(.sorted _ _, .sorted _ _)],
        .one (.receive 0 ⟨∅, .singleton "t" true, (), some 1⟩)] : Site Web.plain).schedule
      (.replicate 8 0 ++ .replicate 14 1 ++ [2] ++ .replicate 7 1) = some c ∧
      c.step? 1 = some (.release .secretMapping .read, c') ∧ c'.threads[1]?.map Thread.held = some [] ∧
      c'.store.clientInitialized 0 = true ∧ c'.store.secretMapping.reverse = .singleton "s" "c" :=
    ⟨_, _, rfl, rfl, rfl, rfl, rfl⟩
  obtain ⟨tr, h⟩ := Config.Reach.of_schedule hc
  obtain ⟨t, ht, hheld⟩ := Option.map_eq_some_iff.mp ht
  have hk := keysUrl_syncWith (W := Web.plain) [.payload (.sorted _ _) ⟨1, .singleton "c" "s", ∅⟩]
    [(.sorted _ _, .sorted _ _)] [.one (.receive 0 ⟨∅, .singleton "t" true, (), some 1⟩)]
    (by simp [Job.Passes])
  have hpass : c'.store.CanPass := by
    intro _ s hmem
    rw [hs, Finmap.mem_singleton] at hmem
    rw [hmem]
    exact .inr (by decide)
  refine ⟨c', hi, ?_, ((exec_settled hk h).2 _ _ c' t (Config.step?_iff.mp hstep) ht hheld).mpr hpass⟩
  rw [hs]
  exact (Finmap.mem_singleton _ _ _).mpr rfl

/-- A client that keeps its place has what it had and what a step hands to it. -/
theorem feed_step (hsound : c.store.Sound jobs) {i : Nat} {e : Event Lock (Op W.sdk)}
    (hs : Config.Step c i e c') (hkeeps : c.store.KeepsKnown c'.store) {s : ServerSdkKey}
    (hknown : s ∈ c.store.secretMapping.reverse) {id : ClientId}
    (hid : c.store.sdkClients.lookup s = some id) : c'.store.sdkClients.lookup s = some id ∧
      c'.store.service.feed s = (c.store.service.feed s).next id (i, e) := by
  have hid' := hkeeps s hknown id hid
  refine ⟨hid', ?_⟩
  rcases hs.store_cases with ⟨hst, he⟩ | ⟨o, rfl, hst⟩
  · rw [hst, Feed.next_of_ne he]
  · obtain ⟨inst, hi, -⟩ := hsound.registryOk.lookup hid
    obtain ⟨inst', hi', -, -, hfeed⟩ := Feed.of_exec hi (hsound.unused id inst hi) i o
    rw [hst] at hid' ⊢
    rw [Inner.service_feed, Inner.service_feed, Inner.client_eq_some.mpr ⟨id, hid, hi⟩,
      Inner.client_eq_some.mpr ⟨id, hid', hi'⟩, hfeed]

/-- As long as its key is known, a client has what it had and what is handed to it. -/
theorem feed_exec (hk : KeysUrl jobs k) (h : Config.Exec (start (SdkRepository.new cfg) jobs) tr c)
    {tr'} (h' : Config.Exec c tr' c') {s : ServerSdkKey}
    (hknown : ∀ tr₁ c₁, tr₁ <+: tr' → Config.Exec c tr₁ c₁ → s ∈ c₁.store.secretMapping.reverse)
    {id : ClientId} (hid : c.store.sdkClients.lookup s = some id) :
    c'.store.sdkClients.lookup s = some id ∧
      c'.store.service.feed s = (c.store.service.feed s).after id tr' := by
  induction h' with
  | nil => exact ⟨hid, rfl⟩
  | @snoc tr₁ c₁ i e c₂ h₁ hs ih =>
    have hall := h.append h₁
    have hpart : tr₁ <+: tr₁ ++ [(i, e)] := List.prefix_append _ _
    obtain ⟨hid₁, hfeed₁⟩ := ih fun tr₀ c₀ hp => hknown tr₀ c₀ (hp.trans hpart)
    have hkeeps := (keeping_exec hk hall).keepsKnown ⟨_, hall⟩ hs
    obtain ⟨hid₂, hfeed₂⟩ := feed_step (serving_exec hall).1.sound hs hkeeps (hknown tr₁ c₁ hpart h₁) hid₁
    exact ⟨hid₂, by rw [hfeed₂, hfeed₁, Feed.after_snoc]⟩

/-- Once the client of a key has its toggles, no request for them is turned down while the key is known:
each that starts and returns in that time is answered with the toggles that this client had at its start,
or with those it had after some of what has been handed to it since. -/
theorem exec_served (hk : KeysUrl jobs k) (hS : W.sdk.Serializes)
    (h : Config.Exec (start (SdkRepository.new cfg) jobs) tr c) {s : ServerSdkKey} {repo : W.sdk.Repo}
    (hfeed : c.store.service.feed s = .toggles repo) {tr'} (h' : Config.Exec c tr' c') {request : Request W}
    {f : W.sdk.Repo → Except String W.sdk.Json}
    (hreads : ∀ tr₁ c₁, tr₁ <+: tr' → Config.Exec c tr₁ c₁ → s ∈ c₁.store.service.known ∧
      c₁.store.service.Reads s request f)
    {i : Nat} {handler : FpHttpHandler} (hj : jobs[i]? = some (.http handler request))
    (hnew : ∀ e, (i, e) ∉ tr) {t : Thread Lock (Op W.sdk) (Inner W.sdk) (Answer W)}
    (ht : c'.threads[i]? = some t) {a : Answer W} (ha : t.result = some a) :
    ∃ id tr₁ repo' j r, c.store.sdkClients.lookup s = some id ∧ tr₁ <+: tr' ∧
      Feed.after id (.toggles repo) tr₁ = .toggles repo' ∧ f repo' = .ok j ∧
      r.status = 200 ∧ r.body = .json j ∧ a = .outcome ⟨some r, []⟩ := by
  obtain ⟨tr₁, c₁, hp, h₁, ha⟩ := exec_since h h' hj hnew ht ha
  have hall := h.append h₁
  obtain ⟨hknown, hreads₁⟩ := hreads tr₁ c₁ hp h₁
  obtain ⟨inst, hi, -⟩ := Inner.feed_toggles.mp hfeed
  obtain ⟨id, hid, -⟩ := Inner.client_eq_some.mp hi
  have hfeed' := (feed_exec hk h h₁ (fun tr₂ c₂ hp₂ h₂ => (hreads tr₂ c₂ (hp₂.trans hp) h₂).1) hid).2
  obtain ⟨repo', hafter⟩ := Feed.after_toggles id repo tr₁
  rw [hfeed, hafter] at hfeed'
  have hv : c₁.store.service.version ≠ 0 := by
    intro hv
    rw [(blank_exec hk hall hv).1] at hknown
    exact hknown
  obtain ⟨j, hj⟩ := hreads₁.serializes hS repo'
  obtain ⟨r, hr, hstatus, hbody⟩ := hreads₁.outcome hv hknown hfeed' hj handler
  refine ⟨id, tr₁, repo', j, r, hid, hp, hafter, hj, hstatus, hbody, ?_⟩
  rw [ha, FpHttpHandler.run_serve handler (serving_exec hall).1.sound.registryOk request, hr]

/-- A second payload is taken and other toggles are delivered after the first step of a request. -/
theorem exec_served_meanwhile : ∃ jobs : List (Job Web.plain),
    jobs = [.syncSecretKeys [.payload (.sorted _ _) ⟨1, .singleton "c" "s", ∅⟩,
        .payload (.sorted _ _) ⟨2, .singleton "c" "s", ∅⟩],
      .updateClients [(.sorted _ _, .sorted _ _)], .one (.receive 0 ⟨∅, .singleton "t" true, (), some 1⟩),
      .http default (.serverSdkToggles "s"), .one (.receive 0 ⟨∅, .singleton "t" false, (), some 2⟩)] ∧
    ∃ tr' tr₁ id repo' j r, tr₁ <+: tr' ∧
      Feed.after id (.toggles ⟨∅, .singleton "t" true, (), some 1⟩) tr₁ = .toggles repo' ∧
      Web.plain.sdk.repoJson repo' = .ok j ∧ r.status = 200 ∧ r.body = .json j ∧
      ∃ c c' : Site Web.plain, Config.Exec c tr' c' ∧
        c'.threads[3]?.map Thread.result = some (some (.outcome ⟨some r, []⟩)) := by
  refine ⟨_, rfl, ?_⟩
  obtain ⟨c, c', t, a, hc, hfeed, hc', ht, ha, hall⟩ : ∃ c c' t a, (start (SdkRepository.new default)
      [.syncSecretKeys [.payload (.sorted _ _) ⟨1, .singleton "c" "s", ∅⟩,
          .payload (.sorted _ _) ⟨2, .singleton "c" "s", ∅⟩],
        .updateClients [(.sorted _ _, .sorted _ _)], .one (.receive 0 ⟨∅, .singleton "t" true, (), some 1⟩),
        .http default (.serverSdkToggles "s"), .one (.receive 0 ⟨∅, .singleton "t" false, (), some 2⟩)] :
        Site Web.plain).schedule
      (.replicate 8 0 ++ .replicate 22 1 ++ [2]) = some c ∧
      c.store.service.feed "s" = .toggles ⟨∅, .singleton "t" true, (), some 1⟩ ∧
      c.schedule (3 :: .replicate 8 0 ++ 4 :: .replicate 9 3) = some c' ∧ c'.threads[3]? = some t ∧
      t.result = some a ∧
      ∀ n < 20, (c.schedule ((3 :: .replicate 8 0 ++ 4 :: .replicate 9 3).take n)).all
        (fun c₁ => "s" ∈ c₁.store.secretMapping.reverse) = true :=
    ⟨_, _, _, _, rfl, rfl, rfl, rfl, rfl, by decide⟩
  obtain ⟨tr, htr, h⟩ := Config.Exec.of_schedule hc
  obtain ⟨tr', htr', h'⟩ := Config.Exec.of_schedule hc'
  have hk := keysUrl_syncWith (W := Web.plain) [.payload (.sorted _ _) ⟨1, .singleton "c" "s", ∅⟩,
      .payload (.sorted _ _) ⟨2, .singleton "c" "s", ∅⟩] [(.sorted _ _, .sorted _ _)]
    [.one (.receive 0 ⟨∅, .singleton "t" true, (), some 1⟩), .http default (.serverSdkToggles "s"),
      .one (.receive 0 ⟨∅, .singleton "t" false, (), some 2⟩)]
    (by simp [Job.Passes])
  have hreads : ∀ tr₁ c₁, tr₁ <+: tr' → Config.Exec c tr₁ c₁ → "s" ∈ c₁.store.service.known ∧
      c₁.store.service.Reads "s" (.serverSdkToggles "s") Web.plain.sdk.repoJson := by
    intro tr₁ c₁ hp h₁
    obtain ⟨n, hn, hc₁⟩ := h₁.schedule_take hp
    rw [htr'] at hn hc₁
    have hall := hall n (Nat.lt_succ_of_le hn)
    rw [hc₁] at hall
    have hknown : "s" ∈ c₁.store.secretMapping.reverse := of_decide_eq_true hall
    exact ⟨hknown, .server⟩
  have hnew : ∀ e, (3, e) ∉ tr := by
    intro e he
    have hmem : 3 ∈ tr.map Prod.fst := List.mem_map.mpr ⟨_, he, rfl⟩
    rw [htr] at hmem
    exact absurd hmem (by decide)
  obtain ⟨id, tr₁, repo', j, r, -, hp, hafter, hj, hstatus, hbody, rfl⟩ :=
    exec_served hk Sdk.plain_serializes h hfeed h' hreads (i := 3) rfl hnew ht ha
  refine ⟨tr', tr₁, id, repo', j, r, hp, hafter, hj, hstatus, hbody, c, c', h', ?_⟩
  rw [ht, Option.map_some, ha]

end Site
end FeatureProbeServer
