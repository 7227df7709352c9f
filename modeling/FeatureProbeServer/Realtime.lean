import FeatureProbeServer.Lib.Rooms
import FeatureProbeServer.Notify
import FeatureProbeServer.Service

/-!
# Sockets (`realtime.rs`)

A socket that registers joins the room of the key it names and is told once. The callback of an SDK
client spawns `notify_sdk`, which tells the rooms of the keys it has captured. Registrations,
announcements, sockets that disconnect and the jobs on the repository run beside each other, in any
order. The socket server is a parameter. A room that nobody has joined is the socket of that name.
-/

namespace FeatureProbeServer
open Guarded Rooms

/-- `serde_json::Value`, as far as `register` looks at it. -/
inductive JsonValue where
  | string (text : String)
  | object (members : List (String × JsonValue))
  | other

def JsonValue.get : JsonValue → String → Option JsonValue
  | .object members, name => members.lookup name
  | _, _ => none

/-- What a socket sends. -/
inductive Payload where
  | json (value : JsonValue)
  | binary

abbrev SocketId := String

/-- The name of an event and its data. -/
abbrev Emission := String × JsonValue

abbrev SocketTask := List (Action String SocketId Emission)

namespace RealtimeSocket

def update : Emission := ("update", .string "")

def notifySdk (target : NotifyTarget) (emission : Emission) : SocketTask :=
  [.emitTo (FeatureProbeServer.notifySdk target) emission]

def register (payload : Option Payload) (socket : SocketId) : SocketTask :=
  match payload with
  | some (.json value) =>
    match value.get "key" with
    | some (.string sdkKey) => [.join socket [sdkKey], .emit socket update]
    | _ => [.emit socket update]
  | _ => [.emit socket update]

/-- A task that joins a room is the registration of a payload with the name of the room. -/
theorem mem_register {payload : Option Payload} {socket socket' : SocketId} {rooms : List String}
    (h : .join socket' rooms ∈ register payload socket) : ∃ value sdkKey, payload = some (.json value) ∧
      value.get "key" = some (.string sdkKey) ∧ socket' = socket ∧ rooms = [sdkKey] := by
  unfold register at h
  split at h
  · split at h
    · rename_i value _ sdkKey hkey
      simp only [List.mem_cons, Action.join.injEq, reduceCtorEq, List.not_mem_nil, or_false] at h
      obtain ⟨rfl, rfl⟩ := h
      exact ⟨value, sdkKey, rfl, hkey, rfl, rfl⟩
    · simp at h
  · simp at h

theorem register_of_key {value : JsonValue} {sdkKey : String} (h : value.get "key" = some (.string sdkKey))
    (socket : SocketId) :
    register (some (.json value)) socket = [.join socket [sdkKey], .emit socket update] := by
  rw [register, h]

theorem emit_mem_register {payload : Option Payload} {socket socket' : SocketId} {e : Emission}
    (h : .emit socket' e ∈ register payload socket) : socket' = socket ∧ e = update := by
  unfold register at h
  split at h
  · split at h <;> simpa using h
  · simpa using h

theorem emitTo_notMem_register {payload : Option Payload} {socket : SocketId} {rooms : List String}
    {e : Emission} : .emitTo rooms e ∉ register payload socket := by
  unfold register
  split
  · split <;> simp
  · simp

end RealtimeSocket

variable {W : Web}

/-- What the SDK client that has received toggles calls back with. -/
def callback {S : Sdk} (r : Inner S) : Event Lock (Op S) → Option NotifyTarget
  | .op (.receive id _) => r.instances[id]?.bind (·.updateCallback)
  | _ => none

/-- `socketio_rs`: what its server may do. -/
abbrev SocketServer := Rooms.Server String SocketId Emission

/-- The repository with its jobs, and the log of the socket server. -/
structure Realtime (W : Web) where
  site : Site W
  log : List (Rooms.Entry String SocketId Emission)

namespace Realtime

def start (cfg : ServerConfig) (jobs : List (Job W)) : Realtime W :=
  ⟨Site.start (SdkRepository.new cfg) jobs, []⟩

/-- A job moves, a socket registers, or the socket server and its tasks move. A client that has received
toggles calls back or not: that is for the SDK to decide. -/
inductive Step (R : SocketServer) (c : Realtime W) : Realtime W → Prop
  | site {i e site'} (hs : Config.Step c.site i e site') : Step R c { c with site := site' }
  | update {i e site' t} (hs : Config.Step c.site i e site') (ht : callback c.site.store e = some t) :
    Step R c ⟨site', spawn (RealtimeSocket.notifySdk t RealtimeSocket.update) c.log⟩
  | register (payload : Option Payload) (socket : SocketId) :
    Step R c { c with log := spawn (RealtimeSocket.register payload socket) c.log }
  | act {x} (hx : Acts R c.log x) : Step R c { c with log := c.log ++ [x] }

def Reach (R : SocketServer) : Realtime W → Realtime W → Prop := Relation.ReflTransGen (Step R)

variable {R : SocketServer} {cfg : ServerConfig} {jobs : List (Job W)} {c c' : Realtime W}

theorem Step.site_cases (hs : Step R c c') : c'.site = c.site ∨ ∃ i e, Config.Step c.site i e c'.site := by
  cases hs with
  | site hs => exact .inr ⟨_, _, hs⟩
  | update hs _ => exact .inr ⟨_, _, hs⟩
  | register => exact .inl rfl
  | act => exact .inl rfl

theorem Step.log (hs : Step R c c') (h : Log R c.log) : Log R c'.log ∧ c.log <+: c'.log := by
  cases hs with
  | site => exact ⟨h, List.prefix_rfl⟩
  | update => exact ⟨h.spawn _, List.prefix_append _ _⟩
  | register => exact ⟨h.spawn _, List.prefix_append _ _⟩
  | act hx => exact ⟨h.act hx, List.prefix_append _ _⟩

theorem Reach.of_schedule {is : List Nat} {site' : Site W} (h : c.site.schedule is = some site') :
    Reach R c { c with site := site' } := by
  obtain ⟨tr, h'⟩ := Config.Reach.of_schedule h
  clear h
  induction h' with
  | nil => exact .refl
  | snoc _ hs ih => exact ih.tail (.site hs)

theorem Reach.exec (h : Reach R (start cfg jobs) c) :
    ∃ tr, Config.Exec (Site.start (SdkRepository.new cfg) jobs) tr c.site := by
  induction h with
  | refl => exact ⟨[], .nil⟩
  | tail _ hs ih =>
    obtain ⟨tr, h⟩ := ih
    rcases hs.site_cases with heq | ⟨i, e, hs⟩
    · rw [heq]
      exact ⟨tr, h⟩
    · exact ⟨_, h.snoc hs⟩

theorem Reach.sound (h : Reach R (start cfg jobs) c) : c.site.store.Sound jobs := by
  obtain ⟨tr, h⟩ := h.exec
  exact (Site.serving_exec h).1.sound

theorem Reach.log (h : Reach R c c') (hlog : Log R c.log) : Log R c'.log ∧ c.log <+: c'.log := by
  induction h with
  | refl => exact ⟨hlog, List.prefix_rfl⟩
  | tail _ hs ih =>
    obtain ⟨hlog', hpre⟩ := hs.log ih.1
    exact ⟨hlog', ih.2.trans hpre⟩

/-! ### Where tasks come from -/

/-- An announcement speaks for a client that has received toggles, to its key and a key paired with it. -/
structure Announces (jobs : List (Job W)) (r : Inner W.sdk) (t : NotifyTarget) (id : ClientId) : Prop where
  created : Inner.Created t.serverSdkKey id r
  initialized : r.clientInitialized id = true
  introduced : ∀ c, t.clientSdkKey = some c → Introduced jobs c t.serverSdkKey

/-- The tasks that have been spawned are registrations and announcements. -/
def Sourced (jobs : List (Job W)) (c : Realtime W) : Prop :=
  ∀ n task, .spawned n task ∈ c.log → (∃ payload socket, task = RealtimeSocket.register payload socket) ∨
    ∃ t id, task = RealtimeSocket.notifySdk t RealtimeSocket.update ∧ Announces jobs c.site.store t id

theorem Announces.step {c c' : Site W} {t : NotifyTarget} {id : ClientId} {i : Nat}
    {e : Event Lock (Op W.sdk)} (h : Announces jobs c.store t id) (hs : Config.Step c i e c') :
    Announces jobs c'.store t id := by
  rcases hs.store_cases with ⟨hst, -⟩ | ⟨o, -, hst⟩
  · rw [hst]
    exact h
  · rw [hst]
    exact ⟨Inner.created_exec o h.created, Inner.staysInitialized_exec o _ id h.initialized, h.introduced⟩

/-- The client whose delivery calls back. -/
theorem announces_of_callback {c c' : Site W} {i : Nat} {e : Event Lock (Op W.sdk)} {t : NotifyTarget}
    (hsound : c.store.Sound jobs) (hs : Config.Step c i e c') (ht : callback c.store e = some t) :
    ∃ id, Announces jobs c'.store t id := by
  cases hs with
  | @op o k h w hop =>
    cases o with
    | receive id repo =>
      obtain ⟨inst, hinst, hcallback⟩ := Option.bind_eq_some_iff.mp ht
      obtain ⟨hkey, hintro⟩ := hsound.callbacks id inst t hinst hcallback
      refine ⟨id, ?_, ?_, hintro⟩
      · exact Inner.created_exec _ ⟨inst, hinst, hkey.symm⟩
      · show ((c.store.instances.modify id (·.receive repo))[id]?).any (·.initialized) = true
        simp [hinst, FPClient.receive]
    | _ => cases ht
  | _ => cases ht

theorem Reach.sourced (h : Reach R (start cfg jobs) c) : Sourced jobs c := by
  induction h with
  | refl =>
    intro n task hn
    cases hn
  | @tail c c' h hs ih =>
    have kept : ∀ {i e site'}, Config.Step c.site i e site' → Sourced jobs ⟨site', c.log⟩ := by
      intro i e site' hs n task hn
      refine (ih n task hn).imp_right ?_
      rintro ⟨t, id, htask, ha⟩
      exact ⟨t, id, htask, ha.step hs⟩
    have spawned : ∀ {site'} {task : SocketTask}, Sourced jobs ⟨site', c.log⟩ →
        ((∃ payload socket, task = RealtimeSocket.register payload socket) ∨
          ∃ t id, task = RealtimeSocket.notifySdk t RealtimeSocket.update ∧ Announces jobs site'.store t id) →
        Sourced jobs ⟨site', spawn task c.log⟩ := by
      intro site' task hold hnew n task' hn
      rcases List.mem_append.mp hn with hn | hn
      · exact hold n task' hn
      · cases List.mem_singleton.mp hn
        exact hnew
    cases hs with
    | site hs => exact kept hs
    | update hs ht =>
      obtain ⟨id, ha⟩ := announces_of_callback (Reach.sound h) hs ht
      exact spawned (kept hs) (.inr ⟨_, id, rfl, ha⟩)
    | register payload socket => exact spawned ih (.inl ⟨payload, socket, rfl⟩)
    | act hx =>
      intro n task hn
      rcases List.mem_append.mp hn with hn | hn
      · exact ih n task hn
      · exact absurd (List.mem_singleton.mp hn).symm (hx.ne_spawned n task)

/-! ### Being told -/

/-- The task `n` is the registration of a socket with the key. -/
def Registers (log : List (Rooms.Entry String SocketId Emission)) (n : Nat) (socket : SocketId) (key : String) :
    Prop :=
  ∃ value, .spawned n (RealtimeSocket.register (some (.json value)) socket) ∈ log ∧
    value.get "key" = some (.string key)

/-- The socket is told of an update between `c` and `c'`. -/
def Told (c c' : Realtime W) (socket : SocketId) : Prop :=
  ∃ n, .told n socket RealtimeSocket.update ∈ c'.log.drop c.log.length

/-- No update is lost: a delivery to the registered client of `s` may call back, under `s`, and once it has
been announced, every socket that has registered with a key it is announced to, before or after, and has
not disconnected, has been told since. -/
theorem told_of_update (hR : R.Lawful id) (h : Reach R (start cfg jobs) c) {i : Nat} {client : ClientId}
    {repo : W.sdk.Repo} {site' : Site W} (hs : Config.Step c.site i (.op (.receive client repo)) site')
    {s : ServerSdkKey} (hclient : c.site.store.sdkClients.lookup s = some client) :
    ∃ t, callback c.site.store (.op (.receive client repo)) = some t ∧ t.serverSdkKey = s ∧
      Step R c ⟨site', spawn (RealtimeSocket.notifySdk t RealtimeSocket.update) c.log⟩ ∧
      ∀ c', Reach R ⟨site', spawn (RealtimeSocket.notifySdk t RealtimeSocket.update) c.log⟩ c' →
        Finished c'.log (spawns c.log) → ∀ key ∈ notifySdk t, ∀ m socket, Registers c'.log m socket key →
          Finished c'.log m → .gone socket ∉ c'.log → Told c c' socket := by
  obtain ⟨inst, t, hinst, -, ht, hts⟩ := h.sound.wired s client hclient
  have hcallback : callback c.site.store (.op (.receive client repo)) = some t := by
    rw [callback, hinst]
    exact ht
  refine ⟨t, hcallback, hts, .update hs hcallback, fun c' h' hn key hkey m socket hm hfin hgone => ?_⟩
  have hlog := (h.log .nil).1
  obtain ⟨hlog', after, hafter⟩ := h'.log (hlog.spawn _)
  have hsplit : c'.log = c.log ++ .spawned (spawns c.log)
      (RealtimeSocket.notifySdk t RealtimeSocket.update) :: after := by
    rw [← hafter, spawn, List.append_assoc, List.singleton_append]
  obtain ⟨value, hspawned, hvalue⟩ := hm
  rw [RealtimeSocket.register_of_key hvalue] at hspawned
  have hdrop : c'.log.drop c.log.length = .spawned (spawns c.log)
      (RealtimeSocket.notifySdk t RealtimeSocket.update) :: after := by
    rw [hsplit, List.drop_left]
  unfold Told
  rw [hdrop]
  rcases hlog'.told hR hsplit hspawned hkey (List.mem_singleton_self key) hn hfin hgone with htold | htold
  · exact ⟨_, List.mem_cons_of_mem _ htold⟩
  · exact ⟨m, List.mem_cons_of_mem _ htold⟩

/-- A task of the socket server makes its next step. -/
theorem Reach.move (h : Reach R c c') {n : Nat} {task : SocketTask} {x : Rooms.Entry String SocketId Emission}
    (ht : .spawned n task ∈ c'.log) (hx : moves n c'.log ++ [x] <+: script n task) (hr : R c'.log x) :
    Reach R c { c' with log := c'.log ++ [x] } := h.tail (.act (.move ht hx hr))

/-- The announcement is made between the two calls of a registration that was sent before the delivery. -/
theorem told_of_update_race : ∃ c c' : Realtime Web.plain, Reach (Free id) (start default
    [.one (.sync "c" "s" 1), .one (.receive 0 ⟨∅, .singleton "t" true, (), some 1⟩)]) c ∧ Reach (Free id) c c' ∧
    Told c c' "socket" := by
  obtain ⟨site, site', hsite, hstep, hid, hcallback⟩ : ∃ site site', (Site.start (SdkRepository.new default)
      [.one (.sync "c" "s" 1), .one (.receive 0 ⟨∅, .singleton "t" true, (), some 1⟩)] :
      Site Web.plain).schedule (.replicate 18 0) = some site ∧
      site.step? 1 = some (.op (.receive 0 ⟨∅, .singleton "t" true, (), some 1⟩), site') ∧
      site.store.sdkClients.lookup "s" = some 0 ∧
      callback site.store (.op (.receive 0 ⟨∅, .singleton "t" true, (), some 1⟩)) = some ⟨"s", none⟩ :=
    ⟨_, _, rfl, rfl, rfl, rfl⟩
  have h : Reach (Free id) (start default _) ⟨site, spawn
      (RealtimeSocket.register (some (.json (.object [("key", .string "s")]))) "socket") []⟩ :=
    (Reach.of_schedule hsite).tail (.register _ "socket")
  obtain ⟨t, ht, -, hupdate, htold⟩ := told_of_update (free_lawful id) h (Config.step?_iff.mp hstep) hid
  obtain rfl := Option.some.inj (hcallback.symm.trans ht)
  have h₀ : Reach (Free id) (⟨site', spawn (RealtimeSocket.notifySdk ⟨"s", none⟩ RealtimeSocket.update)
      (spawn (RealtimeSocket.register (some (.json (.object [("key", .string "s")]))) "socket") [])⟩ :
      Realtime Web.plain) _ := .refl
  have h₁ := h₀.move (n := 0) (List.mem_of_getElem? (i := 0) rfl) ⟨_, rfl⟩ (.called 0 (.join "socket" ["s"]))
  have h₂ := h₁.move (n := 1) (List.mem_of_getElem? (i := 1) rfl) ⟨_, rfl⟩
    (.called 1 (.emitTo ["s"] RealtimeSocket.update))
  have h₃ := h₂.move (n := 1) (List.mem_of_getElem? (i := 1) rfl) ⟨_, rfl⟩
    (free_announced (by simp [spawn]) 1 ["s"] RealtimeSocket.update)
  have h₄ := h₃.move (n := 0) (List.mem_of_getElem? (i := 0) rfl) ⟨_, rfl⟩ (.joined 0 "socket" ["s"])
  have h₅ := h₄.move (n := 0) (List.mem_of_getElem? (i := 0) rfl) ⟨_, rfl⟩
    (.called 0 (.emit "socket" RealtimeSocket.update))
  have h₆ := h₅.tail (.act (.tell (n := 0) (c := "socket") (e := RealtimeSocket.update) (.told (by simp))))
  have h₇ := Reach.move (n := 0) h₆ (List.mem_of_getElem? (i := 0) rfl) ⟨_, rfl⟩
    (free_emitted (by simp [spawn]))
  refine ⟨_, _, h, (Relation.ReflTransGen.single hupdate).trans h₇, ?_⟩
  refine htold _ h₇ ⟨_, List.mem_of_getElem? (i := 1) rfl, rfl⟩ "s" (List.mem_cons_self ..) 0 "socket"
    ⟨_, List.mem_of_getElem? (i := 0) rfl, rfl⟩ ⟨_, List.mem_of_getElem? (i := 0) rfl, rfl⟩ (by simp [spawn])

/-- Why the task `n` tells a socket, in the log before. -/
inductive Cause (jobs : List (Job W)) (r : Inner W.sdk) (before : List (Rooms.Entry String SocketId Emission))
    (n : Nat) (socket : SocketId) : Prop
  | registered (payload : Option Payload) (h : .spawned n (RealtimeSocket.register payload socket) ∈ before)
  | announced (t : NotifyTarget) (client : ClientId) (key : String)
    (h : .spawned n (RealtimeSocket.notifySdk t RealtimeSocket.update) ∈ before)
    (hclient : Announces jobs r t client) (hkey : key = t.serverSdkKey ∨ Introduced jobs key t.serverSdkKey)
    (hsocket : key = socket ∨ ∃ m, Registers before m socket key)

/-- No update is told astray: a socket is told because it registered, or of an update of a client whose key
it registered with, or a key that was introduced for the key it registered with; or this key is its name. -/
theorem told_cause (hR : R.Lawful id) (h : Reach R (start cfg jobs) c)
    {before after : List (Rooms.Entry String SocketId Emission)} {n : Nat} {socket : SocketId} {e : Emission}
    (hlog : c.log = before ++ .told n socket e :: after) :
    e = RealtimeSocket.update ∧ Cause jobs c.site.store before n socket := by
  have old : ∀ {x}, x ∈ before → x ∈ c.log := by
    intro x hx
    rw [hlog]
    exact List.mem_append_left _ hx
  obtain ⟨task, hspawn, hcause⟩ := (h.log .nil).1.cause hR hlog
  rcases h.sourced n task (old hspawn) with ⟨payload, socket', rfl⟩ | ⟨t, client, rfl, ha⟩
  · rcases hcause with hemit | ⟨rooms, key, hannounce, -⟩
    · obtain ⟨rfl, rfl⟩ := RealtimeSocket.emit_mem_register hemit
      exact ⟨rfl, .registered payload hspawn⟩
    · exact absurd hannounce RealtimeSocket.emitTo_notMem_register
  · rcases hcause with hemit | ⟨rooms, key, hannounce, hkey, hsocket⟩
    · simp [RealtimeSocket.notifySdk] at hemit
    · simp only [RealtimeSocket.notifySdk, List.mem_singleton, Action.emitTo.injEq] at hannounce
      obtain ⟨rfl, rfl⟩ := hannounce
      refine ⟨rfl, .announced t client key hspawn ha ?_ (hsocket.imp_right ?_)⟩
      · rcases List.mem_cons.mp hkey with hkey | hkey
        · exact .inl hkey
        · exact .inr (ha.introduced key (Option.mem_toList.mp hkey))
      · rintro ⟨m, task, rooms, hspawn', hjoin, hkey'⟩
        rcases h.sourced m task (old hspawn') with ⟨payload, socket', rfl⟩ | ⟨t', client', rfl, -⟩
        · obtain ⟨value, sdkKey, rfl, hvalue, rfl, rfl⟩ := RealtimeSocket.mem_register hjoin
          obtain rfl := List.mem_singleton.mp hkey'
          exact ⟨m, value, hspawn', hvalue⟩
        · simp [RealtimeSocket.notifySdk] at hjoin

/-- A socket that has registered with the client key is told of an update of the server key. -/
theorem told_cause_client : ∃ jobs : List (Job Web.plain),
    jobs = [.one (.updateMapping (.sorted _ _) ⟨1, .singleton "c" "s", ∅⟩),
      .one (.updateClients (.sorted _ _) (.sorted _ _)),
      .one (.receive 0 ⟨∅, .singleton "t" true, (), some 1⟩)] ∧
    ∃ r before, .spawned 1 (RealtimeSocket.notifySdk ⟨"s", some "c"⟩ RealtimeSocket.update) ∈ before ∧
      Cause jobs r before 1 "socket" := by
  refine ⟨_, rfl, ?_⟩
  obtain ⟨site, site', hsite, hstep, hcallback⟩ : ∃ site site', (Site.start (SdkRepository.new default)
      [.one (.updateMapping (.sorted _ _) ⟨1, .singleton "c" "s", ∅⟩),
        .one (.updateClients (.sorted _ _) (.sorted _ _)),
        .one (.receive 0 ⟨∅, .singleton "t" true, (), some 1⟩)] : Site Web.plain).schedule
      (.replicate 8 0 ++ .replicate 22 1) = some site ∧
      site.step? 2 = some (.op (.receive 0 ⟨∅, .singleton "t" true, (), some 1⟩), site') ∧
      callback site.store (.op (.receive 0 ⟨∅, .singleton "t" true, (), some 1⟩)) = some ⟨"s", some "c"⟩ :=
    ⟨_, _, rfl, rfl, rfl⟩
  have h₀ : Reach (Free id) (start default _) ⟨site', spawn _ (spawn _ [])⟩ :=
    ((Reach.of_schedule hsite).tail (.register (some (.json (.object [("key", .string "c")]))) "socket")).tail
      (.update (Config.step?_iff.mp hstep) hcallback)
  have h₁ := h₀.move (n := 0) (List.mem_of_getElem? (i := 0) rfl) ⟨_, rfl⟩ (.called 0 (.join "socket" ["c"]))
  have h₂ := h₁.move (n := 1) (List.mem_of_getElem? (i := 1) rfl) ⟨_, rfl⟩
    (.called 1 (.emitTo ["s", "c"] RealtimeSocket.update))
  have h₃ := h₂.tail (.act (.tell (n := 1) (c := "socket") (e := RealtimeSocket.update)
    (.toldIn (k := "c") (List.mem_of_getElem? (i := 3) rfl) (List.mem_cons_of_mem _ (List.mem_cons_self ..))
      (.inr ⟨0, ["c"], List.mem_of_getElem? (i := 2) rfl, List.mem_cons_self ..⟩))))
  exact ⟨_, _, List.mem_of_getElem? (i := 1) rfl, (told_cause (free_lawful id) h₃ rfl).2⟩

end Realtime
end FeatureProbeServer
