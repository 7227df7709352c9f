import FeatureProbeServer.Lib.Discipline
import FeatureProbeServer.RepoRun

/-!
# The locking discipline of `repo.rs`

Which guards each call takes while it holds which others, and what it does under them. The phases
follow `Inner::sync`: `absent s` after its membership test found no client for `s`, `creating s id`
while the new client is being set up under the write guard; a panic leads back to `idle`. At the end,
`reach_after`: calls made one after the other are one of the runs of the calls beside each other.
-/

namespace FeatureProbeServer
open Guarded

inductive Phase where
  | idle
  | absent (serverSdkKey : ServerSdkKey)
  | creating (serverSdkKey : ServerSdkKey) (client : ClientId)

/-- The guards a call may take: any first one; the registry under a read guard of the mapping; the
mapping, for reading, under a write guard of the registry, a second time if a pass holds it already. -/
def MayAcquire (h : List (Lock × Mode)) (l : Lock) (m : Mode) : Prop :=
  h = [] ∨ (h = [(.secretMapping, .read)] ∧ l = .sdkClients) ∨
    ((h = [(.sdkClients, .write)] ∨ h = [(.sdkClients, .write), (.secretMapping, .read)]) ∧
      l = .secretMapping ∧ m = .read)

variable {S : Sdk}

inductive MayRun : Phase → List (Lock × Mode) → Op S → Inner S → Phase → Prop
  | readMapping {ph h r} : MayRun ph h .readMapping r ph
  | readClients {h r} : MayRun .idle h .readClients r .idle
  | present {h s r} (hs : s ∈ r.sdkClients) : MayRun .idle h (.containsClient s) r .idle
  | absent {h s r} (hl : (.sdkClients, .read) ∈ h) (hs : s ∉ r.sdkClients) :
    MayRun .idle h (.containsClient s) r (.absent s)
  | newClient {h s r} (hl : (.sdkClients, .write) ∈ h) :
    MayRun (.absent s) h (.newClient s) r (.creating s r.instances.length)
  | newClientPanics {h s r} : MayRun (.absent s) h (.newClientPanics s) r .idle
  | setUpdateCallback {h s id c r} : MayRun (.creating s id) h (.setUpdateCallback id ⟨s, c⟩) r (.creating s id)
  | insertClient {h s id r} : MayRun (.creating s id) h (.insertClient s id) r .idle
  | removeClient {h s r} (hl : (.sdkClients, .write) ∈ h) : MayRun .idle h (.removeClient s) r .idle
  | insertMapping {h c s v r} (hl : (.secretMapping, .write) ∈ h) : MayRun .idle h (.insertMapping c s v) r .idle
  | updateMapping {h π new r} (hl : (.secretMapping, .write) ∈ h) : MayRun .idle h (.updateMapping π new) r .idle
  | initialized {h id r} : MayRun .idle h (.initialized id) r .idle
  | readRepo {h id r} : MayRun .idle h (.readRepo id) r .idle
  | syncNow {h id t r} : MayRun .idle h (.syncNow id t) r .idle
  | receive {h id repo r} : MayRun .idle h (.receive id repo) r .idle

/-- A client is set up under the write guard of the registry. -/
def Phase.Holds : Phase → List (Lock × Mode) → Prop
  | .creating _ _, h => (.sdkClients, .write) ∈ h
  | _, _ => True

def repoDiscipline (S : Sdk) : Discipline Lock (Op S) (Inner S) Phase := ⟨Phase.Holds, MayAcquire, MayRun⟩

/-- The end of a call or of a part of one: idle, with the guards `h`. -/
def Back {α : Type} (h : List (Lock × Mode)) (_ : α) (ph : Phase) (h' : List (Lock × Mode)) : Prop :=
  ph = .idle ∧ h' = h

theorem noSelfBlock_repo : Config.NoSelfBlock (repoDiscipline S) := by
  intro h l
  constructor
  · rintro (rfl | ⟨rfl, rfl⟩ | ⟨rfl | rfl, rfl, -⟩) <;> simp
  · rintro (rfl | ⟨rfl, rfl⟩ | ⟨-, -, hm⟩)
    · simp
    · simp
    · cases hm

theorem mayAcquire_nil (l : Lock) (m : Mode) : MayAcquire [] l m := .inl rfl

theorem mayAcquire_sdkClients {h : List (Lock × Mode)} (hh : h = [] ∨ h = [(.secretMapping, .read)])
    (m : Mode) : MayAcquire h .sdkClients m :=
  hh.elim .inl fun hh => .inr (.inl ⟨hh, rfl⟩)

/-! ### Calls -/

section
variable {h : List (Lock × Mode)} {α β : Type}

theorem follows_pure (a : α) : (Pure.pure a : RepoM S α).Follows (repoDiscipline S) (Back h) .idle h :=
  ⟨trivial, rfl, rfl⟩

theorem follows_reading {o : Op S} {f : Inner S → α} (ho : ∀ r, MayRun .idle h o r .idle) :
    (Prog.reading o f : RepoM S α).Follows (repoDiscipline S) (Back h) .idle h :=
  ⟨trivial, fun r => ⟨.idle, ho r, follows_pure (f r)⟩⟩

theorem follows_perform {o : Op S} (ho : ∀ r, MayRun .idle h o r .idle) :
    (Prog.perform o : RepoM S Unit).Follows (repoDiscipline S) (Back h) .idle h :=
  ⟨trivial, fun r => ⟨.idle, ho r, follows_pure ()⟩⟩

theorem follows_bind {p : RepoM S α} {f : α → RepoM S β} (hp : p.Follows (repoDiscipline S) (Back h) .idle h)
    (hf : ∀ a, (f a).Follows (repoDiscipline S) (Back h) .idle h) :
    (p >>= f).Follows (repoDiscipline S) (Back h) .idle h :=
  hp.bind fun a _ _ _ hb => by
    obtain ⟨rfl, rfl⟩ := hb
    exact hf a

theorem follows_guarded {l : Lock} {m : Mode} {p : RepoM S α} (ha : MayAcquire h l m)
    (hp : p.Follows (repoDiscipline S) (Back ((l, m) :: h)) .idle ((l, m) :: h)) :
    (Prog.guarded l m p).Follows (repoDiscipline S) (Back h) .idle h := by
  refine .guarded trivial ha ?_
  rw [← bind_pure p]
  exact hp.bind fun a _ _ _ hb => by
    obtain ⟨rfl, rfl⟩ := hb
    exact ⟨trivial, rfl, trivial, rfl, rfl⟩

theorem follows_setupNotify {s : ServerSdkKey} {id : ClientId}
    (hh : h = [(.sdkClients, .write)] ∨ h = [(.sdkClients, .write), (.secretMapping, .read)]) :
    (Inner.setupNotify s id : RepoM S Unit).Follows (repoDiscipline S)
      (fun _ ph h' => ph = .creating s id ∧ h' = h) (.creating s id) h := by
  have hw : (.sdkClients, .write) ∈ h := by rcases hh with rfl | rfl <;> simp
  have hget : (Prog.guarded .secretMapping .read do
      return (← readMapping).clientSdkKey s : RepoM S (Option ClientSdkKey)).Follows (repoDiscipline S)
      (fun _ ph h' => ph = .creating s id ∧ h' = h) (.creating s id) h := by
    refine .guarded hw (.inr (.inr ⟨hh, rfl, rfl⟩)) ⟨List.mem_cons_of_mem _ hw, fun r => ?_⟩
    exact ⟨_, .readMapping, List.mem_cons_of_mem _ hw, rfl, hw, rfl, rfl⟩
  refine hget.bind fun c _ _ _ hb => ?_
  obtain ⟨rfl, rfl⟩ := hb
  exact ⟨hw, fun r => ⟨_, .setUpdateCallback, hw, rfl, rfl⟩⟩

theorem follows_sync (hh : h = [] ∨ h = [(.secretMapping, .read)]) (s : ServerSdkKey) :
    (Inner.sync s : RepoM S (Option Unit)).Follows (repoDiscipline S) (Back h) .idle h := by
  have htest : (Prog.guarded .sdkClients .read do return !(← containsKey s) : RepoM S Bool).Follows
      (repoDiscipline S) (fun b ph h' => ph = (if b then .absent s else .idle) ∧ h' = h) .idle h := by
    refine .guarded trivial (mayAcquire_sdkClients hh _) ⟨trivial, fun r => ?_⟩
    by_cases hs : s ∈ r.sdkClients
    · exact ⟨.idle, .present hs, trivial, rfl, trivial, by simp [hs], rfl⟩
    · exact ⟨.absent s, .absent (by simp) hs, trivial, rfl, trivial, by simp [hs], rfl⟩
  refine htest.bind fun b _ _ _ hb => ?_
  obtain ⟨rfl, rfl⟩ := hb
  cases b with
  | false => exact follows_pure _
  | true =>
    refine .guarded trivial (mayAcquire_sdkClients hh _) ?_
    cases ha : S.accepts s with
    | false =>
      rw [newClient, if_neg (by simp [ha])]
      exact ⟨trivial, fun r => ⟨_, .newClientPanics, trivial, rfl, trivial, rfl, rfl⟩⟩
    | true =>
      rw [newClient, if_pos ha]
      refine ⟨trivial, fun r => ⟨_, .newClient (by simp), (follows_setupNotify ?_).bind fun _ _ _ _ hb => ?_⟩⟩
      · rcases hh with rfl | rfl
        · exact .inl rfl
        · exact .inr rfl
      · obtain ⟨rfl, rfl⟩ := hb
        exact ⟨List.mem_cons_self .., fun r => ⟨_, .insertClient, trivial, rfl, trivial, rfl, rfl⟩⟩

theorem follows_updateClients (πr : IterOrder ServerSdkKey ClientSdkKey)
    (πc : IterOrder ServerSdkKey ClientId) :
    (Inner.updateClients πr πc : RepoM S (Option Unit)).Follows (repoDiscipline S) (Back []) .idle [] := by
  refine follows_guarded (mayAcquire_nil ..) (follows_bind (follows_reading fun _ => .readMapping) ?_)
  refine fun m => follows_bind (follows_guarded (mayAcquire_sdkClients (.inr rfl) _)
    (follows_reading fun _ => .readClients)) fun clients => ?_
  split
  · refine follows_bind (.tryForM trivial fun t _ => follows_sync (.inr rfl) t) fun synced => ?_
    cases synced with
    | none => exact follows_pure _
    | some =>
      refine follows_bind (.forM trivial fun t _ => ?_) fun _ => follows_pure _
      split
      · exact follows_guarded (mayAcquire_sdkClients (.inr rfl) _)
          (follows_perform fun _ => .removeClient (by simp))
      · exact follows_pure ()
  · exact follows_pure _

theorem follows_updateMapping (π : IterOrder ClientSdkKey ServerSdkKey) (new : SecretMapping) :
    (Inner.updateMapping π new : RepoM S Unit).Follows (repoDiscipline S) (Back []) .idle [] := by
  refine follows_bind (follows_guarded (mayAcquire_nil ..)
    (follows_bind (follows_reading fun _ => .readMapping) fun _ => follows_pure _)) fun v => ?_
  split
  · exact follows_guarded (mayAcquire_nil ..) (follows_perform fun _ => .updateMapping (by simp))
  · exact follows_pure ()

theorem follows_sdkSync (c : ClientSdkKey) (s : ServerSdkKey) (v : Nat) :
    (SdkRepository.sync c s v : RepoM S (Option Unit)).Follows (repoDiscipline S) (Back []) .idle [] := by
  refine follows_bind (follows_sync (.inl rfl) s) fun synced => ?_
  cases synced with
  | none => exact follows_pure _
  | some =>
    exact follows_bind (follows_guarded (mayAcquire_nil ..) (follows_perform fun _ => .insertMapping (by simp)))
      fun _ => follows_pure _

theorem follows_ofClient (s : ServerSdkKey) (f : S.Repo → Except String S.Json) :
    (Inner.ofClient s f).Follows (repoDiscipline S) (Back [(.secretMapping, .read)]) .idle
      [(.secretMapping, .read)] := by
  refine follows_guarded (mayAcquire_sdkClients (.inr rfl) _)
    (follows_bind (follows_reading fun _ => .readClients) fun clients => ?_)
  split
  · refine follows_bind (follows_reading fun _ => .initialized) fun ready => ?_
    split
    · exact follows_pure _
    · exact follows_bind (follows_reading fun _ => .readRepo) fun _ => follows_pure _
  · exact follows_pure _

theorem follows_byClientKey (c : ClientSdkKey) (f : S.Repo → Except String S.Json) :
    (SdkRepository.byClientKey c fun s => Inner.ofClient s f).Follows (repoDiscipline S) (Back []) .idle [] := by
  refine follows_guarded (mayAcquire_nil ..) (follows_bind (follows_reading fun _ => .readMapping) fun m => ?_)
  split
  · exact follows_pure _
  · cases m.serverSdkKey c with
    | some s => exact follows_ofClient s f
    | none => exact follows_pure _

theorem follows_serverSdkRepoString (s : ServerSdkKey) :
    (SdkRepository.serverSdkRepoString s : RepoM S _).Follows (repoDiscipline S) (Back []) .idle [] := by
  refine follows_guarded (mayAcquire_nil ..) (follows_bind (follows_reading fun _ => .readMapping) fun m => ?_)
  split
  · exact follows_pure _
  · split
    · exact follows_pure _
    · refine follows_bind (follows_ofClient s _) fun e => ?_
      cases e with
      | ok j => exact follows_pure _
      | error e => exact follows_pure _

theorem follows_clientSyncNow (s : ServerSdkKey) (t : SyncType) :
    (SdkRepository.clientSyncNow s t : RepoM S _).Follows (repoDiscipline S) (Back []) .idle [] := by
  refine follows_guarded (mayAcquire_nil ..) (follows_bind (follows_reading fun _ => .readClients) fun _ => ?_)
  split
  · exact follows_bind (follows_perform fun _ => .syncNow) fun _ => follows_pure _
  · exact follows_pure _

theorem Call.follows (call : Call S) : call.prog.Follows (repoDiscipline S) (Back []) .idle [] := by
  cases call with
  | sync c s v => exact follows_bind (follows_sdkSync c s v) fun _ => follows_pure _
  | updateMapping π new => exact follows_bind (follows_updateMapping π new) fun _ => follows_pure _
  | updateClients πr πc => exact follows_bind (follows_updateClients πr πc) fun _ => follows_pure _
  | serverSdkRepoString s => exact follows_bind (follows_serverSdkRepoString s) fun _ => follows_pure _
  | clientSdkEvalString π c u => exact follows_bind (follows_byClientKey c _) fun _ => follows_pure _
  | clientSdkEventsString c => exact follows_bind (follows_byClientKey c _) fun _ => follows_pure _
  | clientSyncNow s t => exact follows_bind (follows_clientSyncNow s t) fun _ => follows_pure _
  | secretKeys =>
    exact follows_bind (follows_guarded (mayAcquire_nil ..)
      (follows_bind (follows_reading fun _ => .readMapping) fun _ => follows_pure _)) fun _ => follows_pure _
  | receive id repo => exact follows_bind (follows_perform fun _ => .receive) fun _ => follows_pure _

end

theorem Server.follow_start (r : Inner S) (calls : List (Call S)) :
    (Server.start r calls).Follow (repoDiscipline S) (Back []) fun _ => .idle := by
  refine Config.Follow.start fun p hp => ?_
  obtain ⟨call, -, rfl⟩ := List.mem_map.mp hp
  exact call.follows

/-! ### One call after another -/

/-- A call that has not started runs to its end while the others stand idle. -/
theorem Server.solo_call {c : Server S} {i : Nat} {call : Call S}
    (ht : c.threads[i]? = some (Thread.start call.prog)) (hc : c.Idle i) :
    ∃ c', Config.Reach c c' ∧ c'.store = call.exec c.store ∧
      c'.threads[i]? = some ⟨.pure (call.prog.run c.store).1, [], false⟩ ∧
      (∀ j, j ≠ i → c'.threads[j]? = c.threads[j]?) ∧ ∀ j, c'.Idle j := by
  have ht' : c.threads[i]? = some ⟨call.prog >>= fun a => .pure a, [], false⟩ := by
    rw [show (call.prog >>= fun a => .pure a) = call.prog from bind_pure call.prog]
    exact ht
  obtain ⟨c', h', q', hr, ⟨-, rfl⟩, hst, hi, hj⟩ := Config.solo noSelfBlock_repo call.follows ht' hc
  exact ⟨c', hr, hst, hi, hj, hc.handOver hi hj⟩

/-- The calls `p` have run one after the other, the calls `q` have not started. -/
structure Server.Between (r : Inner S) (p q : List (Call S)) (c : Server S) : Prop where
  store : c.store = r.after p
  idle : ∀ i, c.Idle i
  returned : ∀ i < p.length, ∃ a, c.threads[i]? = some ⟨.pure a, [], false⟩
  pending : ∀ i, c.threads[p.length + i]? = q[i]?.map fun call => Thread.start call.prog

theorem Server.between_start (r : Inner S) (calls : List (Call S)) : Between r [] calls (start r calls) where
  store := rfl
  idle := Config.idle_start _ _
  returned i hi := by simp at hi
  pending i := by simp [start, Config.start, Function.comp_def]

theorem Server.Between.next {r : Inner S} {p q : List (Call S)} {call : Call S} {c : Server S}
    (h : Between r p (call :: q) c) : ∃ c', Config.Reach c c' ∧ Between r (p ++ [call]) q c' := by
  have ht : c.threads[p.length]? = some (Thread.start call.prog) := by simpa using h.pending 0
  obtain ⟨c', hr, hst, hi, hother, hidle⟩ := Server.solo_call ht (h.idle p.length)
  refine ⟨c', hr, ?_, hidle, fun i hlt => ?_, fun i => ?_⟩
  · rw [hst, h.store, Inner.after_snoc]
  · rw [List.length_append, List.length_singleton] at hlt
    rcases Nat.lt_succ_iff_lt_or_eq.mp hlt with hlt | rfl
    · rw [hother i (by omega)]
      exact h.returned i hlt
    · exact ⟨_, hi⟩
  · have hplace : (p ++ [call]).length + i = p.length + (i + 1) := by simp; omega
    rw [hplace, hother _ (by omega), h.pending (i + 1)]
    rfl

theorem Server.Between.finish {r : Inner S} {p q : List (Call S)} {c : Server S} (h : Between r p q c) :
    ∃ c', Config.Reach c c' ∧ Between r (p ++ q) [] c' := by
  induction q generalizing p c with
  | nil => exact ⟨c, .refl, by rwa [List.append_nil]⟩
  | cons call q ih =>
    obtain ⟨c₁, hr₁, h₁⟩ := h.next
    obtain ⟨c₂, hr₂, h₂⟩ := ih h₁
    rw [List.append_assoc, List.singleton_append] at h₂
    exact ⟨c₂, hr₁.trans hr₂, h₂⟩

/-- The calls one after the other, as a run of the calls beside each other. -/
theorem Server.exists_between (r : Inner S) (calls : List (Call S)) :
    ∃ c, Config.Reach (start r calls) c ∧ Between r calls [] c ∧ c.Returned := by
  obtain ⟨c, hr, h⟩ := (between_start r calls).finish
  rw [List.nil_append] at h
  refine ⟨c, hr, h, fun t ht => ?_⟩
  obtain ⟨i, hi⟩ := List.mem_iff_getElem?.mp ht
  have hlt : i < calls.length := by
    have hlt := (List.getElem?_eq_some_iff.mp hi).1
    rwa [hr.length, start, Config.start, List.length_map, List.length_map] at hlt
  obtain ⟨a, ha⟩ := h.returned i hlt
  cases hi.symm.trans ha
  rfl

/-- A sequence of calls is one of the runs of the calls beside each other. -/
theorem Server.reach_after (r : Inner S) (calls : List (Call S)) :
    ∃ c, Config.Reach (start r calls) c ∧ c.Returned ∧ c.store = r.after calls := by
  obtain ⟨c, hr, h, hret⟩ := exists_between r calls
  exact ⟨c, hr, hret, h.store⟩

end FeatureProbeServer
