import FeatureProbeServer.Lib.Trace
import FeatureProbeServer.RepoLocks
import Mathlib.Data.String.Basic

/-!
# Clients that are replaced (`Inner::sync`)

`sync` tests for a client under the read guard and creates one under the write guard without testing
again. A client is replaced exactly when a call creates one although another was created since its
test: `NotOvertaken` says that no call of a run does so.
-/

namespace FeatureProbeServer
open Guarded

variable {S : Sdk}

abbrev RepoEvent (S : Sdk) := Nat × Event Lock (Op S)

/-- A client for `s` has been created and `s` not been removed since. -/
def Created (s : ServerSdkKey) : List (RepoEvent S) → Prop :=
  Since (fun x => x.2 = .op (.newClient s)) fun x => x.2 = .op (.removeClient s)

/-- The same, and call `i` has not tested for `s` since. -/
def CreatedSinceTest (s : ServerSdkKey) (i : Nat) : List (RepoEvent S) → Prop :=
  Since (fun x => x.2 = .op (.newClient s))
    fun x => x.2 = .op (.removeClient s) ∨ x = (i, .op (.containsClient s))

/-- No call creates a client for `s` after another was created since its own test. -/
def NotOvertaken (s : ServerSdkKey) (tr : List (RepoEvent S)) : Prop :=
  ∀ tr₁ i, tr₁ ++ [(i, .op (.newClient s))] <+: tr → ¬ CreatedSinceTest s i tr₁

theorem CreatedSinceTest.created {s : ServerSdkKey} {i : Nat} {tr : List (RepoEvent S)}
    (h : CreatedSinceTest s i tr) : Created s tr :=
  h.mono fun _ => .inl

theorem NotOvertaken.of_prefix {s : ServerSdkKey} {tr tr' : List (RepoEvent S)} (h : NotOvertaken s tr)
    (hp : tr' <+: tr) : NotOvertaken s tr' := fun tr₁ i h' => h tr₁ i (h'.trans hp)

section
variable {s : ServerSdkKey} {tr : List (RepoEvent S)} {i j : Nat}

theorem created_snoc {e : Event Lock (Op S)} :
    Created s (tr ++ [(i, e)]) ↔ e = .op (.newClient s) ∨ Created s tr ∧ e ≠ .op (.removeClient s) := since_snoc

theorem createdSinceTest_snoc {e : Event Lock (Op S)} :
    CreatedSinceTest s j (tr ++ [(i, e)]) ↔ e = .op (.newClient s) ∨ CreatedSinceTest s j tr ∧
      ¬ (e = .op (.removeClient s) ∨ (i, e) = (j, .op (.containsClient s))) := since_snoc

end

theorem phase_update {ph : Nat → Phase} {i j : Nat} {p q : Phase} (h : Function.update ph i q j = p) :
    (j = i ∧ q = p) ∨ (j ≠ i ∧ ph j = p) := by
  rw [Function.update_apply] at h
  split at h
  · exact .inl ⟨‹_›, h⟩
  · exact .inr ⟨‹_›, h⟩

namespace Server

/-- What a run has done for `s`, and the phases of its calls. -/
structure Traced (s : ServerSdkKey) (ph : Nat → Phase) (tr : List (RepoEvent S)) (c : Server S) : Prop where
  follow : c.Follow (repoDiscipline S) (Back []) ph
  thread : ∀ i, ph i ≠ .idle → ∃ t, c.threads[i]? = some t
  exclusive : c.Exclusive
  live : Created s tr → s ∈ c.store.sdkClients ∨ ∃ i id, ph i = .creating s id
  creating : ∀ i id, ph i = .creating s id → Created s tr
  late : ∀ i, ph i = .absent s → Created s tr → CreatedSinceTest s i tr
  known : ∀ i, ph i = .absent s → s ∈ c.store.sdkClients → Created s tr
  vacant : NotOvertaken s tr → ∀ i id, ph i = .creating s id → s ∉ c.store.sdkClients

variable {s : ServerSdkKey} {ph : Nat → Phase} {tr : List (RepoEvent S)} {c : Server S}

theorem traced_start (s : ServerSdkKey) (r : Inner S) (calls : List (Call S)) :
    Traced s (fun _ => .idle) [] (start r calls) where
  follow := follow_start r calls
  thread _ h := (h rfl).elim
  exclusive := Config.exclusive_start _ _
  live h := (not_since_nil h).elim
  creating _ _ h := nomatch h
  late _ h := nomatch h
  known _ h := nomatch h
  vacant _ _ _ h := nomatch h

/-- A client is set up by a call that holds the registry for writing. -/
theorem Traced.holder (h : Traced s ph tr c) {i : Nat} {k : ServerSdkKey} {id : ClientId}
    (hi : ph i = .creating k id) : ∃ t, c.threads[i]? = some t ∧ (.sdkClients, .write) ∈ t.held := by
  obtain ⟨t, ht⟩ := h.thread i (by rw [hi]; simp)
  have hinv : Phase.Holds (ph i) t.held := (h.follow i t ht).inv
  rw [hi] at hinv
  exact ⟨t, ht, hinv⟩

/-- While a client is set up nobody else holds the registry. -/
theorem Traced.alone (h : Traced s ph tr c) {i j : Nat} {k : ServerSdkKey} {id : ClientId}
    (hi : ph i = .creating k id) {t : Thread Lock (Op S) (Inner S) (Reply S)} (hj : c.threads[j]? = some t)
    {m : Mode} (hm : (.sdkClients, m) ∈ t.held) : i = j := by
  obtain ⟨t', ht', hw⟩ := h.holder hi
  by_contra hij
  exact h.exclusive i j t' t .sdkClients m hij ht' hj hw hm

/-! ### Steps -/

variable {i : Nat} {e : Event Lock (Op S)} {c' : Server S} {q : Phase}

/-- What any step keeps; the rest is left to the single steps. -/
theorem Traced.next (h : Traced s ph tr c) (hs : Config.Step c i e c')
    (hf : c'.Follow (repoDiscipline S) (Back []) (Function.update ph i q))
    (live : Created s (tr ++ [(i, e)]) → s ∈ c'.store.sdkClients ∨
      ∃ j id, Function.update ph i q j = .creating s id)
    (creating : ∀ j id, Function.update ph i q j = .creating s id → Created s (tr ++ [(i, e)]))
    (late : ∀ j, Function.update ph i q j = .absent s → Created s (tr ++ [(i, e)]) →
      CreatedSinceTest s j (tr ++ [(i, e)]))
    (known : ∀ j, Function.update ph i q j = .absent s → s ∈ c'.store.sdkClients → Created s (tr ++ [(i, e)]))
    (vacant : NotOvertaken s (tr ++ [(i, e)]) → ∀ j id, Function.update ph i q j = .creating s id →
      s ∉ c'.store.sdkClients) :
    Traced s (Function.update ph i q) (tr ++ [(i, e)]) c' := by
  refine ⟨hf, fun j hj => ?_, h.exclusive.step hs, live, creating, late, known, vacant⟩
  obtain ⟨t, t', ht, hc⟩ := hs.threads
  by_cases hji : j = i
  · subst j
    exact ⟨t', by rw [hc, Config.getElem?_set_self ht]⟩
  · rw [Function.update_of_ne hji] at hj
    rw [hs.other hji]
    exact h.thread j hj

/-- A step that neither creates, tests for nor removes a client of `s`. -/
theorem Traced.neutral (h : Traced s ph tr c) (hs : Config.Step c i e c')
    (hf : c'.Follow (repoDiscipline S) (Back []) (Function.update ph i q))
    (hmem : s ∈ c'.store.sdkClients ↔ s ∈ c.store.sdkClients)
    (hcreating : ∀ id, q = .creating s id ↔ ph i = .creating s id)
    (habsent : q = .absent s → ph i = .absent s ∧ e ≠ .op (.containsClient s))
    (hnew : e ≠ .op (.newClient s)) (hrem : e ≠ .op (.removeClient s)) :
    Traced s (Function.update ph i q) (tr ++ [(i, e)]) c' := by
  have hcr : ∀ j id, Function.update ph i q j = .creating s id ↔ ph j = .creating s id := by
    intro j id
    by_cases hji : j = i
    · subst j; rw [Function.update_self]; exact hcreating id
    · rw [Function.update_of_ne hji]
  have hab : ∀ j, Function.update ph i q j = .absent s →
      ph j = .absent s ∧ (i, e) ≠ (j, .op (.containsClient s)) := by
    intro j hj
    rcases phase_update hj with ⟨rfl, hq⟩ | ⟨hji, hj⟩
    · exact ⟨(habsent hq).1, fun he => (habsent hq).2 (Prod.mk.inj he).2⟩
    · exact ⟨hj, fun he => hji (Prod.mk.inj he).1.symm⟩
  have hcreated : Created s (tr ++ [(i, e)]) ↔ Created s tr := by
    rw [created_snoc]
    simp [hnew, hrem]
  refine h.next hs hf ?_ ?_ ?_ ?_ ?_
  · rw [hcreated, hmem]
    simpa only [hcr] using h.live
  · exact fun j id hj => hcreated.mpr (h.creating j id ((hcr j id).mp hj))
  · intro j hj hc
    obtain ⟨hj, hne⟩ := hab j hj
    exact createdSinceTest_snoc.mpr (.inr ⟨h.late j hj (hcreated.mp hc), not_or.mpr ⟨hrem, hne⟩⟩)
  · exact fun j hj hm => hcreated.mpr (h.known j (hab j hj).1 (hmem.mp hm))
  · intro ho j id hj
    rw [hmem]
    exact h.vacant (ho.of_prefix (List.prefix_append _ _)) j id ((hcr j id).mp hj)

/-- A test that finds no client: nothing has been created, or it has been removed. -/
theorem Traced.tested (h : Traced s ph tr c) (hs : Config.Step c i (.op (.containsClient s)) c')
    (hf : c'.Follow (repoDiscipline S) (Back []) (Function.update ph i (.absent s)))
    (hi : ph i = .idle) {t : Thread Lock (Op S) (Inner S) (Reply S)} (ht : c.threads[i]? = some t)
    (hl : (.sdkClients, .read) ∈ t.held) (hno : s ∉ c.store.sdkClients) (hst : c'.store = c.store) :
    Traced s (Function.update ph i (.absent s)) (tr ++ [(i, .op (.containsClient s))]) c' := by
  have fresh : ¬ Created s tr := fun hc => by
    rcases h.live hc with hm | ⟨j, id, hj⟩
    · exact hno hm
    · cases h.alone hj ht hl
      rw [hi] at hj; cases hj
  have fresh' : ¬ Created s (tr ++ [(i, .op (.containsClient s))]) := by
    rw [created_snoc]
    simp [fresh]
  have hno' : s ∉ c'.store.sdkClients := by rwa [hst]
  refine h.next hs hf ?_ ?_ ?_ ?_ ?_
  · exact fun hc => absurd hc fresh'
  · intro j id hj
    rcases phase_update hj with ⟨-, hq⟩ | ⟨-, hj⟩
    · cases hq
    · exact absurd (h.creating j id hj) fresh
  · exact fun _ _ hc => absurd hc fresh'
  · exact fun _ _ hm => absurd hm hno'
  · exact fun _ _ _ _ => hno'

theorem Traced.created (h : Traced s ph tr c) (hs : Config.Step c i (.op (.newClient s)) c') {id : ClientId}
    (hf : c'.Follow (repoDiscipline S) (Back []) (Function.update ph i (.creating s id)))
    (hi : ph i = .absent s) {t : Thread Lock (Op S) (Inner S) (Reply S)} (ht : c.threads[i]? = some t)
    (hl : (.sdkClients, .write) ∈ t.held) (hst : c'.store.sdkClients = c.store.sdkClients) :
    Traced s (Function.update ph i (.creating s id)) (tr ++ [(i, .op (.newClient s))]) c' := by
  have hcreated : Created s (tr ++ [(i, .op (.newClient s))]) := created_snoc.mpr (.inl rfl)
  refine h.next hs hf (fun _ => .inr ⟨i, id, Function.update_self ..⟩) (fun _ _ _ => hcreated)
    (fun _ _ _ => createdSinceTest_snoc.mpr (.inl rfl)) (fun _ _ _ => hcreated) ?_
  intro ho j id' hj
  rcases phase_update hj with ⟨rfl, -⟩ | ⟨hji, hj⟩
  · -- a client present now was created after the test of `j`
    rw [hst]
    intro hm
    have hlate := h.late j hi (h.known j hi hm)
    exact ho tr j List.prefix_rfl hlate
  · exact absurd (h.alone hj ht hl) hji

theorem Traced.inserted (h : Traced s ph tr c) {id : ClientId}
    (hs : Config.Step c i (.op (.insertClient s id)) c')
    (hf : c'.Follow (repoDiscipline S) (Back []) (Function.update ph i .idle))
    (hi : ph i = .creating s id) (hm : s ∈ c'.store.sdkClients) :
    Traced s (Function.update ph i .idle) (tr ++ [(i, .op (.insertClient s id))]) c' := by
  have before : Created s tr := h.creating i id hi
  have hcreated : Created s (tr ++ [(i, .op (.insertClient s id))]) :=
    created_snoc.mpr (.inr ⟨before, nofun⟩)
  refine h.next hs hf (fun _ => .inl hm) (fun _ _ _ => hcreated) ?_ (fun _ _ _ => hcreated) ?_
  · intro j hj _
    rcases phase_update hj with ⟨-, hq⟩ | ⟨-, hj⟩
    · cases hq
    · refine createdSinceTest_snoc.mpr (.inr ⟨h.late j hj before, ?_⟩)
      simp
  · intro _ j id' hj
    rcases phase_update hj with ⟨-, hq⟩ | ⟨hji, hj⟩
    · cases hq
    · obtain ⟨t, ht, hw⟩ := h.holder hi
      exact absurd (h.alone hj ht hw) hji

theorem Traced.removed (h : Traced s ph tr c) (hs : Config.Step c i (.op (.removeClient s)) c')
    (hf : c'.Follow (repoDiscipline S) (Back []) (Function.update ph i .idle))
    {t : Thread Lock (Op S) (Inner S) (Reply S)} (ht : c.threads[i]? = some t)
    (hl : (.sdkClients, .write) ∈ t.held) (hm : s ∉ c'.store.sdkClients) :
    Traced s (Function.update ph i .idle) (tr ++ [(i, .op (.removeClient s))]) c' := by
  have gone : ¬ Created s (tr ++ [(i, .op (.removeClient s))]) := by
    rw [created_snoc]
    simp
  have none : ∀ j id, Function.update ph i .idle j ≠ .creating s id := by
    intro j id hj
    rcases phase_update hj with ⟨-, hq⟩ | ⟨hji, hj⟩
    · cases hq
    · exact absurd (h.alone hj ht hl) hji
  refine h.next hs hf ?_ ?_ ?_ ?_ ?_
  · exact fun hc => absurd hc gone
  · exact fun j id hj => absurd hj (none j id)
  · exact fun _ _ hc => absurd hc gone
  · exact fun _ _ hm' => absurd hm' hm
  · exact fun _ j id hj => absurd hj (none j id)

theorem Traced.step (h : Traced s ph tr c) (hs : Config.Step c i e c') :
    ∃ ph', Traced s ph' (tr ++ [(i, e)]) c' := by
  rcases h.follow.step hs with ⟨hne, hst, hf⟩ | ⟨o, t, q, rfl, ht, ho, hst, hf⟩
  · rw [← Function.update_eq_self i ph] at hf
    exact ⟨_, h.neutral hs hf (by rw [hst]) (fun _ => Iff.rfl) (fun hq => ⟨hq, hne _⟩) (hne _) (hne _)⟩
  · refine ⟨Function.update ph i q, ?_⟩
    replace ho : MayRun (ph i) t.held o c.store q := ho
    replace hst : c'.store = Inner.exec o c.store := hst
    generalize hi : ph i = p at ho
    cases ho with
    | @absent _ s' _ hl hno =>
      by_cases hss : s' = s
      · subst s'
        exact h.tested hs hf hi ht hl hno hst
      · exact h.neutral hs hf (by rw [hst]; exact Iff.rfl) (by simp [hi]) (by simp [hss]) nofun nofun
    | @newClient _ s' _ hl =>
      by_cases hss : s' = s
      · subst s'
        exact h.created hs hf hi ht hl (by rw [hst]; rfl)
      · exact h.neutral hs hf (by rw [hst]; exact Iff.rfl) (by simp [hi, hss]) (by simp) (by simp [hss]) nofun
    | @insertClient _ s' id _ =>
      by_cases hss : s' = s
      · subst s'
        exact h.inserted hs hf hi (by rw [hst]; exact Finmap.mem_insert.mpr (.inl rfl))
      · refine h.neutral hs hf ?_ (by simp [hi, hss]) (by simp) nofun nofun
        rw [hst]
        exact Finmap.mem_insert.trans (or_iff_right (Ne.symm hss))
    | @removeClient _ s' _ hl =>
      by_cases hss : s' = s
      · subst s'
        exact h.removed hs hf ht hl (by rw [hst]; exact fun hm => (Finmap.mem_erase.mp hm).1 rfl)
      · refine h.neutral hs hf ?_ (by simp [hi]) (by simp) nofun (by simp [hss])
        rw [hst]
        exact Finmap.mem_erase.trans (and_iff_right (Ne.symm hss))
    | _ => exact h.neutral hs hf (by rw [hst]; exact Iff.rfl) (by simp [hi]) (by simp [hi]) nofun nofun

theorem exec_traced (s : ServerSdkKey) {r : Inner S} {calls : List (Call S)} {tr : List (RepoEvent S)}
    {c : Server S} (h : Config.Exec (start r calls) tr c) : ∃ ph, Traced s ph tr c := by
  induction h with
  | nil => exact ⟨_, traced_start s r calls⟩
  | snoc _ hs ih =>
    obtain ⟨ph, ih⟩ := ih
    exact ih.step hs

end Server

/-! ### What a step leaves of the client of `s` -/

namespace Inner

theorem lookup_exec {o : Op S} {s : ServerSdkKey} (hi : ∀ id, o ≠ .insertClient s id)
    (hr : o ≠ .removeClient s) (r : Inner S) : (exec o r).sdkClients.lookup s = r.sdkClients.lookup s := by
  cases o with
  | insertClient s' id =>
    refine (HashMap.lookup_insert_eq ..).trans (if_neg ?_)
    rintro rfl
    exact hi id rfl
  | removeClient s' =>
    refine (HashMap.lookup_erase_eq ..).trans (if_neg ?_)
    rintro rfl
    exact hr rfl
  | _ => rfl

/-- Instances stay, and stay initialised. -/
theorem initialized_exec (o : Op S) {r : Inner S} {id : ClientId} {i : FPClient S}
    (hi : r.instances[id]? = some i) (hn : i.initialized = true) :
    ∃ i', (exec o r).instances[id]? = some i' ∧ i'.initialized = true := by
  have modify : ∀ (id' : ClientId) (f : FPClient S → FPClient S), ((f i).initialized = true) →
      ∃ i', (r.instances.modify id' f)[id]? = some i' ∧ i'.initialized = true := by
    intro id' f hf
    by_cases he : id' = id
    · subst id'
      exact ⟨f i, by simp [hi], hf⟩
    · exact ⟨i, by simp [hi, he], hn⟩
  cases o with
  | newClient s =>
    exact ⟨i, (List.getElem?_append_left (List.getElem?_eq_some_iff.mp hi).1).trans hi, hn⟩
  | setUpdateCallback id' t => exact modify id' _ hn
  | receive id' repo => exact modify id' _ rfl
  | _ => exact ⟨i, hi, hn⟩

end Inner

namespace Server

/-- What the step from `c` to `c'` promises about the client of `s`. -/
structure KeepsClient (s : ServerSdkKey) (tr : List (RepoEvent S)) (c : Server S) (e : Event Lock (Op S))
    (c' : Server S) : Prop where
  kept : e ≠ .op (.removeClient s) → ∀ id, c.store.sdkClients.lookup s = some id →
    c'.store.sdkClients.lookup s = some id
  once : e = .op (.newClient s) → ¬ Created s tr
  ready : e ≠ .op (.removeClient s) → c.store.Ready s → c'.store.Ready s

theorem Traced.keepsClient {s : ServerSdkKey} {ph : Nat → Phase} {tr : List (RepoEvent S)} {c c' : Server S}
    {i : Nat} {e : Event Lock (Op S)} (h : Traced s ph tr c) (hs : Config.Step c i e c')
    (ho : NotOvertaken s (tr ++ [(i, e)])) : KeepsClient s tr c e c' := by
  have hvacant := h.vacant (ho.of_prefix (List.prefix_append _ _))
  have effect : e ≠ .op (.removeClient s) → c.store = c'.store ∨ ∃ o, c'.store = Inner.exec o c.store ∧
      ∀ id, c.store.sdkClients.lookup s = some id → (Inner.exec o c.store).sdkClients.lookup s = some id := by
    intro hr
    rcases h.follow.step hs with ⟨-, hst, -⟩ | ⟨o, t, q, rfl, -, hrun, hst, -⟩
    · exact .inl hst.symm
    · refine .inr ⟨o, hst, fun id hid => (Inner.lookup_exec ?_ (fun he => hr (he ▸ rfl)) _).trans hid⟩
      rintro id' rfl
      -- a client is set up only while there is none
      generalize hi : ph i = p at hrun
      cases hrun with
      | insertClient => exact hvacant i id' hi (Finmap.mem_of_lookup_eq_some hid)
  refine ⟨fun hr id hid => ?_, ?_, fun hr ⟨inst, hinst, hn⟩ => ?_⟩
  · rcases effect hr with he | ⟨o, he, hk⟩
    · rwa [← he]
    · rw [he]; exact hk id hid
  · rintro rfl hc
    rcases h.follow.step hs with ⟨hne, -, -⟩ | ⟨o, t, q, he, -, hrun, -, -⟩
    · exact hne _ rfl
    · cases he
      generalize hi : ph i = p at hrun
      cases hrun with
      | newClient hl => exact ho tr i List.prefix_rfl (h.late i hi hc)
  · obtain ⟨id, hid, hinst⟩ := Inner.client_eq_some.mp hinst
    rcases effect hr with he | ⟨o, he, hk⟩
    · rw [← he]
      exact ⟨inst, Inner.client_eq_some.mpr ⟨id, hid, hinst⟩, hn⟩
    · obtain ⟨inst', hinst', hn'⟩ := Inner.initialized_exec o hinst hn
      rw [he]
      exact ⟨inst', Inner.client_eq_some.mpr ⟨id, hk id hid, hinst'⟩, hn'⟩

/-- Every step of the run keeps the client of `s`. -/
def ClientKept (s : ServerSdkKey) (c₀ : Server S) (tr : List (RepoEvent S)) : Prop :=
  ∀ tr₁ i e c₁ c₂, tr₁ ++ [(i, e)] <+: tr → Config.Exec c₀ tr₁ c₁ → Config.Step c₁ i e c₂ →
    KeepsClient s tr₁ c₁ e c₂

/-- A run from any repository keeps the client of `s` if and only if no call overtook another: none
created a client for `s` when one had been created since its own test. -/
theorem clientKept_iff (s : ServerSdkKey) {r : Inner S} {calls : List (Call S)} {tr : List (RepoEvent S)}
    {c : Server S} (h : Config.Exec (start r calls) tr c) :
    ClientKept s (start r calls) tr ↔ NotOvertaken s tr := by
  constructor
  · intro hk tr₁ i hp hc
    obtain ⟨c₂, h₂⟩ := h.of_prefix hp
    obtain ⟨c₁, h₁, hs⟩ := h₂.snoc_inv
    exact (hk tr₁ i _ c₁ c₂ hp h₁ hs).once rfl hc.created
  · intro ho tr₁ i e c₁ c₂ hp h₁ hs
    obtain ⟨ph, ht⟩ := exec_traced s h₁
    exact ht.keepsClient hs (ho.of_prefix hp)

/-- Two keys registered one after the other. -/
theorem clientKept_iff_turns : ∃ (tr : List (RepoEvent Sdk.plain)) (c : Server Sdk.plain), c.Returned ∧
    (ClientKept "s" (start (SdkRepository.new default) [.sync "c" "s" 1, .sync "d" "s" 1]) tr ↔
      NotOvertaken "s" tr) := by
  obtain ⟨c, hc, hr⟩ : ∃ c, (start (SdkRepository.new default) [.sync "c" "s" 1, .sync "d" "s" 1] :
      Server Sdk.plain).schedule (.replicate 18 0 ++ .replicate 8 1) = some c ∧ c.Returned := by decide
  obtain ⟨tr, h⟩ := Config.Reach.of_schedule hc
  exact ⟨tr, c, hr, clientKept_iff "s" h⟩

/-- Both calls test before either creates; the second client replaces the first. -/
theorem not_clientKept_race : ¬ ∀ (tr : List (RepoEvent Sdk.plain)) (c : Server Sdk.plain),
    Config.Exec (start (SdkRepository.new default) [.sync "c" "s" 1, .sync "d" "s" 1]) tr c →
      ClientKept "s" (start (SdkRepository.new default) [.sync "c" "s" 1, .sync "d" "s" 1]) tr := by
  intro h
  obtain ⟨c₁, hc₁, h₀, ⟨e, c₂⟩, hs, h₁⟩ : ∃ c₁, (start (SdkRepository.new default)
      [.sync "c" "s" 1, .sync "d" "s" 1] : Server Sdk.plain).schedule
      (.replicate 4 0 ++ .replicate 14 1 ++ .replicate 8 0) = some c₁ ∧
      c₁.store.sdkClients.lookup "s" = some 0 ∧ ∃ p, c₁.step? 0 = some p ∧
      p.2.store.sdkClients.lookup "s" = some 1 := by decide
  obtain ⟨tr, ht⟩ := Config.Reach.of_schedule hc₁
  have hstep := Config.step?_iff.mp hs
  have hk := h _ _ (ht.snoc hstep) tr 0 e c₁ c₂ List.prefix_rfl ht hstep
  by_cases he : e = .op (.removeClient "s")
  · subst he
    cases hstep with
    | op _ => cases (Finmap.lookup_erase "s" c₁.store.sdkClients).symm.trans h₁
  · cases (hk.kept he 0 h₀).symm.trans h₁

end Server
end FeatureProbeServer
