import FeatureProbeServer.RepoLocks
import FeatureProbeServer.RepoRely
import Mathlib.Data.String.Basic

/-!
# Registering a static key beside passes (`SdkRepository::sync`, `Inner::update_clients`)

`sync` registers the client before it inserts the key pair. A pass between the two removes the client
again, as its key is not in the index yet. No pass does so when the mapping is still unready, when the
index has the key already, when there is no pass, or when passes panic before they remove anything.
-/

namespace FeatureProbeServer
open Guarded

variable {S : Sdk}

/-- The calls that may run beside `sync` here. -/
def Call.KeepsMapping : Call S → Prop
  | .sync .. | .updateMapping .. => False
  | _ => True

def Call.IsPass : Call S → Prop
  | .updateClients .. => True
  | _ => False

namespace Inner

/-- The mapping has the pair and the registry a client. -/
def Registered (r : Inner S) (c : ClientSdkKey) (s : ServerSdkKey) : Prop :=
  r.secretMapping.mapping.lookup c = some s ∧ s ∈ r.sdkClients

/-- Steps that keep `P` and, where it holds, the client of `s`. -/
structure Holding (P : Inner S → Prop) (c : ClientSdkKey) (s : ServerSdkKey) (r r' : Inner S) : Prop where
  created : ∀ t id, Created t id r → Created t id r'
  safe : P r → P r'
  kept : P r → s ∈ r.sdkClients → s ∈ r'.sdkClients
  mapped : r.secretMapping.mapping.lookup c = some s → r'.secretMapping.mapping.lookup c = some s

/-- `P` is about mapping and registry, and kept by what `sync` of `c` and `s` and passes do to them. -/
structure Safe (P : Inner S → Prop) (c : ClientSdkKey) (s : ServerSdkKey) : Prop where
  same : ∀ r r', r.secretMapping = r'.secretMapping → r.sdkClients = r'.sdkClients → P r → P r'
  insertClient : ∀ r t id, S.accepts t = true → P r → P (exec (.insertClient t id) r)
  removeClient : ∀ r t, P r → P (exec (.removeClient t) r)
  insertMapping : ∀ r v, P r → P (exec (.insertMapping c s v) r)

variable {P : Inner S → Prop} {c : ClientSdkKey} {s : ServerSdkKey}

instance : IsPreorder (Inner S) (Holding P c s) where
  refl _ := ⟨fun _ _ h => h, id, fun _ h => h, id⟩
  trans _ _ _ h h' := ⟨fun t id hc => h'.created t id (h.created t id hc), h'.safe ∘ h.safe,
    fun hp hs => h'.kept (h.safe hp) (h.kept hp hs), h'.mapped ∘ h.mapped⟩

theorem Safe.admits (hP : Safe P c s) : Admits (Holding P c s) where
  created t id _ _ h := h.created t id
  newClient _ _ := ⟨fun _ _ => created_exec _, hP.same _ _ rfl rfl, fun _ h => h, id⟩
  setUpdateCallback _ _ _ := ⟨fun _ _ => created_exec _, hP.same _ _ rfl rfl, fun _ h => h, id⟩
  insertClient r t client ha _ :=
    ⟨fun _ _ => created_exec _, hP.insertClient r t client ha, fun _ h => Finmap.mem_insert.mpr (.inr h), id⟩
  receive _ _ _ := ⟨fun _ _ => created_exec _, hP.same _ _ rfl rfl, fun _ h => h, id⟩

theorem Safe.holding_insertMapping (hP : Safe P c s) (v : Nat) (r : Inner S) :
    Holding P c s r (exec (.insertMapping c s v) r) :=
  ⟨fun _ _ => created_exec _, hP.insertMapping r v, fun _ h => h,
    fun _ => Finmap.lookup_insert r.secretMapping.mapping⟩

theorem stable_registered : Stable (Holding P c s) fun r : Inner S => P r ∧ r.Registered c s :=
  fun _ _ h ⟨hp, hm, hs⟩ => ⟨h.safe hp, h.mapped hm, h.kept hp hs⟩

/-- `sync` ends with its pair and its client in place, if it does not panic. -/
theorem wp_sdkSync (hP : Safe P c s) (v : Nat) {r : Inner S} (h : P r) :
    (SdkRepository.sync c s v).wp (Holding P c s) (fun a r => a = some () → P r ∧ r.Registered c s) r := by
  have safe : Stable (Holding P c s) P := fun _ _ h => h.safe
  have kept : Stable (Holding P c s) fun r : Inner S => P r ∧ s ∈ r.sdkClients :=
    fun _ _ h ⟨hp, hs⟩ => ⟨h.safe hp, h.kept hp hs⟩
  have client := wp_sync hP.admits safe kept (fun _ h hs => ⟨h, hs⟩) h
  refine Prog.wp_bind (Prog.wp_mono client ?_)
  intro synced r₁ h₁
  cases synced with
  | none => exact fun _ _ he => by cases he
  | some =>
    refine Prog.wp_bind (Prog.wp_guarded (Prog.wp_perform fun r₂ h₂ => ⟨hP.holding_insertMapping v r₂, ?_⟩))
    intro r₃ h₃ r₄ h₄ r₅ h₅ _
    obtain ⟨hp₂, hs₂⟩ := kept _ _ h₂ h₁
    have pair : (r₂.secretMapping.insert c s v).mapping.lookup c = some s :=
      Finmap.lookup_insert r₂.secretMapping.mapping
    have h₂₅ := trans_of (Holding P c s) h₃ (trans_of (Holding P c s) h₄ h₅)
    exact stable_registered _ _ h₂₅ ⟨hP.insertMapping r₂ v hp₂, pair, hs₂⟩

end Inner

/-! ### No pass in between takes the client away -/

/-- No pass that finds `r₀` removes the client of `s` from `r`; all keys of its mapping have had one. -/
def Inner.SparedIn (P : Inner S → Prop) (s : ServerSdkKey) : Prop :=
  ∀ r₀ r, P r₀ → P r → 0 < r₀.secretMapping.version → s ∈ r.sdkClients →
    (∀ t ∈ r₀.secretMapping.reverse, ∃ r', P r' ∧ t ∈ r'.sdkClients) → s ∈ r₀.secretMapping.reverse

theorem Call.KeepsMapping.guarantees {call : Call S} (hc : call.KeepsMapping) {P : Inner S → Prop}
    {c : ClientSdkKey} {s : ServerSdkKey} (hP : Inner.Safe P c s)
    (hp : call.IsPass → Inner.SparedIn P s) : call.Guarantees (Inner.Holding P c s) P := by
  cases call with
  | sync c s v => exact hc.elim
  | updateMapping π new => exact hc.elim
  | updateClients πr πc =>
    intro r₀ r t h₀ hv ht hr hsynced
    refine ⟨fun _ _ => Inner.created_exec _, hP.removeClient r t, fun _ hs => ?_, id⟩
    refine Finmap.mem_erase.mpr ⟨?_, hs⟩
    rintro rfl
    exact ht (hp trivial r₀ r h₀ hr hv hs hsynced)
  | _ => trivial

/-- The call at place 0 of `c` has returned, and did not panic. -/
def Server.FirstReturned (c : Server S) : Prop :=
  ∃ t, c.threads[0]? = some t ∧ ∃ a, t.result = some a ∧ a.isPanic = false

section
variable {r : Inner S} {c : ClientSdkKey} {s : ServerSdkKey} {v : Nat} {others : List (Call S)}

theorem Server.registered_of_safe (ho : ∀ call ∈ others, call.KeepsMapping) {P : Inner S → Prop}
    (hP : Inner.Safe P c s) (hr : P r) (hp : (∃ call ∈ others, call.IsPass) → Inner.SparedIn P s)
    {c' : Server S} (h : Config.Reach (Server.start r (.sync c s v :: others)) c')
    (hd : c'.FirstReturned) : P c'.store ∧ c'.store.Registered c s := by
  have hm : (Server.start r (.sync c s v :: others)).Meets (Inner.Holding P c s)
      fun i a r => i = 0 → a.isPanic = false → P r ∧ r.Registered c s := by
    refine Config.Meets.start fun i p hi => ?_
    cases i with
    | zero =>
      cases hi
      refine Prog.wp_bind (Prog.wp_mono (Inner.wp_sdkSync hP v hr) fun a r₁ h₁ r₂ h₂ _ ha => ?_)
      cases a with
      | none => cases ha
      | some => exact Inner.stable_registered _ _ h₂ (h₁ rfl)
    | succ i =>
      rw [List.map_cons, List.getElem?_cons_succ] at hi
      obtain ⟨call, hc, rfl⟩ := List.mem_map.mp (List.mem_of_getElem? hi)
      have hg := (ho call hc).guarantees hP fun hpass => hp ⟨call, hc, hpass⟩
      refine Prog.wp_mono (hg.wp hP.admits (fun _ _ h => h.safe) hr) ?_
      exact fun _ _ _ he => by cases he
  obtain ⟨t, ht, a, ha, hpanic⟩ := hd
  exact (hm.reach h).2.result ht ha rfl hpanic

/-! The five reasons why nothing is lost. -/

theorem Server.registered_of_mapping (ho : ∀ call ∈ others, call.KeepsMapping)
    (hr : r.secretMapping.version = 0 ∨ s ∈ r.secretMapping.reverse) {c' : Server S}
    (h : Config.Reach (Server.start r (.sync c s v :: others)) c') (hd : c'.FirstReturned) :
    c'.store.Registered c s := by
  have hP : Inner.Safe (fun r : Inner S => r.secretMapping.version = 0 ∨ s ∈ r.secretMapping.reverse) c s :=
    { same := fun _ _ hm _ h => hm ▸ h
      insertClient := fun _ _ _ _ h => h
      removeClient := fun _ _ h => h
      insertMapping := fun _ _ _ => .inr (Finmap.mem_insert.mpr (.inl rfl)) }
  refine (registered_of_safe ho hP hr ?_ h hd).2
  exact fun _ r₀ r h₀ _ hv _ _ => h₀.resolve_left (Nat.pos_iff_ne_zero.mp hv)

theorem Server.registered_of_noPass (ho : ∀ call ∈ others, call.KeepsMapping)
    (hno : ∀ call ∈ others, ¬ call.IsPass) {c' : Server S}
    (h : Config.Reach (Server.start r (.sync c s v :: others)) c') (hd : c'.FirstReturned) :
    c'.store.Registered c s := by
  have hP : Inner.Safe (fun _ : Inner S => True) c s :=
    ⟨fun _ _ _ _ h => h, fun _ _ _ _ h => h, fun _ _ h => h, fun _ _ h => h⟩
  refine (registered_of_safe ho hP trivial ?_ h hd).2
  exact fun ⟨call, hcall, hpass⟩ => absurd hpass (hno call hcall)

theorem Server.registered_of_panics (ho : ∀ call ∈ others, call.KeepsMapping) (hp : ¬ r.CanPass)
    {c' : Server S} (h : Config.Reach (Server.start r (.sync c s v :: others)) c')
    (hd : c'.FirstReturned) : c'.store.Registered c s := by
  obtain ⟨-, hkeys⟩ := Classical.not_imp.mp hp
  push Not at hkeys
  obtain ⟨t, ht, hsync⟩ := hkeys
  obtain ⟨hnew, ha⟩ := not_or.mp hsync
  -- passes go over `t`, which never has a client
  have hP : Inner.Safe (fun r : Inner S => t ∈ r.secretMapping.reverse ∧ t ∉ r.sdkClients) c s :=
    { same := fun _ _ hm hc h => hm ▸ hc ▸ h
      insertClient := fun _ u _ hu h => ⟨h.1, fun hmem => by
        rcases Finmap.mem_insert.mp hmem with rfl | hmem
        · exact ha hu
        · exact h.2 hmem⟩
      removeClient := fun _ _ h => ⟨h.1, fun hmem => h.2 (Finmap.mem_erase.mp hmem).2⟩
      insertMapping := fun _ _ h => ⟨Finmap.mem_insert.mpr (.inr h.1), h.2⟩ }
  refine (registered_of_safe ho hP ⟨ht, hnew⟩ (fun _ r₀ r h₀ _ _ _ hsynced => ?_) h hd).2
  obtain ⟨r', hr', hmem⟩ := hsynced t h₀.1
  exact absurd hmem hr'.2

/-- A `sync` that creates a client for a key `FPClient::new` does not accept does not return. -/
theorem Server.not_returned_of_refused (ho : ∀ call ∈ others, call.KeepsMapping)
    (hnew : s ∉ r.sdkClients) (ha : S.accepts s = false) {c' : Server S}
    (h : Config.Reach (Server.start r (.sync c s v :: others)) c') : ¬ c'.FirstReturned := by
  have hP : Inner.Safe (fun r : Inner S => s ∉ r.sdkClients) c s :=
    { same := fun _ _ _ hc h => hc ▸ h
      insertClient := fun _ u _ hu h hmem => by
        rcases Finmap.mem_insert.mp hmem with rfl | hmem
        · rw [ha] at hu; cases hu
        · exact h hmem
      removeClient := fun _ _ h hmem => h (Finmap.mem_erase.mp hmem).2
      insertMapping := fun _ _ h => h }
  intro hd
  have hboth := registered_of_safe ho hP hnew (fun _ _ r _ hr _ hs _ => absurd hs hr) h hd
  exact hboth.1 hboth.2.2

end

/-! ### A pass in between takes the client away -/

theorem Server.unregistered_of_pass {r : Inner S} {c : ClientSdkKey} {s : ServerSdkKey} {v : Nat}
    {others : List (Call S)} (hv : 0 < r.secretMapping.version) (hs : s ∉ r.secretMapping.reverse)
    (hsync : r.CanSync s) (hpass : r.CanPass) {call : Call S} (hcall : call ∈ others) (hp : call.IsPass) :
    ∃ c' : Server S, Config.Reach (Server.start r (.sync c s v :: others)) c' ∧ c'.FirstReturned ∧
      s ∉ c'.store.sdkClients := by
  -- `sync` up to the insertion of the pair
  obtain ⟨insertion, hprog, hinsertion⟩ : ∃ insertion, SdkRepository.sync c s v =
      Inner.sync s >>= insertion ∧ insertion (some ()) = (do
        .guarded .secretMapping .write (.perform (.insertMapping c s v))
        return some () : RepoM S (Option Unit)) := ⟨_, rfl, rfl⟩
  have ht : (Server.start r (.sync c s v :: others)).threads[0]? =
      some ⟨Inner.sync s >>= fun a => insertion a >>= fun b => .pure (.ofOption b), [], false⟩ := by
    rw [← bind_assoc, ← hprog]; rfl
  obtain ⟨c₁, _, _, hr₁, ⟨-, rfl⟩, hst₁, hi₁, hj₁⟩ :=
    Config.solo noSelfBlock_repo (follows_sync (.inl rfl) s) ht (Config.idle_start _ _ 0)
  have hsynced : (Inner.sync s).run (Server.start r (.sync c s v :: others)).store =
      (some (), r.ensured s) := by
    show (Inner.sync s).run r = _
    rw [Inner.run_sync, if_pos hsync]
  rw [hsynced] at hst₁ hi₁
  rw [hinsertion] at hi₁
  -- the pass
  obtain ⟨j, hj⟩ := List.mem_iff_getElem?.mp hcall
  have htj : c₁.threads[j + 1]? = some (Thread.start call.prog) := by
    rw [hj₁ _ (by omega)]
    simp [Server.start, Config.start, hj]
  obtain ⟨c₂, hr₂, hst₂, -, hj₂, hidle₂⟩ :=
    Server.solo_call htj ((Config.idle_start _ _ 0).handOver hi₁ hj₁ (j + 1))
  have hs₂ : s ∉ c₂.store.sdkClients := by
    cases call with
    | updateClients πr πc =>
      have hm : (r.ensured s).secretMapping = r.secretMapping := Inner.ensured_secretMapping r s
      have hpass₁ : (r.ensured s).CanPass := fun _ t ht =>
        Inner.canSync_ensured.mpr (hpass hv t (hm ▸ ht))
      rw [hst₂, hst₁, Call.exec_updateClients, Inner.mem_updateClients (hm ▸ hv) hpass₁, hm]
      exact hs
    | _ => exact hp.elim
  -- the insertion
  have ht₂ : c₂.threads[0]? = some ⟨(do
      .guarded .secretMapping .write (.perform (.insertMapping c s v))
      return .unit : RepoM S (Reply S)) >>= fun a => .pure a, [], false⟩ := by
    rw [hj₂ 0 (by omega), hi₁, bind_assoc]; rfl
  obtain ⟨c₃, _, _, hr₃, ⟨-, rfl⟩, hst₃, hi₃, -⟩ := Config.solo noSelfBlock_repo
    (follows_bind (follows_guarded (mayAcquire_nil ..) (follows_perform fun _ => .insertMapping (by simp)))
      fun _ => follows_pure _) ht₂ (hidle₂ 0)
  refine ⟨c₃, hr₁.trans (hr₂.trans hr₃), ⟨_, hi₃, _, rfl, rfl⟩, ?_⟩
  rw [hst₃]
  exact hs₂

/-- `sync` registers for good in every run where it returns, if and only if the mapping is unready, the
index already has the key, no pass runs, or `sync` or every pass panics. -/
theorem SdkRepository.sync_registered_iff (r : Inner S) (c : ClientSdkKey) (s : ServerSdkKey) (v : Nat)
    {others : List (Call S)} (ho : ∀ call ∈ others, call.KeepsMapping) :
    (∀ c' : Server S, Config.Reach (Server.start r (.sync c s v :: others)) c' → c'.FirstReturned →
        c'.store.Registered c s) ↔
      r.secretMapping.version = 0 ∨ s ∈ r.secretMapping.reverse ∨ (∀ call ∈ others, ¬ call.IsPass) ∨
        ¬ r.CanSync s ∨ ¬ r.CanPass := by
  constructor
  · intro h
    by_contra hno
    push Not at hno
    obtain ⟨hv, hs, ⟨call, hcall, hp⟩, hsync, hpass⟩ := hno
    obtain ⟨c', hr, hd, hs'⟩ :=
      Server.unregistered_of_pass (by omega) hs hsync hpass hcall hp
    exact hs' (h c' hr hd).2
  · rintro (hv | hs | hno | hsync | hpass) c' hc' hd
    · exact Server.registered_of_mapping ho (.inl hv) hc' hd
    · exact Server.registered_of_mapping ho (.inr hs) hc' hd
    · exact Server.registered_of_noPass ho hno hc' hd
    · obtain ⟨hnew, ha⟩ := not_or.mp hsync
      exact absurd hd (Server.not_returned_of_refused ho hnew (Bool.of_not_eq_true ha) hc')
    · exact Server.registered_of_panics ho hpass hc' hd

/-- The first key of a static server, with a pass between the two steps of its `sync`. -/
theorem SdkRepository.sync_registered_iff_first :
    ∃ c' : Server Sdk.plain, c'.Returned ∧ c'.store.Registered "c" "s" := by
  obtain ⟨c', hc, hr, hd⟩ : ∃ c', (Server.start (SdkRepository.new default)
      [.sync "c" "s" 1, .updateClients (.sorted _ _) (.sorted _ _)] : Server Sdk.plain).schedule
      (.replicate 14 0 ++ .replicate 8 1 ++ .replicate 4 0) = some c' ∧ c'.Returned ∧
      ∃ t, c'.threads[0]? = some t ∧ ∃ a, t.result = some a ∧ a.isPanic = false := by decide
  have ho : ∀ call ∈ ([.updateClients (.sorted _ _) (.sorted _ _)] : List (Call Sdk.plain)),
      call.KeepsMapping := by
    intro call h
    cases List.mem_singleton.mp h
    trivial
  exact ⟨c', hr, (SdkRepository.sync_registered_iff _ "c" "s" 1 ho).mpr (.inl rfl) c' (.of_schedule hc) hd⟩

/-- A second key, beside a pass that comes between the two steps of its `sync`. -/
theorem SdkRepository.not_sync_registered :
    ¬ ∀ c' : Server Sdk.plain, Config.Reach (Server.start
        ((SdkRepository.new default).after [.sync "c0" "s0" 1])
        [.sync "c" "s" 2, .updateClients (.sorted _ _) (.sorted _ _)]) c' → c'.FirstReturned →
      c'.store.Registered "c" "s" := by
  intro h
  obtain ⟨c', hr, hd, hs⟩ := Server.unregistered_of_pass (S := Sdk.plain) (c := "c") (s := "s") (v := 2)
    (r := (SdkRepository.new default).after [.sync "c0" "s0" 1]) (by decide) (by decide) (by decide)
    (fun _ => by decide) (List.mem_singleton_self (Call.updateClients (.sorted _ _) (.sorted _ _))) trivial
  exact hs (h c' hr hd).2

end FeatureProbeServer
