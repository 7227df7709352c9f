import FeatureProbeServer.Main
import FeatureProbeServer.Provenance
import FeatureProbeServer.Steady

/-!
# A server with one pair of keys

A server that is started without a keys URL spawns nothing, and requests and deliveries are all that
runs on it. There is no more to it then than the toggles its one client has taken: no run gets stuck, and
every request is answered from what had been delivered at one of the request's own steps.
-/

namespace FeatureProbeServer
open Guarded

section
variable {S : Sdk}

/-- One tenant, and its feed. -/
noncomputable def Service.static (c : ClientSdkKey) (s : ServerSdkKey) (feed : Feed S) : Service S :=
  (empty.register c s 1).setFeed s feed

theorem Inner.Alike.created {r r' : Inner S} (h : r.Alike r') {s : ServerSdkKey} {id : ClientId}
    (hc : Created s id r) : Created s id r' := by
  obtain ⟨i, hi, hk⟩ := hc
  have ho : (r'.instances.map origin)[id]? = some (origin i) := by
    rw [← h.origins, List.getElem?_map, hi]
    rfl
  rw [List.getElem?_map] at ho
  obtain ⟨i', hi', he⟩ := Option.map_eq_some_iff.mp ho
  have hkey : i'.config = i.config := congrArg Prod.fst he
  exact ⟨i', hi', by rw [hkey, hk]⟩

theorem Inner.Alike.registryOk {r r' : Inner S} (h : r.Alike r') (hr : r.RegistryOk) : r'.RegistryOk := by
  rw [registryOk_iff] at hr ⊢
  intro s id hs
  rw [← h.sdkClients] at hs
  exact h.created (hr s id hs)

end

variable {W : Web} {jobs : List (Job W)}

/-- What runs where no loop does. -/
def Job.Aside : Job W → Prop
  | .one call => call.Aside
  | .http .. => True
  | _ => False

theorem Job.Aside.within {job : Job W} (h : job.Aside) : job.prog.Within Inner.Alike := by
  cases job with
  | one call => exact Prog.Within.bind (Call.Aside.within h) fun _ => trivial
  | syncSecretKeys polls => exact h.elim
  | updateClients passes => exact h.elim
  | http handler request => exact (handler.readOnly_serve request).within.bind fun _ => trivial

theorem Job.Aside.keeps {job : Job W} (h : job.Aside) (K : Set ServerSdkKey) : job.Keeps K where
  payloads new hnew := by
    cases job with
    | one call => cases call <;> first | exact h.elim | exact hnew.elim
    | syncSecretKeys polls => exact h.elim
    | _ => exact hnew.elim
  registers c s n he := by
    rw [he] at h
    exact h.elim

/-! ### One pair -/

/-- The repository in which the pair has been registered. -/
def SdkRepository.static {S : Sdk} (cfg : ServerConfig) (c : ClientSdkKey) (s : ServerSdkKey) : Inner S :=
  ((SdkRepository.sync c s 1).run (SdkRepository.new cfg)).2

namespace Inner
variable {cfg : ServerConfig} {c : ClientSdkKey} {s : ServerSdkKey} {S : Sdk}

theorem client_static (ha : S.accepts s = true) {r : Inner S} (h : (SdkRepository.static cfg c s).Alike r)
    (t : ServerSdkKey) :
    r.client t = if t = s then r.instances[0]? else none := by
  unfold client
  rw [← h.sdkClients, SdkRepository.static, run_sync_new cfg c ha]
  show ((Finmap.insert s 0 ∅).lookup t).bind _ = _
  rw [HashMap.lookup_insert_eq]
  split <;> rfl

theorem registryOk_static (ha : S.accepts s = true) :
    (SdkRepository.static cfg c s : Inner S).RegistryOk := by
  intro t ht
  rw [client_static ha (refl_of Alike _)]
  rw [SdkRepository.static, run_sync_new cfg c ha] at ht ⊢
  rcases Finmap.mem_insert.mp ht with rfl | ht
  · exact ⟨_, if_pos rfl, rfl⟩
  · exact absurd ht Finmap.notMem_empty

theorem steady_static (ha : S.accepts s = true) : (SdkRepository.static cfg c s : Inner S).Steady {s} := by
  rw [SdkRepository.static, run_sync_new cfg c ha]
  refine ⟨fun t => ?_, fun t ht => ?_⟩
  · show t ∈ Finmap.insert s c ∅ ↔ t ∈ {s}
    rw [Finmap.mem_insert]
    exact or_iff_left Finmap.notMem_empty
  · exact Finmap.mem_insert.mpr (.inl ht)

theorem service_static (ha : S.accepts s = true) {r : Inner S} (h : (SdkRepository.static cfg c s).Alike r)
    {i : FPClient S} (hi : r.instances[0]? = some i) : r.service = .static c s (.of (some i)) := by
  have hm : r.secretMapping =
      (exec (.insertMapping c s 1) (SdkRepository.new cfg : Inner S)).secretMapping := by
    rw [← h.secretMapping, SdkRepository.static, run_sync_new cfg c ha]
    rfl
  have hservice := service_setFeed _ r s hm fun t hts => by
    rw [client_static ha h, if_neg hts]
    rfl
  rw [hservice, client_static ha h, if_pos rfl, hi, service_insertMapping, service_new, Service.static]

end Inner

namespace Site
variable {cfg : ServerConfig} {c : ClientSdkKey} {s : ServerSdkKey} {tr : List (Nat × Event Lock (Op W.sdk))}
  {site : Site W}

theorem fed_exec {r : Inner W.sdk} {id : ClientId} {i : FPClient W.sdk} (hi : r.instances[id]? = some i)
    (hunused : i.Unused) (h : Config.Exec (start r jobs) tr site) :
    ∃ i', site.store.instances[id]? = some i' ∧ i'.Unused ∧
      Feed.of (some i') = (Feed.of (some i)).after id tr := by
  induction h with
  | nil => exact ⟨i, hi, hunused, rfl⟩
  | @snoc tr site d e site' h hs ih =>
    obtain ⟨i', hi', hunused', hf⟩ := ih
    rw [Feed.after_snoc, ← hf]
    rcases hs.store_cases with ⟨hst, he⟩ | ⟨o, rfl, hst⟩
    · exact ⟨i', by rw [hst, hi'], hunused', (Feed.next_of_ne he).symm⟩
    · rw [hst]
      obtain ⟨i'', hi'', -, hunused'', hf''⟩ := Feed.of_exec hi' hunused' d o
      exact ⟨i'', hi'', hunused'', hf''⟩

/-- Without a keys URL a server starts if it has a pair of keys, and its client can be created. -/
theorem initHandler_ok_static {T : Tokio} {started : Started W.sdk} (hk : cfg.keysUrl = none)
    (h : initHandler T cfg = some (.ok started)) : ∃ c s, cfg.clientSdkKey = some c ∧
      cfg.serverSdkKey = some s ∧ W.sdk.accepts s = true ∧ started.repo = SdkRepository.static cfg c s := by
  cases hc : cfg.clientSdkKey with
  | none => simp [initHandler, hk, hc] at h
  | some c =>
    cases hs : cfg.serverSdkKey with
    | none => simp [initHandler, hk, hc, hs] at h
    | some s =>
      cases ha : W.sdk.accepts s with
      | false => cases (initHandler_refused hk hc hs ha).symm.trans h
      | true =>
        cases (initHandler_static hk hc hs ha).symm.trans h
        exact ⟨c, s, rfl, rfl, ha, rfl⟩

/-- Whatever runs on the pair, there is nothing but the toggles that its client has taken. -/
theorem static_exec (ha : W.sdk.accepts s = true) (hjobs : ∀ job ∈ jobs, job.Aside)
    (h : Config.Exec (start (SdkRepository.static cfg c s) jobs) tr site) :
    site.store.RegistryOk ∧ site.store.service = .static c s (.after 0 .waiting tr) := by
  have hfresh : ∃ i, (SdkRepository.static cfg c s : Inner W.sdk).instances[0]? = some i ∧ i.Unused ∧
      Feed.of (some i) = .waiting := by
    rw [SdkRepository.static, run_sync_new cfg c ha]
    exact ⟨_, rfl, fun _ => rfl, rfl⟩
  have hwithin : ∀ t ∈ (start (SdkRepository.static cfg c s) jobs).threads, t.prog.Within Inner.Alike := by
    intro t ht
    obtain ⟨p, hp, rfl⟩ := List.mem_map.mp ht
    obtain ⟨job, hjob, rfl⟩ := List.mem_map.mp hp
    exact (hjobs job hjob).within
  have halike : (SdkRepository.static cfg c s).Alike site.store := Config.Reach.within hwithin ⟨tr, h⟩
  obtain ⟨i, hi, hunused, hwaiting⟩ := hfresh
  obtain ⟨i', hi', -, hf⟩ := fed_exec hi hunused h
  rw [hwaiting] at hf
  rw [← hf]
  exact ⟨halike.registryOk (Inner.registryOk_static ha), Inner.service_static ha halike hi'⟩

/-- A server that is started without a keys URL does not get stuck, and each request is answered from the
toggles its client had taken before one of the request's own steps. -/
theorem exec_static {T : Tokio} (hk : cfg.keysUrl = none) {started : Started W.sdk}
    (hinit : initHandler T cfg = some (.ok started)) (hjobs : ∀ job ∈ jobs, job.Aside)
    (h : Config.Exec (start started.repo jobs) tr site) :
    ∃ c s, cfg.clientSdkKey = some c ∧ cfg.serverSdkKey = some s ∧
      (∃ site', Config.Reach site site' ∧ site'.Returned) ∧
      site.store.service = .static c s (.after 0 .waiting tr) ∧
      ∀ i handler request t a, jobs[i]? = some (.http handler request) → site.threads[i]? = some t →
        t.result = some a → ∃ tr₁, tr₁ <+: tr ∧ ((∃ e, tr₁ ++ [(i, e)] <+: tr) ∨ ∀ e, (i, e) ∉ tr) ∧
          a = .outcome ((Service.static c s (.after 0 .waiting tr₁)).outcome handler request) := by
  obtain ⟨c, s, hc, hs, haccepts, hrepo⟩ := initHandler_ok_static hk hinit
  rw [hrepo] at h
  have ascending :=
    ascending_reach (Inner.steady_static haccepts) (fun job hjob => (hjobs job hjob).keeps _) ⟨tr, h⟩
  refine ⟨c, s, hc, hs, ascending.returns, (static_exec haccepts hjobs h).2, ?_⟩
  intro i handler request t a hj ht ha
  have answer : ∀ {tr₁ site₁}, Config.Exec (start (SdkRepository.static cfg c s) jobs) tr₁ site₁ →
      ((handler.serve request).run site₁.store).1 =
        (Service.static c s (.after 0 .waiting tr₁)).outcome handler request := by
    intro tr₁ site₁ h₁
    obtain ⟨hregistry, hservice⟩ := static_exec haccepts hjobs h₁
    rw [FpHttpHandler.run_serve handler hregistry request, hservice]
  rcases handler.serve_cases request with ⟨o, ho⟩ | ⟨call, hcall, hmap⟩
  · obtain ⟨hno, ha⟩ := exec_pure h hj ho ht ha
    refine ⟨tr, List.prefix_rfl, .inr hno, ?_⟩
    rw [ha, ← answer h, ho]
    rfl
  · obtain ⟨tr₁, e, site₁, htr, h₁, ha⟩ := exec_call h hj hcall hmap ht ha
    refine ⟨tr₁, (List.prefix_append _ _).trans htr, .inl ⟨e, htr⟩, ?_⟩
    rw [ha, answer h₁]

/-- The toggles are delivered while the request for them waits. -/
theorem exec_static_late : ∃ (cfg : ServerConfig) (started : Started Web.plain.sdk)
    (jobs : List (Job Web.plain)),
    cfg = { (default : ServerConfig) with clientSdkKey := some "c", serverSdkKey := some "s" } ∧
    jobs = [.one (.receive 0 ⟨∅, .singleton "t" true, (), some 1⟩), .http default (.serverSdkToggles "s")] ∧
    initHandler Tokio.atZero cfg = some (.ok started) ∧
    ∃ tr tr₁ site, Config.Exec (start started.repo jobs) tr site ∧ tr₁ <+: tr ∧
      (Service.static "c" "s" (.after 0 .waiting tr₁)).outcome default (.serverSdkToggles "s") =
        ⟨some ⟨200, contentType, .json (.repo ⟨∅, .singleton "t" true, (), some 1⟩)⟩, []⟩ := by
  obtain ⟨started, hinit, hrepo⟩ : ∃ started : Started Web.plain.sdk,
      initHandler Tokio.atZero
          { (default : ServerConfig) with clientSdkKey := some "c", serverSdkKey := some "s" } =
        some (.ok started) ∧ started.repo = SdkRepository.static
          { (default : ServerConfig) with clientSdkKey := some "c", serverSdkKey := some "s" } "c" "s" :=
    ⟨_, initHandler_static rfl rfl rfl (by decide), rfl⟩
  refine ⟨_, started, _, rfl, rfl, hinit, ?_⟩
  rw [hrepo]
  obtain ⟨site, t, hsite, ht, ha⟩ : ∃ site t, (start (SdkRepository.static
      { (default : ServerConfig) with clientSdkKey := some "c", serverSdkKey := some "s" } "c" "s")
      [.one (.receive 0 ⟨∅, .singleton "t" true, (), some 1⟩), .http default (.serverSdkToggles "s")] :
      Site Web.plain).schedule (.replicate 5 1 ++ 0 :: .replicate 5 1) = some site ∧
      site.threads[1]? = some t ∧ t.result = some (.outcome
        ⟨some ⟨200, contentType, .json (.repo ⟨∅, .singleton "t" true, (), some 1⟩)⟩, []⟩) :=
    ⟨_, _, rfl, rfl, rfl⟩
  obtain ⟨tr, h⟩ := Config.Reach.of_schedule hsite
  have hjobs : ∀ job ∈ ([.one (.receive 0 ⟨∅, .singleton "t" true, (), some 1⟩),
      .http default (.serverSdkToggles "s")] : List (Job Web.plain)), job.Aside := by
    simp [Job.Aside, Call.Aside]
  obtain ⟨c, s, hc, hs, -, -, hanswers⟩ := exec_static rfl hinit hjobs (hrepo ▸ h)
  cases hc
  cases hs
  obtain ⟨tr₁, htr, -, hanswer⟩ := hanswers 1 _ _ t _ rfl ht ha
  exact ⟨tr, tr₁, site, h, htr, (Answer.outcome.inj hanswer).symm⟩

end Site
end FeatureProbeServer
