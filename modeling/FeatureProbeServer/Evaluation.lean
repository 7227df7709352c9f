import FeatureProbeServer.Endpoints
import Mathlib.Data.String.Basic

/-!
# What a client SDK receives (`all_evaluated_string`)

The result map holds the evaluation of every toggle for clients, under the toggle's key, and nothing
else: neither server-only toggles nor the order of iteration leave a trace in it.
-/

namespace FeatureProbeServer
open Guarded

namespace Sdk

/-- `serde_json` writes a result map as an object with one member for each entry; `members` reads the
object back, `value` is how a detail is written. -/
def WritesObjects (S : Sdk) {V : Type} (value : S.EvalDetail → V) (members : S.Json → List (String × V)) :
    Prop :=
  ∀ m, ∃ j, S.detailsJson m = .ok j ∧ ((members j).map Prod.fst).Nodup ∧
    ∀ k v, (k, v) ∈ members j ↔ ∃ d, m.lookup k = some d ∧ value d = v

/-- An SDK whose toggles are pairs of booleans: for clients, and on. -/
def tagged : Sdk where
  Toggle := Bool × Bool
  Segment := Unit
  Events := Unit
  User := Unit
  EvalDetail := Bool
  Json := Repository (Bool × Bool) Unit Unit ⊕ HashMap String Bool ⊕ Unit
  defaultRepo := ⟨∅, ∅, (), some 0⟩
  accepts := isHeaderValue
  takes old new := isNewer old.version new.version
  isForClient t := t.1
  evalDetail t _ _ := t.2
  repoJson r := .ok (.inl r)
  detailsJson m := .ok (.inr (.inl m))
  eventsJson _ := .ok (.inr (.inr ()))

/-- The members of an object, by their names. -/
def taggedMembers : tagged.Json → List (String × Bool)
  | .inr (.inl m) => (IterOrder.sorted String Bool).entries m
  | _ => []

theorem tagged_writesObjects : tagged.WritesObjects id taggedMembers := by
  intro m
  change HashMap String Bool at m
  have hmem : ∀ k v, (k, v) ∈ (IterOrder.sorted String Bool).entries m ↔ ∃ d, m.lookup k = some d ∧ d = v := by
    intro k v
    rw [IterOrder.mem_entries]
    exact ⟨fun h => ⟨v, h, rfl⟩, fun ⟨_, h, hv⟩ => hv ▸ h⟩
  exact ⟨.inr (.inl m), rfl, (IterOrder.sorted String Bool).nodup_entries m, hmem⟩

end Sdk

namespace Inner
variable {S : Sdk}

theorem lookup_evaluated {π : IterOrder String S.Toggle} {repo : S.Repo} {u : S.User} {k : String}
    {d : S.EvalDetail} :
    (evaluated π repo u).lookup k = some d ↔
      ∃ t, repo.toggles.lookup k = some t ∧ S.isForClient t = true ∧ S.evalDetail t u repo.segments = d := by
  have mem : ∀ {k d}, (k, d) ∈ ((π.entries repo.toggles).filter fun p => S.isForClient p.2).map
      (fun p => (p.1, S.evalDetail p.2 u repo.segments)) ↔
      ∃ t, repo.toggles.lookup k = some t ∧ S.isForClient t = true ∧ S.evalDetail t u repo.segments = d := by
    intro k d
    simp only [List.mem_map, List.mem_filter, Prod.mk.injEq, Prod.exists, IterOrder.mem_entries]
    constructor
    · rintro ⟨_, t, ⟨ht, hc⟩, rfl, hd⟩
      exact ⟨t, ht, hc, hd⟩
    · rintro ⟨t, ht, hc, hd⟩
      exact ⟨k, t, ⟨ht, hc⟩, rfl, hd⟩
  refine (HashMap.lookup_extend_iff fun k b b' hb hb' => ?_).trans mem
  obtain ⟨t, ht, -, rfl⟩ := mem.mp hb
  obtain ⟨t', ht', -, rfl⟩ := mem.mp hb'
  obtain rfl : t = t' := Option.some.inj (ht.symm.trans ht')
  rfl

/-! ### Server-only toggles -/

/-- The client key `c` resolves to the initialised client `i`. -/
def Resolves (r : Inner S) (c : ClientSdkKey) (i : FPClient S) : Prop :=
  0 < r.secretMapping.version ∧ ∃ s, r.secretMapping.mapping.lookup c = some s ∧ r.client s = some i ∧
    i.initialized = true

/-- `l` has one member for each toggle for clients: its key, and its evaluation. -/
structure ClientObject {V : Type} (value : S.EvalDetail → V) (repo : S.Repo) (u : S.User)
    (l : List (String × V)) : Prop where
  nodup : (l.map Prod.fst).Nodup
  mem : ∀ k v, (k, v) ∈ l ↔ ∃ t, repo.toggles.lookup k = some t ∧ S.isForClient t = true ∧
    value (S.evalDetail t u repo.segments) = v

/-- The repositories have the same segments and the same toggles for clients. -/
structure SameForClients (repo repo' : S.Repo) : Prop where
  segments : repo.segments = repo'.segments
  toggles : ∀ k t, S.isForClient t = true → (repo.toggles.lookup k = some t ↔ repo'.toggles.lookup k = some t)

theorem SameForClients.evaluated {repo repo' : S.Repo} (h : SameForClients repo repo')
    (π π' : IterOrder String S.Toggle) (u : S.User) : evaluated π repo u = evaluated π' repo' u := by
  refine Finmap.ext_lookup fun k => Option.ext fun d => ?_
  rw [lookup_evaluated, lookup_evaluated, h.segments]
  constructor
  · rintro ⟨t, ht, hc, hd⟩
    exact ⟨t, (h.toggles k t hc).mp ht, hc, hd⟩
  · rintro ⟨t, ht, hc, hd⟩
    exact ⟨t, (h.toggles k t hc).mpr ht, hc, hd⟩

/-- The order in which the toggles are evaluated does not matter. -/
theorem evaluated_congr (π π' : IterOrder String S.Toggle) (repo : S.Repo) (u : S.User) :
    evaluated π repo u = evaluated π' repo u :=
  SameForClients.evaluated ⟨rfl, fun _ _ _ => Iff.rfl⟩ π π' u

theorem Resolves.evalAnswer {r : Inner S} {c : ClientSdkKey} {i : FPClient S} (h : r.Resolves c i)
    (π : IterOrder String S.Toggle) (u : S.User) :
    r.evalAnswer π c u = (S.detailsJson (Inner.evaluated π i.repo u)).mapError .jsonError := by
  obtain ⟨hv, s, hc, hi, hn⟩ := h
  rw [evalAnswer_eq, clientAnswer_of_mapped hv hc, answer_of_initialized hi hn]

/-- What the client endpoint returns to `c`, and that it depends on nothing else. -/
structure ServesClientToggles {V : Type} (value : S.EvalDetail → V) (members : S.Json → List (String × V))
    (r : Inner S) (c : ClientSdkKey) (u : S.User) (i : FPClient S) : Prop where
  object : ∀ π, ∃ j, r.evalAnswer π c u = .ok j ∧ ClientObject value i.repo u (members j)
  unaffected : ∀ (r' : Inner S) c' i', r'.Resolves c' i' → SameForClients i.repo i'.repo →
    ∀ π π', r.evalAnswer π c u = r'.evalAnswer π' c' u

theorem Resolves.servesClientToggles {V : Type} {value : S.EvalDetail → V}
    {members : S.Json → List (String × V)}
    (hS : S.WritesObjects value members) {r : Inner S} {c : ClientSdkKey} {i : FPClient S}
    (h : r.Resolves c i) (u : S.User) : ServesClientToggles value members r c u i where
  object π := by
    obtain ⟨j, hj, hn, hm⟩ := hS (evaluated π i.repo u)
    refine ⟨j, by rw [h.evalAnswer, hj]; rfl, hn, fun k v => ?_⟩
    rw [hm k v]
    constructor
    · rintro ⟨d, hd, rfl⟩
      obtain ⟨t, ht, hc, rfl⟩ := lookup_evaluated.mp hd
      exact ⟨t, ht, hc, rfl⟩
    · rintro ⟨t, ht, hc, rfl⟩
      exact ⟨_, lookup_evaluated.mpr ⟨t, ht, hc, rfl⟩, rfl⟩
  unaffected r' c' i' h' hsame π π' := by
    rw [h.evalAnswer, h'.evalAnswer, hsame.evaluated π π' u]

/-- The toggle `a` is for clients, `b` is for servers only. -/
theorem servesClientToggles_server_only : ∃ (r : Inner Sdk.tagged) (i : FPClient Sdk.tagged),
    i.repo.toggles.lookup "b" = some (false, true) ∧ ServesClientToggles id Sdk.taggedMembers r "c" () i := by
  let repo : Sdk.tagged.Repo := ⟨∅, (Finmap.singleton "a" (true, true)).insert "b" (false, true), (), some 1⟩
  let r : Inner Sdk.tagged := (SdkRepository.new default).after [
    .updateMapping (.sorted _ _) ⟨1, .singleton "c" "s", ∅⟩, .updateClients (.sorted _ _) (.sorted _ _),
    .receive 0 repo]
  obtain ⟨i, hi⟩ := Option.isSome_iff_exists.mp (by decide : (r.client "s").isSome = true)
  have hn : (r.client "s").all (·.initialized) = true := by decide
  rw [hi] at hn
  have hv : 0 < r.secretMapping.version := by decide
  have hc : r.secretMapping.mapping.lookup "c" = some "s" := by decide
  have hr : r.Resolves "c" i := ⟨hv, "s", hc, hi, hn⟩
  have hb : (r.client "s").all (fun i =>
      (show Option (Bool × Bool) from i.repo.toggles.lookup "b") == some (false, true)) = true := by decide
  rw [hi] at hb
  have hserver : (show Option (Bool × Bool) from i.repo.toggles.lookup "b") = some (false, true) :=
    eq_of_beq hb
  exact ⟨r, i, hserver, hr.servesClientToggles Sdk.tagged_writesObjects ()⟩

end Inner
end FeatureProbeServer
