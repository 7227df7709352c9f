import FeatureProbeServer.Atomic
import FeatureProbeServer.RepoRely

/-!
# Registry changes under guards (`Inner::sync`, `Inner::update_clients`)

Rely and guarantee for the two functions that change the registry, with what their guards protect. A
pass holds its guard of the mapping to its end: the keys it goes over are those of the mapping
that is in place at each of its steps.
-/

namespace FeatureProbeServer
open Guarded

variable {S : Sdk}

namespace Inner

/-- The instance `id` was created for the key `s` and tells of its updates under it. -/
def Wired (s : ServerSdkKey) (id : ClientId) (r : Inner S) : Prop :=
  ∃ i t, r.instances[id]? = some i ∧ i.config.serverSdkKey = s ∧ i.updateCallback = some t ∧
    t.serverSdkKey = s

theorem Wired.created {s : ServerSdkKey} {id : ClientId} {r : Inner S} (h : Wired s id r) : Created s id r := by
  obtain ⟨i, t, hi, hs, -⟩ := h
  exact ⟨i, hi, hs⟩

/-- Instances stay, with their keys and what they are wired to. -/
structure Grows (r r' : Inner S) : Prop where
  created : ∀ s id, Created s id r → Created s id r'
  wired : ∀ s id, Wired s id r → Wired s id r'

instance : IsPreorder (Inner S) Grows where
  refl _ := ⟨fun _ _ h => h, fun _ _ h => h⟩
  trans _ _ _ h h' := ⟨fun s id hc => h'.created s id (h.created s id hc),
    fun s id hw => h'.wired s id (h.wired s id hw)⟩

theorem wired_setUpdateCallback {s : ServerSdkKey} {id : ClientId} {r : Inner S} (h : Created s id r)
    (c : Option ClientSdkKey) : Wired s id (exec (.setUpdateCallback id ⟨s, c⟩) r) := by
  obtain ⟨i, hi, hs⟩ := h
  exact ⟨i.setUpdateCallback ⟨s, c⟩, ⟨s, c⟩, by simp [exec, hi], hs, rfl, rfl⟩

/-- A callback is set under the key of its instance. -/
theorem wired_exec {o : Op S} {r : Inner S}
    (ho : ∀ id t, o = .setUpdateCallback id t → Created t.serverSdkKey id r) {s : ServerSdkKey}
    {id : ClientId} (h : Wired s id r) : Wired s id (exec o r) := by
  obtain ⟨i, t, hi, hs, ht, hts⟩ := h
  cases o with
  | newClient s' =>
    exact ⟨i, t, (List.getElem?_append_left (List.getElem?_eq_some_iff.mp hi).1).trans hi, hs, ht, hts⟩
  | setUpdateCallback id' t' =>
    by_cases he : id' = id
    · subst id'
      obtain ⟨i', hi', hs'⟩ := ho id t' rfl
      obtain rfl : i = i' := Option.some.inj (hi.symm.trans hi')
      exact ⟨i.setUpdateCallback t', t', by simp [exec, hi], hs, rfl, hs'.symm.trans hs⟩
    · exact ⟨i, t, by simp [exec, hi, he], hs, ht, hts⟩
  | receive id' repo =>
    by_cases he : id' = id
    · subst id'
      exact ⟨i.receive repo, t, by simp [exec, hi], hs, ht, hts⟩
    · exact ⟨i, t, by simp [exec, hi, he], hs, ht, hts⟩
  | _ => exact ⟨i, t, hi, hs, ht, hts⟩

theorem grows_exec {o : Op S} {r : Inner S}
    (ho : ∀ id t, o = .setUpdateCallback id t → Created t.serverSdkKey id r) : r.Grows (exec o r) :=
  ⟨fun _ _ => created_exec o, fun _ _ => wired_exec ho⟩

/-- What is to show for `sync s` with the guards `h`: from `P` to `K`, by way of `N` while `s` has no
client yet, or to `F` if it panics there. -/
structure SyncRule (R G : Inner S → Inner S → Prop) (J : List (Lock × Mode) → Inner S → Prop)
    (h : List (Lock × Mode)) (s : ServerSdkKey) (P N K F : Inner S → Prop) : Prop where
  refl : ∀ r, G r r
  puts : ∀ h' r, J (h' ++ h) r
  before : ∀ r r', Around Lock.Same R h r r' → P r → P r'
  between : ∀ r r', Around Lock.Same R h r r' → N r → N r'
  after : ∀ r r', Around Lock.Same R h r r' → K r → K r'
  broken : ∀ r r', Around Lock.Same R h r r' → F r → F r'
  present : ∀ r, P r → s ∈ r.sdkClients → K r
  absent : ∀ r, P r → s ∉ r.sdkClients → N r
  panics : S.accepts s = false → ∀ r, N r → F r
  newClient : S.accepts s = true → ∀ r, N r → G r (exec (.newClient s) r) ∧ N (exec (.newClient s) r)
  setUpdateCallback : ∀ r₀ r id, N r₀ → N r → Created s id r →
    G r (exec (.setUpdateCallback id ⟨s, r₀.secretMapping.clientSdkKey s⟩) r) ∧
      N (exec (.setUpdateCallback id ⟨s, r₀.secretMapping.clientSdkKey s⟩) r)
  insertClient : ∀ r id, N r → Wired s id r →
    G r (exec (.insertClient s id) r) ∧ K (exec (.insertClient s id) r)

variable {R G : Inner S → Inner S → Prop} [IsPreorder (Inner S) R]
  {J : List (Lock × Mode) → Inner S → Prop} {h : List (Lock × Mode)} {s : ServerSdkKey}
  {P N K F : Inner S → Prop}

theorem wpb_setupNotify (hR : ∀ r r', R r r' → r.Grows r') (hr : SyncRule R G J h s P N K F)
    (id : ClientId) {r : Inner S} (hn : N r) (hid : Created s id r) :
    (setupNotify s id).wpb Lock.Same R G J (fun _ r' => N r' ∧ Wired s id r')
      ((.sdkClients, .write) :: h) r := by
  have step : ∀ {g r r'}, Around Lock.Same R (g :: h) r r' → N r ∧ Created s id r → N r' ∧ Created s id r' :=
    fun ha hn => ⟨hr.between _ _ ha.tail hn.1, (hR _ _ ha.rel).created s id hn.2⟩
  refine Prog.wpb_bind (Prog.wpb_guarded fun r₁ h₁ => Prog.wpb_bind (Prog.wpb_reading fun r₂ h₂ => ?_))
  have n₂ := step h₂.tail (step h₁ ⟨hn, hid⟩)
  refine ⟨hr.refl r₂, fun r₃ h₃ => Prog.wpb_pure fun r₄ h₄ r₅ h₅ => ⟨hr.puts [_] r₅, fun r₆ h₆ => ?_⟩⟩
  have n₆ := step h₆ (step h₅.tail (step h₄.tail (step h₃.tail n₂)))
  refine Prog.wpb_perform fun r₇ h₇ => ?_
  have n₇ := step h₇ n₆
  obtain ⟨hg, n₈⟩ := hr.setUpdateCallback r₂ r₇ id n₂.1 n₇.1 n₇.2
  refine ⟨hg, fun r₉ h₉ => ⟨hr.between _ _ h₉.tail n₈, ?_⟩⟩
  exact (hR _ _ h₉.rel).wired s id (wired_setUpdateCallback n₇.2 _)

theorem wpb_sync (hR : ∀ r r', R r r' → r.Grows r') (hr : SyncRule R G J h s P N K F) {r : Inner S}
    (hp : P r) : (sync s).wpb Lock.Same R G J (fun a r' => a.elim (F r') fun _ => K r') h r := by
  refine Prog.wpb_bind (Prog.wpb_guarded fun r₁ h₁ => Prog.wpb_bind (Prog.wpb_reading fun r₂ h₂ => ?_))
  have p₂ : P r₂ := hr.before _ _ h₂.tail (hr.before _ _ h₁ hp)
  refine ⟨hr.refl r₂, fun r₃ h₃ => Prog.wpb_pure fun r₄ h₄ r₅ h₅ => ⟨hr.puts [] r₅, fun r₆ h₆ => ?_⟩⟩
  by_cases hs : s ∈ r₂.sdkClients
  · -- there is a client already
    rw [decide_eq_true hs]
    have k₆ := hr.after _ _ h₆ (hr.after _ _ h₅.tail (hr.after _ _ h₄.tail (hr.after _ _ h₃.tail
      (hr.present r₂ p₂ hs))))
    exact Prog.wpb_pure fun r₇ h₇ => hr.after _ _ h₇ k₆
  · rw [decide_eq_false hs]
    have n₆ := hr.between _ _ h₆ (hr.between _ _ h₅.tail (hr.between _ _ h₄.tail (hr.between _ _ h₃.tail
      (hr.absent r₂ p₂ hs))))
    refine Prog.wpb_guarded fun r₇ h₇ => ?_
    have n₇ := hr.between _ _ h₇ n₆
    cases ha : S.accepts s with
    | false =>
      rw [newClient, if_neg (by simp [ha])]
      refine Prog.wpb_bind (Prog.wpb_reading fun r₈ h₈ => ⟨hr.refl r₈, fun r₉ h₉ => ?_⟩)
      have f₉ := hr.panics ha r₉ (hr.between _ _ h₉.tail (hr.between _ _ h₈.tail n₇))
      refine Prog.wpb_pure fun r₁₀ h₁₀ r₁₁ h₁₁ => ⟨hr.puts [] r₁₁, fun r₁₂ h₁₂ => ?_⟩
      exact hr.broken _ _ h₁₂ (hr.broken _ _ h₁₁.tail (hr.broken _ _ h₁₀.tail f₉))
    | true =>
      rw [newClient, if_pos ha]
      refine Prog.wpb_bind (Prog.wpb_reading fun r₈ h₈ => ?_)
      obtain ⟨hg, n₉⟩ := hr.newClient ha r₈ (hr.between _ _ h₈.tail n₇)
      refine ⟨hg, fun r₉ h₉ => Prog.wpb_bind ?_⟩
      have c₉ : Created s r₈.instances.length r₉ := (hR _ _ h₉.rel).created s _ (created_newClient r₈ s)
      refine Prog.wpb_mono (wpb_setupNotify hR hr _ (hr.between _ _ h₉.tail n₉) c₉) ?_
      rintro _ r₁₀ ⟨n₁₀, w₁₀⟩
      refine Prog.wpb_bind (Prog.wpb_perform fun r₁₁ h₁₁ => ?_)
      obtain ⟨hg, k₁₂⟩ := hr.insertClient r₁₁ r₈.instances.length (hr.between _ _ h₁₁.tail n₁₀)
        ((hR _ _ h₁₁.rel).wired s _ w₁₀)
      refine ⟨hg, fun r₁₂ h₁₂ => Prog.wpb_pure fun r₁₃ h₁₃ r₁₄ h₁₄ => ⟨hr.puts [] r₁₄, fun r₁₅ h₁₅ => ?_⟩⟩
      exact hr.after _ _ h₁₅ (hr.after _ _ h₁₄.tail (hr.after _ _ h₁₃.tail (hr.after _ _ h₁₂.tail k₁₂)))

/-- What is to show for a pass that has read `keys` in the mapping and `clients` in the registry: `A done`
holds while it goes over `keys`, `B done` while it goes over `clients`, `F` once it has panicked. -/
structure PassRule (R G : Inner S → Inner S → Prop) (J : List (Lock × Mode) → Inner S → Prop)
    (keys clients : List ServerSdkKey) (A B : List ServerSdkKey → Inner S → Prop) (F : Inner S → Prop) :
    Prop where
  stable : ∀ d r r', Around Lock.Same R [(.secretMapping, .read)] r r' →
    (A d r → A d r') ∧ (B d r → B d r')
  broken : ∀ r r', Around Lock.Same R [(.secretMapping, .read)] r r' → F r → F r'
  add : ∀ d s, d ++ [s] <+: keys →
    ∃ N, SyncRule R G J [(.secretMapping, .read)] s (A d) N (A (d ++ [s])) F
  added : ∀ r, A keys r → B [] r
  keep : ∀ d s, s ∈ keys → ∀ r, B d r → B (d ++ [s]) r
  remove : ∀ d s, s ∉ keys → ∀ r, B d r →
    G r (exec (.removeClient s) r) ∧ B (d ++ [s]) (exec (.removeClient s) r)
  done : ∀ r, B clients r → J [] r
  panicked : ∀ r, F r → J [] r

theorem wpb_updateClients (hR : ∀ r r', R r r' → r.Grows r')
    (hG : ∀ r, G r r) (hJ : ∀ g h r, J (g :: h) r) (hzero : ∀ r, r.secretMapping.version = 0 → J [] r)
    (πr : IterOrder ServerSdkKey ClientSdkKey) (πc : IterOrder ServerSdkKey ClientId)
    (hP : Stable R P) (hrule : ∀ r, P r → 0 < r.secretMapping.version → ∃ A B F, A [] r ∧
      PassRule R G J (r.secretMapping.serverSdkKeys πr) (πc.keys r.sdkClients) A B F) {r : Inner S}
    (hp : P r) :
    (updateClients πr πc).wpb Lock.Same R G J (fun _ _ => True) [] r := by
  have same : ∀ {h r r'}, (.secretMapping, .read) ∈ h → Around Lock.Same R h r r' →
      r.secretMapping = r'.secretMapping := fun hm ha => ha.held .secretMapping .read hm
  refine Prog.wpb_guarded fun r₁ h₁ => Prog.wpb_bind (Prog.wpb_reading fun r₂ h₂ => ⟨hG r₂, fun r₃ h₃ => ?_⟩)
  refine Prog.wpb_bind (Prog.wpb_guarded fun r₄ h₄ => Prog.wpb_reading fun r₅ h₅ => ⟨hG r₅, ?_⟩)
  intro r₆ h₆ r₇ h₇
  refine ⟨hJ _ _ _, fun r₈ h₈ => ?_⟩
  -- the mapping that was read is still in place when the clients are read
  have m₅ : r₂.secretMapping = r₅.secretMapping :=
    (same (by simp) h₃).trans ((same (by simp) h₄).trans (same (by simp) h₅))
  split
  case isTrue hv =>
    rw [m₅] at hv ⊢
    have p₃ : P r₃ := hP _ _ h₃.rel (hP _ _ h₂.rel (hP _ _ h₁.rel hp))
    obtain ⟨A, B, F, ha, hp⟩ := hrule r₅ (hP _ _ h₅.rel (hP _ _ h₄.rel p₃)) hv
    have a₆ : A [] r₆ := (hp.stable [] _ _ h₆.tail).1 ha
    have a₈ : A [] r₈ := (hp.stable [] _ _ h₈).1 ((hp.stable [] _ _ h₇.tail).1 a₆)
    refine Prog.wpb_bind (Prog.wpb_mono
      (Prog.wpb_tryForM (fun d r r' h => (hp.stable d r r' h).1) hp.broken ?_ a₈) ?_)
    · intro d s hd r hr
      obtain ⟨N, hsync⟩ := hp.add d s hd
      exact wpb_sync hR hsync hr
    · intro synced r₉ h₉
      cases synced with
      | none =>
        refine Prog.wpb_pure fun r₁₀ h₁₀ r₁₁ h₁₁ => ⟨hp.panicked r₁₁ ?_, fun _ _ => trivial⟩
        exact hp.broken _ _ h₁₁ (hp.broken _ _ h₁₀ h₉)
      | some =>
        refine Prog.wpb_bind (Prog.wpb_mono
          (Prog.wpb_forM (fun d r r' h => (hp.stable d r r' h).2) ?_ (hp.added r₉ h₉)) ?_)
        · intro d s _ r hr
          split
          case isTrue hs =>
            refine Prog.wpb_guarded fun r₁₀ h₁₀ => Prog.wpb_perform fun r₁₁ h₁₁ => ?_
            have b₁₁ := (hp.stable d _ _ h₁₁.tail).2 ((hp.stable d _ _ h₁₀).2 hr)
            obtain ⟨hg, b₁₂⟩ := hp.remove d s hs r₁₁ b₁₁
            refine ⟨hg, fun r₁₂ h₁₂ r₁₃ h₁₃ => ⟨hJ _ _ _, fun r₁₄ h₁₄ => ?_⟩⟩
            exact (hp.stable _ _ _ h₁₄).2 ((hp.stable _ _ _ h₁₃.tail).2 ((hp.stable _ _ _ h₁₂.tail).2 b₁₂))
          case isFalse hs =>
            have hs : s ∈ r₅.secretMapping.serverSdkKeys πr := not_not.mp hs
            exact Prog.wpb_pure fun r' h' => hp.keep d s hs r' ((hp.stable d _ _ h').2 hr)
        · intro _ r₁₀ b₁₀
          refine Prog.wpb_pure fun r₁₁ h₁₁ r₁₂ h₁₂ => ⟨hp.done r₁₂ ?_, fun _ _ => trivial⟩
          exact (hp.stable _ _ _ h₁₂).2 ((hp.stable _ _ _ h₁₁).2 b₁₀)
  case isFalse hv =>
    refine Prog.wpb_pure fun r₉ h₉ r₁₀ h₁₀ => ⟨hzero r₁₀ ?_, fun _ _ => trivial⟩
    have m₁₀ : r₅.secretMapping = r₁₀.secretMapping := (same (by simp) h₆).trans ((same (by simp) h₇).trans
      ((same (by simp) h₈).trans ((same (by simp) h₉).trans (same (by simp) h₁₀))))
    rw [← m₁₀, ← m₅]
    omega

end Inner
end FeatureProbeServer
