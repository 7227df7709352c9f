import FeatureProbeServer.Lib.Progress
import FeatureProbeServer.RepoLocks
import Mathlib.Data.String.Basic

/-!
# Deadlocks of the two locks

`setup_notify` asks for the mapping's read guard under the registry's write guard, while passes and
requests hold the mapping and ask for the registry; a pass even asks for the mapping a second time.
Readers alone never block each other. With a writer of the mapping queued they do: `Wedged` is the
cycle, and every deadlock contains it.
-/

namespace FeatureProbeServer
open Guarded

namespace Server
variable {S : Sdk}

/-- `i` sets up a client and waits for the mapping behind the queued writer `j`, which waits for the
reader `k`: `i` itself, or a call that waits for the registry `i` holds. -/
def Wedged (c : Server S) : Prop :=
  ∃ (i j k : Nat) (h w x : Thread Lock (Op S) (Inner S) (Reply S)),
    c.threads[i]? = some h ∧ c.threads[j]? = some w ∧ c.threads[k]? = some x ∧
    (.sdkClients, .write) ∈ h.held ∧ h.WaitsFor .secretMapping .read ∧ w.WaitsFor .secretMapping .write ∧
    (.secretMapping, .read) ∈ x.held ∧ (k = i ∨ ∃ m, x.WaitsFor .sdkClients m)

/-! ### A wedge stays -/

theorem not_step_of_waits {c c' : Server S} {i : Nat} {e : Event Lock (Op S)}
    {t : Thread Lock (Op S) (Inner S) (Reply S)} {l : Lock} {m : Mode} (ht : c.threads[i]? = some t)
    (hw : t.WaitsFor l m) (hf : ¬ c.Free l m) : ¬ Config.Step c i e c' := by
  obtain ⟨hw, hr⟩ := hw
  intro hs
  cases hs with
  | request ht' => cases ht.symm.trans ht'; cases hw
  | acquire ht' hf' => cases ht.symm.trans ht'; cases hr; exact hf hf'
  | release ht' => cases ht.symm.trans ht'; cases hr
  | op ht' => cases ht.symm.trans ht'; cases hr

theorem Wedged.step {c c' : Server S} {i : Nat} {e : Event Lock (Op S)} (hc : Wedged c)
    (hs : Config.Step c i e c') : Wedged c' := by
  obtain ⟨a, b, k, h, w, x, ha, hb, hk, hK, hM, wM, xM, hx⟩ := hc
  -- none of the three calls can move
  have hai : a ≠ i := by
    rintro rfl
    exact not_step_of_waits ha hM (fun hf => (hf w (List.mem_of_getElem? hb)).2 wM) hs
  have hbi : b ≠ i := by
    rintro rfl
    exact not_step_of_waits hb wM (fun hf => hf x (List.mem_of_getElem? hk) _ xM rfl) hs
  have hki : k ≠ i := by
    rcases hx with rfl | ⟨m, hx⟩
    · exact hai
    · rintro rfl
      refine not_step_of_waits hk hx (fun hf => ?_) hs
      cases m with
      | read => exact (hf h (List.mem_of_getElem? ha)).1 hK
      | write => exact hf h (List.mem_of_getElem? ha) _ hK rfl
  exact ⟨a, b, k, h, w, x, (hs.other hai).trans ha, (hs.other hbi).trans hb, (hs.other hki).trans hk,
    hK, hM, wM, xM, hx⟩

/-- From a wedge every run ends in a deadlock. -/
theorem Wedged.deadlocks {c : Server S} (hc : Wedged c) : ∃ c', Config.Reach c c' ∧ c'.Deadlocked := by
  obtain ⟨c', hr, hst⟩ := c.exists_stuck
  obtain ⟨i, _, _, h, _, _, hi, _, _, _, hM, _⟩ := hr.inv hc fun _ _ _ _ ih hs => ih.step hs
  refine ⟨c', hr, Config.deadlocked_of_stuck hst (List.mem_of_getElem? hi) ?_⟩
  obtain ⟨p, held, wait⟩ := h
  cases p with
  | acquire l m p => rfl
  | _ => cases hM.2

/-! ### A deadlock contains a wedge -/

/-- A call that has returned holds nothing. -/
theorem held_of_done {ph : Nat → Phase} {c : Server S} (hc : c.Follow (repoDiscipline S) (Back []) ph)
    {t : Thread Lock (Op S) (Inner S) (Reply S)} (ht : t ∈ c.threads) (hd : t.done = true) : t.held = [] := by
  obtain ⟨i, hi⟩ := List.mem_iff_getElem?.mp ht
  have hf := hc i t hi
  obtain ⟨p, held, wait⟩ := t
  cases p with
  | pure a => exact hf.2.2
  | _ => cases hd

/-- A waiting call takes its guard as the discipline permits. -/
theorem mayAcquire_of_waits {ph : Nat → Phase} {c : Server S}
    (hc : c.Follow (repoDiscipline S) (Back []) ph) {t : Thread Lock (Op S) (Inner S) (Reply S)}
    (ht : t ∈ c.threads) {l : Lock} {m : Mode} (hw : t.WaitsFor l m) : MayAcquire t.held l m := by
  obtain ⟨i, hi⟩ := List.mem_iff_getElem?.mp ht
  have hf := hc i t hi
  obtain ⟨p, held, wait⟩ := t
  cases p with
  | acquire l' m' p => cases hw.2; exact hf.2.1
  | _ => cases hw.2

/-- The three ways a call may be in a deadlock: empty-handed, a reader of the mapping waiting for the
registry, or setting up a client and waiting for the mapping. -/
theorem stuck_cases {ph : Nat → Phase} {c : Server S} (hc : c.Follow (repoDiscipline S) (Back []) ph)
    (hd : c.Deadlocked) {t : Thread Lock (Op S) (Inner S) (Reply S)} (ht : t ∈ c.threads) :
    t.held = [] ∨ (t.held = [(.secretMapping, .read)] ∧ ∃ m, t.WaitsFor .sdkClients m) ∨
      ((t.held = [(.sdkClients, .write)] ∨ t.held = [(.sdkClients, .write), (.secretMapping, .read)]) ∧
        t.WaitsFor .secretMapping .read) := by
  cases hdone : t.done with
  | true => exact .inl (held_of_done hc ht hdone)
  | false =>
    obtain ⟨hw, ⟨l, m⟩, hr, -⟩ := hd.2 t ht hdone
    rcases mayAcquire_of_waits hc ht ⟨hw, hr⟩ with hh | ⟨hh, rfl⟩ | ⟨hh, rfl, rfl⟩
    · exact .inl hh
    · exact .inr (.inl ⟨hh, m, hw, hr⟩)
    · exact .inr (.inr ⟨hh, hw, hr⟩)

theorem not_write_held {ph : Nat → Phase} {c : Server S} (hc : c.Follow (repoDiscipline S) (Back []) ph)
    (hd : c.Deadlocked) {t : Thread Lock (Op S) (Inner S) (Reply S)} (ht : t ∈ c.threads) :
    (.secretMapping, .write) ∉ t.held := by
  rcases stuck_cases hc hd ht with h | ⟨h, -⟩ | ⟨h | h, -⟩ <;> simp [h]

/-- In a deadlock somebody is setting up a client. -/
theorem exists_creating {ph : Nat → Phase} {c : Server S} (hc : c.Follow (repoDiscipline S) (Back []) ph)
    (hd : c.Deadlocked) : ∃ h ∈ c.threads, (.sdkClients, .write) ∈ h.held := by
  by_contra hno
  push Not at hno
  have held : ∀ t ∈ c.threads, t.held = [] ∨
      (t.held = [(.secretMapping, .read)] ∧ ∃ m, t.WaitsFor .sdkClients m) := by
    intro t ht
    rcases stuck_cases hc hd ht with h | h | ⟨h | h, -⟩
    · exact .inl h
    · exact .inr h
    · exact absurd (by simp [h]) (hno t ht)
    · exact absurd (by simp [h]) (hno t ht)
  -- so nobody holds the registry, nobody waits for it, and nobody holds anything
  have unheld : ∀ t ∈ c.threads, ∀ g ∈ t.held, g.1 ≠ .sdkClients := by
    intro t ht g hg
    rcases held t ht with h | ⟨h, -⟩ <;> rw [h] at hg
    · cases hg
    · rw [List.mem_singleton.mp hg]; decide
  have empty : ∀ t ∈ c.threads, t.held = [] := fun t ht =>
    (held t ht).resolve_right fun ⟨_, m, hw⟩ => hd.not_waits unheld ht m hw
  obtain ⟨t, ht, hdone⟩ := hd.1
  obtain ⟨hw, ⟨l, m⟩, hr, -⟩ := hd.2 t ht hdone
  refine hd.not_waits (fun t' ht' g hg => ?_) ht m ⟨hw, hr⟩
  rw [empty t' ht'] at hg; cases hg

theorem wedged_of_deadlocked {r : Inner S} {calls : List (Call S)} {c : Server S}
    (h : Config.Reach (start r calls) c) (hd : c.Deadlocked) : Wedged c := by
  obtain ⟨ph, hc⟩ := Config.Follow.reach (follow_start r calls) h
  obtain ⟨t, ht, hK⟩ := exists_creating hc hd
  obtain ⟨i, hi⟩ := List.mem_iff_getElem?.mp ht
  have hM : t.WaitsFor .secretMapping .read := by
    rcases stuck_cases hc hd ht with he | ⟨he, -⟩ | ⟨-, hM⟩
    · rw [he] at hK; cases hK
    · rw [he] at hK; cases List.mem_singleton.mp hK
    · exact hM
  -- the guard is withheld by a queued writer, as nobody holds the mapping for writing
  obtain ⟨w, hw, wM⟩ : ∃ w ∈ c.threads, w.WaitsFor .secretMapping .write := by
    by_contra hno
    push Not at hno
    exact hd.not_free ht hM fun t' ht' => ⟨not_write_held hc hd ht', hno t' ht'⟩
  obtain ⟨j, hj⟩ := List.mem_iff_getElem?.mp hw
  -- and the writer waits for a reader
  obtain ⟨x, hx, g, hg, hgM⟩ : ∃ x ∈ c.threads, ∃ g ∈ x.held, g.1 = .secretMapping := by
    by_contra hno
    push Not at hno
    exact hd.not_free hw wM hno
  obtain ⟨k, hk⟩ := List.mem_iff_getElem?.mp hx
  refine ⟨i, j, k, t, w, x, hi, hj, hk, hK, hM, wM, ?_⟩
  rcases stuck_cases hc hd hx with he | ⟨he, hw⟩ | ⟨he | he, -⟩ <;> rw [he] at hg ⊢
  · cases hg
  · exact ⟨List.mem_singleton_self _, .inr hw⟩
  · rw [List.mem_singleton.mp hg] at hgM; cases hgM
  · refine ⟨by simp, .inl ?_⟩
    by_contra hki
    exact h.exclusive i k t x .sdkClients .write (Ne.symm hki) hi hk hK (by simp [he])

/-- Exactly when no wedge is reachable, no deadlock is. -/
theorem deadlockFree_iff (r : Inner S) (calls : List (Call S)) :
    (∀ c, Config.Reach (start r calls) c → ¬ c.Deadlocked) ↔
      ∀ c, Config.Reach (start r calls) c → ¬ Wedged c := by
  constructor
  · intro h c hc hw
    obtain ⟨c', hc', hd⟩ := hw.deadlocks
    exact h c' (hc.trans hc') hd
  · exact fun h c hc hd => h c hc (wedged_of_deadlocked hc hd)

/-- A pass sets up the first client while a second payload waits to be written. -/
theorem not_deadlockFree_pass :
    ¬ ∀ c : Server Sdk.plain, Config.Reach (start (SdkRepository.new default)
        [.updateMapping (.sorted _ _) ⟨1, .singleton "c" "s", ∅⟩, .updateClients (.sorted _ _) (.sorted _ _),
          .updateMapping (.sorted _ _) ⟨2, .singleton "c" "s", ∅⟩]) c → ¬ c.Deadlocked := by
  obtain ⟨c, hc, hd⟩ : ∃ c, (start (SdkRepository.new default)
      [.updateMapping (.sorted _ _) ⟨1, .singleton "c" "s", ∅⟩, .updateClients (.sorted _ _) (.sorted _ _),
        .updateMapping (.sorted _ _) ⟨2, .singleton "c" "s", ∅⟩] : Server Sdk.plain).schedule
      (.replicate 8 0 ++ .replicate 14 1 ++ .replicate 5 2 ++ [1]) = some c ∧ c.Deadlocked := by decide
  exact fun h => h c (.of_schedule hc) hd

end Server
end FeatureProbeServer
