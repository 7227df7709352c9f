import FeatureProbeServer.Secrets

/-!
# Runs of the secret mapping

The reverse index over sequences of `insert` and `updateMapping`. A rebuild always leaves an exact
index. `insert` does so unless it takes its client key away from the server key whose reverse entry
names it: that entry is left behind.
-/

namespace FeatureProbeServer
namespace SecretMapping

inductive Mutation where
  | insert (clientSdkKey : ClientSdkKey) (serverSdkKey : ServerSdkKey) (version : Nat)
  | updateMapping (π : IterOrder ClientSdkKey ServerSdkKey) (new : SecretMapping)

def apply (m : SecretMapping) : Mutation → SecretMapping
  | .insert c s v => m.insert c s v
  | .updateMapping π new => m.updateMapping π new

/-- The mapping after `l`, from `SecretMapping::default()`. -/
def run (l : List Mutation) : SecretMapping := l.foldl apply default

@[simp] theorem run_snoc (l : List Mutation) (x : Mutation) : run (l ++ [x]) = (run l).apply x := by
  simp [run]

/-- Every server key the reads of the index speak of is mapped. -/
structure SpeaksOfMapped (m : SecretMapping) : Prop where
  contains : ∀ s, m.containsServerSdkKey s = true → ∃ c, m.serverSdkKey c = some s
  keys : ∀ π s, s ∈ m.serverSdkKeys π → ∃ c, m.serverSdkKey c = some s
  client : ∀ s c, m.clientSdkKey s = some c → m.serverSdkKey c = some s

theorem Indexed.speaksOfMapped {m : SecretMapping} (h : m.Indexed) : m.SpeaksOfMapped where
  contains s hs := (h.mem_reverse s).mp ((containsServerSdkKey_iff m s).mp hs)
  keys π s hs := (h.mem_reverse s).mp ((mem_serverSdkKeys m π s).mp hs)
  client := h.lookup

/-- No reverse entry of another server key names `c`. -/
def Unclaimed (m : SecretMapping) (c : ClientSdkKey) (s : ServerSdkKey) : Prop :=
  ∀ t, m.mapping.lookup c = some t → t ≠ s → m.reverse.lookup t ≠ some c

theorem Indexed.insert {m : SecretMapping} (h : m.Indexed) {c : ClientSdkKey} {s : ServerSdkKey}
    (hc : m.Unclaimed c s) (v : Nat) : (m.insert c s v).Indexed := by
  have reverse : ∀ t d, (m.reverse.insert s c).lookup t = some d →
      (m.mapping.insert c s).lookup d = some t := by
    intro t d ht
    rw [HashMap.lookup_insert_eq] at ht ⊢
    split at ht
    · cases ht; rw [if_pos rfl, ‹t = s›]
    · have hd := h.lookup t d ht
      rw [if_neg, hd]
      rintro rfl
      exact hc t hd ‹_› ht
  refine ⟨fun t => ⟨fun ht => ?_, fun ⟨d, hd⟩ => ?_⟩, reverse⟩
  · obtain ⟨d, hd⟩ := Finmap.mem_iff.mp ht
    exact ⟨d, reverse t d hd⟩
  · exact h.covered.insert c s v d t hd

/-- The converse: after the insertion the reverse entry of `t` would name a client key of `s`. -/
theorem Indexed.unclaimed {m : SecretMapping} {c : ClientSdkKey} {s : ServerSdkKey} {v : Nat}
    (h : (m.insert c s v).Indexed) : m.Unclaimed c s := by
  intro t _ hts hr
  have ht : (m.mapping.insert c s).lookup c = some t :=
    h.lookup t c ((HashMap.lookup_insert_eq _ _ _ _).trans ((if_neg hts).trans hr))
  rw [Finmap.lookup_insert] at ht
  exact hts (Option.some.inj ht).symm

/-- The index is exact in every state of a run if and only if every insertion of the run was of an
unclaimed pair. -/
theorem run_indexed_iff (l : List Mutation) :
    (∀ p, p <+: l → (run p).Indexed ∧ (run p).SpeaksOfMapped) ↔
      ∀ p c s v, p ++ [.insert c s v] <+: l → (run p).Unclaimed c s := by
  constructor
  · intro h p c s v hp
    have hi := (h _ hp).1
    rw [run_snoc] at hi
    exact hi.unclaimed
  · intro h p hp
    suffices hi : (run p).Indexed from ⟨hi, hi.speaksOfMapped⟩
    induction p using List.reverseRecOn with
    | nil => exact indexed_default
    | append_singleton p x ih =>
      have hi := ih ((List.prefix_append p [x]).trans hp)
      rw [run_snoc]
      cases x with
      | insert c s v => exact hi.insert (h p c s v hp) v
      | updateMapping π new => exact hi.updateMapping π new

/-- Moving the client key `c` from `s1` to `s2` leaves `s1` in the index. -/
theorem run_insert_stale :
    ¬ ((run [.insert "c" "s1" 1, .insert "c" "s2" 1]).Indexed ∧
      (run [.insert "c" "s1" 1, .insert "c" "s2" 1]).SpeaksOfMapped) := by
  rintro ⟨-, h⟩
  have hc := h.client "s1" "c" (by decide)
  revert hc
  decide

end SecretMapping
end FeatureProbeServer
