import FeatureProbeServer.Lib.HashMap

/-!
# The secret mapping (`secrets.rs`)

Client keys to server keys, with the reverse index beside it. `insert` keeps the index up entry by
entry, `updateMapping` rebuilds it in the iteration order of the new mapping.
-/

namespace FeatureProbeServer

abbrev ClientSdkKey := String
abbrev ServerSdkKey := String

/-- `version` is a `u128`; it is only compared and copied. -/
structure SecretMapping where
  version : Nat
  mapping : HashMap ClientSdkKey ServerSdkKey
  reverse : HashMap ServerSdkKey ClientSdkKey
  deriving DecidableEq

namespace SecretMapping

instance : Inhabited SecretMapping := ⟨⟨0, ∅, ∅⟩⟩

/-- `for (k, v) in &self.mapping { reverse.insert(v.clone(), k.clone()) }` -/
def buildReverse (π : IterOrder ClientSdkKey ServerSdkKey) (mapping : HashMap ClientSdkKey ServerSdkKey) :
    HashMap ServerSdkKey ClientSdkKey :=
  HashMap.extend ∅ ((π.entries mapping).map fun p => (p.2, p.1))

def updateMapping (self : SecretMapping) (π : IterOrder ClientSdkKey ServerSdkKey) (new : SecretMapping) :
    SecretMapping :=
  if new.version > self.version then
    { version := new.version, mapping := new.mapping, reverse := buildReverse π new.mapping }
  else self

def clientSdkKey (self : SecretMapping) (serverSdkKey : ServerSdkKey) : Option ClientSdkKey :=
  self.reverse.lookup serverSdkKey

def serverSdkKey (self : SecretMapping) (clientSdkKey : ClientSdkKey) : Option ServerSdkKey :=
  self.mapping.lookup clientSdkKey

def serverSdkKeys (self : SecretMapping) (π : IterOrder ServerSdkKey ClientSdkKey) : List ServerSdkKey :=
  π.keys self.reverse

def mappingClone (self : SecretMapping) : HashMap ClientSdkKey ServerSdkKey := self.mapping

def insert (self : SecretMapping) (clientSdkKey : ClientSdkKey) (serverSdkKey : ServerSdkKey)
    (version : Nat) : SecretMapping :=
  { version := version
    mapping := self.mapping.insert clientSdkKey serverSdkKey
    reverse := self.reverse.insert serverSdkKey clientSdkKey }

def containsServerSdkKey (self : SecretMapping) (serverSdkKey : ServerSdkKey) : Bool :=
  decide (serverSdkKey ∈ self.reverse)

@[simp] theorem default_version : (default : SecretMapping).version = 0 := rfl
@[simp] theorem default_mapping : (default : SecretMapping).mapping = ∅ := rfl
@[simp] theorem default_reverse : (default : SecretMapping).reverse = ∅ := rfl

@[simp] theorem mem_serverSdkKeys (m : SecretMapping) (π : IterOrder ServerSdkKey ClientSdkKey)
    (s : ServerSdkKey) : s ∈ m.serverSdkKeys π ↔ s ∈ m.reverse := π.mem_keys _ _

@[simp] theorem containsServerSdkKey_iff (m : SecretMapping) (s : ServerSdkKey) :
    m.containsServerSdkKey s = true ↔ s ∈ m.reverse := decide_eq_true_iff

theorem lookup_buildReverse {π : IterOrder ClientSdkKey ServerSdkKey}
    {mapping : HashMap ClientSdkKey ServerSdkKey} {s : ServerSdkKey} {c : ClientSdkKey}
    (h : (buildReverse π mapping).lookup s = some c) : mapping.lookup c = some s := by
  rcases HashMap.lookup_extend h with h | h
  · simp at h
  · simpa using h

@[simp] theorem mem_buildReverse {π : IterOrder ClientSdkKey ServerSdkKey}
    {mapping : HashMap ClientSdkKey ServerSdkKey} {s : ServerSdkKey} :
    s ∈ buildReverse π mapping ↔ ∃ c, mapping.lookup c = some s := by
  rw [buildReverse, HashMap.mem_extend]
  simp [Finmap.notMem_empty]

/-! ### Taking a payload -/

section
variable {m new : SecretMapping}

theorem updateMapping_of_newer (π : IterOrder ClientSdkKey ServerSdkKey) (h : m.version < new.version) :
    m.updateMapping π new = ⟨new.version, new.mapping, buildReverse π new.mapping⟩ := if_pos h

theorem updateMapping_of_le (π : IterOrder ClientSdkKey ServerSdkKey) (h : new.version ≤ m.version) :
    m.updateMapping π new = m := if_neg (Nat.not_lt.mpr h)

/-- A payload is taken whole or ignored. -/
theorem updateMapping_cases (m : SecretMapping) (π : IterOrder ClientSdkKey ServerSdkKey)
    (new : SecretMapping) :
    (m.version < new.version ∧
      m.updateMapping π new = ⟨new.version, new.mapping, buildReverse π new.mapping⟩) ∨
    (new.version ≤ m.version ∧ m.updateMapping π new = m) := by
  rcases Nat.lt_or_ge m.version new.version with hv | hv
  · exact .inl ⟨hv, updateMapping_of_newer π hv⟩
  · exact .inr ⟨hv, updateMapping_of_le π hv⟩

theorem version_updateMapping (m : SecretMapping) (π : IterOrder ClientSdkKey ServerSdkKey)
    (new : SecretMapping) : (m.updateMapping π new).version = max m.version new.version := by
  rcases m.updateMapping_cases π new with ⟨hv, he⟩ | ⟨hv, he⟩ <;> rw [he]
  · show new.version = _; omega
  · omega

end

/-! ### The reverse index -/

/-- `reverse` is exactly an index of `mapping`. -/
structure Indexed (m : SecretMapping) : Prop where
  mem_reverse : ∀ s, s ∈ m.reverse ↔ ∃ c, m.mapping.lookup c = some s
  lookup : ∀ s c, m.reverse.lookup s = some c → m.mapping.lookup c = some s

/-- Every mapped server key is in `reverse`; `reverse` may hold others. -/
def Covered (m : SecretMapping) : Prop := ∀ c s, m.mapping.lookup c = some s → s ∈ m.reverse

theorem Indexed.covered {m : SecretMapping} (h : m.Indexed) : m.Covered :=
  fun c s hc => (h.mem_reverse s).mpr ⟨c, hc⟩

theorem indexed_default : (default : SecretMapping).Indexed := ⟨by simp [Finmap.notMem_empty], by simp⟩

theorem Indexed.updateMapping {m : SecretMapping} (h : m.Indexed) (π : IterOrder ClientSdkKey ServerSdkKey)
    (new : SecretMapping) : (m.updateMapping π new).Indexed := by
  rcases m.updateMapping_cases π new with ⟨-, he⟩ | ⟨-, he⟩ <;> rw [he]
  · exact ⟨fun s => mem_buildReverse, fun s c => lookup_buildReverse⟩
  · exact h

theorem Covered.updateMapping {m : SecretMapping} (h : m.Covered) (π : IterOrder ClientSdkKey ServerSdkKey)
    (new : SecretMapping) : (m.updateMapping π new).Covered := by
  rcases m.updateMapping_cases π new with ⟨-, he⟩ | ⟨-, he⟩ <;> rw [he]
  · exact fun c s hc => mem_buildReverse.mpr ⟨c, hc⟩
  · exact h

theorem Covered.insert {m : SecretMapping} (h : m.Covered) (c : ClientSdkKey) (s : ServerSdkKey) (v : Nat) :
    (m.insert c s v).Covered := by
  intro c' s' hc
  change (m.mapping.insert c s).lookup c' = some s' at hc
  show s' ∈ m.reverse.insert s c
  rw [Finmap.mem_insert]
  rw [HashMap.lookup_insert_eq] at hc
  split at hc
  · cases hc; exact .inl rfl
  · exact .inr (h c' s' hc)

end SecretMapping
end FeatureProbeServer
