import Mathlib.Data.Finmap
import Mathlib.Data.List.Sort
import Mathlib.Data.Finset.Basic

/-!
# Hash maps and their iteration orders

A hash map is its finite set of entries, Mathlib's `Finmap` with extensional equality. The order a
loop over it sees is not part of the value: `IterOrder` is one way of listing the keys of every map,
and an operation that iterates takes one as an argument, so that a statement about all iteration
orders quantifies over it. `extend` is the loop that inserts a list of pairs one after the other;
a later pair overwrites an earlier one with the same key.
-/

/-- A finite map from `α` to `β`. -/
abbrev HashMap (α β : Type) := Finmap (fun _ : α => β)

namespace HashMap

variable {α β : Type} [DecidableEq α]

/-- Inserting the pairs of `l` in their order. -/
def extend (m : HashMap α β) (l : List (α × β)) : HashMap α β :=
  l.foldl (fun m p => m.insert p.1 p.2) m

@[simp] theorem extend_nil (m : HashMap α β) : m.extend [] = m := rfl

@[simp] theorem extend_cons (m : HashMap α β) (p : α × β) (l : List (α × β)) :
    m.extend (p :: l) = extend (m.insert p.1 p.2) l := rfl

theorem lookup_insert_eq (m : HashMap α β) (a k : α) (b : β) :
    (m.insert a b).lookup k = if k = a then some b else m.lookup k := by
  split
  · subst k; exact Finmap.lookup_insert m
  · exact Finmap.lookup_insert_of_ne m ‹_›

theorem lookup_erase_eq (m : HashMap α β) (a k : α) :
    (m.erase a).lookup k = if k = a then none else m.lookup k := by
  split
  · subst k; exact Finmap.lookup_erase _ m
  · exact Finmap.lookup_erase_ne ‹_›

theorem mem_extend {m : HashMap α β} {l : List (α × β)} {k : α} :
    k ∈ m.extend l ↔ k ∈ m ∨ ∃ b, (k, b) ∈ l := by
  induction l generalizing m with
  | nil => simp
  | cons p l ih =>
    rw [extend_cons, ih, Finmap.mem_insert]
    constructor
    · rintro ((rfl | h) | ⟨b, h⟩)
      · exact .inr ⟨p.2, by simp⟩
      · exact .inl h
      · exact .inr ⟨b, by simp [h]⟩
    · rintro (h | ⟨b, h⟩)
      · exact .inl (.inr h)
      · rcases List.mem_cons.mp h with rfl | h
        · exact .inl (.inl rfl)
        · exact .inr ⟨b, h⟩

/-- What `extend` holds at a key was in the map before or is one of the pairs. -/
theorem lookup_extend {m : HashMap α β} {l : List (α × β)} {k : α} {b : β}
    (h : (m.extend l).lookup k = some b) : m.lookup k = some b ∨ (k, b) ∈ l := by
  induction l generalizing m with
  | nil => exact .inl h
  | cons p l ih =>
    rcases ih h with h | h
    · rw [lookup_insert_eq] at h
      split at h
      · cases h; subst k; exact .inr (by simp)
      · exact .inl h
    · exact .inr (by simp [h])

theorem lookup_extend_concat (m : HashMap α β) (l : List (α × β)) (k : α) (b : β) :
    (m.extend (l ++ [(k, b)])).lookup k = some b := by
  have hlast : m.extend (l ++ [(k, b)]) = (m.extend l).insert k b := List.foldl_concat ..
  rw [hlast]
  exact Finmap.lookup_insert _

/-- If `l` has at most one value for each key, `extend` holds exactly its pairs. -/
theorem lookup_extend_iff {l : List (α × β)} (hl : ∀ k b b', (k, b) ∈ l → (k, b') ∈ l → b = b') {k : α}
    {b : β} : (extend ∅ l).lookup k = some b ↔ (k, b) ∈ l := by
  constructor
  · intro h
    exact (lookup_extend h).resolve_left (by simp)
  · intro h
    obtain ⟨b', hb'⟩ := Finmap.mem_iff.mp (mem_extend.mpr (.inr ⟨b, h⟩) : k ∈ extend ∅ l)
    rw [hb', hl k b b' h ((lookup_extend hb').resolve_left (by simp))]

end HashMap

/-- One order in which a loop may visit the keys of each map. -/
structure IterOrder (α β : Type) where
  keys : HashMap α β → List α
  nodup : ∀ m, (keys m).Nodup
  mem_keys : ∀ m k, k ∈ keys m ↔ k ∈ m

namespace IterOrder

variable {α β : Type} [DecidableEq α]

/-- The entries of `m` in this order. -/
def entries (π : IterOrder α β) (m : HashMap α β) : List (α × β) :=
  (π.keys m).filterMap fun k => (m.lookup k).map fun b => (k, b)

@[simp] theorem mem_entries (π : IterOrder α β) {m : HashMap α β} {k : α} {b : β} :
    (k, b) ∈ π.entries m ↔ m.lookup k = some b := by
  simp only [entries, List.mem_filterMap, π.mem_keys, Option.map_eq_some_iff, Prod.mk.injEq]
  constructor
  · rintro ⟨_, _, _, h, rfl, rfl⟩
    exact h
  · exact fun h => ⟨k, Finmap.mem_of_lookup_eq_some h, b, h, rfl, rfl⟩

theorem map_fst_entries (π : IterOrder α β) (m : HashMap α β) : (π.entries m).map Prod.fst = π.keys m := by
  have all : ∀ l : List α, (∀ k ∈ l, k ∈ m) →
      (l.filterMap fun k => (m.lookup k).map fun b => (k, b)).map Prod.fst = l := by
    intro l hl
    induction l with
    | nil => rfl
    | cons k l ih =>
      obtain ⟨b, hb⟩ := Finmap.mem_iff.mp (hl k (by simp))
      have hl' : ∀ k' ∈ l, k' ∈ m := fun k' hk' => hl k' (by simp [hk'])
      simp [hb, ih hl']
  exact all _ fun k hk => (π.mem_keys m k).mp hk

/-- No key is listed twice. -/
theorem nodup_entries (π : IterOrder α β) (m : HashMap α β) : ((π.entries m).map Prod.fst).Nodup := by
  rw [map_fst_entries]
  exact π.nodup m

/-- This order with `k` moved to the end. -/
def last (π : IterOrder α β) (k : α) : IterOrder α β where
  keys m := if k ∈ m then (π.keys m).erase k ++ [k] else π.keys m
  nodup m := by
    split
    · refine List.nodup_append.mpr ⟨(π.nodup m).erase k, List.nodup_singleton k, ?_⟩
      rintro a ha b hb rfl
      rw [List.mem_singleton.mp hb] at ha
      exact (π.nodup m).not_mem_erase ha
    · exact π.nodup m
  mem_keys m a := by
    split
    · rw [List.mem_append, (π.nodup m).mem_erase_iff, List.mem_singleton, π.mem_keys]
      by_cases ha : a = k
      · subst a; tauto
      · tauto
    · exact π.mem_keys m a

theorem entries_last (π : IterOrder α β) {m : HashMap α β} {k : α} {b : β} (h : m.lookup k = some b) :
    ∃ l, (π.last k).entries m = l ++ [(k, b)] := by
  have hk : k ∈ m := Finmap.mem_of_lookup_eq_some h
  have hkeys : (π.last k).keys m = (π.keys m).erase k ++ [k] := if_pos hk
  have hend : [k].filterMap (fun k => (m.lookup k).map fun b => (k, b)) = [(k, b)] := by simp [h]
  rw [entries, hkeys, List.filterMap_append, hend]
  exact ⟨_, rfl⟩

/-- The keys in increasing order. -/
def sorted (α β : Type) [LinearOrder α] : IterOrder α β where
  keys m := Quot.liftOn m.keys.val (List.insertionSort (· ≤ ·)) fun _ _ h =>
    (((List.perm_insertionSort _ _).trans h).trans (List.perm_insertionSort _ _).symm).eq_of_pairwise'
      (List.pairwise_insertionSort _ _) (List.pairwise_insertionSort _ _)
  nodup m := by
    have hn := m.keys.nodup
    rcases h : m.keys.val with ⟨l⟩
    rw [h] at hn
    exact (List.perm_insertionSort _ l).nodup_iff.mpr (Multiset.coe_nodup.mp hn)
  mem_keys m k := by
    rw [← Finmap.mem_keys, ← Finset.mem_val]
    rcases m.keys.val with ⟨l⟩
    exact (List.perm_insertionSort _ l).mem_iff

end IterOrder
