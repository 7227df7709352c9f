import FeatureProbeServer.Lib.Trace
import Mathlib.Data.List.Basic
import Mathlib.Tactic.Common

/-!
# Rooms

Sockets `C` join rooms `K` and are told events `E` by a server that is a parameter: `Server` is what it may
do, `Server.Lawful` what is relied on. Tasks are spawned at any time and run beside each other, call by
call; sockets go at any time. The log says what has happened. `Log.told`: when a task that announces to
a room and a task that joins it and then tells the new socket have both finished, a socket that has not
gone has been told since the announcement was spawned, whichever ran first.
-/

namespace Rooms

/-- The calls on a server. -/
inductive Action (K C E : Type) where
  | join (c : C) (rooms : List K)
  | emit (c : C) (e : E)
  | emitTo (rooms : List K) (e : E)

/-- Tasks are named by their place in the order in which they were spawned. -/
inductive Entry (K C E : Type) where
  | spawned (n : Nat) (task : List (Action K C E))
  | called (n : Nat) (a : Action K C E)
  | returned (n : Nat) (a : Action K C E)
  | told (n : Nat) (c : C) (e : E)
  | gone (c : C)

/-- What a server may let happen after a log. -/
abbrev Server (K C E : Type) := List (Entry K C E) → Entry K C E → Prop

variable {K C E : Type} {R : Server K C E} {own : C → K}

/-- `own c` is the name of the room that the socket `c` is alone in. -/
structure Server.Lawful (R : Server K C E) (own : C → K) : Prop where
  /-- Who has joined a room when an announcement to it is called is told before it returns. -/
  emitTo : ∀ {before between n m c rooms rooms' e k},
    R (before ++ .called n (.emitTo rooms e) :: between) (.returned n (.emitTo rooms e)) →
      .returned m (.join c rooms') ∈ before → k ∈ rooms → k ∈ rooms' → .gone c ∉ before ++ between →
        .told n c e ∈ between
  /-- A socket that is told alone is told before the call returns. -/
  emit : ∀ {before between n c e}, R (before ++ .called n (.emit c e) :: between) (.returned n (.emit c e)) →
    .gone c ∉ before ++ between → .told n c e ∈ between
  /-- Nobody is told who is neither meant nor in a room that is. -/
  told : ∀ {before n c e}, R before (.told n c e) → .called n (.emit c e) ∈ before ∨
    ∃ rooms k, .called n (.emitTo rooms e) ∈ before ∧ k ∈ rooms ∧
      (k = own c ∨ ∃ m rooms', .called m (.join c rooms') ∈ before ∧ k ∈ rooms')

/-- A server that may do whatever the laws allow. -/
inductive Free (own : C → K) (log : List (Entry K C E)) : Entry K C E → Prop
  | called (n : Nat) (a : Action K C E) : Free own log (.called n a)
  | joined (n : Nat) (c : C) (rooms : List K) : Free own log (.returned n (.join c rooms))
  | emitted {n c e} (h : ∀ before between, log = before ++ .called n (.emit c e) :: between →
      .gone c ∉ before ++ between → .told n c e ∈ between) : Free own log (.returned n (.emit c e))
  | announced {n rooms e} (h : ∀ before between, log = before ++ .called n (.emitTo rooms e) :: between →
      ∀ m c rooms' k, .returned m (.join c rooms') ∈ before → k ∈ rooms → k ∈ rooms' →
        .gone c ∉ before ++ between → .told n c e ∈ between) : Free own log (.returned n (.emitTo rooms e))
  | told {n c e} (h : .called n (.emit c e) ∈ log) : Free own log (.told n c e)
  | toldIn {n c e rooms k} (h : .called n (.emitTo rooms e) ∈ log) (hk : k ∈ rooms)
    (hc : k = own c ∨ ∃ m rooms', .called m (.join c rooms') ∈ log ∧ k ∈ rooms') : Free own log (.told n c e)
  | gone (c : C) : Free own log (.gone c)

theorem free_lawful (own : C → K) : Server.Lawful (Free (E := E) own) own where
  emitTo h hj hk hk' hc := by
    cases h with
    | announced h => exact h _ _ rfl _ _ _ _ hj hk hk' hc
  emit h hc := by
    cases h with
    | emitted h => exact h _ _ rfl hc
  told h := by
    cases h with
    | told h => exact .inl h
    | toldIn h hk hc => exact .inr ⟨_, _, h, hk, hc⟩

/-- An announcement when nobody has joined a room returns at once. -/
theorem free_announced {log : List (Entry K C E)} (h : ∀ m c rooms, .returned m (.join c rooms) ∉ log) (n : Nat)
    (rooms : List K) (e : E) : Free own log (.returned n (.emitTo rooms e)) := by
  refine .announced fun before between hlog m c rooms' k hj => absurd ?_ (h m c rooms')
  rw [hlog]
  exact List.mem_append_left _ hj

/-- A call that has told its socket returns. -/
theorem free_emitted {log : List (Entry K C E)} {n : Nat} {c : C} {e : E} (h : .called n (.emit c e) ∉ log) :
    Free own (log ++ [.called n (.emit c e)] ++ [.told n c e]) (.returned n (.emit c e)) := by
  refine .emitted fun before between hlog _ => ?_
  rw [List.append_assoc] at hlog
  obtain ⟨-, -, hbetween⟩ := (List.append_cons_inj_of_notMem h (by simp)).mp hlog
  rw [← hbetween]
  exact List.mem_singleton_self _

/-! ### Tasks -/

/-- The task that the entry is a step of. -/
def Entry.mover : Entry K C E → Option Nat
  | .called n _ | .returned n _ => some n
  | _ => none

/-- The steps of the task `n`. -/
def moves (n : Nat) (log : List (Entry K C E)) : List (Entry K C E) := log.filter (·.mover == some n)

/-- The steps that the task `n` has to make. -/
def script (n : Nat) (task : List (Action K C E)) : List (Entry K C E) :=
  task.flatMap fun a => [.called n a, .returned n a]

def spawns (log : List (Entry K C E)) : Nat :=
  log.countP fun x => match x with | .spawned .. => true | _ => false

def spawn (task : List (Action K C E)) (log : List (Entry K C E)) : List (Entry K C E) :=
  log ++ [.spawned (spawns log) task]

/-- The task has made all its steps. -/
def Finished (log : List (Entry K C E)) (n : Nat) : Prop :=
  ∃ task, .spawned n task ∈ log ∧ moves n log = script n task

/-- What may happen when no task is spawned. -/
inductive Acts (R : Server K C E) (log : List (Entry K C E)) : Entry K C E → Prop
  | move {n task x} (ht : .spawned n task ∈ log) (hx : moves n log ++ [x] <+: script n task) (hr : R log x) :
    Acts R log x
  | tell {n c e} (hr : R log (.told n c e)) : Acts R log (.told n c e)
  | leave {c} (hr : R log (.gone c)) : Acts R log (.gone c)

inductive Log (R : Server K C E) : List (Entry K C E) → Prop
  | nil : Log R []
  | spawn {log} (h : Log R log) (task : List (Action K C E)) : Log R (spawn task log)
  | act {log x} (h : Log R log) (hx : Acts R log x) : Log R (log ++ [x])

variable {log before after : List (Entry K C E)} {x : Entry K C E} {n : Nat} {task : List (Action K C E)}

theorem mem_script : x ∈ script n task ↔ ∃ a ∈ task, x = .called n a ∨ x = .returned n a := by
  simp [script, List.mem_flatMap]

theorem mover_of_script (h : x ∈ script n task) : x.mover = some n := by
  obtain ⟨a, -, rfl | rfl⟩ := mem_script.mp h <;> rfl

theorem moves_append (n : Nat) (log log' : List (Entry K C E)) :
    moves n (log ++ log') = moves n log ++ moves n log' := List.filter_append ..

theorem moves_of_ne (h : x.mover ≠ some n) (log : List (Entry K C E)) :
    moves n (log ++ [x]) = moves n log := by
  simp [moves, h]

theorem moves_snoc (h : x.mover = some n) (log : List (Entry K C E)) :
    moves n (log ++ [x]) = moves n log ++ [x] := by
  simp [moves, h]

theorem mem_of_move (h : moves n log ++ [x] <+: script n task) : x ∈ script n task :=
  h.subset (List.mem_append_right _ (List.mem_singleton_self x))

theorem Acts.allowed (h : Acts R log x) : R log x := by cases h <;> assumption

theorem Acts.ne_spawned (h : Acts R log x) (n : Nat) (task : List (Action K C E)) : x ≠ .spawned n task := by
  rintro rfl
  cases h with
  | move ht hx _ =>
    obtain ⟨a, -, h | h⟩ := mem_script.mp (mem_of_move hx) <;> cases h

/-- What holds of the tasks in a log. -/
structure Ok (log : List (Entry K C E)) : Prop where
  lt : ∀ n task, .spawned n task ∈ log → n < spawns log
  unique : ∀ n task task', .spawned n task ∈ log → .spawned n task' ∈ log → task = task'
  moves : ∀ n task, .spawned n task ∈ log → moves n log <+: script n task
  fresh : ∀ n, spawns log ≤ n → Rooms.moves n log = []

theorem Ok.spawn (h : Ok log) (task : List (Action K C E)) : Ok (spawn task log) := by
  have hspawns : spawns (Rooms.spawn task log) = spawns log + 1 := List.countP_append
  have hmoves : ∀ n, Rooms.moves n (Rooms.spawn task log) = Rooms.moves n log :=
    fun n => moves_of_ne (by simp [Entry.mover]) log
  have cases : ∀ n task', .spawned n task' ∈ Rooms.spawn task log →
      .spawned n task' ∈ log ∨ n = spawns log ∧ task' = task := by
    intro n task' hn
    refine (List.mem_append.mp hn).imp_right fun hn => ?_
    cases List.mem_singleton.mp hn
    exact ⟨rfl, rfl⟩
  constructor
  · intro n task' hn
    rw [hspawns]
    rcases cases n task' hn with hn | ⟨rfl, -⟩
    · exact Nat.lt_succ_of_lt (h.lt n task' hn)
    · exact Nat.lt_succ_self _
  · intro n task₁ task₂ h₁ h₂
    rcases cases n task₁ h₁ with hold₁ | ⟨hn, rfl⟩ <;> rcases cases n task₂ h₂ with hold₂ | ⟨hn', rfl⟩
    · exact h.unique n task₁ task₂ hold₁ hold₂
    · exact absurd hn' (Nat.ne_of_lt (h.lt n task₁ hold₁))
    · exact absurd hn (Nat.ne_of_lt (h.lt n task₂ hold₂))
    · rfl
  · intro n task' hn
    rw [hmoves]
    rcases cases n task' hn with hn | ⟨rfl, -⟩
    · exact h.moves n task' hn
    · rw [h.fresh _ (Nat.le_refl _)]
      exact List.nil_prefix
  · intro n hn
    rw [hmoves]
    exact h.fresh n (by omega)

theorem Ok.act (h : Ok log) (hx : Acts R log x) : Ok (log ++ [x]) := by
  have hspawns : spawns (log ++ [x]) = spawns log := by
    cases x with
    | spawned n task => exact absurd rfl (hx.ne_spawned n task)
    | _ => exact List.countP_append
  have old : ∀ {n task}, .spawned n task ∈ log ++ [x] → .spawned n task ∈ log := by
    intro n task hn
    refine (List.mem_append.mp hn).resolve_right fun hn => ?_
    exact hx.ne_spawned n task (List.mem_singleton.mp hn).symm
  constructor
  · intro n task hn
    rw [hspawns]
    exact h.lt n task (old hn)
  · exact fun n task task' hn hn' => h.unique n task task' (old hn) (old hn')
  · intro n task hn
    by_cases hm : x.mover = some n
    · cases hx with
      | @move n' task' _ ht hx _ =>
        obtain rfl : n' = n := Option.some.inj ((mover_of_script (mem_of_move hx)).symm.trans hm)
        obtain rfl := h.unique _ _ _ ht (old hn)
        rwa [moves_snoc hm]
      | tell => cases hm
      | leave => cases hm
    · rw [moves_of_ne hm]
      exact h.moves n task (old hn)
  · intro n hn
    rw [hspawns] at hn
    rw [moves_of_ne ?_, h.fresh n hn]
    intro hm
    cases hx with
    | @move n' task' _ ht hx _ =>
      obtain rfl : n' = n := Option.some.inj ((mover_of_script (mem_of_move hx)).symm.trans hm)
      exact absurd (h.lt _ _ ht) (by omega)
    | tell => cases hm
    | leave => cases hm

theorem Log.ok (h : Log R log) : Ok log := by
  induction h with
  | nil => exact ⟨nofun, nofun, nofun, fun _ _ => rfl⟩
  | spawn _ task ih => exact ih.spawn task
  | act _ hx ih => exact ih.act hx

/-- How an entry came into a log. -/
theorem Log.split (h : Log R log) (hlog : log = before ++ x :: after) :
    Log R before ∧ ((∃ task, x = .spawned (spawns before) task) ∨ Acts R before x) := by
  induction h generalizing after with
  | nil => simp at hlog
  | spawn h task ih =>
    rcases Guarded.split_snoc hlog with ⟨after', he⟩ | ⟨rfl, rfl⟩
    · exact ih he
    · exact ⟨h, .inl ⟨task, rfl⟩⟩
  | act h hx ih =>
    rcases Guarded.split_snoc hlog with ⟨after', he⟩ | ⟨rfl, rfl⟩
    · exact ih he
    · exact ⟨h, .inr hx⟩

theorem Log.allowed (h : Log R log) (hlog : log = before ++ x :: after)
    (hx : ∀ n task, x ≠ .spawned n task) : R before x := by
  rcases (h.split hlog).2 with ⟨task, rfl⟩ | hacts
  · exact absurd rfl (hx _ task)
  · exact hacts.allowed

/-- A call is one of a task that has been spawned. -/
theorem Log.called (h : Log R log) {a : Action K C E} (ha : .called n a ∈ log) :
    ∃ task, .spawned n task ∈ log ∧ a ∈ task := by
  obtain ⟨before, after, rfl⟩ := List.append_of_mem ha
  rcases (h.split rfl).2 with ⟨task, he⟩ | hacts
  · cases he
  · cases hacts with
    | move ht hx =>
      obtain ⟨a', ha', he | he⟩ := mem_script.mp (mem_of_move hx)
      · cases he
        exact ⟨_, List.mem_append_left _ ht, ha'⟩
      · cases he

/-! ### Being told -/

/-- Why a socket is told. -/
theorem Log.cause (hR : R.Lawful own) (h : Log R log) {c : C} {e : E}
    (hlog : log = before ++ .told n c e :: after) : ∃ task, .spawned n task ∈ before ∧
      (.emit c e ∈ task ∨ ∃ rooms k, .emitTo rooms e ∈ task ∧ k ∈ rooms ∧
        (k = own c ∨ ∃ m task' rooms', .spawned m task' ∈ before ∧ .join c rooms' ∈ task' ∧ k ∈ rooms')) := by
  have hbefore := (h.split hlog).1
  rcases hR.told (h.allowed hlog (by simp)) with hemit | ⟨rooms, k, hannounced, hk, hc⟩
  · obtain ⟨task, ht, ha⟩ := hbefore.called hemit
    exact ⟨task, ht, .inl ha⟩
  · obtain ⟨task, ht, ha⟩ := hbefore.called hannounced
    refine ⟨task, ht, .inr ⟨rooms, k, ha, hk, hc.imp_right ?_⟩⟩
    rintro ⟨m, rooms', hjoin, hk'⟩
    obtain ⟨task', ht', ha'⟩ := hbefore.called hjoin
    exact ⟨m, task', rooms', ht', ha', hk'⟩

/-- Who has not gone when a call that tells it alone has returned has been told by this call. -/
theorem Log.emitted (hR : R.Lawful own) (h : Log R log) {between : List (Entry K C E)} {c : C} {e : E}
    (hlog : log = before ++ .called n (.emit c e) :: between ++ .returned n (.emit c e) :: after)
    (hc : .gone c ∉ log) : .told n c e ∈ between := by
  refine hR.emit (h.allowed hlog (by simp)) fun hmem => hc ?_
  rw [hlog]
  simp at hmem ⊢
  tauto

/-- The same of an announcement, and who had joined one of its rooms before. -/
theorem Log.announced (hR : R.Lawful own) (h : Log R log) {between : List (Entry K C E)} {m : Nat}
    {rooms rooms' : List K} {c : C} {e : E} {k : K}
    (hlog : log = before ++ .called n (.emitTo rooms e) :: between ++ .returned n (.emitTo rooms e) :: after)
    (hj : .returned m (.join c rooms') ∈ before) (hk : k ∈ rooms) (hk' : k ∈ rooms') (hc : .gone c ∉ log) :
    .told n c e ∈ between := by
  refine hR.emitTo (h.allowed hlog (by simp)) hj hk hk' fun hmem => hc ?_
  rw [hlog]
  simp at hmem ⊢
  tauto

/-- The steps of a task, in their places. -/
theorem split_moves {y : Entry K C E} {ys : List (Entry K C E)} (h : moves n log = y :: ys) :
    ∃ before after, log = before ++ y :: after ∧ moves n after = ys := by
  obtain ⟨before, after, rfl, -, -, hys⟩ := List.filter_eq_cons_iff.mp h
  exact ⟨before, after, rfl, hys⟩

theorem Finished.moves (h : Ok log) (hn : Finished log n) (ht : .spawned n task ∈ log) :
    moves n log = script n task := by
  obtain ⟨task', ht', hmoves⟩ := hn
  rwa [h.unique n task task' ht ht']

/-- When an announcement and a subscription to one of its rooms have finished, a socket that has not gone has
been told since the announcement was spawned. -/
theorem Log.told (hR : R.Lawful own) (h : Log R log) {m : Nat} {rooms rooms' : List K} {e e' : E} {c : C}
    {k : K}
    (hlog : log = before ++ .spawned n [.emitTo rooms e] :: after)
    (hm : .spawned m [.join c rooms', .emit c e'] ∈ log) (hk : k ∈ rooms) (hk' : k ∈ rooms')
    (hn : Finished log n) (hfin : Finished log m) (hc : .gone c ∉ log) :
    .told n c e ∈ after ∨ .told m c e' ∈ after := by
  have hspawned : .spawned n [.emitTo rooms e] ∈ log := by
    rw [hlog]
    simp
  obtain ⟨hbefore, hsource⟩ := h.split hlog
  have hold : moves n before = [] := by
    obtain ⟨task, he⟩ := hsource.resolve_right fun hacts => hacts.ne_spawned _ _ rfl
    cases he
    exact hbefore.ok.fresh _ (Nat.le_refl _)
  -- the announcement has been called since it was spawned
  have hannounced : moves n after = [.called n (.emitTo rooms e), .returned n (.emitTo rooms e)] := by
    have hmoves := hn.moves h.ok hspawned
    rw [hlog, moves_append, hold] at hmoves
    exact hmoves
  obtain ⟨a₁, a₂, rfl, hreturned⟩ := split_moves hannounced
  obtain ⟨b, d, rfl, -⟩ := split_moves hreturned
  -- the socket has joined before it was told alone
  have hsubscribed : moves m log = [.called m (.join c rooms'), .returned m (.join c rooms'),
      .called m (.emit c e'), .returned m (.emit c e')] := hfin.moves h.ok hm
  obtain ⟨y₁, y₂, hy, hjoined⟩ := split_moves hsubscribed
  obtain ⟨y₃, z, rfl, hemit⟩ := split_moves hjoined
  obtain ⟨z₁, z₂, rfl, hemitted⟩ := split_moves hemit
  obtain ⟨z₃, z₄, rfl, -⟩ := split_moves hemitted
  have htold : .told m c e' ∈ z₃ := by
    have hcalled : log = (y₁ ++ .called m (.join c rooms') :: y₃ ++ .returned m (.join c rooms') :: z₁) ++
        .called m (.emit c e') :: z₃ ++ .returned m (.emit c e') :: z₄ := by
      rw [hy]
      simp
    exact h.emitted hR hcalled hc
  -- either it had joined when the announcement was called, or it was told alone later
  have hsame : (before ++ .spawned n [.emitTo rooms e] :: a₁) ++
      (.called n (.emitTo rooms e) :: (b ++ .returned n (.emitTo rooms e) :: d)) =
      (y₁ ++ .called m (.join c rooms') :: y₃) ++ .returned m (.join c rooms') ::
        (z₁ ++ .called m (.emit c e') :: (z₃ ++ .returned m (.emit c e') :: z₄)) := by
    have hboth := hlog.symm.trans hy
    simpa using hboth
  rcases List.append_eq_append_iff.mp hsame with ⟨l, -, hlate⟩ | ⟨l, hearly, hl⟩
  · right
    have hmem : Entry.told m c e' ∈ Entry.called n (.emitTo rooms e) ::
        (b ++ .returned n (.emitTo rooms e) :: d) := by
      rw [hlate]
      simp [htold]
    exact List.mem_append_right _ hmem
  · cases l with
    | nil => simp at hl
    | cons x l =>
      obtain ⟨rfl, -⟩ := List.cons.inj hl
      left
      have hjoin : .returned m (.join c rooms') ∈ before ++ .spawned n [.emitTo rooms e] :: a₁ := by
        rw [hearly]
        simp
      have htold : .told n c e ∈ b := by
        have hcalled : log = (before ++ .spawned n [.emitTo rooms e] :: a₁) ++
            .called n (.emitTo rooms e) :: b ++ .returned n (.emitTo rooms e) :: d := by
          rw [hlog]
          simp
        exact h.announced hR hcalled hjoin hk hk' hc
      simp [htold]

end Rooms
