import Tux3.Basic
import Tux3.Lib.RwLock
import Mathlib.Logic.Function.Basic

/-!
# Delta transitions

`change_begin`, `change_end` and `force_delta` of `kernel/commit.c` by any number of threads, over the
`rw_semaphore` of `lockdebug.h`. Where an assertion of the lock would stop the program, the thread
waits. What `do_commit` writes is a model of its own.
-/
namespace Tux3.Delta

/-! ## The lock -/

def downRead (count : ℤ) : Option ℤ := if 0 ≤ count then some (count + 1) else none

def upRead (count : ℤ) : Option ℤ := if 1 ≤ count then some (count - 1) else none

def downWrite (count : ℤ) : Option ℤ := if count = 0 then some (count - 1) else none

def upWrite (count : ℤ) : Option ℤ := if count = -1 then some (count + 1) else none

/-! ## The calls -/

/-- `delta`, `delta_lock` and the counters of `need_delta` and `need_rollup`, which are `unsigned`. -/
structure Sb where
  delta : ℕ
  deltaLock : ℤ
  deltaHack : ℕ
  rollupHack : ℕ

/-- `need_delta` from the value it loads on: what it returns and what it stores. -/
def needDelta (crudehack : ℕ) : Bool × ℕ :=
  let crudehack := u32 (crudehack + 1)
  (crudehack % 10 = 0, crudehack)

def needRollup (sb : Sb) : Bool × Sb :=
  let crudehack := u32 (sb.rollupHack + 1)
  (crudehack % 3 = 0, { sb with rollupHack := crudehack })

/-- `do_commit`, without the writes of `rollup_log`, `stage_delta`, `write_log` and
`commit_delta`. -/
def doCommit (sb : Sb) (canRollup : Bool) : Sb :=
  let sb := { sb with delta := u32 (sb.delta + 1) }
  if canRollup then (needRollup sb).2 else sb

/-- Where a thread is. -/
inductive Phase where
  | idle
  /-- Between `change_begin` and `change_end`. -/
  | changing
  /-- In `need_delta`, between the load and the store of its counter. -/
  | counting (crudehack : ℕ)
  /-- In `change_end`, where `need_delta` was false. -/
  | ending
  /-- In `change_end`, where `need_delta` was true. -/
  | sampling
  | sampled (delta : ℕ)
  /-- Before `down_write`. -/
  | waiting (delta : ℕ)
  | locked (delta : ℕ)
  /-- In `force_delta`. -/
  | forcing
  /-- Before `up_write`. -/
  | unlocking
  deriving DecidableEq, Repr

/-- The system, and as history how many `do_commit` there were, and at which count the last change
of each thread began and ended. -/
structure State (T : Type*) where
  sb : Sb
  phase : T → Phase
  commits : ℕ
  began : T → ℕ
  closed : T → ℕ

section
variable {T : Type*} [DecidableEq T]

def State.goto (s : State T) (t : T) (phase : Phase) (sb : Sb) : State T :=
  { s with sb := sb, phase := Function.update s.phase t phase }

/-- A thread ends its change. -/
def State.close (s : State T) (t : T) (phase : Phase) : Option (State T) :=
  (upRead s.sb.deltaLock).map fun count =>
    { s.goto t phase { s.sb with deltaLock := count } with
      closed := Function.update s.closed t s.commits }

def State.commit (s : State T) (t : T) (canRollup : Bool) : State T :=
  { s.goto t .unlocking (doCommit s.sb canRollup) with commits := s.commits + 1 }

/-- The next step of a thread; one that is idle calls `force_delta` or begins a change. The counter
of `need_delta` has no lock of its own: other threads can come between its load and its store. -/
def step (s : State T) (t : T) (force : Bool) : Option (State T) :=
  match s.phase t with
  | .idle =>
      if force then
        (downWrite s.sb.deltaLock).map fun count => s.goto t .forcing { s.sb with deltaLock := count }
      else
        (downRead s.sb.deltaLock).map fun count =>
          { s.goto t .changing { s.sb with deltaLock := count } with
            began := Function.update s.began t s.commits }
  | .changing => some (s.goto t (.counting s.sb.deltaHack) s.sb)
  | .counting loaded =>
      let (need, crudehack) := needDelta loaded
      some (s.goto t (if need then .sampling else .ending) { s.sb with deltaHack := crudehack })
  | .ending => s.close t .idle
  | .sampling => some (s.goto t (.sampled s.sb.delta) s.sb)
  | .sampled delta => s.close t (.waiting delta)
  | .waiting delta =>
      (downWrite s.sb.deltaLock).map fun count =>
        s.goto t (.locked delta) { s.sb with deltaLock := count }
  | .locked delta =>
      some (if s.sb.delta = delta then s.commit t true else s.goto t .unlocking s.sb)
  | .forcing => some (s.commit t false)
  | .unlocking =>
      (upWrite s.sb.deltaLock).map fun count => s.goto t .idle { s.sb with deltaLock := count }

/-- The steps of the threads in any order. -/
inductive Reached : State T → Prop where
  | start (sb : Sb) (hlock : sb.deltaLock = 0) :
      Reached ⟨sb, fun _ => .idle, 0, fun _ => 0, fun _ => 0⟩
  | step {s s' : State T} (h : Reached s) (t : T) (force : Bool) (hstep : step s t force = some s') :
      Reached s'

end

/-- Inside of a change, with the lock held for reading. -/
def Phase.reads : Phase → Prop
  | .changing | .counting _ | .ending | .sampling | .sampled _ => True
  | _ => False

def Phase.writes : Phase → Prop
  | .locked _ | .forcing | .unlocking => True
  | _ => False

/-- A commit after the end of the change is to come if there was none, and was when the thread is
done. -/
def Phase.honours (closed commits delta : ℕ) : Phase → Prop
  | .waiting seen | .locked seen => closed = commits → seen = delta
  | .unlocking => closed < commits
  | _ => True

/-! ## One thread goes on -/

section
variable {T : Type*} [DecidableEq T] {phases : T → Phase} {phase : Phase} {P : Phase → Prop} {t : T}

theorem update_add (h : P phase) (u : T) :
    P (Function.update phases t phase u) ↔ u = t ∨ P (phases u) := by
  by_cases hu : u = t
  · subst hu
    simp [h]
  · simp [hu]

theorem update_remove (h : ¬ P phase) (u : T) :
    P (Function.update phases t phase u) ↔ u ≠ t ∧ P (phases u) := by
  by_cases hu : u = t
  · subst hu
    simp [h]
  · simp [hu]

theorem update_keep (h : P phase ↔ P (phases t)) (u : T) :
    P (Function.update phases t phase u) ↔ P (phases u) := by
  by_cases hu : u = t
  · subst hu
    simp [h]
  · simp [hu]

end

/-! ## The invariant -/

section
variable {T : Type*}

/-- Changes of one delta, and commits that see the delta they are for. -/
structure Inv (s : State T) : Prop where
  holds : RwLock.Holds s.sb.deltaLock (fun t => (s.phase t).reads) fun t => (s.phase t).writes
  began : ∀ t, (s.phase t).reads → s.began t = s.commits
  sampled : ∀ t delta, s.phase t = .sampled delta → delta = s.sb.delta
  closed : ∀ t, s.closed t ≤ s.commits
  honours : ∀ t, (s.phase t).honours (s.closed t) s.commits s.sb.delta

theorem inv_start (sb : Sb) (hlock : sb.deltaLock = 0) :
    Inv (⟨sb, fun _ => .idle, 0, fun _ => 0, fun _ => 0⟩ : State T) := by
  refine ⟨?_, fun t ht => ht.elim, fun t delta ht => ?_, fun _ => Nat.le_refl 0, fun _ => trivial⟩
  · rw [hlock]
    exact RwLock.holds_free (fun _ h => h) fun _ h => h
  · cases ht

variable [DecidableEq T] {s s' : State T} {t : T} {phase : Phase} {count : ℤ}

theorem Inv.began_goto (h : Inv s) (hnew : phase.reads → (s.phase t).reads) (u : T)
    (hu : (Function.update s.phase t phase u).reads) : s.began u = s.commits := by
  by_cases hut : u = t
  · subst hut
    rw [Function.update_self] at hu
    exact h.began u (hnew hu)
  · rw [Function.update_of_ne hut] at hu
    exact h.began u hu

theorem Inv.sampled_goto (h : Inv s) (hnew : ∀ delta, phase = .sampled delta → delta = s.sb.delta)
    (u : T) (delta : ℕ) (hu : Function.update s.phase t phase u = .sampled delta) :
    delta = s.sb.delta := by
  by_cases hut : u = t
  · subst hut
    rw [Function.update_self] at hu
    exact hnew delta hu
  · rw [Function.update_of_ne hut] at hu
    exact h.sampled u delta hu

theorem Inv.honours_goto (h : Inv s) (hnew : phase.honours (s.closed t) s.commits s.sb.delta)
    (u : T) : (Function.update s.phase t phase u).honours (s.closed u) s.commits s.sb.delta := by
  by_cases hut : u = t
  · subst hut
    rwa [Function.update_self]
  · rw [Function.update_of_ne hut]
    exact h.honours u

/-! ## The steps -/

theorem Inv.begin (h : Inv s) (ht : s.phase t = .idle) (hlock : downRead s.sb.deltaLock = some count) :
    Inv { s.goto t .changing { s.sb with deltaLock := count } with
      began := Function.update s.began t s.commits } := by
  unfold downRead at hlock
  split at hlock
  · next hcount =>
      obtain rfl := Option.some.inj hlock
      refine ⟨?_, fun u hu => ?_, h.sampled_goto fun _ heq => ?_, h.closed, h.honours_goto trivial⟩
      · exact h.holds.downRead hcount (by simp [ht, Phase.reads])
          (update_add (P := Phase.reads) trivial)
          (update_keep (P := Phase.writes) (by simp [ht, Phase.writes]))
      · by_cases hut : u = t
        · subst hut
          simp [State.goto]
        · have hu : (s.phase u).reads := by simpa [State.goto, hut] using hu
          simpa [State.goto, hut] using h.began u hu
      · cases heq
  · cases hlock

theorem Inv.lock (h : Inv s) (hreads : ¬ phase.reads ∧ ¬ (s.phase t).reads) (hwrites : phase.writes)
    (hhonours : phase.honours (s.closed t) s.commits s.sb.delta)
    (hlock : downWrite s.sb.deltaLock = some count) :
    Inv (s.goto t phase { s.sb with deltaLock := count }) := by
  unfold downWrite at hlock
  split at hlock
  · next hcount =>
      obtain rfl := Option.some.inj hlock
      refine ⟨?_, h.began_goto fun hp => absurd hp hreads.1, h.sampled_goto fun _ heq => ?_,
        h.closed, h.honours_goto hhonours⟩
      · exact h.holds.downWrite hcount
          (update_keep (P := Phase.reads) (iff_of_false hreads.1 hreads.2))
          (update_add (P := Phase.writes) hwrites)
      · rw [heq] at hreads
        exact absurd trivial hreads.1
  · cases hlock

theorem Inv.inside (h : Inv s) {hack : ℕ} (ht : (s.phase t).reads) (hreads : phase.reads)
    (hsampled : ∀ delta, phase = .sampled delta → delta = s.sb.delta)
    (hhonours : phase.honours (s.closed t) s.commits s.sb.delta) :
    Inv (s.goto t phase { s.sb with deltaHack := hack }) := by
  have hnone := (h.holds.shared ht).2
  have hwrites : ¬ phase.writes := by
    cases phase <;> first | exact fun h => h | exact hreads.elim
  refine ⟨?_, h.began_goto fun _ => ht, h.sampled_goto hsampled, h.closed, h.honours_goto hhonours⟩
  exact h.holds.congr (update_keep (P := Phase.reads) (iff_of_true hreads ht))
    (update_keep (P := Phase.writes) (iff_of_false hwrites (hnone t)))

theorem Inv.close (h : Inv s) (hreads : (s.phase t).reads)
    (hnew : ¬ phase.reads ∧ ¬ phase.writes)
    (hhonours : phase.honours s.commits s.commits s.sb.delta)
    (hclose : s.close t phase = some s') : Inv s' := by
  obtain ⟨hcount, hnone⟩ := h.holds.shared hreads
  rw [State.close, upRead, if_pos hcount] at hclose
  obtain rfl := Option.some.inj hclose
  refine ⟨?_, h.began_goto fun hp => absurd hp hnew.1, h.sampled_goto fun _ heq => ?_,
    fun u => ?_, fun u => ?_⟩
  · exact h.holds.upRead hreads (update_remove (P := Phase.reads) hnew.1)
      (update_keep (P := Phase.writes) (iff_of_false hnew.2 (hnone t)))
  · rw [heq] at hnew
    exact absurd trivial hnew.1
  · by_cases hut : u = t
    · simp [hut, State.goto]
    · simpa [hut, State.goto] using h.closed u
  · by_cases hut : u = t
    · subst hut
      simpa [State.goto] using hhonours
    · simpa [hut, State.goto] using h.honours u

theorem Inv.commit (h : Inv s) (hwrites : (s.phase t).writes) (canRollup : Bool) :
    Inv (s.commit t canRollup) := by
  obtain ⟨-, hnone, -⟩ := h.holds.exclusive hwrites
  have hlock : (doCommit s.sb canRollup).deltaLock = s.sb.deltaLock := by
    cases canRollup <;> rfl
  have hkeep := fun u => @update_keep T _ s.phase .unlocking Phase.reads t
    (iff_of_false (fun h => h) (hnone t)) u
  have hreads : ∀ u, ¬ (Function.update s.phase t .unlocking u).reads := by
    intro u hu
    exact hnone u ((hkeep u).mp hu)
  refine ⟨?_, fun u hu => absurd hu (hreads u), fun u delta hu => ?_,
    fun u => Nat.le_succ_of_le (h.closed u), fun u => ?_⟩
  · change RwLock.Holds (doCommit s.sb canRollup).deltaLock _ _
    rw [hlock]
    exact h.holds.congr hkeep (update_keep (P := Phase.writes) (iff_of_true trivial hwrites))
  · have hu : Function.update s.phase t .unlocking u = .sampled delta := hu
    exact absurd (by rw [hu]; trivial) (hreads u)
  · have hlt : s.closed u < s.commits + 1 := Nat.lt_succ_of_le (h.closed u)
    change (Function.update s.phase t .unlocking u).honours (s.closed u) (s.commits + 1) _
    cases Function.update s.phase t .unlocking u <;> simp [Phase.honours] <;> omega

theorem Inv.skip (h : Inv s) {delta : ℕ} (ht : s.phase t = .locked delta) (hne : s.sb.delta ≠ delta) :
    Inv (s.goto t .unlocking s.sb) := by
  refine ⟨?_, h.began_goto fun hp => hp.elim, h.sampled_goto fun _ heq => ?_, h.closed,
    h.honours_goto ?_⟩
  · exact h.holds.congr (update_keep (P := Phase.reads) (by simp [ht, Phase.reads]))
      (update_keep (P := Phase.writes) (by simp [ht, Phase.writes]))
  · cases heq
  · have hseen := h.honours t
    rw [ht] at hseen
    exact Nat.lt_of_le_of_ne (h.closed t) fun heq => hne (hseen heq).symm

theorem Inv.unlock (h : Inv s) (ht : s.phase t = .unlocking)
    (hlock : upWrite s.sb.deltaLock = some count) :
    Inv (s.goto t .idle { s.sb with deltaLock := count }) := by
  have hwrites : (s.phase t).writes := by simp [ht, Phase.writes]
  unfold upWrite at hlock
  split at hlock
  · next hcount =>
      obtain rfl := Option.some.inj hlock
      refine ⟨?_, h.began_goto fun hp => hp.elim, h.sampled_goto fun _ heq => ?_, h.closed,
        h.honours_goto trivial⟩
      · exact h.holds.upWrite hwrites (update_keep (P := Phase.reads) (by simp [ht, Phase.reads]))
          (update_remove (P := Phase.writes) fun h => h)
      · cases heq
  · cases hlock

theorem Inv.step (h : Inv s) {force : Bool} (hstep : step s t force = some s') : Inv s' := by
  unfold Delta.step at hstep
  cases ht : s.phase t with
  | idle =>
      simp only [ht] at hstep
      cases force with
      | true =>
          obtain ⟨count, hlock, rfl⟩ := Option.map_eq_some_iff.mp hstep
          exact h.lock (by simp [ht, Phase.reads]) trivial trivial hlock
      | false =>
          obtain ⟨count, hlock, rfl⟩ := Option.map_eq_some_iff.mp hstep
          exact h.begin ht hlock
  | changing =>
      simp only [ht] at hstep
      obtain rfl := Option.some.inj hstep
      exact h.inside (by simp [ht, Phase.reads]) trivial (fun _ heq => nomatch heq) trivial
  | counting loaded =>
      simp only [ht] at hstep
      obtain rfl := Option.some.inj hstep
      refine h.inside (by simp [ht, Phase.reads]) ?_ (fun _ heq => ?_) ?_
      · split <;> trivial
      · split at heq <;> cases heq
      · split <;> trivial
  | ending =>
      simp only [ht] at hstep
      refine h.close ?_ ?_ ?_ hstep
      · simp [ht, Phase.reads]
      · exact ⟨fun h => h, fun h => h⟩
      · trivial
  | sampling =>
      simp only [ht] at hstep
      obtain rfl := Option.some.inj hstep
      exact h.inside (by simp [ht, Phase.reads]) trivial (fun _ heq => (Phase.sampled.inj heq).symm)
        trivial
  | sampled delta =>
      simp only [ht] at hstep
      refine h.close ?_ ?_ ?_ hstep
      · simp [ht, Phase.reads]
      · exact ⟨fun h => h, fun h => h⟩
      · exact fun _ => h.sampled t delta ht
  | waiting delta =>
      simp only [ht] at hstep
      obtain ⟨count, hlock, rfl⟩ := Option.map_eq_some_iff.mp hstep
      have hhonours := h.honours t
      rw [ht] at hhonours
      exact h.lock (by simp [ht, Phase.reads]) trivial hhonours hlock
  | locked delta =>
      simp only [ht] at hstep
      obtain rfl := Option.some.inj hstep
      split
      · exact h.commit (by simp [ht, Phase.writes]) true
      · next hne => exact h.skip ht hne
  | forcing =>
      simp only [ht] at hstep
      obtain rfl := Option.some.inj hstep
      exact h.commit (by simp [ht, Phase.writes]) false
  | unlocking =>
      simp only [ht] at hstep
      obtain ⟨count, hlock, rfl⟩ := Option.map_eq_some_iff.mp hstep
      exact h.unlock ht hlock

/-! ## Runs -/

theorem Reached.inv (h : Reached s) : Inv s := by
  induction h with
  | start sb hlock => exact inv_start sb hlock
  | step h t force hstep ih => exact ih.step hstep

theorem Inv.holder_goes (h : Inv s) (force : Bool) (ht : (s.phase t).reads ∨ (s.phase t).writes) :
    (Delta.step s t force).isSome = true := by
  unfold Delta.step
  rcases ht with hreads | hwrites
  · have hcount := (h.holds.shared hreads).1
    cases ht : s.phase t <;> simp_all [Phase.reads, State.close, upRead]
  · have hcount := (h.holds.exclusive hwrites).1
    cases ht : s.phase t <;> simp_all [Phase.writes, upWrite]

theorem Inv.free_goes (h : Inv s) (force : Bool)
    (hfree : ∀ u, ¬ (s.phase u).reads ∧ ¬ (s.phase u).writes) :
    (Delta.step s t force).isSome = true := by
  have hcount : s.sb.deltaLock = 0 := h.holds.free (fun u => (hfree u).1) fun u => (hfree u).2
  have ht := hfree t
  unfold Delta.step
  cases hphase : s.phase t <;> cases force <;>
    simp_all [Phase.reads, Phase.writes, downWrite, downRead]

/-- In every interleaving: `do_commit` runs alone, and a change lies between two of them; a
`change_end` that is to commit returns after a `do_commit` behind the end of its change; and no
thread is stuck, since the holders of the lock go on, and with none of them everybody does. -/
theorem delta_transitions (h : Reached s) :
    (∀ t, (s.phase t).writes → ∀ u, ¬ (s.phase u).reads ∧ ((s.phase u).writes → u = t)) ∧
    (∀ t, (s.phase t).reads → s.began t = s.commits) ∧
    (∀ t, s.phase t = .unlocking → s.closed t < s.commits) ∧
    (∀ t force, (s.phase t).reads ∨ (s.phase t).writes → (Delta.step s t force).isSome = true) ∧
    ((∀ u, ¬ (s.phase u).reads ∧ ¬ (s.phase u).writes) →
      ∀ t force, (Delta.step s t force).isSome = true) := by
  have hinv := h.inv
  refine ⟨fun t ht u => ?_, hinv.began, fun t ht => ?_,
    fun t force ht => hinv.holder_goes force ht, fun hfree t force => hinv.free_goes force hfree⟩
  · obtain ⟨-, hreads, hone⟩ := hinv.holds.exclusive ht
    exact ⟨hreads u, (hone u).mp⟩
  · have hhonours := hinv.honours t
    rw [ht] at hhonours
    exact hhonours

end

/-- Two changes that `need_delta` counts as one, and the start of `force_delta` in a third thread. -/
theorem delta_transitions_force : ∃ s : State ℕ, Reached s ∧ s.phase 2 = .forcing ∧
    s.sb.deltaHack = 1 ∧ (∀ u, ¬ (s.phase u).reads) ∧ (Delta.step s 2 false).isSome = true := by
  have hstart : Reached (⟨⟨0, 0, 0, 0⟩, fun _ => .idle, 0, fun _ => 0, fun _ => 0⟩ : State ℕ) :=
    .start ⟨0, 0, 0, 0⟩ rfl
  have hbegun := (hstart.step 0 false rfl).step 1 false rfl
  have hloaded := (hbegun.step 0 false rfl).step 1 false rfl
  have hstored := (hloaded.step 0 false rfl).step 1 false rfl
  have hclosed := (hstored.step 0 false rfl).step 1 false rfl
  have hforce := hclosed.step 2 true rfl
  obtain ⟨halone, -, -, hgoes, -⟩ := delta_transitions hforce
  exact ⟨_, hforce, rfl, rfl, fun u => (halone 2 trivial u).1, hgoes 2 false (Or.inr trivial)⟩

end Tux3.Delta
