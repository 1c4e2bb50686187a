import Tux3.Commit

/-!
# The ledger of deferred frees

What the four stashes are for: an abstract ledger with three operations, and the
fate of each deferred extent in any history of it.
-/
namespace Tux3.Commit

/-- The stashes as lists, with the history. -/
structure Ledger where
  defree : List Deferred
  derollup : List Deferred
  decycle : List Deferred
  newDecycle : List Deferred
  trace : List Event

def Deferred.event (d : Deferred) : Event := .bfree d.id d.block d.count

def Ledger.empty : Ledger := ⟨[], [], [], [], []⟩

def Ledger.defer (l : Ledger) (kind : Kind) (d : Deferred) : Ledger :=
  let l := { l with trace := l.trace ++ [Event.defer kind d.id d.block d.count] }
  match kind with
  | .defree => { l with defree := l.defree ++ [d] }
  | .derollup => { l with derollup := l.derollup ++ [d] }
  | .newDecycle => { l with newDecycle := l.newDecycle ++ [d] }

def Ledger.rollup (l : Ledger) : Ledger where
  defree := l.defree ++ l.decycle ++ l.derollup
  derollup := []
  decycle := l.newDecycle
  newDecycle := []
  trace := l.trace ++ [Event.rollup]

def Ledger.commit (l : Ledger) : Ledger :=
  { l with
    defree := []
    trace := l.trace ++ Event.save :: (l.defree.map Deferred.event ++ [Event.done]) }

inductive Ledger.Reachable : Ledger → Prop where
  | empty : Reachable .empty
  | defer {l : Ledger} (prev : Reachable l) (kind : Kind) (d : Deferred)
      (id : d.id = l.trace.length) : Reachable (l.defer kind d)
  | rollup {l : Ledger} (prev : Reachable l) : Reachable l.rollup
  | commit {l : Ledger} (prev : Reachable l) : Reachable l.commit

/-! ## Where an extent is -/

inductive Stage where
  | newDecycle
  | decycle
  | derollup
  | defree
  | retired
  deriving DecidableEq, Repr

def Kind.stage : Kind → Stage
  | .defree => .defree
  | .derollup => .derollup
  | .newDecycle => .newDecycle

def Stage.after : Stage → Event → Stage
  | .newDecycle, .rollup => .decycle
  | .decycle, .rollup => .defree
  | .derollup, .rollup => .defree
  | .defree, .done => .retired
  | stage, _ => stage

/-- The stage of an extent after the events that follow its deferral. -/
def Kind.stageAfter (kind : Kind) (events : List Event) : Stage :=
  events.foldl Stage.after kind.stage

def Ledger.at (l : Ledger) : Stage → List Deferred
  | .newDecycle => l.newDecycle
  | .decycle => l.decycle
  | .derollup => l.derollup
  | .defree => l.defree
  | .retired => []

def Ledger.pending (l : Ledger) : List Deferred :=
  l.defree ++ (l.derollup ++ (l.decycle ++ l.newDecycle))

/-- The event frees the extent with this number. -/
def Event.Frees (id : ℕ) : Event → Prop
  | .bfree id' _ _ => id' = id
  | _ => False

def NoFree (id : ℕ) (events : List Event) : Prop := ∀ e ∈ events, ¬ e.Frees id

/-- The extent is freed, once, after a `save_sb`. -/
def FreedOnce (id block count : ℕ) (events : List Event) : Prop :=
  ∃ α β γ, events = α ++ .save :: (β ++ .bfree id block count :: γ) ∧
    NoFree id α ∧ NoFree id β ∧ NoFree id γ

/-- The extent was freed in the commit it was due in, and never again. -/
def Retired (kind : Kind) (id block count : ℕ) (events : List Event) : Prop :=
  ∃ α β γ δ, events = α ++ .save :: (β ++ .bfree id block count :: (γ ++ .done :: δ)) ∧
    kind.stageAfter α = .defree ∧ Event.done ∉ β ++ γ ∧
    NoFree id α ∧ NoFree id β ∧ NoFree id γ ∧ NoFree id δ

structure Ledger.Placed (l : Ledger) (kind : Kind) (id block count : ℕ)
    (events : List Event) : Prop where
  waiting : kind.stageAfter events ≠ .retired →
    (∃ d ∈ l.at (kind.stageAfter events), d.id = id ∧ d.block = block ∧ d.count = count) ∧
      NoFree id events
  retired : kind.stageAfter events = .retired →
    (∀ d ∈ l.pending, d.id ≠ id) ∧ Retired kind id block count events

structure Ledger.Inv (l : Ledger) : Prop where
  nodup : (l.pending.map Deferred.id).Nodup
  earlier : ∀ d ∈ l.pending, d.id < l.trace.length
  deferred : ∀ d ∈ l.pending, ∃ kind, Event.defer kind d.id d.block d.count ∈ l.trace
  placed : ∀ τ kind id block count events,
    l.trace = τ ++ .defer kind id block count :: events →
      id = τ.length ∧ l.Placed kind id block count events
  sourced : ∀ τ id block count events, l.trace = τ ++ .bfree id block count :: events →
    ∃ kind α β, τ = α ++ .defer kind id block count :: β ∧ Event.save ∈ β

section Lists
variable {id : ℕ} {xs ys : List Event}

theorem noFree_append : NoFree id (xs ++ ys) ↔ NoFree id xs ∧ NoFree id ys :=
  List.forall_mem_append

theorem noFree_cons {e : Event} : NoFree id (e :: xs) ↔ ¬ e.Frees id ∧ NoFree id xs :=
  List.forall_mem_cons

theorem noFree_nil : NoFree id [] := nofun

theorem split_append {α : Type} {l ext τ events : List α} {x : α}
    (h : l ++ ext = τ ++ x :: events) :
    (∃ rest, l = τ ++ x :: rest ∧ events = rest ++ ext) ∨
      ∃ front, τ = l ++ front ∧ ext = front ++ x :: events := by
  rcases List.append_eq_append_iff.mp h with ⟨front, hτ, hext⟩ | ⟨rest, hl, hx⟩
  · exact Or.inr ⟨front, hτ, hext⟩
  · cases rest with
    | nil => exact Or.inr ⟨[], by rw [hl, List.append_nil, List.append_nil], hx.symm⟩
    | cons y rest =>
        rw [List.cons_append, List.cons.injEq] at hx
        exact Or.inl ⟨rest, by rw [hl, hx.1], hx.2⟩

theorem stageAfter_append (kind : Kind) (xs ys : List Event) :
    kind.stageAfter (xs ++ ys) = ys.foldl Stage.after (kind.stageAfter xs) :=
  List.foldl_append

theorem after_defer (stage : Stage) (kind : Kind) (id block count : ℕ) :
    stage.after (.defer kind id block count) = stage := by
  cases stage <;> rfl

theorem after_retired (events : List Event) : events.foldl Stage.after .retired = .retired := by
  induction events with
  | nil => rfl
  | cons e events ih => exact ih

theorem foldl_frees (stage : Stage) (ds : List Deferred) :
    (ds.map Deferred.event).foldl Stage.after stage = stage := by
  induction ds with
  | nil => rfl
  | cons d ds ih =>
      rw [List.map_cons, List.foldl_cons, show stage.after d.event = stage by cases stage <;> rfl, ih]

theorem noFree_map {ds : List Deferred} (h : ∀ d ∈ ds, d.id ≠ id) :
    NoFree id (ds.map Deferred.event) := by
  intro e he
  obtain ⟨d, hd, rfl⟩ := List.mem_map.mp he
  exact h d hd

theorem Retired.append {kind : Kind} {block count : ℕ} (h : Retired kind id block count xs)
    (hys : NoFree id ys) : Retired kind id block count (xs ++ ys) := by
  obtain ⟨α, β, γ, δ, rfl, hstage, hdone, hα, hβ, hγ, hδ⟩ := h
  exact ⟨α, β, γ, δ ++ ys, by simp only [List.append_assoc, List.cons_append], hstage, hdone, hα,
    hβ, hγ, noFree_append.mpr ⟨hδ, hys⟩⟩

end Lists

theorem Ledger.mem_pending {l : Ledger} {stage : Stage} {d : Deferred} (h : d ∈ l.at stage) :
    d ∈ l.pending := by
  simp only [Ledger.pending, List.mem_append]
  cases stage with
  | newDecycle => exact Or.inr (Or.inr (Or.inr h))
  | decycle => exact Or.inr (Or.inr (Or.inl h))
  | derollup => exact Or.inr (Or.inl h)
  | defree => exact Or.inl h
  | retired => cases h

/-! ## The invariant -/

section Invariant
variable {l : Ledger}

theorem defer_pending (l : Ledger) (kind : Kind) (d : Deferred) :
    (l.defer kind d).pending.Perm (d :: l.pending) := by
  cases kind with
  | defree =>
      simp only [Ledger.pending, Ledger.defer, List.append_assoc]
      exact List.perm_middle
  | derollup =>
      simp only [Ledger.pending, Ledger.defer, List.append_assoc]
      exact (List.Perm.append_left _ List.perm_middle).trans List.perm_middle
  | newDecycle =>
      simp only [Ledger.pending, Ledger.defer, ← List.append_assoc]
      exact List.perm_append_singleton d _

theorem rollup_pending (l : Ledger) : l.rollup.pending.Perm l.pending := by
  simp only [Ledger.pending, Ledger.rollup, List.append_assoc, List.nil_append, List.append_nil]
  refine List.Perm.append_left _ ?_
  rw [← List.append_assoc, ← List.append_assoc]
  exact List.Perm.append_right _ List.perm_append_comm

theorem at_defer {kind : Kind} {d d' : Deferred} {stage : Stage} (h : d' ∈ l.at stage) :
    d' ∈ (l.defer kind d).at stage := by
  cases kind <;> cases stage <;>
    first | exact h | exact List.mem_append_left _ h

theorem at_rollup {d : Deferred} {stage : Stage} (h : d ∈ l.at stage) :
    d ∈ l.rollup.at (stage.after .rollup) := by
  cases stage with
  | newDecycle => exact h
  | decycle => exact List.mem_append_left _ (List.mem_append_right _ h)
  | derollup => exact List.mem_append_right _ h
  | defree => exact List.mem_append_left _ (List.mem_append_left _ h)
  | retired => cases h

theorem Ledger.Inv.defer (h : l.Inv) (kind : Kind) {d : Deferred} (hid : d.id = l.trace.length) :
    (l.defer kind d).Inv := by
  have hperm := defer_pending l kind d
  have htrace : (l.defer kind d).trace =
      l.trace ++ [.defer kind d.id d.block d.count] := by cases kind <;> rfl
  have hmem : ∀ d', d' ∈ (l.defer kind d).pending ↔ d' = d ∨ d' ∈ l.pending := fun d' =>
    hperm.mem_iff.trans List.mem_cons
  refine ⟨?_, fun d' hd => ?_, fun d' hd => ?_, ?_, ?_⟩
  · rw [(hperm.map Deferred.id).nodup_iff, List.map_cons, List.nodup_cons]
    refine ⟨fun hin => ?_, h.nodup⟩
    obtain ⟨d', hd', heq⟩ := List.mem_map.mp hin
    exact Nat.ne_of_lt (h.earlier d' hd') (heq.trans hid)
  · rw [htrace, List.length_append, List.length_singleton]
    cases (hmem d').mp hd with
    | inl heq => exact heq ▸ hid ▸ Nat.lt_succ_self _
    | inr hin => exact Nat.lt_succ_of_lt (h.earlier d' hin)
  · rw [htrace]
    cases (hmem d').mp hd with
    | inl heq => exact ⟨kind, List.mem_append_right _ (heq ▸ List.mem_singleton_self _)⟩
    | inr hin =>
        obtain ⟨kind', hk⟩ := h.deferred d' hin
        exact ⟨kind', List.mem_append_left _ hk⟩
  · intro τ kind' id block count events heq
    rw [htrace] at heq
    rcases split_append heq with ⟨rest, hl, rfl⟩ | ⟨front, rfl, hext⟩
    · obtain ⟨hid', hwait, hretired⟩ := h.placed τ kind' id block count rest hl
      have hstage : kind'.stageAfter (rest ++ [.defer kind d.id d.block d.count]) =
          kind'.stageAfter rest := by
        rw [stageAfter_append]
        exact after_defer _ _ _ _ _
      refine ⟨hid', fun hne => ?_, fun heq => ?_⟩
      · rw [hstage] at hne ⊢
        obtain ⟨⟨d', hd', hsame⟩, hfree⟩ := hwait hne
        exact ⟨⟨d', at_defer hd', hsame⟩,
          noFree_append.mpr ⟨hfree, noFree_cons.mpr ⟨fun h => h, noFree_nil⟩⟩⟩
      · rw [hstage] at heq
        obtain ⟨hgone, hret⟩ := hretired heq
        refine ⟨fun d' hd => ?_, hret.append (noFree_cons.mpr ⟨fun h => h, noFree_nil⟩)⟩
        cases (hmem d').mp hd with
        | inl hd' =>
            rw [hd', hid, hid', hl, List.length_append, List.length_cons]
            omega
        | inr hin => exact hgone d' hin
    · have hfront : front = [] := by
        cases front with
        | nil => rfl
        | cons x front =>
            have := congrArg List.length hext
            simp only [List.length_append, List.length_cons, List.length_nil] at this
            omega
      subst hfront
      rw [List.nil_append, List.cons.injEq, Event.defer.injEq] at hext
      obtain ⟨⟨rfl, rfl, rfl, rfl⟩, rfl⟩ := hext
      rw [List.append_nil]
      refine ⟨hid, fun _ => ⟨⟨d, ?_, rfl, rfl, rfl⟩, noFree_nil⟩, fun heq => ?_⟩
      · cases kind <;> exact List.mem_append_right _ (List.mem_singleton_self d)
      · cases kind <;> cases heq
  · intro τ id block count events heq
    rw [htrace] at heq
    rcases split_append heq with ⟨rest, hl, -⟩ | ⟨front, -, hext⟩
    · exact h.sourced τ id block count rest hl
    · have := List.mem_append_right front (List.mem_cons_self (a := Event.bfree id block count)
        (l := events))
      rw [← hext, List.mem_singleton] at this
      cases this

theorem Ledger.Inv.rollup (h : l.Inv) : l.rollup.Inv := by
  have hperm := rollup_pending l
  have hmem : ∀ d, d ∈ l.rollup.pending ↔ d ∈ l.pending := fun d => hperm.mem_iff
  have hsplit : ∀ τ x events, l.rollup.trace = τ ++ x :: events → x ≠ .rollup →
      ∃ rest, l.trace = τ ++ x :: rest ∧ events = rest ++ [.rollup] := by
    intro τ x events heq hne
    rcases split_append heq with hold | ⟨front, -, hext⟩
    · exact hold
    · have := List.mem_append_right front (List.mem_cons_self (a := x) (l := events))
      rw [← hext, List.mem_singleton] at this
      exact absurd this hne
  refine ⟨?_, fun d hd => ?_, fun d hd => ?_, ?_, ?_⟩
  · rw [(hperm.map Deferred.id).nodup_iff]
    exact h.nodup
  · rw [Ledger.rollup, List.length_append, List.length_singleton]
    exact Nat.lt_succ_of_lt (h.earlier d ((hmem d).mp hd))
  · obtain ⟨kind, hk⟩ := h.deferred d ((hmem d).mp hd)
    exact ⟨kind, List.mem_append_left _ hk⟩
  · intro τ kind id block count events heq
    obtain ⟨rest, hl, rfl⟩ := hsplit τ _ events heq nofun
    obtain ⟨hid, hwait, hretired⟩ := h.placed τ kind id block count rest hl
    have hstage : kind.stageAfter (rest ++ [.rollup]) = (kind.stageAfter rest).after .rollup :=
      stageAfter_append kind rest [.rollup]
    have hiff : kind.stageAfter (rest ++ [.rollup]) = .retired ↔
        kind.stageAfter rest = .retired := by
      rw [hstage]
      cases kind.stageAfter rest <;>
        first | exact ⟨fun _ => rfl, fun _ => rfl⟩ | exact ⟨nofun, nofun⟩
    refine ⟨hid, fun hne => ?_, fun heq => ?_⟩
    · obtain ⟨⟨d, hd, hsame⟩, hfree⟩ := hwait (hiff.not.mp hne)
      exact ⟨⟨d, hstage ▸ at_rollup hd, hsame⟩,
        noFree_append.mpr ⟨hfree, noFree_cons.mpr ⟨fun h => h, noFree_nil⟩⟩⟩
    · obtain ⟨hgone, hret⟩ := hretired (hiff.mp heq)
      exact ⟨fun d hd => hgone d ((hmem d).mp hd),
        hret.append (noFree_cons.mpr ⟨fun h => h, noFree_nil⟩)⟩
  · intro τ id block count events heq
    obtain ⟨rest, hl, -⟩ := hsplit τ _ events heq nofun
    exact h.sourced τ id block count rest hl

theorem commit_stage (kind : Kind) (rest : List Event) (ds : List Deferred) :
    kind.stageAfter (rest ++ .save :: (ds.map Deferred.event ++ [.done])) =
      (kind.stageAfter rest).after .done := by
  rw [stageAfter_append, List.foldl_cons, List.foldl_append,
    show (kind.stageAfter rest).after .save = kind.stageAfter rest by
      cases kind.stageAfter rest <;> rfl, foldl_frees]
  rfl

theorem Ledger.Inv.commit (h : l.Inv) : l.commit.Inv := by
  have hnodup := h.nodup
  rw [Ledger.pending, List.map_append, List.nodup_append] at hnodup
  obtain ⟨hdefree, hrest, hdisj⟩ := hnodup
  have hmem : ∀ d ∈ l.commit.pending, d ∈ l.pending := fun d hd => List.mem_append_right _ hd
  have hsplit : ∀ τ kind id block count events,
      l.commit.trace = τ ++ .defer kind id block count :: events →
      ∃ rest, l.trace = τ ++ .defer kind id block count :: rest ∧
        events = rest ++ .save :: (l.defree.map Deferred.event ++ [.done]) := by
    intro τ kind id block count events heq
    rcases split_append heq with hold | ⟨front, -, hext⟩
    · exact hold
    · have := List.mem_append_right front
        (List.mem_cons_self (a := Event.defer kind id block count) (l := events))
      rw [← hext, List.mem_cons, List.mem_append, List.mem_map, List.mem_singleton] at this
      rcases this with hx | ⟨d, -, hx⟩ | hx <;> cases hx
  have hnofree : ∀ id, (∀ d ∈ l.defree, d.id ≠ id) →
      NoFree id (.save :: (l.defree.map Deferred.event ++ [.done])) := fun id hne =>
    noFree_cons.mpr ⟨fun h => h, noFree_append.mpr ⟨noFree_map hne,
      noFree_cons.mpr ⟨fun h => h, noFree_nil⟩⟩⟩
  refine ⟨hrest, fun d hd => ?_, fun d hd => ?_, ?_, ?_⟩
  · rw [Ledger.commit, List.length_append]
    exact Nat.lt_add_right _ (h.earlier d (hmem d hd))
  · obtain ⟨kind, hk⟩ := h.deferred d (hmem d hd)
    exact ⟨kind, List.mem_append_left _ hk⟩
  · intro τ kind id block count events heq
    obtain ⟨rest, hl, rfl⟩ := hsplit τ kind id block count events heq
    obtain ⟨hid, hwait, hretired⟩ := h.placed τ kind id block count rest hl
    have hstage := commit_stage kind rest l.defree
    refine ⟨hid, fun hne => ?_, fun heq => ?_⟩
    · -- not yet in `defree`: nothing of it is freed
      rw [hstage] at hne
      have hstay : (kind.stageAfter rest).after .done = kind.stageAfter rest ∧
          kind.stageAfter rest ≠ .retired ∧ kind.stageAfter rest ≠ .defree := by
        cases hs : kind.stageAfter rest <;> rw [hs] at hne <;>
          first | exact absurd rfl hne | exact ⟨rfl, nofun, nofun⟩
      obtain ⟨⟨d, hd, hsame⟩, hfree⟩ := hwait hstay.2.1
      have hlater : d ∈ l.derollup ++ (l.decycle ++ l.newDecycle) := by
        have := Ledger.mem_pending hd
        rw [Ledger.pending, List.mem_append] at this
        cases hs : kind.stageAfter rest with
        | newDecycle =>
            rw [hs] at hd
            exact List.mem_append_right _ (List.mem_append_right _ hd)
        | decycle =>
            rw [hs] at hd
            exact List.mem_append_right _ (List.mem_append_left _ hd)
        | derollup =>
            rw [hs] at hd
            exact List.mem_append_left _ hd
        | defree => exact absurd hs hstay.2.2
        | retired => exact absurd hs hstay.2.1
      refine ⟨⟨d, ?_, hsame⟩, noFree_append.mpr ⟨hfree, hnofree id fun d' hd' hid' => ?_⟩⟩
      · rw [hstage, hstay.1]
        cases hs : kind.stageAfter rest <;> rw [hs] at hd hstay <;>
          first | exact hd | exact absurd rfl hstay.2.2
      · exact hdisj _ (List.mem_map_of_mem hd') _ (List.mem_map_of_mem hlater)
          (hid'.trans hsame.1.symm)
    · cases hs : kind.stageAfter rest with
      | retired =>
          obtain ⟨hgone, hret⟩ := hretired hs
          exact ⟨fun d hd => hgone d (hmem d hd),
            hret.append (hnofree id fun d hd => hgone d (List.mem_append_left _ hd))⟩
      | defree =>
          obtain ⟨⟨d, hd, rfl, rfl, rfl⟩, hfree⟩ := hwait (by rw [hs]; exact nofun)
          rw [hs] at hd
          change d ∈ l.defree at hd
          obtain ⟨p, q, hpq⟩ := List.append_of_mem hd
          rw [hpq, (List.perm_middle.map Deferred.id).nodup_iff, List.map_cons,
            List.nodup_cons] at hdefree
          have hothers : ∀ d' ∈ p ++ q, d'.id ≠ d.id := fun d' hd' heq' =>
            hdefree.1 (heq' ▸ List.mem_map_of_mem hd')
          refine ⟨fun d' hd' heq' => hdisj _ (List.mem_map_of_mem hd) _
            (List.mem_map_of_mem hd') heq'.symm, ?_⟩
          refine ⟨rest, p.map Deferred.event, q.map Deferred.event, [], ?_, hs, ?_, hfree,
            noFree_map fun d' hd' => hothers d' (List.mem_append_left _ hd'),
            noFree_map fun d' hd' => hothers d' (List.mem_append_right _ hd'), noFree_nil⟩
          · rw [hpq, List.map_append, List.map_cons, List.append_assoc, List.cons_append]
            rfl
          · rw [← List.map_append, List.mem_map]
            rintro ⟨d', -, hd'⟩
            cases hd'
      | newDecycle | decycle | derollup =>
          rw [hstage, hs] at heq
          cases heq
  · intro τ id block count events heq
    rcases split_append heq with ⟨rest, hl, -⟩ | ⟨front, rfl, hext⟩
    · exact h.sourced τ id block count rest hl
    · cases front with
      | nil => cases hext
      | cons x front =>
          rw [List.cons_append, List.cons.injEq] at hext
          obtain ⟨rfl, hext⟩ := hext
          have hin := List.mem_append_right front
            (List.mem_cons_self (a := Event.bfree id block count) (l := events))
          rw [← hext, List.mem_append, List.mem_map, List.mem_singleton] at hin
          rcases hin with ⟨d, hd, hx⟩ | hx
          · cases hx
            obtain ⟨kind, hk⟩ := h.deferred d (List.mem_append_left _ hd)
            obtain ⟨α, β, hαβ⟩ := List.append_of_mem hk
            refine ⟨kind, α, β ++ .save :: front, ?_, List.mem_append_right _ List.mem_cons_self⟩
            rw [hαβ, List.append_assoc, List.cons_append]
          · cases hx

theorem Ledger.Reachable.inv (h : l.Reachable) : l.Inv := by
  induction h with
  | empty =>
      refine ⟨List.nodup_nil, nofun, nofun, fun τ _ _ _ _ _ h => ?_, fun τ _ _ _ _ h => ?_⟩ <;>
        cases τ <;> cases h
  | defer _ kind d id ih => exact ih.defer kind id
  | rollup _ ih => exact ih.rollup
  | commit _ ih => exact ih.commit

end Invariant

/-! ## When an extent is freed -/

/-- The extent is not freed before the first commit of `events`, and only in it. -/
def FreedInFirstCommit (id block count : ℕ) (events : List Event) : Prop :=
  (Event.done ∉ events → NoFree id events) ∧
    ∀ τ ρ, events = τ ++ .done :: ρ → Event.done ∉ τ → FreedOnce id block count τ ∧ NoFree id ρ

/-- Deferred frees are exactly once and never early. -/
structure ExactlyOnce (trace : List Event) : Prop where
  ordinary : ∀ τ id block count ω, trace = τ ++ .defer .defree id block count :: ω →
    id = τ.length ∧ FreedInFirstCommit id block count ω
  bitmap : ∀ τ id block count ω, trace = τ ++ .defer .derollup id block count :: ω →
    id = τ.length ∧ (Event.rollup ∉ ω → NoFree id ω) ∧
      ∀ σ ω', ω = σ ++ .rollup :: ω' → Event.rollup ∉ σ →
        NoFree id σ ∧ FreedInFirstCommit id block count ω'
  logBlock : ∀ τ id block count ω, trace = τ ++ .defer .newDecycle id block count :: ω →
    id = τ.length ∧ (Event.rollup ∉ ω → NoFree id ω) ∧
      ∀ σ ω', ω = σ ++ .rollup :: ω' → Event.rollup ∉ σ →
        NoFree id σ ∧ (Event.rollup ∉ ω' → NoFree id ω') ∧
          ∀ σ' ω'', ω' = σ' ++ .rollup :: ω'' → Event.rollup ∉ σ' →
            NoFree id σ' ∧ FreedInFirstCommit id block count ω''
  saved : ∀ τ id block count ω, trace = τ ++ .bfree id block count :: ω →
    ∃ kind α β, τ = α ++ .defer kind id block count :: β ∧ Event.save ∈ β

section Fate
variable {l : Ledger} {kind : Kind} {id block count : ℕ}

theorem after_defree {events : List Event} (h : Event.done ∉ events) :
    events.foldl Stage.after .defree = .defree := by
  induction events with
  | nil => rfl
  | cons e events ih =>
      rw [List.mem_cons, not_or] at h
      rw [List.foldl_cons]
      cases e with
      | done => exact absurd rfl h.1
      | defer | rollup | save | bfree => exact ih h.2

theorem after_waiting (stage : Stage) (hs : stage ≠ .defree) {events : List Event}
    (h : Event.rollup ∉ events) : events.foldl Stage.after stage = stage := by
  induction events with
  | nil => rfl
  | cons e events ih =>
      rw [List.mem_cons, not_or] at h
      rw [List.foldl_cons]
      cases e with
      | rollup => exact absurd rfl h.1
      | defer | save | bfree | done =>
          cases stage <;> first | exact absurd rfl hs | exact ih h.2

/-- The first occurrence of `x` cuts a list in one way. -/
theorem cut_unique {α : Type} {x : α} {xs ys as bs : List α} (h : xs ++ x :: ys = as ++ x :: bs)
    (hx : x ∉ xs) (ha : x ∉ as) : xs = as ∧ ys = bs := by
  induction xs generalizing as with
  | nil =>
      cases as with
      | nil => exact ⟨rfl, (List.cons.inj h).2⟩
      | cons a as => exact absurd ((List.cons.inj h).1 ▸ List.mem_cons_self) ha
  | cons y xs ih =>
      cases as with
      | nil => exact absurd ((List.cons.inj h).1 ▸ List.mem_cons_self) hx
      | cons a as =>
          obtain ⟨rfl, htail⟩ := List.cons.inj h
          obtain ⟨rfl, rfl⟩ := ih htail (fun hm => hx (List.mem_cons_of_mem _ hm))
            (fun hm => ha (List.mem_cons_of_mem _ hm))
          exact ⟨rfl, rfl⟩

/-- An extent that gets to `defree` right after the events `pre` is freed in the first commit
after them. -/
theorem Ledger.Placed.freed {pre ω : List Event} (h : l.Placed kind id block count (pre ++ ω))
    (hpre : kind.stageAfter pre = .defree)
    (hfirst : ∀ p e q, pre = p ++ e :: q → kind.stageAfter p ≠ .defree) :
    NoFree id pre ∧ FreedInFirstCommit id block count ω := by
  have hstage : kind.stageAfter (pre ++ ω) = ω.foldl Stage.after .defree := by
    rw [stageAfter_append, hpre]
  by_cases hω : Event.done ∈ ω
  · obtain ⟨τ, ρ, rfl, hτ⟩ := List.eq_append_cons_of_mem hω
    have hret : kind.stageAfter (pre ++ (τ ++ .done :: ρ)) = .retired := by
      rw [hstage, List.foldl_append, after_defree hτ, List.foldl_cons]
      exact after_retired ρ
    obtain ⟨α, β, γ, δ, heq, hα, hdone, hfα, hfβ, hfγ, hfδ⟩ := (h.retired hret).2
    obtain ⟨α', rfl⟩ : ∃ α', α = pre ++ α' := by
      rcases List.append_eq_append_iff.mp heq with ⟨rest, hrest, -⟩ | ⟨rest, hrest, -⟩
      · exact ⟨rest, hrest⟩
      · cases rest with
        | nil => exact ⟨[], by rw [hrest, List.append_nil, List.append_nil]⟩
        | cons e rest => exact absurd hα (hfirst α e rest hrest)
    rw [List.append_assoc, List.append_cancel_left_eq] at heq
    rw [noFree_append] at hfα
    have hα' : Event.done ∉ α' := by
      intro hmem
      obtain ⟨a, b, rfl, ha⟩ := List.eq_append_cons_of_mem hmem
      rw [stageAfter_append, hpre, List.foldl_append, after_defree ha, List.foldl_cons] at hα
      rw [show Stage.defree.after .done = .retired from rfl, after_retired] at hα
      cases hα
    rw [show α' ++ .save :: (β ++ .bfree id block count :: (γ ++ .done :: δ)) =
        (α' ++ .save :: (β ++ .bfree id block count :: γ)) ++ .done :: δ by
      simp only [List.append_assoc, List.cons_append]] at heq
    rw [List.mem_append, not_or] at hdone
    obtain ⟨rfl, rfl⟩ := cut_unique heq hτ (by
      simp only [List.mem_append, List.mem_cons, reduceCtorEq, false_or, not_or]
      exact ⟨hα', hdone⟩)
    refine ⟨hfα.1, fun hno => absurd hω hno, fun τ' ρ' heq' hτ' => ?_⟩
    obtain ⟨rfl, rfl⟩ := cut_unique heq' hτ hτ'
    exact ⟨⟨α', β, γ, rfl, hfα.2, hfβ, hfγ⟩, hfδ⟩
  · have hwait := (h.waiting (by rw [hstage, after_defree hω]; exact nofun)).2
    rw [noFree_append] at hwait
    refine ⟨hwait.1, fun _ => hwait.2, fun τ ρ heq _ => ?_⟩
    exact absurd (heq ▸ List.mem_append_right _ List.mem_cons_self) hω

/-- A proper prefix of `σ ++ [e]` is a prefix of `σ`. -/
theorem prefix_of_concat {α : Type} {σ p q : List α} {e x : α} (h : σ ++ [e] = p ++ x :: q) :
    ∃ r, σ = p ++ r := by
  rcases split_append h with ⟨rest, hl, -⟩ | ⟨front, hp, hext⟩
  · exact ⟨x :: rest, hl⟩
  · cases front with
    | nil => exact ⟨[], by rw [hp, List.append_nil, List.append_nil]⟩
    | cons y front =>
        have := congrArg List.length hext
        simp only [List.length_append, List.length_cons, List.length_nil] at this
        omega

theorem concat_append {α : Type} (σ ω : List α) (e : α) : σ ++ e :: ω = (σ ++ [e]) ++ ω := by
  rw [List.append_assoc, List.singleton_append]

/-- A rollup takes an extent from `derollup` to `defree`. -/
theorem derollup_due {σ : List Event} (hσ : Event.rollup ∉ σ) :
    Kind.derollup.stageAfter (σ ++ [.rollup]) = .defree ∧
      ∀ p e q, σ ++ [.rollup] = p ++ e :: q → Kind.derollup.stageAfter p ≠ .defree := by
  constructor
  · rw [stageAfter_append, show Kind.derollup.stageAfter σ = .derollup from
      after_waiting .derollup (by decide) hσ]
    rfl
  · intro p e q hp
    obtain ⟨r, rfl⟩ := prefix_of_concat hp
    rw [show Kind.derollup.stageAfter p = .derollup from
      after_waiting .derollup (by decide) fun hm => hσ (List.mem_append_left _ hm)]
    decide

/-- Two rollups take a log block from `new_decycle` to `defree`. -/
theorem newDecycle_due {σ σ' : List Event} (hσ : Event.rollup ∉ σ) (hσ' : Event.rollup ∉ σ') :
    Kind.newDecycle.stageAfter (σ ++ [.rollup] ++ σ') = .decycle ∧
      Kind.newDecycle.stageAfter (σ ++ [.rollup] ++ (σ' ++ [.rollup])) = .defree ∧
      ∀ p e q, σ ++ [.rollup] ++ (σ' ++ [.rollup]) = p ++ e :: q →
        Kind.newDecycle.stageAfter p ≠ .defree := by
  have hone : ∀ ξ, Event.rollup ∉ ξ →
      Kind.newDecycle.stageAfter (σ ++ [.rollup] ++ ξ) = .decycle := by
    intro ξ hξ
    rw [stageAfter_append, stageAfter_append, show Kind.newDecycle.stageAfter σ = .newDecycle from
      after_waiting .newDecycle (by decide) hσ]
    exact after_waiting .decycle (by decide) hξ
  refine ⟨hone σ' hσ', ?_, fun p e q hp => ?_⟩
  · rw [← List.append_assoc, stageAfter_append, hone σ' hσ']
    rfl
  · rcases split_append hp with ⟨rest, hl, -⟩ | ⟨front, rfl, hext⟩
    · obtain ⟨r, rfl⟩ := prefix_of_concat hl
      rw [show Kind.newDecycle.stageAfter p = .newDecycle from
        after_waiting .newDecycle (by decide) fun hm => hσ (List.mem_append_left _ hm)]
      decide
    · obtain ⟨r, rfl⟩ := prefix_of_concat hext
      rw [hone front fun hm => hσ' (List.mem_append_left _ hm)]
      decide

theorem Ledger.Inv.exactlyOnce (h : l.Inv) : ExactlyOnce l.trace where
  ordinary τ id block count ω heq := by
    obtain ⟨hid, hplaced⟩ := h.placed τ _ id block count ω heq
    refine ⟨hid, (@Ledger.Placed.freed l _ id block count [] ω hplaced rfl fun p e q hp => ?_).2⟩
    cases p <;> cases hp
  bitmap τ id block count ω heq := by
    obtain ⟨hid, hplaced⟩ := h.placed τ _ id block count ω heq
    refine ⟨hid, fun hno => ?_, fun σ ω' hω hσ => ?_⟩
    · have hstage : Kind.derollup.stageAfter ω = .derollup :=
        after_waiting .derollup (by decide) hno
      exact (hplaced.waiting (by rw [hstage]; decide)).2
    · rw [hω, concat_append] at hplaced
      obtain ⟨hdue, hfirst⟩ := derollup_due hσ
      obtain ⟨hfree, hfreed⟩ := hplaced.freed hdue hfirst
      exact ⟨(noFree_append.mp hfree).1, hfreed⟩
  logBlock τ id block count ω heq := by
    obtain ⟨hid, hplaced⟩ := h.placed τ _ id block count ω heq
    refine ⟨hid, fun hno => ?_, fun σ ω' hω hσ => ?_⟩
    · have hstage : Kind.newDecycle.stageAfter ω = .newDecycle :=
        after_waiting .newDecycle (by decide) hno
      exact (hplaced.waiting (by rw [hstage]; decide)).2
    · rw [hω, concat_append] at hplaced
      have hsecond : ∀ σ' ω'', ω' = σ' ++ .rollup :: ω'' → Event.rollup ∉ σ' →
          NoFree id σ ∧ NoFree id σ' ∧ FreedInFirstCommit id block count ω'' := by
        intro σ' ω'' hω' hσ'
        rw [hω', concat_append σ' ω'', ← List.append_assoc] at hplaced
        obtain ⟨-, hdue, hfirst⟩ := newDecycle_due hσ hσ'
        obtain ⟨hfree, hfreed⟩ := hplaced.freed hdue hfirst
        simp only [noFree_append] at hfree
        exact ⟨hfree.1.1, hfree.2.1, hfreed⟩
      have hwait : Event.rollup ∉ ω' → NoFree id σ ∧ NoFree id ω' := by
        intro hno
        have hfree := (hplaced.waiting (by rw [(newDecycle_due hσ hno).1]; decide)).2
        rw [noFree_append, noFree_append] at hfree
        exact ⟨hfree.1.1, hfree.2⟩
      refine ⟨?_, fun hno => (hwait hno).2, fun σ' ω'' hω' hσ' => (hsecond σ' ω'' hω' hσ').2⟩
      by_cases hin : Event.rollup ∈ ω'
      · obtain ⟨σ', ω'', hω', hσ'⟩ := List.eq_append_cons_of_mem hin
        exact (hsecond σ' ω'' hω' hσ').1
      · exact (hwait hin).1
  saved := h.sourced

end Fate

end Tux3.Commit
