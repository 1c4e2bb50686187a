import Mathlib.Data.List.Basic
import Mathlib.Data.List.Nodup
import Mathlib.Logic.Function.Basic
import Mathlib.Tactic.Common

/-!
# Hash chains

Buckets with singly linked chains of nodes, where a node also has the address of the pointer that
points to it, so that it can be taken out without a walk.
-/
namespace HashChains

variable {B N : Type*}

/-- `pprev` is the address of a bucket, `.inl`, or of the `next` of a node, `.inr`. -/
structure Table (B N : Type*) where
  first : B → Option N
  next : N → Option N
  pprev : N → Option (B ⊕ N)

/-- What is stored at an address. -/
def Table.load (T : Table B N) : B ⊕ N → Option N
  | .inl b => T.first b
  | .inr n => T.next n

/-- From an address on, the nodes `l` up to the null pointer. -/
def Path (T : Table B N) : B ⊕ N → List N → Prop
  | p, [] => T.load p = none
  | p, x :: l => T.load p = some x ∧ T.pprev x = some p ∧ Path T (.inr x) l

variable {T T' : Table B N} {p : B ⊕ N} {x : N} {l l₁ l₂ : List N}

@[simp] theorem path_nil : Path T p [] ↔ T.load p = none := Iff.rfl

@[simp] theorem path_cons :
    Path T p (x :: l) ↔ T.load p = some x ∧ T.pprev x = some p ∧ Path T (.inr x) l := Iff.rfl

theorem Path.congr (h : Path T p l) (hload : ∀ q ∈ p :: l.map Sum.inr, T'.load q = T.load q)
    (hpprev : ∀ y ∈ l, T'.pprev y = T.pprev y) : Path T' p l := by
  induction l generalizing p with
  | nil => exact (hload p List.mem_cons_self).trans h
  | cons x l ih =>
      obtain ⟨h1, h2, h3⟩ := h
      refine ⟨(hload p List.mem_cons_self).trans h1, (hpprev x List.mem_cons_self).trans h2, ?_⟩
      apply ih h3
      · intro q hq
        exact hload q (List.mem_cons_of_mem _ hq)
      · intro y hy
        exact hpprev y (List.mem_cons_of_mem _ hy)

/-- The search of a chain; there is no result when the fuel runs out. -/
def Table.find (T : Table B N) (pred : N → Bool) : ℕ → B ⊕ N → Option (Option N)
  | 0, _ => none
  | fuel + 1, p =>
      match T.load p with
      | none => some none
      | some x => if pred x then some (some x) else T.find pred fuel (.inr x)

theorem Path.find (h : Path T p l) (pred : N → Bool) {fuel : ℕ} (hfuel : l.length < fuel) :
    T.find pred fuel p = some (l.find? pred) := by
  induction fuel generalizing p l with
  | zero => exact absurd hfuel (Nat.not_lt_zero _)
  | succ fuel ih =>
      cases l with
      | nil => simp [Table.find, path_nil.mp h]
      | cons x l =>
          obtain ⟨h1, -, h3⟩ := h
          cases hpred : pred x with
          | true => simp [Table.find, h1, hpred]
          | false =>
              have hrest := ih h3 (Nat.lt_of_succ_lt_succ hfuel)
              simpa [Table.find, h1, hpred] using hrest

theorem Path.around (h : Path T p (l₁ ++ x :: l₂)) :
    (∃ q ∈ p :: l₁.map Sum.inr, T.pprev x = some q) ∧ ∀ z, T.next x = some z → z ∈ l₂ := by
  induction l₁ generalizing p with
  | nil =>
      obtain ⟨-, h2, h3⟩ := h
      refine ⟨⟨p, List.mem_cons_self, h2⟩, fun z hz => ?_⟩
      cases l₂ with
      | nil =>
          change T.next x = none at h3
          rw [hz] at h3
          cases h3
      | cons y l₂ =>
          have h4 : T.next x = some y := h3.1
          rw [hz, Option.some_inj] at h4
          exact h4 ▸ List.mem_cons_self
  | cons y l₁ ih =>
      obtain ⟨⟨q, hq, hpprev⟩, hnext⟩ := ih h.2.2
      exact ⟨⟨q, List.mem_cons_of_mem _ hq, hpprev⟩, hnext⟩

section Operations
variable [DecidableEq N] {q : B ⊕ N} {v y : Option N} {z : N}

/-- `if (first) first->pprev = ...`. -/
def Table.point (T : Table B N) (x : Option N) (p : B ⊕ N) : Table B N :=
  match x with
  | some x => { T with pprev := Function.update T.pprev x (some p) }
  | none => T

/-- `INIT_HLIST_NODE`. -/
def Table.initNode (T : Table B N) (n : N) : Table B N :=
  { T with
    next := Function.update T.next n none
    pprev := Function.update T.pprev n none }

@[simp] theorem point_load : (T.point y p).load = T.load := by
  funext q
  cases y <;> cases q <;> rfl

theorem point_pprev_of_ne (h : y ≠ some z) : (T.point y p).pprev z = T.pprev z := by
  cases y with
  | none => rfl
  | some x => exact Function.update_of_ne (fun heq => h (by rw [heq])) _ _

@[simp] theorem point_pprev_self : (T.point (some x) p).pprev x = some p :=
  Function.update_self _ _ _

theorem initNode_load_of_ne (h : q ≠ .inr z) : (T.initNode z).load q = T.load q := by
  cases q with
  | inl b => rfl
  | inr n => exact Function.update_of_ne (fun heq => h (by rw [heq])) _ _

theorem initNode_pprev_of_ne (h : x ≠ z) : (T.initNode z).pprev x = T.pprev x :=
  Function.update_of_ne h _ _

variable [DecidableEq B]

def Table.store (T : Table B N) (p : B ⊕ N) (v : Option N) : Table B N :=
  match p with
  | .inl b => { T with first := Function.update T.first b v }
  | .inr n => { T with next := Function.update T.next n v }

@[simp] theorem store_load_self : (T.store p v).load p = v := by
  cases p <;> simp [Table.store, Table.load]

theorem store_load_of_ne (h : q ≠ p) : (T.store p v).load q = T.load q := by
  cases p <;> cases q <;> simp_all [Table.store, Table.load]

@[simp] theorem store_pprev : (T.store p v).pprev = T.pprev := by
  cases p <;> rfl

/-- `hlist_add_head`. -/
def Table.addHead (T : Table B N) (n : N) (b : B) : Table B N :=
  let first := T.first b
  let T := (T.store (.inr n) first).point first (.inr n)
  (T.store (.inl b) (some n)).point (some n) (.inl b)

/-- `hlist_del_init`. -/
def Table.delInit (T : Table B N) (n : N) : Table B N :=
  match T.pprev n with
  | none => T
  | some p =>
      let next := T.next n
      ((T.store p next).point next p).initNode n

theorem delInit_eq (h : T.pprev x = some p) :
    T.delInit x = ((T.store p (T.next x)).point (T.next x) p).initNode x := by
  rw [Table.delInit, h]

theorem delInit_load (h : T.pprev x = some p) (hq : q ≠ p) (hqx : q ≠ .inr x) :
    (T.delInit x).load q = T.load q := by
  rw [delInit_eq h, initNode_load_of_ne hqx, point_load, store_load_of_ne hq]

theorem delInit_load_self (h : T.pprev x = some p) (hpx : p ≠ .inr x) :
    (T.delInit x).load p = T.next x := by
  rw [delInit_eq h, initNode_load_of_ne hpx, point_load, store_load_self]

theorem delInit_pprev (h : T.pprev x = some p) (hz : z ≠ x) (hnext : T.next x ≠ some z) :
    (T.delInit x).pprev z = T.pprev z := by
  rw [delInit_eq h, initNode_pprev_of_ne hz, point_pprev_of_ne hnext, store_pprev]

theorem Path.delInit_frame (h : Path T q l) (hx : T.pprev x = some p) (hp : p ∉ q :: l.map Sum.inr)
    (hqx : q ≠ .inr x) (hmem : x ∉ l) (hnext : ∀ z ∈ l, T.next x ≠ some z) :
    Path (T.delInit x) q l := by
  apply h.congr
  · intro r hr
    apply delInit_load hx
    · rintro rfl
      exact hp hr
    · rintro rfl
      simp [hqx.symm, hmem] at hr
  · intro z hz
    exact delInit_pprev hx (ne_of_mem_of_not_mem hz hmem) (hnext z hz)

/-- The head of a chain is taken out. -/
theorem Path.delInit_head (h : Path T p (x :: l)) (hp : p ∉ (x :: l).map Sum.inr)
    (hnodup : (x :: l).Nodup) : Path (T.delInit x) p l := by
  obtain ⟨-, hx, h⟩ := h
  obtain ⟨hxl, hl⟩ := List.nodup_cons.mp hnodup
  have hpx : p ≠ .inr x := by
    rintro rfl
    simp at hp
  have hpl : p ∉ l.map Sum.inr := fun hmem => hp (List.mem_cons_of_mem _ hmem)
  have hself := delInit_load_self hx hpx
  cases l with
  | nil => exact hself.trans h
  | cons y l =>
      obtain ⟨h1, h2, h3⟩ := h
      change T.next x = some y at h1
      have hyx : y ≠ x := fun heq => hxl (heq ▸ List.mem_cons_self)
      refine ⟨hself.trans h1, ?_, h3.delInit_frame hx hpl ?_ ?_ ?_⟩
      · rw [delInit_eq hx, initNode_pprev_of_ne hyx, h1, point_pprev_self]
      · intro heq
        exact hyx (Sum.inr.inj heq)
      · exact fun hmem => hxl (List.mem_cons_of_mem _ hmem)
      · intro z hz heq
        rw [h1, Option.some_inj] at heq
        exact (List.nodup_cons.mp hl).1 (heq ▸ hz)

/-- A node of a chain is taken out. -/
theorem Path.delInit (h : Path T p (l₁ ++ x :: l₂)) (hp : p ∉ (l₁ ++ x :: l₂).map Sum.inr)
    (hnodup : (l₁ ++ x :: l₂).Nodup) : Path (T.delInit x) p (l₁ ++ l₂) := by
  induction l₁ generalizing p with
  | nil => exact h.delInit_head hp hnodup
  | cons y l₁ ih =>
      obtain ⟨h1, h2, h3⟩ := h
      obtain ⟨⟨q, hq, hx⟩, hnext⟩ := h3.around
      obtain ⟨hy, hrest⟩ := List.nodup_cons.mp hnodup
      refine ⟨?_, ?_, ih h3 (by simpa using hy) hrest⟩
      · rw [delInit_load hx, h1]
        · rintro rfl
          simp at hp hq
          grind
        · rintro rfl
          simp at hp
      · rw [delInit_pprev hx, h2]
        · rintro rfl
          simp at hy
        · intro hz
          apply hy
          simp [hnext y hz]

/-- A new node at the head of a chain. -/
theorem Path.addHead {b : B} (h : Path T (.inl b) l) (hx : x ∉ l) (hnodup : l.Nodup) :
    Path (T.addHead x b) (.inl b) (x :: l) := by
  have hload : ∀ q, q ≠ .inl b → q ≠ .inr x → (T.addHead x b).load q = T.load q := by
    intro q hqb hqx
    simp only [Table.addHead, point_load]
    rw [store_load_of_ne hqb, point_load, store_load_of_ne hqx]
  have hnext : (T.addHead x b).load (.inr x) = T.first b := by
    simp only [Table.addHead, point_load]
    rw [store_load_of_ne (by simp), point_load, store_load_self]
  refine ⟨by simp [Table.addHead], by simp [Table.addHead], ?_⟩
  cases l with
  | nil => exact hnext.trans h
  | cons y l =>
      obtain ⟨h1, -, h3⟩ := h
      change T.first b = some y at h1
      have hyx : some x ≠ some y := by
        rintro ⟨⟩
        exact hx List.mem_cons_self
      refine ⟨hnext.trans h1, ?_, h3.congr ?_ ?_⟩
      · simp only [Table.addHead, h1]
        rw [point_pprev_of_ne hyx, store_pprev, point_pprev_self]
      · intro q hq
        apply hload
        · rintro rfl
          simp at hq
        · rintro rfl
          simp at hq
          exact hx (by simpa using hq)
      · intro z hz
        have hzx : some x ≠ some z := by
          rintro ⟨⟩
          exact hx (List.mem_cons_of_mem _ hz)
        have hzy : some y ≠ some z := by
          rintro ⟨⟩
          exact (List.nodup_cons.mp hnodup).1 hz
        simp only [Table.addHead, h1]
        rw [point_pprev_of_ne hzx, store_pprev, point_pprev_of_ne hzy, store_pprev]

/-! ## The chains of a table -/

/-- No node is in two chains. -/
structure Chains (T : Table B N) (items : B → List N) : Prop where
  path : ∀ b, Path T (.inl b) (items b)
  nodup : ∀ b, (items b).Nodup
  apart : ∀ b c, b ≠ c → ∀ x ∈ items b, x ∉ items c

variable {items : B → List N}

omit [DecidableEq B] in
theorem Chains.initNode (h : Chains T items) (hx : ∀ b, x ∉ items b) :
    Chains (T.initNode x) items := by
  refine ⟨fun b => (h.path b).congr ?_ ?_, h.nodup, h.apart⟩
  · intro q hq
    apply initNode_load_of_ne
    rintro rfl
    simp [hx b] at hq
  · intro z hz
    exact initNode_pprev_of_ne (ne_of_mem_of_not_mem hz (hx b))

theorem Chains.delInit (h : Chains T items) {b : B} (hx : x ∈ items b) :
    Chains (T.delInit x) fun c => (items c).erase x := by
  refine ⟨fun c => ?_, fun c => (h.nodup c).erase x, ?_⟩
  · obtain ⟨l₁, l₂, heq⟩ := List.append_of_mem hx
    have hpath := h.path b
    have hnodup := h.nodup b
    rw [heq] at hpath hnodup
    by_cases hcb : c = b
    · subst hcb
      have hx₁ : x ∉ l₁ := fun hmem =>
        (List.nodup_append.mp hnodup).2.2 x hmem x List.mem_cons_self rfl
      rw [heq, List.erase_append_right _ hx₁, List.erase_cons_head]
      exact hpath.delInit (by simp) hnodup
    · have hout : ∀ z ∈ items c, z ∉ items b := h.apart c b hcb
      obtain ⟨⟨q, hq, hpprev⟩, hnext⟩ := hpath.around
      have hxc : x ∉ items c := fun hmem => hout x hmem hx
      rw [List.erase_of_not_mem hxc]
      apply (h.path c).delInit_frame hpprev
      · intro hmem
        rcases List.mem_cons.mp hq with rfl | hq
        · simp [Ne.symm hcb] at hmem
        · obtain ⟨z, hz, rfl⟩ := List.mem_map.mp hq
          simp only [List.mem_cons, reduceCtorEq, List.mem_map, Sum.inr.injEq, exists_eq_right,
            false_or] at hmem
          apply hout z hmem
          rw [heq]
          exact List.mem_append_left _ hz
      · simp
      · exact hxc
      · intro z hz hn
        apply hout z hz
        rw [heq]
        exact List.mem_append_right _ (List.mem_cons_of_mem _ (hnext z hn))
  · intro c d hcd z hz hmem
    exact h.apart c d hcd z (List.mem_of_mem_erase hz) (List.mem_of_mem_erase hmem)

theorem Chains.addHead (h : Chains T items) (b : B) (hx : ∀ c, x ∉ items c) :
    Chains (T.addHead x b) (Function.update items b (x :: items b)) := by
  refine ⟨fun c => ?_, fun c => ?_, ?_⟩
  · by_cases hcb : c = b
    · subst hcb
      rw [Function.update_self]
      exact (h.path c).addHead (hx c) (h.nodup c)
    · rw [Function.update_of_ne hcb]
      apply (h.path c).congr
      · intro q hq
        simp only [Table.addHead, point_load]
        rw [store_load_of_ne, point_load, store_load_of_ne]
        · rintro rfl
          simp at hq
          exact hx c hq
        · rintro rfl
          simp [Ne.symm hcb] at hq
      · intro z hz
        have hzx : some x ≠ some z := by
          rintro ⟨⟩
          exact hx c hz
        have hzf : T.first b ≠ some z := by
          intro hfirst
          have hpath := h.path b
          cases hb : items b with
          | nil =>
              rw [hb] at hpath
              change T.first b = none at hpath
              rw [hfirst] at hpath
              cases hpath
          | cons y l =>
              rw [hb] at hpath
              have hy : T.first b = some y := hpath.1
              rw [hfirst, Option.some_inj] at hy
              exact h.apart c b hcb z hz (by rw [hb, hy]; exact List.mem_cons_self)
        simp only [Table.addHead]
        rw [point_pprev_of_ne hzx, store_pprev, point_pprev_of_ne hzf, store_pprev]
  · by_cases hcb : c = b
    · subst hcb
      rw [Function.update_self]
      exact List.nodup_cons.mpr ⟨hx c, h.nodup c⟩
    · rw [Function.update_of_ne hcb]
      exact h.nodup c
  · intro c d hcd z hz hmem
    have hin : ∀ e, z ∈ Function.update items b (x :: items b) e → z ∈ items e ∨ (e = b ∧ z = x) := by
      intro e he
      by_cases heb : e = b
      · subst heb
        simp at he
        tauto
      · rw [Function.update_of_ne heb] at he
        exact Or.inl he
    rcases hin c hz with hz | ⟨hc, hzx⟩
    · rcases hin d hmem with hmem | ⟨-, hzx⟩
      · exact h.apart c d hcd z hz hmem
      · exact hx c (hzx ▸ hz)
    · rcases hin d hmem with hmem | ⟨hd, -⟩
      · exact hx d (hzx ▸ hmem)
      · exact hcd (hc.trans hd.symm)

end Operations

end HashChains
