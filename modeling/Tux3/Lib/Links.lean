import Mathlib.Data.List.Induction
import Mathlib.Data.List.Nodup
import Mathlib.Logic.Function.Basic
import Mathlib.Tactic.Common

/-!
# Doubly linked circular lists

Nodes with links to the next and the previous node, the operations that change the links of a few
nodes, and what the lists hold before and after. A path is a stretch of a list; a list is a path from
its head back to it.
-/
namespace Links

structure Heap (N : Type*) where
  next : N → N
  prev : N → N

variable {N : Type*}

/-- From `a` through `l` to `b`, linked both ways. -/
def Path (L : Heap N) : N → List N → N → Prop
  | a, [], b => L.next a = b ∧ L.prev b = a
  | a, x :: l, b => L.next a = x ∧ L.prev x = a ∧ Path L x l b

variable {L L' : Heap N} {a b x p : N} {l l₁ l₂ : List N}

@[simp] theorem path_nil : Path L a [] b ↔ L.next a = b ∧ L.prev b = a := Iff.rfl

@[simp] theorem path_cons :
    Path L a (x :: l) b ↔ L.next a = x ∧ L.prev x = a ∧ Path L x l b := Iff.rfl

@[simp] theorem path_append :
    Path L a (l₁ ++ x :: l₂) b ↔ Path L a l₁ x ∧ Path L x l₂ b := by
  induction l₁ generalizing a with
  | nil => simp [and_assoc]
  | cons y l₁ ih => simp [ih, and_assoc]

theorem Path.congr (h : Path L a l b) (hnext : ∀ y ∈ a :: l, L'.next y = L.next y)
    (hprev : ∀ y ∈ l ++ [b], L'.prev y = L.prev y) : Path L' a l b := by
  induction l generalizing a with
  | nil => simpa [hnext a, hprev b] using h
  | cons x l ih =>
      obtain ⟨h1, h2, h3⟩ := h
      refine ⟨(hnext a (by simp)).trans h1, (hprev x (by simp)).trans h2, ih h3 ?_ ?_⟩
      · intro y hy
        exact hnext y (List.mem_cons_of_mem _ hy)
      · intro y hy
        exact hprev y (List.mem_cons_of_mem _ hy)

theorem Path.next_eq (h : Path L a l b) : L.next a = l.head?.getD b := by
  cases l with
  | nil => exact h.1
  | cons x l => exact h.1

theorem Path.prev_eq (h : Path L a l b) : L.prev b = l.getLast?.getD a := by
  cases l using List.reverseRecOn with
  | nil => exact h.2
  | append_singleton l p =>
      rw [path_append] at h
      simpa using h.2.2

theorem Path.next_mem (h : Path L a l b) : L.next a ∈ l ++ [b] := by
  rw [h.next_eq]
  cases l <;> simp

theorem Path.prev_mem (h : Path L a l b) : L.prev b ∈ a :: l := by
  rw [h.prev_eq]
  cases l using List.reverseRecOn <;> simp

theorem Path.before (h : Path L a l₁ x)
    (hframe : ∀ l p, l₁ = l ++ [p] → Path L a l p → Path L' a l p)
    (hrest : Path L' (L.prev x) l₂ b) : Path L' a (l₁ ++ l₂) b := by
  rw [h.prev_eq] at hrest
  cases l₁ using List.reverseRecOn with
  | nil => simpa using hrest
  | append_singleton l p =>
      rw [path_append] at h
      simp only [List.getLast?_concat, Option.getD_some] at hrest
      rw [List.append_assoc, List.singleton_append, path_append]
      exact ⟨hframe l p rfl h.1, hrest⟩

theorem Path.after (h : Path L x l b) (hnext : L'.next p = L.next x)
    (hprev : L'.prev (L.next x) = p)
    (hframe : ∀ n m, l = n :: m → Path L n m b → Path L' n m b) : Path L' p l b := by
  rw [h.next_eq] at hnext hprev
  cases l with
  | nil => exact ⟨hnext, hprev⟩
  | cons n m => exact ⟨hnext, hprev, hframe n m rfl h.2.2⟩

/-! ## Lists -/

/-- The list with the head `a` holds `l`. -/
structure Holds (L : Heap N) (a : N) (l : List N) : Prop where
  path : Path L a l a
  nodup : (a :: l).Nodup

theorem Holds.not_mem (h : Holds L a l) : a ∉ l := (List.nodup_cons.mp h.nodup).1

theorem Holds.next_eq_head (h : Holds L a l) : L.next a = a ↔ l = [] := by
  rw [h.path.next_eq]
  cases l with
  | nil => simp
  | cons x l =>
      have hne : x ≠ a := fun heq => h.not_mem (heq ▸ List.mem_cons_self)
      simpa using hne

theorem Holds.next_mem (h : Holds L a l) : L.next a ∈ a :: l := by
  have hmem := h.path.next_mem
  simpa [or_comm] using hmem

theorem Holds.prev_mem (h : Holds L a l) : L.prev a ∈ a :: l := h.path.prev_mem

theorem Holds.around_mem (h : Holds L a l) (hx : x ∈ l) :
    L.prev x ∈ a :: l ∧ L.next x ∈ a :: l := by
  obtain ⟨l₁, l₂, rfl⟩ := List.append_of_mem hx
  obtain ⟨h₁, h₂⟩ := path_append.mp h.path
  have hp := h₁.prev_mem
  have hn := h₂.next_mem
  simp at hp hn ⊢
  grind

/-- The heads and the lists that they hold. No node is in two lists; a node in no list that is
linked to itself counts as the head of an empty one. -/
structure Rings (L : Heap N) (head : N → Prop) (items : N → List N) : Prop where
  holds : ∀ a, head a → Holds L a (items a)
  apart : ∀ a b, head a → head b → a ≠ b → ∀ x ∈ a :: items a, x ∉ b :: items b

section
variable {head head' : N → Prop} {items items' : N → List N}

theorem Rings.congr (h : Rings L head items) (hhead : ∀ a, head' a ↔ head a)
    (hitems : ∀ a, head a → items' a = items a) : Rings L head' items' := by
  constructor
  · intro a ha
    rw [hitems a ((hhead a).mp ha)]
    exact h.holds a ((hhead a).mp ha)
  · intro a b ha hb
    rw [hitems a ((hhead a).mp ha), hitems b ((hhead b).mp hb)]
    exact h.apart a b ((hhead a).mp ha) ((hhead b).mp hb)

theorem Rings.not_head (h : Rings L head items) (ha : head a) (hx : x ∈ items a) : ¬ head x := by
  intro hhead
  by_cases hax : a = x
  · exact (h.holds a ha).not_mem (hax ▸ hx)
  · exact h.apart a x ha hhead hax x (List.mem_cons_of_mem a hx) List.mem_cons_self

theorem Rings.forget (h : Rings L head items) (x : N) : Rings L (fun y => head y ∧ y ≠ x) items :=
  ⟨fun a ha => h.holds a ha.1, fun a b ha hb => h.apart a b ha.1 hb.1⟩

end

/-! ## Operations -/

section Operations
variable [DecidableEq N]

/-- `new` between two nodes. -/
def Heap.insert (L : Heap N) (new prev next : N) : Heap N where
  next := Function.update (Function.update L.next new next) prev new
  prev := Function.update (Function.update L.prev next new) new prev

/-- Link two nodes, and so take out what is between them. -/
def Heap.join (L : Heap N) (prev next : N) : Heap N where
  next := Function.update L.next prev next
  prev := Function.update L.prev next prev

/-- A node linked to itself. -/
def Heap.init (L : Heap N) (a : N) : Heap N := L.join a a

variable {n : N}

@[simp] theorem join_next : (L.join p n).next p = n := Function.update_self _ _ _

@[simp] theorem join_prev : (L.join p n).prev n = p := Function.update_self _ _ _

theorem Path.join_frame (h : Path L a l b) (hp : p ∉ a :: l) (hn : n ∉ l ++ [b]) :
    Path (L.join p n) a l b := by
  apply h.congr
  · intro y hy
    exact Function.update_of_ne (ne_of_mem_of_not_mem hy hp) _ _
  · intro y hy
    exact Function.update_of_ne (ne_of_mem_of_not_mem hy hn) _ _

theorem Path.insert_frame (h : Path L a l b) (hp : p ∉ a :: l) (hn : n ∉ l ++ [b])
    (hx : x ∉ a :: l ++ [b]) : Path (L.insert x p n) a l b := by
  have hxa : x ∉ a :: l := fun hmem => hx (List.mem_append_left _ hmem)
  have hxb : x ∉ l ++ [b] := fun hmem => hx (List.mem_cons_of_mem _ hmem)
  apply h.congr
  · intro y hy
    simp only [Heap.insert]
    rw [Function.update_of_ne (ne_of_mem_of_not_mem hy hp),
      Function.update_of_ne (ne_of_mem_of_not_mem hy hxa)]
  · intro y hy
    simp only [Heap.insert]
    rw [Function.update_of_ne (ne_of_mem_of_not_mem hy hxb),
      Function.update_of_ne (ne_of_mem_of_not_mem hy hn)]

theorem Path.remove (h₁ : Path L a l₁ x) (h₂ : Path L x l₂ b) (hnodup : (a :: l₁ ++ x :: l₂).Nodup)
    (hb : b ∉ l₁ ++ x :: l₂) : Path (L.join (L.prev x) (L.next x)) a (l₁ ++ l₂) b := by
  have hp := h₁.prev_eq
  have hn := h₂.next_mem
  refine h₁.before ?_ (h₂.after join_next join_prev ?_)
  · rintro l p rfl h
    refine h.join_frame ?_ ?_
    · rw [hp]
      simp at hnodup ⊢
      grind
    · simp at hnodup hb hn ⊢
      grind
  · rintro n m rfl h
    have hp := h₁.prev_mem
    have hn : L.next x = n := h₂.1
    refine h.join_frame ?_ ?_
    · simp at hnodup hp ⊢
      grind
    · simp at hnodup hb hn ⊢
      grind

theorem Path.insert_last (h : Path L a l b) (hnodup : (a :: l).Nodup) (hb : b ∉ l)
    (hx : x ∉ a :: l ++ [b]) : Path (L.insert x (L.prev b) b) a (l ++ [x]) b := by
  have hxp : L.prev b ≠ x := by
    intro heq
    exact hx (List.mem_append_left _ (heq ▸ h.prev_mem))
  have hxb : x ≠ b := by
    intro heq
    exact hx (by simp [heq])
  refine h.before ?_ ?_
  · rintro m p rfl hm
    have hp := h.prev_eq
    refine hm.insert_frame ?_ ?_ ?_
    · rw [hp]
      simp at hnodup ⊢
      grind
    · simp at hb ⊢
      grind
    · simp at hx ⊢
      grind
  · simp [Heap.insert, hxp.symm, hxb.symm]

theorem holds_init (L : Heap N) (a : N) : Holds (L.init a) a [] := by
  constructor <;> simp [Heap.init]

theorem Holds.join_frame (h : Holds L a l) (hp : p ∉ a :: l) (hn : n ∉ a :: l) :
    Holds (L.join p n) a l := by
  refine ⟨h.path.join_frame hp ?_, h.nodup⟩
  simpa [or_comm] using hn

theorem Holds.insert_frame (h : Holds L a l) (hp : p ∉ a :: l) (hn : n ∉ a :: l)
    (hx : x ∉ a :: l) : Holds (L.insert x p n) a l := by
  refine ⟨h.path.insert_frame hp ?_ ?_, h.nodup⟩
  · simpa [or_comm] using hn
  · simpa [and_comm, and_assoc] using hx

theorem Holds.remove (h : Holds L a (l₁ ++ x :: l₂)) :
    Holds (L.join (L.prev x) (L.next x)) a (l₁ ++ l₂) := by
  have hnodup := h.nodup
  obtain ⟨h₁, h₂⟩ := path_append.mp h.path
  refine ⟨h₁.remove h₂ (by simpa using hnodup) h.not_mem, ?_⟩
  exact hnodup.sublist (by simp)

theorem Holds.insert_last (h : Holds L a l) (hx : x ∉ a :: l) :
    Holds (L.insert x (L.prev a) a) a (l ++ [x]) := by
  refine ⟨h.path.insert_last h.nodup h.not_mem (by simpa [and_comm, and_assoc] using hx), ?_⟩
  have hnodup := h.nodup
  simp at hnodup hx ⊢
  grind

/-! ## Lists that share a heap -/

/-- `list_add_tail`. -/
def Heap.listAddTail (L : Heap N) (new head : N) : Heap N := L.insert new (L.prev head) head

/-- `list_del_init`. -/
def Heap.listDelInit (L : Heap N) (entry : N) : Heap N :=
  (L.join (L.prev entry) (L.next entry)).init entry

/-- `list_move_tail`. -/
def Heap.listMoveTail (L : Heap N) (entry head : N) : Heap N :=
  (L.join (L.prev entry) (L.next entry)).listAddTail entry head

variable {head : N → Prop} {items : N → List N}

/-- A node that is in no list is linked to itself. -/
theorem Rings.init (h : Rings L head items) (hx : ∀ a, head a → x ∉ a :: items a) :
    Rings (L.init x) (fun y => head y ∨ y = x) (Function.update items x []) := by
  have hne : ∀ a, head a → a ≠ x := by
    intro a ha heq
    exact hx a ha (heq ▸ List.mem_cons_self)
  constructor
  · rintro a (ha | rfl)
    · rw [Function.update_of_ne (hne a ha)]
      exact (h.holds a ha).join_frame (hx a ha) (hx a ha)
    · rw [Function.update_self]
      exact holds_init L a
  · rintro a b (ha | rfl) (hb | rfl) hab y hy
    · rw [Function.update_of_ne (hne a ha)] at hy
      rw [Function.update_of_ne (hne b hb)]
      exact h.apart a b ha hb hab y hy
    · rw [Function.update_of_ne (hne a ha)] at hy
      rw [Function.update_self, List.mem_singleton]
      intro heq
      exact hx a ha (heq ▸ hy)
    · rw [Function.update_self, List.mem_singleton] at hy
      rw [Function.update_of_ne (hne b hb), hy]
      exact hx b hb
    · exact absurd rfl hab

theorem erase_split (hnodup : (l₁ ++ x :: l₂).Nodup) : (l₁ ++ x :: l₂).erase x = l₁ ++ l₂ := by
  have hx : x ∉ l₁ := by
    intro hmem
    exact (List.nodup_append.mp hnodup).2.2 x hmem x List.mem_cons_self rfl
  rw [List.erase_append_right _ hx, List.erase_cons_head]

theorem Rings.remove (h : Rings L head items) (ha : head a) (hx : x ∈ items a) :
    Rings (L.join (L.prev x) (L.next x)) head (fun c => (items c).erase x) ∧
      ∀ c, head c → x ∉ c :: (items c).erase x := by
  have hhead := h.not_head ha hx
  obtain ⟨hp, hn⟩ := (h.holds a ha).around_mem hx
  have hother : ∀ c, head c → c ≠ a → x ∉ c :: items c := by
    intro c hc hca
    exact h.apart a c ha hc (Ne.symm hca) x (List.mem_cons_of_mem a hx)
  refine ⟨⟨?_, ?_⟩, ?_⟩
  · intro c hc
    by_cases hca : c = a
    · subst hca
      have hholds := h.holds c hc
      obtain ⟨l₁, l₂, heq⟩ := List.append_of_mem hx
      simp only [heq] at hholds ⊢
      rw [erase_split (List.nodup_cons.mp hholds.nodup).2]
      exact hholds.remove
    · have hout := hother c hc hca
      rw [List.erase_of_not_mem fun hmem => hout (List.mem_cons_of_mem c hmem)]
      apply (h.holds c hc).join_frame
      · exact h.apart a c ha hc (Ne.symm hca) _ hp
      · exact h.apart a c ha hc (Ne.symm hca) _ hn
  · intro b c hb hc hbc y hy
    have hsub : ∀ d, y ∈ d :: (items d).erase x → y ∈ d :: items d := by
      intro d hmem
      cases List.mem_cons.mp hmem with
      | inl heq => exact heq ▸ List.mem_cons_self
      | inr hmem => exact List.mem_cons_of_mem d (List.mem_of_mem_erase hmem)
    exact fun hmem => h.apart b c hb hc hbc y (hsub b hy) (hsub c hmem)
  · intro c hc hmem
    cases List.mem_cons.mp hmem with
    | inl heq => exact hhead (heq ▸ hc)
    | inr hmem =>
        exact (List.Nodup.mem_erase_iff (List.nodup_cons.mp (h.holds c hc).nodup).2).mp hmem
          |>.1 rfl

theorem Rings.listDelInit (h : Rings L head items) (ha : head a) (hx : x ∈ items a) :
    Rings (L.listDelInit x) (fun y => head y ∨ y = x)
      (Function.update (fun c => (items c).erase x) x []) := by
  obtain ⟨hrings, hout⟩ := h.remove ha hx
  exact hrings.init hout

/-- `list_add_tail` of a node that is in no list, with any links of its own. -/
theorem Rings.insert_last (h : Rings L head items) (ha : head a)
    (hx : ∀ c, head c → x ∉ c :: items c) :
    Rings (L.listAddTail x a) head (Function.update items a (items a ++ [x])) := by
  constructor
  · intro c hc
    by_cases hca : c = a
    · subst hca
      rw [Function.update_self]
      exact (h.holds c hc).insert_last (hx c hc)
    · rw [Function.update_of_ne hca]
      apply (h.holds c hc).insert_frame _ _ (hx c hc)
      · exact h.apart a c ha hc (Ne.symm hca) _ (h.holds a ha).prev_mem
      · exact h.apart a c ha hc (Ne.symm hca) _ List.mem_cons_self
  · intro b c hb hc hbc y hy hmem
    have hin : ∀ d, y ∈ d :: Function.update items a (items a ++ [x]) d →
        y ∈ d :: items d ∨ (d = a ∧ y = x) := by
      intro d hmem
      by_cases hda : d = a
      · subst hda
        rw [Function.update_self] at hmem
        simpa [or_assoc] using hmem
      · rw [Function.update_of_ne hda] at hmem
        exact Or.inl hmem
    rcases hin b hy with hy | ⟨hba, hyx⟩
    · rcases hin c hmem with hmem | ⟨-, hyx⟩
      · exact h.apart b c hb hc hbc y hy hmem
      · exact hx b hb (hyx ▸ hy)
    · rcases hin c hmem with hmem | ⟨hca, -⟩
      · exact hx c hc (hyx ▸ hmem)
      · exact hbc (hba.trans hca.symm)

/-- `list_move_tail` of a node of a list. -/
theorem Rings.listMoveTail (h : Rings L head items) (ha : head a) {b : N} (hb : head b)
    (hx : x ∈ items b) :
    Rings (L.listMoveTail x a) head
      (fun c => if c = a then (items c).erase x ++ [x] else (items c).erase x) := by
  obtain ⟨hrings, hout⟩ := h.remove hb hx
  apply (hrings.insert_last ha hout).congr
  · exact fun _ => Iff.rfl
  · intro c _
    by_cases hca : c = a
    · subst hca
      simp
    · simp [hca]

theorem Rings.listAddTail (h : Rings L head items) (ha : head a) (hx : head x) (hne : a ≠ x) :
    Rings (L.listAddTail x a) (fun y => head y ∧ y ≠ x)
      (Function.update items a (items a ++ [x])) := by
  apply (h.forget x).insert_last ⟨ha, hne⟩
  intro c hc hmem
  exact h.apart c x hc.1 hx hc.2 x hmem List.mem_cons_self

theorem Rings.join_self (h : Rings L head items) (hx : head x) (hempty : items x = []) :
    L.join (L.prev x) (L.next x) = L := by
  have hpath := (h.holds x hx).path
  rw [hempty] at hpath
  obtain ⟨hn, hp⟩ := hpath
  rw [Heap.join, hn, hp]
  congr 1
  · exact Function.update_eq_iff.mpr ⟨hn.symm, fun _ _ => rfl⟩
  · exact Function.update_eq_iff.mpr ⟨hp.symm, fun _ _ => rfl⟩

end Operations

end Links
