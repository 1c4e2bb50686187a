import Tux3.Lib.Ring
import Tux3.Stash
import Mathlib.Data.List.Forall2

/-!
# The pages of a stash

`struct stash` in memory: a circular list of pages that is reached through its tail, and two
pointers into the last page. Page allocation succeeds. The functions refine those on lists of
pages, so that what goes into a stash comes out of it in order; after an error the page where the
actor failed is still there as a whole.
-/
namespace Tux3.Pages

/-- The memory of the pages and `struct stash`. A page is its number, `page->private` is the next
page, and `NULL` is 0 for `pos` and `top`. -/
structure Paged where
  word : ℕ → ℕ
  next : ℕ → ℕ
  tail : Option ℕ
  pos : ℕ
  top : ℕ

/-- A page of the list. -/
def Paged.Live (s : Paged) (page : ℕ) : Prop := ∃ tail ∈ s.tail, ∃ k, s.next^[k] tail = page

/-- `flink_first_add` and `flink_add`. -/
def flinkAdd (s : Paged) (page : ℕ) : Paged :=
  match s.tail with
  | none => { s with next := Function.update s.next page page, tail := some page }
  | some tail => { s with next := Ring.insertAfter s.next tail page, tail := some page }

section
variable {σ : Type} (n : ℕ)

/-- `page_address`; a page has room for `n` values. -/
def pageAddress (page : ℕ) : ℕ := page * n

/-- `stash_value`, when `alloc_page` returns `page`. -/
def stashValue (page : ℕ) (s : Paged) (value : ℕ) : Paged :=
  let s :=
    if s.pos = s.top then
      flinkAdd { s with top := pageAddress n page + n, pos := pageAddress n page } page
    else s
  { s with word := Function.update s.word s.pos value, pos := s.pos + 1 }

/-- The loop of `unstash`, with as many rounds left. -/
def unstashFrom (actor : σ → ℕ → Option (ℤ × σ)) (tail : ℕ) :
    ℕ → Paged → σ → Option (ℤ × Paged × σ)
  | 0, _, _ => none
  | rounds + 1, s, sb => do
      let page := s.next tail
      let vec := pageAddress n page
      let top := if vec + n = s.top then s.pos else vec + n
      let (err, sb) ← drain actor ((List.range' vec (top - vec)).map s.word) sb
      if err ≠ 0 then return (err, s, sb)
      if s.next tail = tail then return (0, { s with pos := vec }, sb)
      unstashFrom actor tail rounds { s with next := Ring.removeAfter s.next tail } sb

def unstash (actor : σ → ℕ → Option (ℤ × σ)) (rounds : ℕ) (s : Paged) (sb : σ) :
    Option (ℤ × Paged × σ) :=
  match s.tail with
  | none => some (0, s, sb)
  | some tail => unstashFrom n actor tail rounds s sb

/-- The page starts with the values. -/
def Paged.Reads (s : Paged) (page : ℕ) (values : List ℕ) : Prop :=
  (List.range' (pageAddress n page) values.length).map s.word = values

/-- The pages before the tail are full, and `pos` is behind the values of the tail. -/
structure Holds (s : Paged) (tail : ℕ) (front : List ℕ) (full : List (List ℕ)) (last : List ℕ) :
    Prop where
  ring : Ring.Holds s.next tail front
  pages : List.Forall₂ (fun page values => values.length = n ∧ s.Reads n page values) front full
  values : s.Reads n tail last
  pos : s.pos = pageAddress n tail + last.length
  top : s.top = pageAddress n tail + n
  le : last.length ≤ n

/-- The memory holds a stash of lists. -/
def Represents (s : Paged) (stash : Stash ℕ) : Prop :=
  match stash.pages with
  | none => s.tail = none ∧ s.pos = s.top
  | some (full, last) => ∃ tail front, s.tail = some tail ∧ Holds n s tail front full last

/-- `stash_value` on lists of pages of any size. -/
def addValue (stash : Stash ℕ) (value : ℕ) : Stash ℕ :=
  match stash.pages with
  | none => ⟨some ([], [value])⟩
  | some (full, last) =>
      if last.length = n then ⟨some (full ++ [last], [value])⟩ else ⟨some (full, last ++ [value])⟩

end

section
variable {σ : Type} {n : ℕ} {s s' : Paged} {stash : Stash ℕ} {tail page : ℕ} {front : List ℕ}
  {full : List (List ℕ)} {last values : List ℕ}

theorem Holds.live (h : Holds n s tail front full last) (htail : s.tail = some tail) :
    s.Live page ↔ page ∈ tail :: front := by
  rw [h.ring.mem_iff, Paged.Live, htail]
  simp only [Option.mem_some_iff, exists_eq_left']

theorem pageAddress_ne {p q i j : ℕ} (hpq : p ≠ q) (hi : i < n) (hj : j < n) :
    pageAddress n p + i ≠ pageAddress n q + j := by
  intro heq
  have hdiv := congrArg (· / n) heq
  have hn : 0 < n := Nat.zero_lt_of_lt hi
  simp only [pageAddress, Nat.mul_comm _ n, Nat.mul_add_div hn, Nat.div_eq_of_lt hi,
    Nat.div_eq_of_lt hj] at hdiv
  exact hpq hdiv

theorem Paged.Reads.congr (h : s.Reads n page values)
    (hsame : ∀ i < values.length, s'.word (pageAddress n page + i) =
      s.word (pageAddress n page + i)) : s'.Reads n page values := by
  refine (List.map_congr_left fun x hx => ?_).trans h
  obtain ⟨hle, hlt⟩ := List.mem_range'_1.mp hx
  have hword := hsame (x - pageAddress n page) (by omega)
  rwa [Nat.add_sub_cancel' hle] at hword

theorem Paged.Reads.add {value : ℕ} (h : s.Reads n page values)
    (hlast : s.word (pageAddress n page + values.length) = value) :
    s.Reads n page (values ++ [value]) := by
  rw [Paged.Reads, List.length_append, List.length_singleton, List.range'_concat, List.map_append,
    h, List.map_singleton, Nat.one_mul, hlast]

theorem pages_congr
    (h : List.Forall₂ (fun page values => values.length = n ∧ s.Reads n page values) front full)
    (hsame : ∀ page ∈ front, ∀ i < n, s'.word (pageAddress n page + i) =
      s.word (pageAddress n page + i)) :
    List.Forall₂ (fun page values => values.length = n ∧ s'.Reads n page values) front full := by
  induction h with
  | nil => exact .nil
  | cons hpage _ ih =>
      obtain ⟨hlen, hreads⟩ := hpage
      refine .cons ⟨hlen, hreads.congr fun i hi => ?_⟩ (ih fun page hmem =>
        hsame page (List.mem_cons_of_mem _ hmem))
      exact hsame _ List.mem_cons_self i (hlen ▸ hi)

/-- `stash_value` on the pages is `stash_value` on the lists. -/
theorem stashValue_represents (hn : 0 < n) (h : Represents n s stash) (hfresh : ¬ s.Live page)
    (value : ℕ) : Represents n (stashValue n page s value) (addValue n stash value) := by
  obtain ⟨pages⟩ := stash
  cases pages with
  | none =>
      obtain ⟨htail, hpos⟩ := h
      rw [stashValue, if_pos hpos, flinkAdd, htail]
      refine ⟨page, [], rfl, Ring.holds_single (Function.update_self ..), .nil, ?_, rfl, rfl, hn⟩
      exact congrArg (fun v => [v]) (Function.update_self ..)
  | some pages =>
      obtain ⟨full, last⟩ := pages
      obtain ⟨tail, front, htail, h⟩ := h
      rw [h.live htail] at hfresh
      have htop : s.pos = s.top ↔ last.length = n := by
        rw [h.pos, h.top, Nat.add_left_cancel_iff]
      rw [stashValue, addValue]
      dsimp only
      by_cases hfull : last.length = n
      · have hother : ∀ p ∈ tail :: front, ∀ i < n,
            Function.update s.word (pageAddress n page) value (pageAddress n p + i) =
              s.word (pageAddress n p + i) := by
          intro p hp i hi
          exact Function.update_of_ne
            (pageAddress_ne (ne_of_mem_of_not_mem hp hfresh) hi hn) _ _
        rw [if_pos (htop.mpr hfull), if_pos hfull, flinkAdd, htail]
        refine ⟨page, front ++ [tail], rfl, h.ring.insertAfter hfresh, ?_, ?_, rfl, rfl, hn⟩
        · refine List.rel_append (pages_congr h.pages fun p hp =>
            hother p (List.mem_cons_of_mem _ hp)) (.cons ⟨hfull, ?_⟩ .nil)
          exact h.values.congr fun i hi => hother tail List.mem_cons_self i (hfull ▸ hi)
        · exact congrArg (fun v => [v]) (Function.update_self ..)
      · have hlt : last.length < n := Nat.lt_of_le_of_ne h.le hfull
        rw [if_neg (mt htop.mp hfull), if_neg hfull]
        refine ⟨tail, front, htail, h.ring, pages_congr h.pages fun p hp i hi => ?_, ?_, ?_, h.top,
          ?_⟩
        · rw [h.pos]
          have htail' := (List.nodup_cons.mp h.ring.nodup).1
          exact Function.update_of_ne
            (pageAddress_ne (ne_of_mem_of_not_mem hp htail') hi hlt) _ _
        · refine (h.values.congr fun i hi => ?_).add ?_
          · rw [h.pos]
            exact Function.update_of_ne (by omega) _ _
          · rw [← h.pos]
            exact Function.update_self ..
        · rw [List.length_append, List.length_singleton, ← Nat.add_assoc]
          exact congrArg (· + 1) h.pos
        · rw [List.length_append, List.length_singleton]
          exact hlt

/-- With enough rounds the loop over the pages is the loop over the lists, for every actor. -/
theorem unstashFrom_refines {actor : σ → ℕ → Option (ℤ × σ)} {rounds : ℕ} {sb sb' : σ} {err : ℤ}
    {stash' : Stash ℕ} (hn : 0 < n) (htail : s.tail = some tail)
    (h : Holds n s tail front full last) (hrounds : front.length < rounds)
    (hrun : unstashPages actor last full sb = some (err, stash', sb')) :
    ∃ s', unstashFrom n actor tail rounds s sb = some (err, s', sb') ∧ Represents n s' stash' := by
  induction rounds generalizing s front full sb with
  | zero => exact absurd hrounds (Nat.not_lt_zero _)
  | succ rounds ih =>
      rw [unstashFrom]
      dsimp only
      cases front with
      | nil =>
          obtain rfl : full = [] := List.forall₂_nil_left_iff.mp h.pages
          have hnext : s.next tail = tail := h.ring.next_eq_tail.mpr rfl
          have hlen : s.pos - pageAddress n tail = last.length := by
            rw [h.pos, Nat.add_sub_cancel_left]
          have hreads : (List.range' (pageAddress n tail) last.length).map s.word = last := h.values
          simp only [unstashPages, Option.bind_eq_bind, Option.bind_eq_some_iff] at hrun
          obtain ⟨⟨err₁, sb₁⟩, hdrain, hrun⟩ := hrun
          rw [hnext, if_pos h.top.symm, hlen, hreads, hdrain, Option.bind_eq_bind,
            Option.bind_some]
          dsimp only at hrun ⊢
          by_cases herr : err₁ ≠ 0
          · rw [if_pos herr] at hrun ⊢
            cases hrun
            exact ⟨s, rfl, tail, [], htail, h⟩
          · rw [if_neg herr] at hrun ⊢
            cases hrun
            rw [if_pos rfl]
            exact ⟨_, rfl, tail, [], htail, h.ring, .nil, rfl, rfl, h.top, Nat.zero_le n⟩
      | cons page front =>
          obtain ⟨values, full, ⟨hfull, hreads⟩, hrest, rfl⟩ := List.forall₂_cons_left_iff.mp h.pages
          obtain ⟨hnext, -⟩ := h.ring.next_cons
          have hne : page ≠ tail := ne_of_mem_of_not_mem List.mem_cons_self
            (List.nodup_cons.mp h.ring.nodup).1
          have htop : pageAddress n page + n ≠ s.top := by
            rw [h.top, pageAddress, pageAddress]
            exact fun heq => hne (Nat.eq_of_mul_eq_mul_right hn (Nat.add_right_cancel heq))
          have hmap : (List.range' (pageAddress n page) n).map s.word = values := hfull ▸ hreads
          simp only [unstashPages, Option.bind_eq_bind, Option.bind_eq_some_iff] at hrun
          obtain ⟨⟨err₁, sb₁⟩, hdrain, hrun⟩ := hrun
          rw [hnext, if_neg htop, Nat.add_sub_cancel_left, hmap, hdrain, Option.bind_eq_bind,
            Option.bind_some]
          dsimp only at hrun ⊢
          by_cases herr : err₁ ≠ 0
          · rw [if_pos herr] at hrun ⊢
            cases hrun
            exact ⟨s, rfl, tail, page :: front, htail, h⟩
          · rw [if_neg herr] at hrun ⊢
            rw [if_neg hne]
            have hstep : Holds n { s with next := Ring.removeAfter s.next tail } tail front full
                last :=
              ⟨h.ring.removeAfter, hrest, h.values, h.pos, h.top, h.le⟩
            exact ih htail hstep (Nat.lt_of_succ_lt_succ hrounds) hrun

theorem unstashFrom_more {actor : σ → ℕ → Option (ℤ × σ)} {rounds more : ℕ} {sb : σ}
    {result : ℤ × Paged × σ} (hle : rounds ≤ more)
    (hrun : unstashFrom n actor tail rounds s sb = some result) :
    unstashFrom n actor tail more s sb = some result := by
  induction rounds generalizing s sb more with
  | zero => cases hrun
  | succ rounds ih =>
      obtain ⟨more, rfl⟩ : ∃ m, more = m + 1 := ⟨more - 1, by omega⟩
      rw [unstashFrom] at hrun ⊢
      simp only [Option.bind_eq_bind, Option.bind_eq_some_iff] at hrun ⊢
      obtain ⟨⟨err, sb₁⟩, hdrain, hrun⟩ := hrun
      refine ⟨(err, sb₁), hdrain, ?_⟩
      by_cases herr : err ≠ 0
      · rw [if_pos herr] at hrun ⊢
        exact hrun
      · rw [if_neg herr] at hrun ⊢
        by_cases hlast : s.next tail = tail
        · rw [if_pos hlast] at hrun ⊢
          exact hrun
        · rw [if_neg hlast] at hrun ⊢
          exact ih (Nat.le_of_succ_le_succ hle) hrun

/-- `unstash` on the pages ends, as on the lists. -/
theorem unstash_refines {actor : σ → ℕ → Option (ℤ × σ)} {sb sb' : σ} {err : ℤ}
    {stash' : Stash ℕ} (hn : 0 < n) (h : Represents n s stash)
    (hrun : Tux3.unstash actor stash sb = some (err, stash', sb')) :
    ∃ s', Represents n s' stash' ∧
      ∃ rounds, ∀ r, rounds ≤ r → unstash n actor r s sb = some (err, s', sb') := by
  obtain ⟨pages⟩ := stash
  cases pages with
  | none =>
      cases hrun
      refine ⟨s, h, 0, fun r _ => ?_⟩
      rw [unstash, h.1]
  | some pages =>
      obtain ⟨full, last⟩ := pages
      obtain ⟨tail, front, htail, h⟩ := h
      obtain ⟨s', hloop, hrep⟩ := unstashFrom_refines hn htail h (Nat.lt_succ_self _) hrun
      refine ⟨s', hrep, front.length + 1, fun r hr => ?_⟩
      rw [unstash, htail]
      exact unstashFrom_more hr hloop

/-! ## Histories -/

/-- Calls of `stash_value`, between which other memory changes. -/
inductive Added (n : ℕ) (start : Paged) : Paged → List ℕ → Prop where
  | start : Added n start start []
  | add {s : Paged} {values : List ℕ} (prev : Added n start s values) {page : ℕ}
      (fresh : ¬ s.Live page) (value : ℕ) :
      Added n start (stashValue n page s value) (values ++ [value])
  | other {s s' : Paged} {values : List ℕ} (prev : Added n start s values)
      (tail : s'.tail = s.tail) (pos : s'.pos = s.pos) (top : s'.top = s.top)
      (same : ∀ page, s.Live page → s'.next page = s.next page ∧
        ∀ i < n, s'.word (pageAddress n page + i) = s.word (pageAddress n page + i)) :
      Added n start s' values

@[simp] theorem addValue_values (n : ℕ) (stash : Stash ℕ) (value : ℕ) :
    (addValue n stash value).values = stash.values ++ [value] := by
  obtain ⟨pages⟩ := stash
  cases pages with
  | none => rfl
  | some pages =>
      obtain ⟨full, last⟩ := pages
      rw [addValue]
      dsimp only
      split
      · simp only [Stash.values, List.flatten_append, List.flatten_singleton]
      · simp only [Stash.values, List.append_assoc]

theorem Represents.congr (h : Represents n s stash) (tail : s'.tail = s.tail)
    (pos : s'.pos = s.pos) (top : s'.top = s.top)
    (same : ∀ page, s.Live page → s'.next page = s.next page ∧
      ∀ i < n, s'.word (pageAddress n page + i) = s.word (pageAddress n page + i)) :
    Represents n s' stash := by
  obtain ⟨pages⟩ := stash
  cases pages with
  | none => exact ⟨tail.trans h.1, pos.trans (h.2.trans top.symm)⟩
  | some pages =>
      obtain ⟨full, last⟩ := pages
      obtain ⟨tail', front, htail, h⟩ := h
      have hlive := fun p hp => same p ((h.live htail).mpr hp)
      refine ⟨tail', front, tail.trans htail, h.ring.congr fun p hp => (hlive p hp).1,
        pages_congr h.pages fun p hp => (hlive p (List.mem_cons_of_mem _ hp)).2,
        h.values.congr fun i hi => ?_, pos.trans h.pos, top.trans h.top, h.le⟩
      exact (hlive tail' List.mem_cons_self).2 i (Nat.lt_of_lt_of_le hi h.le)

theorem Added.represents (hn : 0 < n) (h : Represents n s stash) (hadd : Added n s s' values) :
    ∃ stash', Represents n s' stash' ∧ stash'.values = stash.values ++ values := by
  induction hadd with
  | start => exact ⟨stash, h, (List.append_nil _).symm⟩
  | add prev fresh value ih =>
      obtain ⟨stash', hrep, hvalues⟩ := ih
      refine ⟨_, stashValue_represents hn hrep fresh value, ?_⟩
      rw [addValue_values, hvalues, List.append_assoc]
  | other prev tail pos top same ih =>
      obtain ⟨stash', hrep, hvalues⟩ := ih
      exact ⟨stash', hrep.congr tail pos top same, hvalues⟩

theorem drain_act (act : σ → ℕ → σ) (values : List ℕ) (sb : σ) :
    drain (fun sb value => some (0, act sb value)) values sb = some (0, values.foldl act sb) := by
  induction values generalizing sb with
  | nil => rfl
  | cons value values ih =>
      rw [drain]
      exact ih (act sb value)

theorem unstashPages_act (act : σ → ℕ → σ) (last : List ℕ) (full : List (List ℕ)) (sb : σ) :
    unstashPages (fun sb value => some (0, act sb value)) last full sb =
      some (0, ⟨some ([], [])⟩, (full.flatten ++ last).foldl act sb) := by
  induction full generalizing sb with
  | nil =>
      rw [unstashPages, drain_act]
      rfl
  | cons page full ih =>
      rw [unstashPages, drain_act, List.flatten_cons, List.append_assoc, List.foldl_append]
      exact ih (page.foldl act sb)

theorem unstash_act (act : σ → ℕ → σ) (stash : Stash ℕ) (sb : σ) :
    ∃ stash', stash'.values = [] ∧ Tux3.unstash (fun sb value => some (0, act sb value)) stash sb =
      some (0, stash', stash.values.foldl act sb) := by
  obtain ⟨pages⟩ := stash
  cases pages with
  | none => exact ⟨⟨none⟩, rfl, rfl⟩
  | some pages => exact ⟨⟨some ([], [])⟩, rfl, unstashPages_act act pages.2 pages.1 sb⟩

/-- The states of a stash that is zeroed, or that an `unstash` without errors has left. -/
inductive Drained (σ : Type) (n : ℕ) : Paged → Prop where
  | zeroed (word next : ℕ → ℕ) : Drained σ n ⟨word, next, none, 0, 0⟩
  | unstash {s s₁ s₂ : Paged} {values : List ℕ} (prev : Drained σ n s)
      (added : Added n s s₁ values) {act : σ → ℕ → σ} {sb sb' : σ} {rounds : ℕ}
      (run : unstash n (fun sb value => some (0, act sb value)) rounds s₁ sb =
        some (0, s₂, sb')) : Drained σ n s₂

theorem unstash_more {actor : σ → ℕ → Option (ℤ × σ)} {rounds more : ℕ} {sb : σ}
    {result : ℤ × Paged × σ} (hle : rounds ≤ more)
    (hrun : unstash n actor rounds s sb = some result) :
    unstash n actor more s sb = some result := by
  rw [unstash] at hrun ⊢
  cases htail : s.tail with
  | none =>
      rw [htail] at hrun
      exact hrun
  | some tail =>
      rw [htail] at hrun
      exact unstashFrom_more hle hrun

theorem Drained.represents (hn : 0 < n) (h : Drained σ n s) :
    ∃ stash, Represents n s stash ∧ stash.values = [] := by
  induction h with
  | zeroed word next => exact ⟨⟨none⟩, ⟨rfl, rfl⟩, rfl⟩
  | @unstash s s₁ s₂ values prev added act sb sb' rounds run ih =>
      obtain ⟨stash, hrep, -⟩ := ih
      obtain ⟨stash₁, hrep₁, -⟩ := Added.represents hn hrep added
      obtain ⟨stash₂, hempty, hact⟩ := unstash_act act stash₁ sb
      obtain ⟨s', hrep', rounds', hmore⟩ := unstash_refines hn hrep₁ hact
      have hsame := unstash_more (Nat.le_max_left rounds rounds') run
      rw [hmore _ (Nat.le_max_right _ _)] at hsame
      cases hsame
      exact ⟨stash₂, hrep', hempty⟩

/-- Each `unstash` hands the actor the values that were added since the one before, in order, and
leaves a stash for more. -/
theorem unstash_exact (hn : 0 < n) (h : Drained σ n s) (hadd : Added n s s' values)
    (act : σ → ℕ → σ) (sb : σ) :
    ∃ s₂, Drained σ n s₂ ∧ ∃ rounds, ∀ r, rounds ≤ r →
      unstash n (fun sb value => some (0, act sb value)) r s' sb =
        some (0, s₂, values.foldl act sb) := by
  obtain ⟨stash, hrep, hnil⟩ := h.represents hn
  obtain ⟨stash', hrep', hvalues⟩ := hadd.represents hn hrep
  obtain ⟨stash₂, -, hact⟩ := unstash_act act stash' sb
  rw [hvalues, hnil, List.nil_append] at hact
  obtain ⟨s₂, -, rounds, hrun⟩ := unstash_refines hn hrep' hact
  exact ⟨s₂, .unstash h hadd (hrun rounds (Nat.le_refl _)), rounds, hrun⟩

theorem not_live_single (htail : s.tail = some tail) (hnext : s.next tail = tail)
    (hne : page ≠ tail) : ¬ s.Live page := by
  rintro ⟨tail', htail', k, hk⟩
  rw [htail] at htail'
  obtain rfl := Option.some.inj htail'
  rw [Function.iterate_fixed hnext] at hk
  exact hne hk.symm

theorem added_two (n : ℕ) : Added n ⟨id, id, none, 0, 0⟩
    (stashValue n 6 (stashValue n 5 ⟨id, id, none, 0, 0⟩ 10) 20) [10, 20] := by
  have hempty : ¬ Paged.Live ⟨id, id, none, 0, 0⟩ 5 := by
    rintro ⟨tail, htail, -⟩
    cases htail
  have hone : Added n ⟨id, id, none, 0, 0⟩ _ [10] := Added.start.add hempty 10
  exact hone.add (@not_live_single _ 5 6 rfl rfl (by decide)) 20

/-- Three values in pages of two: a full page and one value more. -/
theorem unstash_exact_three : ∃ s₂, Drained (List ℕ) 2 s₂ ∧ ∃ rounds, ∀ r, rounds ≤ r →
    unstash 2 (fun sb value => some (0, sb ++ [value])) r
      (stashValue 2 7 (stashValue 2 6 (stashValue 2 5 ⟨id, id, none, 0, 0⟩ 10) 20) 30) [] =
        some (0, s₂, [10, 20, 30]) :=
  unstash_exact (by decide) (.zeroed id id)
    ((added_two 2).add (@not_live_single _ 5 7 rfl rfl (by decide)) 30)
    (fun sb value => sb ++ [value]) []

end

/-! ## Errors -/

section
variable {σ : Type} {n : ℕ} {s s' : Paged} {stash : Stash ℕ} {full : List (List ℕ)}
  {last values ys : List ℕ} {actor : σ → ℕ → Option (ℤ × σ)} {err : ℤ} {k : ℕ} {sb sb' : σ}

/-- The actor returns 0 for the first `k` values and then an error. -/
def FailsAt (actor : σ → ℕ → Option (ℤ × σ)) (err : ℤ) (sb' : σ) : List ℕ → ℕ → σ → Prop
  | [], _, _ => False
  | value :: _, 0, sb => actor sb value = some (err, sb') ∧ err ≠ 0
  | value :: values, k + 1, sb =>
      ∃ sb₁, actor sb value = some (0, sb₁) ∧ FailsAt actor err sb' values k sb₁

theorem FailsAt.lt (h : FailsAt actor err sb' values k sb) : k < values.length ∧ err ≠ 0 := by
  induction values generalizing k sb with
  | nil => exact h.elim
  | cons value values ih =>
      cases k with
      | zero => exact ⟨Nat.zero_lt_succ _, h.2⟩
      | succ k =>
          obtain ⟨sb₁, -, h⟩ := h
          exact ⟨Nat.succ_lt_succ (ih h).1, (ih h).2⟩

/-- The error is in the first page, or the page is drained and it is in the rest. -/
theorem FailsAt.append (h : FailsAt actor err sb' (values ++ ys) k sb) :
    (k < values.length → drain actor values sb = some (err, sb')) ∧
      (values.length ≤ k → ∃ sb₁, drain actor values sb = some (0, sb₁) ∧
        FailsAt actor err sb' ys (k - values.length) sb₁) := by
  induction values generalizing k sb with
  | nil => exact ⟨fun hlt => absurd hlt (Nat.not_lt_zero _), fun _ => ⟨sb, rfl, h⟩⟩
  | cons value values ih =>
      cases k with
      | zero =>
          refine ⟨fun _ => ?_, fun hle => absurd hle (Nat.not_succ_le_zero _)⟩
          obtain ⟨hact, herr⟩ := h
          rw [drain, hact]
          exact if_pos herr
      | succ k =>
          obtain ⟨sb₁, hact, h⟩ := h
          obtain ⟨hfirst, hlater⟩ := ih h
          have hdrain : drain actor (value :: values) sb = drain actor values sb₁ := by
            rw [drain, hact]
            rfl
          rw [hdrain, List.length_cons, Nat.add_sub_add_right]
          exact ⟨fun hlt => hfirst (Nat.lt_of_succ_lt_succ hlt), fun hle =>
            hlater (Nat.le_of_succ_le_succ hle)⟩

/-- After an error at position `k` the stash has the values from the page of `k` on. -/
theorem unstashPages_fails (hn : 0 < n) (hfull : ∀ page ∈ full, page.length = n)
    (hlast : last.length ≤ n)
    (h : FailsAt actor err sb' (full.flatten ++ last) k sb) :
    ∃ stash', unstashPages actor last full sb = some (err, stash', sb') ∧
      stash'.values = (full.flatten ++ last).drop (k / n * n) := by
  obtain ⟨hk, herr⟩ := h.lt
  induction full generalizing k sb with
  | nil =>
      have hlt : k < last.length := hk
      have hdrain := (FailsAt.append (List.append_nil last ▸ h)).1 hlt
      rw [Nat.div_eq_of_lt (Nat.lt_of_lt_of_le hlt hlast), Nat.zero_mul]
      refine ⟨⟨some ([], last)⟩, ?_, rfl⟩
      rw [unstashPages, hdrain]
      exact if_pos herr
  | cons page full ih =>
      have hlen := hfull page List.mem_cons_self
      rw [List.flatten_cons, List.append_assoc] at h hk ⊢
      obtain ⟨hfirst, hlater⟩ := h.append
      rw [unstashPages]
      rcases Nat.lt_or_ge k n with hlt | hge
      · rw [hfirst (hlen.symm ▸ hlt), Nat.div_eq_of_lt hlt, Nat.zero_mul]
        refine ⟨⟨some (page :: full, last)⟩, if_pos herr, ?_⟩
        exact (congrArg (· ++ last) List.flatten_cons).trans (List.append_assoc _ _ _)
      · obtain ⟨sb₁, hdrain, h⟩ := hlater (hlen.symm ▸ hge)
        rw [hdrain]
        obtain ⟨stash', hrun, hvalues⟩ := ih (fun page hp => hfull page (List.mem_cons_of_mem _ hp))
          h h.lt.1
        refine ⟨stash', hrun, ?_⟩
        have hdiv : k / n * n = n + (k - n) / n * n := by
          rw [Nat.div_eq_sub_div hn hge, Nat.succ_mul, Nat.add_comm]
        rw [hvalues, hdiv, hlen, ← List.drop_drop, List.drop_left' hlen]

theorem pages_length {front : List ℕ}
    (h : List.Forall₂ (fun page values => values.length = n ∧ s.Reads n page values) front full) :
    ∀ values ∈ full, values.length = n := by
  induction h with
  | nil => exact nofun
  | cons hpage _ ih => exact List.forall_mem_cons.mpr ⟨hpage.1, ih⟩

/-- `unstash` hands the values to the actor. -/
def Passes (n : ℕ) (s : Paged) (values : List ℕ) : Prop :=
  ∃ s' rounds, ∀ r, rounds ≤ r →
    unstash n (fun passed value => some (0, passed ++ [value])) r s [] = some (0, s', values)

theorem foldl_passed (passed : List ℕ) :
    values.foldl (fun passed value => passed ++ [value]) passed = passed ++ values := by
  induction values generalizing passed with
  | nil => exact (List.append_nil passed).symm
  | cons value values ih => rw [List.foldl_cons, ih, List.append_assoc, List.singleton_append]

theorem Represents.passes (hn : 0 < n) (h : Represents n s stash) :
    Passes n s values ↔ values = stash.values := by
  obtain ⟨stash', -, hact⟩ := unstash_act (fun passed value => passed ++ [value]) stash []
  obtain ⟨s', -, rounds, hrun⟩ := unstash_refines hn h hact
  rw [foldl_passed, List.nil_append] at hrun
  constructor
  · rintro ⟨s'', rounds', hpassed⟩
    have hsame := hpassed _ (Nat.le_max_left rounds' rounds)
    rw [hrun _ (Nat.le_max_right _ _)] at hsame
    cases hsame
    rfl
  · rintro rfl
    exact ⟨s', rounds, hrun⟩

/-- The states of a stash after any calls, also of actors that fail. -/
inductive Reached (σ : Type) (n : ℕ) : Paged → Prop where
  | zeroed (word next : ℕ → ℕ) : Reached σ n ⟨word, next, none, 0, 0⟩
  | add {s s' : Paged} {values : List ℕ} (prev : Reached σ n s) (added : Added n s s' values) :
      Reached σ n s'
  | unstash {s s' : Paged} (prev : Reached σ n s) {actor : σ → ℕ → ℤ × σ} {rounds : ℕ}
      {err : ℤ} {sb sb' : σ}
      (run : unstash n (fun sb value => some (actor sb value)) rounds s sb = some (err, s', sb')) :
      Reached σ n s'

theorem drain_total (actor : σ → ℕ → ℤ × σ) (values : List ℕ) (sb : σ) :
    ∃ err sb', drain (fun sb value => some (actor sb value)) values sb = some (err, sb') := by
  induction values generalizing sb with
  | nil => exact ⟨0, sb, rfl⟩
  | cons value values ih =>
      rw [drain]
      dsimp only [Option.bind_eq_bind, Option.bind_some]
      split
      · exact ⟨_, _, rfl⟩
      · exact ih _

theorem unstash_total (actor : σ → ℕ → ℤ × σ) (stash : Stash ℕ) (sb : σ) :
    ∃ err stash' sb', Tux3.unstash (fun sb value => some (actor sb value)) stash sb =
      some (err, stash', sb') := by
  obtain ⟨pages⟩ := stash
  cases pages with
  | none => exact ⟨0, ⟨none⟩, sb, rfl⟩
  | some pages =>
      obtain ⟨full, last⟩ := pages
      rw [Tux3.unstash]
      dsimp only
      induction full generalizing sb with
      | nil =>
          obtain ⟨err, sb', hdrain⟩ := drain_total actor last sb
          rw [unstashPages, hdrain]
          dsimp only [Option.bind_eq_bind, Option.bind_some]
          split <;> exact ⟨_, _, _, rfl⟩
      | cons page full ih =>
          obtain ⟨err, sb', hdrain⟩ := drain_total actor page sb
          rw [unstashPages, hdrain]
          dsimp only [Option.bind_eq_bind, Option.bind_some]
          split
          · exact ⟨_, _, _, rfl⟩
          · exact ih sb'

theorem Reached.represents (hn : 0 < n) (h : Reached σ n s) : ∃ stash, Represents n s stash := by
  induction h with
  | zeroed word next => exact ⟨⟨none⟩, rfl, rfl⟩
  | add prev added ih =>
      obtain ⟨stash, hrep⟩ := ih
      obtain ⟨stash', hrep', -⟩ := added.represents hn hrep
      exact ⟨stash', hrep'⟩
  | @unstash s s' prev actor rounds err sb sb' run ih =>
      obtain ⟨stash, hrep⟩ := ih
      obtain ⟨err', stash', sb'', hact⟩ := unstash_total actor stash sb
      obtain ⟨s'', hrep', rounds', hmore⟩ := unstash_refines hn hrep hact
      have hsame := unstash_more (Nat.le_max_left rounds rounds') run
      rw [hmore _ (Nat.le_max_right _ _)] at hsame
      cases hsame
      exact ⟨stash', hrep'⟩

/-- After an error a later `unstash` hands the actor the values it has not handled, and no other,
exactly when the error was at the first value of a page. -/
theorem unstash_retry_iff (hn : 0 < n) (h : Reached σ n s) (hvalues : Passes n s values)
    (hfail : FailsAt actor err sb' values k sb) :
    ∃ s₁, (∃ rounds, ∀ r, rounds ≤ r → unstash n actor r s sb = some (err, s₁, sb')) ∧
      ((∀ s₂ more, Added n s₁ s₂ more → Passes n s₂ (values.drop k ++ more)) ↔ n ∣ k) := by
  obtain ⟨⟨pages⟩, hrep⟩ := h.represents hn
  obtain rfl := (hrep.passes hn).mp hvalues
  have hk := hfail.lt.1
  cases pages with
  | none => exact absurd hk (Nat.not_lt_zero k)
  | some pages =>
      obtain ⟨full, last⟩ := pages
      obtain ⟨tail, front, htail, hheld⟩ := hrep
      obtain ⟨stash', hfails, hleft⟩ :=
        unstashPages_fails hn (pages_length hheld.pages) hheld.le hfail
      have hrep : Represents n s ⟨some (full, last)⟩ := ⟨tail, front, htail, hheld⟩
      obtain ⟨s₁, hrep₁, hrun⟩ := unstash_refines hn hrep hfails
      refine ⟨s₁, hrun, fun hpass => ?_, fun hdvd s₂ more hmore => ?_⟩
      · have hsame := (hrep₁.passes hn).mp (hpass s₁ [] .start)
        have hlen := congrArg List.length hsame
        rw [List.append_nil, hleft, List.length_drop, List.length_drop] at hlen
        change k < (full.flatten ++ last).length at hk
        change (full.flatten ++ last).length - k = _ at hlen
        have hdiv := Nat.div_mul_le_self k n
        exact ⟨k / n, by rw [Nat.mul_comm]; omega⟩
      · obtain ⟨stash₂, hrep₂, hvalues₂⟩ := hmore.represents hn hrep₁
        rw [hrep₂.passes hn, hvalues₂, hleft, Nat.div_mul_cancel hdvd]
        rfl

/-- Two values in one page, and an error at the second: the stash stays as it is, and the next
`unstash` starts with the first value again. -/
theorem unstash_repeats : ∃ s s₂, Reached Unit pageValues s ∧
    unstash pageValues (fun sb value => some (if value = 20 then -eio else 0, sb)) 1 s () =
      some (-eio, s, ()) ∧
    unstash pageValues (fun passed value => some (0, passed ++ [value])) 1 s [] =
      some (0, s₂, [10, 20]) ∧ ¬ Passes pageValues s [20] := by
  obtain ⟨s₂, htwo⟩ : ∃ s₂,
      unstash pageValues (fun passed value => some (0, passed ++ [value])) 1
        (stashValue pageValues 6 (stashValue pageValues 5 ⟨id, id, none, 0, 0⟩ 10) 20) [] =
        some (0, s₂, [10, 20]) := ⟨_, rfl⟩
  refine ⟨_, s₂, .add (.zeroed id id) (added_two pageValues), rfl, htwo, ?_⟩
  rintro ⟨s', rounds, hrun⟩
  have hsame := unstash_more (Nat.le_max_left 1 rounds) htwo
  rw [hrun _ (Nat.le_max_right _ _)] at hsame
  cases hsame

/-- The error is at the first value. -/
theorem unstash_retry_first : ∃ s s₁, (∃ rounds, ∀ r, rounds ≤ r →
      unstash pageValues (fun sb _ => some (-eio, sb)) r s () = some (-eio, s₁, ())) ∧
    ((∀ s₂ more, Added pageValues s₁ s₂ more →
      Passes pageValues s₂ (([10, 20] : List ℕ).drop 0 ++ more)) ↔ pageValues ∣ 0) := by
  have hreached : Reached Unit pageValues _ := .add (.zeroed id id) (added_two pageValues)
  have hpass : Passes pageValues
      (stashValue pageValues 6 (stashValue pageValues 5 ⟨id, id, none, 0, 0⟩ 10) 20) [10, 20] :=
    ⟨_, 1, fun r hr => unstash_more hr rfl⟩
  have hfail : FailsAt (fun (sb : Unit) _ => some (-eio, sb)) (-eio) () [10, 20] 0 () :=
    ⟨rfl, by decide⟩
  obtain ⟨s₁, h⟩ := unstash_retry_iff (by decide) hreached hpass hfail
  exact ⟨_, s₁, h⟩

end

end Tux3.Pages
