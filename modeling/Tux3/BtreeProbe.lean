import Tux3.BtreeShape

/-!
# Probing

A probe ends in the last leaf whose separator is not above the key, and it is the only path with
this property.
-/
namespace Tux3.Btree

section
variable {node : Nodes} {n depth block low leaf q : ℕ} {path : List PathLevel}
  {es : List IndexEntry} {c : Cursor}

/-! ## Separators of entries -/

theorem entry_mem (hs : ∀ e ∈ es, Sized node n depth e.block) {e : IndexEntry} (he : e ∈ es) :
    e.key ∈ (es.flatMap fun e => leaves node depth e.key e.block).map Prod.fst := by
  obtain ⟨b, rest, heq⟩ := leaves_ne_nil (hs e he) e.key
  refine List.mem_map.mpr ⟨(e.key, b), List.mem_flatMap.mpr ⟨e, he, ?_⟩, rfl⟩
  rw [heq]
  exact List.mem_cons_self

theorem low_le_lowKey (hs : Sized node n depth block) (h : OnPath node depth block path leaf)
    (hsorted : ((leaves node depth low block).map Prod.fst).Pairwise (· ≤ ·)) :
    low ≤ lowKey node path low := by
  obtain ⟨b, rest, heq⟩ := leaves_ne_nil hs low
  have hmem : lowKey node path low ∈ (leaves node depth low block).map Prod.fst := by
    rw [leaves_path h low, List.map_append, List.map_cons]
    exact List.mem_append_right _ List.mem_cons_self
  rw [heq, List.map_cons] at hmem hsorted
  rcases List.mem_cons.mp hmem with heq | hmem
  · exact Nat.le_of_eq (Eq.symm heq)
  · exact (List.pairwise_cons.mp hsorted).1 _ hmem

theorem entry_key_mem (low : ℕ) (hs : Sized node n (depth + 1) block) {m : ℕ} {e : IndexEntry}
    (he : e ∈ ((node block).take m).drop 1) :
    e.key ∈ (((keyed low (node block)).take m).flatMap
      fun e => leaves node depth e.key e.block).map Prod.fst := by
  match hes : node block with
  | [] =>
      rw [hes, List.take_nil] at he
      cases he
  | a :: es =>
      rw [hes] at he
      cases m with
      | zero => cases he
      | succ m =>
          rw [List.take_succ_cons, List.drop_succ_cons, List.drop_zero] at he
          rw [keyed, List.take_succ_cons, List.flatMap_cons, List.map_append]
          refine List.mem_append_right _ (entry_mem (n := n) (fun x hx => ?_) he)
          exact hs.2.2 x (hes ▸ List.mem_cons_of_mem a (List.mem_of_mem_take hx))

theorem sorted_sub {l₁ l₂ l₃ : List (ℕ × ℕ)}
    (h : ((l₁ ++ (l₂ ++ l₃)).map Prod.fst).Pairwise (· ≤ ·)) :
    (l₁.map Prod.fst).Pairwise (· ≤ ·) ∧ (l₂.map Prod.fst).Pairwise (· ≤ ·) ∧
      (l₃.map Prod.fst).Pairwise (· ≤ ·) := by
  rw [List.map_append, List.map_append] at h
  obtain ⟨h₁, h₂₃, -⟩ := List.pairwise_append.mp h
  obtain ⟨h₂, h₃, -⟩ := List.pairwise_append.mp h₂₃
  exact ⟨h₁, h₂, h₃⟩

/-- The leaves below a node, around the entry before `next`. -/
theorem leaves_entry {next : ℕ} {e : IndexEntry} (hnext : 0 < next)
    (hentry : (node block)[next - 1]? = some e) :
    leaves node (depth + 1) low block =
      ((keyed low (node block)).take (next - 1)).flatMap (fun e => leaves node depth e.key e.block) ++
        (leaves node depth (if next = 1 then low else e.key) e.block ++
          ((node block).drop next).flatMap fun e => leaves node depth e.key e.block) := by
  have hkeyed := split_at hnext (keyed_getElem low hentry)
  have hkey : (if next - 1 = 0 then low else e.key) = if next = 1 then low else e.key := by
    congr 1
    exact propext ⟨fun h => by omega, fun h => by omega⟩
  rw [leaves]
  conv_lhs => rw [hkeyed]
  rw [List.flatMap_append, List.flatMap_cons, keyed_drop hnext, hkey]

/-! ## The entry of a probe -/

theorem probeNext_pos : 0 < probeNext es q := by
  unfold probeNext
  omega

/-- `probe` stops behind an entry with separators above the key to the right only. -/
theorem probeNext_eq {next : ℕ} (hnext : 0 < next) (hle : next ≤ es.length)
    (hleft : ∀ e ∈ (es.take next).drop 1, e.key ≤ q) (hright : ∀ e ∈ es[next]?, q < e.key) :
    probeNext es q = next := by
  have hsplit : es.drop 1 = (es.take next).drop 1 ++ es.drop next := by
    conv_lhs => rw [← List.take_append_drop next es]
    rw [List.drop_append_of_le_length (by rw [List.length_take]; omega)]
  have hstop : (es.drop next).takeWhile (fun e => decide (e.key ≤ q)) = [] := by
    cases hd : es.drop next with
    | nil => rfl
    | cons e rest =>
        have hget : es[next]? = some e := by
          rw [← List.head?_drop, hd]
          rfl
        rw [List.takeWhile_cons_of_neg]
        simpa using hright e hget
  rw [probeNext, hsplit, List.takeWhile_append_of_pos (fun e he => by simpa using hleft e he),
    hstop, List.append_nil, List.length_drop, List.length_take]
  omega

/-- A node around the entry that a probe follows. -/
theorem probeNext_split (h : es ≠ []) :
    ∃ l e r, es = l ++ e :: r ∧ probeNext es q = l.length + 1 ∧ (l = [] ∨ e.key ≤ q) ∧
      ∀ x ∈ r.head?, q < x.key := by
  obtain ⟨a, rest, rfl⟩ := List.exists_cons_of_ne_nil h
  set p := fun e : IndexEntry => decide (e.key ≤ q) with hp
  have hrest := rest.takeWhile_append_dropWhile (p := p)
  have hlast : ∀ x ∈ (rest.dropWhile p).head?, q < x.key := by
    intro x hx
    have hnot := List.head?_dropWhile_not p rest
    rw [Option.mem_def.mp hx] at hnot
    simpa [hp] using hnot
  rcases List.eq_nil_or_concat (rest.takeWhile p) with hnil | ⟨l, e, hl⟩
  · refine ⟨[], a, rest.dropWhile p, ?_, ?_, Or.inl rfl, hlast⟩
    · conv_lhs => rw [← hrest, hnil]
      rfl
    · rw [probeNext, List.drop_succ_cons, List.drop_zero, hnil]
      rfl
  · refine ⟨a :: l, e, rest.dropWhile p, ?_, ?_, Or.inr ?_, hlast⟩
    · conv_lhs => rw [← hrest, hl]
      simp
    · rw [probeNext, List.drop_succ_cons, List.drop_zero, hl]
      simp
      omega
    · have hall := List.all_takeWhile (l := rest) (p := p)
      rw [hl, List.concat_eq_append, List.all_append, Bool.and_eq_true] at hall
      simpa [hp] using hall.2

/-! ## Paths and probes -/

/-- The probe follows a path that has the key in its range. -/
theorem probe_path (hs : Sized node n depth block) (h : OnPath node depth block path leaf)
    (hsorted : ((leaves node depth low block).map Prod.fst).Pairwise (· ≤ ·))
    (hlow : lowKey node path low ≤ q) (hafter : ∀ x ∈ after node depth path, q < x.1) :
    probeFrom node depth block q = some ⟨path, leaf⟩ := by
  induction h generalizing low with
  | leaf block => rfl
  | @level depth block next e path leaf hnext hentry h ih =>
      have hsub := hs.2.2 e (List.mem_of_getElem? hentry)
      rw [leaves_entry hnext hentry] at hsorted
      obtain ⟨hlt, heq⟩ := List.getElem?_eq_some_iff.mp hentry
      have hlow' : lowKey node path (if next = 1 then low else e.key) ≤ q := by
        rw [lowKey] at hlow
        dsimp only at hlow
        rw [hentry] at hlow
        exact hlow
      have hbound := Nat.le_trans (low_le_lowKey hsub h (sorted_sub hsorted).2.1) hlow'
      have hprobe : probeNext (node block) q = next := by
        refine probeNext_eq hnext (by omega) (fun x hx => ?_) fun x hx => ?_
        · have htake : (node block).take next = (node block).take (next - 1) ++ [e] := by
            conv_lhs => rw [← Nat.sub_add_cancel hnext]
            rw [List.take_add_one, hentry]
            rfl
          by_cases h1 : next = 1
          · subst h1
            rw [htake] at hx
            cases hx
          · rw [if_neg h1] at hsorted hbound
            rw [htake, List.drop_append_of_le_length (by rw [List.length_take]; omega),
              List.mem_append, List.mem_singleton] at hx
            rcases hx with hx | rfl
            · have hmem := entry_key_mem low hs hx
              obtain ⟨b, tl, htl⟩ := leaves_ne_nil hsub e.key
              rw [htl, List.map_append] at hsorted
              have hle := (List.pairwise_append.mp hsorted).2.2 _ hmem e.key List.mem_cons_self
              exact Nat.le_trans hle hbound
            · exact hbound
        · obtain ⟨b, tl, htl⟩ := leaves_ne_nil (hs.2.2 x (List.mem_of_getElem? hx)) x.key
          refine hafter (x.key, b) ?_
          rw [after]
          refine List.mem_append_right _ (List.mem_flatMap.mpr ⟨x, ?_, ?_⟩)
          · exact List.mem_of_getElem? (i := 0) (by rw [List.getElem?_drop]; exact hx)
          · rw [htl]
            exact List.mem_cons_self
      rw [probeFrom]
      rw [hprobe, hentry]
      dsimp only
      rw [ih hsub (sorted_sub hsorted).2.1 hlow' fun x hx => hafter x ?_]
      · rfl
      · rw [after]
        exact List.mem_append_left _ hx

/-- A probe is a path, and the key is in its range. -/
theorem probe_spec (hs : Sized node n depth block)
    (hsorted : ((leaves node depth low block).map Prod.fst).Pairwise (· ≤ ·)) (hlow : low ≤ q) :
    ∃ c, probeFrom node depth block q = some c ∧ OnPath node depth block c.path c.leaf ∧
      lowKey node c.path low ≤ q ∧ ∀ x ∈ after node depth c.path, q < x.1 := by
  induction depth generalizing block low with
  | zero => exact ⟨⟨[], block⟩, rfl, OnPath.leaf block, hlow, fun x hx => by cases hx⟩
  | succ depth ih =>
      obtain ⟨l, e, r, hes, hnext, hkey, hright⟩ := probeNext_split (q := q) hs.1
      have hentry : (node block)[probeNext (node block) q - 1]? = some e := by
        rw [hnext, Nat.add_sub_cancel, hes, List.getElem?_append_right (Nat.le_refl _), Nat.sub_self]
        rfl
      have hdrop : (node block).drop (probeNext (node block) q) = r := by
        rw [hnext, hes]
        simp
      have hsub := hs.2.2 e (List.mem_of_getElem? hentry)
      rw [leaves_entry probeNext_pos hentry] at hsorted
      obtain ⟨-, hmid, hrest⟩ := sorted_sub hsorted
      have hlow' : (if probeNext (node block) q = 1 then low else e.key) ≤ q := by
        split
        · exact hlow
        · rcases hkey with rfl | hkey
          · rw [List.length_nil] at hnext
            contradiction
          · exact hkey
      obtain ⟨c, hc, hpath, hle, hafter⟩ := ih hsub hmid hlow'
      refine ⟨⟨⟨block, probeNext (node block) q⟩ :: c.path, c.leaf⟩, ?_,
        OnPath.level probeNext_pos hentry hpath, ?_, ?_⟩
      · rw [probeFrom]
        rw [hentry]
        dsimp only
        rw [hc]
        rfl
      · rw [lowKey]
        dsimp only
        rw [hentry]
        exact hle
      · intro x hx
        rw [after, List.mem_append] at hx
        rcases hx with hx | hx
        · exact hafter x hx
        · rw [hdrop] at hrest hx
          cases r with
          | nil => cases hx
          | cons a r =>
              have ha : q < a.key := hright a rfl
              obtain ⟨b, tl, htl⟩ := leaves_ne_nil
                (hs.2.2 a (hes ▸ List.mem_append_right l
                  (List.mem_cons_of_mem e List.mem_cons_self))) a.key
              rw [List.flatMap_cons, htl, List.cons_append] at hrest hx
              rcases List.mem_cons.mp hx with rfl | hx
              · exact ha
              · exact Nat.lt_of_lt_of_le ha
                  ((List.pairwise_cons.mp hrest).1 _ (List.mem_map.mpr ⟨x, hx, rfl⟩))

theorem probe_leaf (hs : Sized node n depth block)
    (hsorted : ((leaves node depth low block).map Prod.fst).Pairwise (· ≤ ·)) (hlow : low ≤ q) :
    (probeFrom node depth block q).map Cursor.leaf =
      ((leaves node depth low block).filter fun x => x.1 ≤ q).getLast?.map Prod.snd := by
  obtain ⟨c, hc, hpath, hle, hafter⟩ := probe_spec hs hsorted hlow
  have hright : (after node depth c.path).filter (fun x => x.1 ≤ q) = [] := by
    refine List.filter_eq_nil_iff.mpr fun x hx => ?_
    have hlt := hafter x hx
    simp only [decide_eq_true_eq]
    omega
  rw [hc, leaves_path hpath low, List.filter_append, List.filter_cons_of_pos (by simpa using hle),
    hright, List.getLast?_append, List.getLast?_singleton]
  rfl

end

/-- The leaf that `probe` reads for a key. -/
def Tree.reached (t : Tree) (key : ℕ) : Option ℕ :=
  (probeFrom t.node t.depth t.root key).map Cursor.leaf

theorem Tree.WellFormed.reached_eq {t : Tree} {n : ℕ} (h : t.WellFormed n) (q : ℕ) :
    t.reached q =
      ((leaves t.node t.depth 0 t.root).filter fun x => x.1 ≤ q).getLast?.map Prod.snd :=
  probe_leaf h.sized h.sorted (Nat.zero_le q)

end Tux3.Btree
