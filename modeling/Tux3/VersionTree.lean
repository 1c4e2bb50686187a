import Tux3.VersionIndex
import Tux3.Lib.Inherit
import Mathlib.Algebra.BigOperators.Group.Finset.Basic
import Mathlib.Algebra.Order.BigOperators.Group.Finset

/-!
# The version tree

The arrays describe a tree with version 0 as its origin. The recursions over the children and
the walks up to the origin end within the number of versions and do what they are for.
-/
namespace Tux3.Version

open Rooted

/-- The versions `mem` form a tree, and the bitmaps that are marked as loaded are right. -/
structure Shape (sb : Sb) (mem : ℕ → Prop) (depth : ℕ → ℕ) : Prop where
  packed : Packed sb
  le_max : sb.versionCount ≤ maxVersions
  live : ∀ v, mem v → v < sb.versionCount ∧ (sb.table v).used = true
  tree : Tree 0 mem (getParent sb) depth
  kids : Kids 0 mem (getParent sb) sb.kids
  single : sb.childCount 0 ≤ 1
  path : ∀ v, mem v → (sb.table v).pathmap = true →
    ∀ u, sb.pathmap v u = true ↔ u ≠ 0 ∧ Below 0 (getParent sb) u v
  near : ∀ v, mem v → v ≠ 0 → (sb.table v).nearmap = true →
    ∀ u, sb.nearmap v u = true ↔ u = v ∨ u ∈ sb.kids v

section
variable {sb : Sb} {mem : ℕ → Prop} {depth : ℕ → ℕ} {u v : ℕ}

theorem Packed.slot_eq (h : Packed sb) (hv : v < sb.versionCount) :
    sb.childIndex v + sb.childCount v = ∑ u ∈ Finset.range (v + 1), sb.childCount u := by
  induction v with
  | zero => rw [h.zero, Finset.sum_range_one, Nat.zero_add]
  | succ v ih => rw [Finset.sum_range_succ, ← ih (Nat.lt_of_succ_lt hv), h.next v hv]

theorem Kids.count (h : Kids 0 mem (getParent sb) sb.kids) (v : ℕ) :
    sb.childCount v = (sb.kids v).toFinset.card := by
  rw [List.toFinset_card_of_nodup (h.nodup v), kids_length]

open Classical in
theorem Shape.sum_kids (h : Shape sb mem depth) :
    ∑ v ∈ Finset.range sb.versionCount, sb.childCount v =
      ((Finset.range sb.versionCount).filter fun v => mem v ∧ v ≠ 0).card := by
  have hunion : ((Finset.range sb.versionCount).filter fun v => mem v ∧ v ≠ 0) =
      (Finset.range sb.versionCount).biUnion fun v => (sb.kids v).toFinset := by
    ext c
    simp only [Finset.mem_filter, Finset.mem_range, Finset.mem_biUnion, List.mem_toFinset]
    constructor
    · rintro ⟨-, hc, hc0⟩
      exact ⟨_, (h.live _ (h.tree.up c hc hc0).1).1, (h.kids.mem_iff _ _).mpr ⟨hc, hc0, rfl⟩⟩
    · rintro ⟨v, -, hc⟩
      obtain ⟨hc, hc0, -⟩ := (h.kids.mem_iff _ _).mp hc
      exact ⟨(h.live c hc).1, hc, hc0⟩
  rw [hunion, Finset.card_biUnion]
  · exact Finset.sum_congr rfl fun v _ => Kids.count h.kids v
  · intro v _ w _ hvw
    rw [Function.onFun, Finset.disjoint_left]
    intro c hc hc'
    rw [List.mem_toFinset] at hc hc'
    exact hvw (((h.kids.mem_iff _ _).mp hc).2.2.symm.trans ((h.kids.mem_iff _ _).mp hc').2.2)

theorem Shape.room (h : Shape sb mem depth) : Room sb := by
  classical
  intro v hv
  have hcard : ((Finset.range sb.versionCount).filter fun v => mem v ∧ v ≠ 0).card <
      (Finset.range sb.versionCount).card := by
    refine Finset.card_lt_card ((Finset.filter_ssubset).mpr ⟨0, ?_, fun h0 => h0.2 rfl⟩)
    exact Finset.mem_range.mpr (Nat.zero_lt_of_lt hv)
  rw [Finset.card_range, ← h.sum_kids] at hcard
  rw [h.packed.slot_eq hv]
  refine Nat.lt_of_le_of_lt (Finset.sum_le_sum_of_subset fun u hu => ?_) hcard
  rw [Finset.mem_range] at hu ⊢
  omega

theorem Shape.depth_lt (h : Shape sb mem depth) (hv : mem v) : depth v < maxVersions := by
  have hnodes : ∀ u, mem u → u ∈ Finset.range sb.versionCount :=
    fun u hu => Finset.mem_range.mpr (h.live u hu).1
  have hlt := h.tree.depth_lt hnodes hv
  rw [Finset.card_range] at hlt
  exact Nat.lt_of_lt_of_le hlt h.le_max

theorem Shape.kid (h : Shape sb mem depth) {c : ℕ} (hc : c ∈ sb.kids v) :
    mem c ∧ c ≠ 0 ∧ getParent sb c = v ∧ depth c = depth v + 1 := by
  obtain ⟨hc, hc0, hp⟩ := (h.kids.mem_iff v c).mp hc
  exact ⟨hc, hc0, hp, hp ▸ (h.tree.up c hc hc0).2⟩

theorem Shape.childless (h : Shape sb mem depth) (hv : ¬ mem v) : sb.kids v = [] := by
  refine List.eq_nil_iff_forall_not_mem.mpr fun c hc => ?_
  obtain ⟨hc, hc0, hp, -⟩ := h.kid hc
  exact hv (hp ▸ (h.tree.up c hc hc0).1)

theorem Shape.getRoot (h : Shape sb mem depth) (hv : mem v) (hv0 : v ≠ 0) :
    ∃ r, getRoot sb = some r ∧ sb.kids 0 = [r] := by
  have hpos : 0 < depth v := h.tree.depth_pos hv hv0
  have hne : sb.childCount 0 ≠ 0 := by
    intro h0
    have hnil : sb.kids 0 = [] := List.length_eq_zero_iff.mp (kids_length sb 0 ▸ h0)
    have hall : ∀ w, mem w → w ≠ 0 → False := fun w hw => by
      refine h.tree.induct (P := fun w => w ≠ 0 → False) (fun h => h rfl) ?_ hw
      intro w hw hw0 ih _
      by_cases hp : Version.getParent sb w = 0
      · have hmem := (h.kids.mem_iff 0 w).mpr ⟨hw, hw0, hp⟩
        rw [hnil] at hmem
        cases hmem
      · exact ih hp
    exact hall v hv hv0
  have hone : sb.childCount 0 = 1 := by
    have := h.single
    omega
  refine ⟨sb.children 0, by rw [Version.getRoot, if_neg hne], ?_⟩
  simp only [Sb.kids, hone, getChild, h.packed.zero, List.range_one, List.map_cons, List.map_nil]

theorem Shape.below_root (h : Shape sb mem depth) {r : ℕ} (hr : sb.kids 0 = [r]) (hv : mem v)
    (hv0 : v ≠ 0) : Below 0 (getParent sb) r v :=
  h.tree.below_root h.kids hr hv hv0

end

/-! ## The recursions -/

theorem foldlM_visit {σ : Type} (keep : σ → σ → Prop) (ok : σ → Prop) (done : ℕ → σ → Prop)
    {f : σ → ℕ → Option σ} {l : List ℕ} (hrefl : ∀ s, keep s s)
    (htrans : ∀ s t u, keep s t → keep t u → keep s u)
    (hok : ∀ s t, keep s t → ok s → ok t) (hdone : ∀ c s t, keep s t → done c s → done c t)
    (hstep : ∀ c ∈ l, ∀ s, ok s → ∃ s', f s c = some s' ∧ keep s s' ∧ done c s') {s : σ}
    (hs : ok s) : ∃ s', l.foldlM f s = some s' ∧ keep s s' ∧ ∀ c ∈ l, done c s' := by
  induction l generalizing s with
  | nil => exact ⟨s, rfl, hrefl s, (fun c hc => nomatch hc)⟩
  | cons c l ih =>
      obtain ⟨s1, h1, hkeep1, hdone1⟩ := hstep c List.mem_cons_self s hs
      obtain ⟨s2, h2, hkeep2, hdone2⟩ :=
        ih (fun d hd => hstep d (List.mem_cons_of_mem c hd)) (hok s s1 hkeep1 hs)
      refine ⟨s2, ?_, htrans _ _ _ hkeep1 hkeep2, fun d hd => ?_⟩
      · rw [List.foldlM_cons, h1]
        exact h2
      · cases hd with
        | head => exact hdone c s1 s2 hkeep2 hdone1
        | tail _ hd => exact hdone2 d hd

section
variable {sb : Sb} {mem : ℕ → Prop} {depth : ℕ → ℕ} {v : ℕ}

/-- `order_tree` gives every version below `v` its depth and changes nothing else. -/
theorem orderFrom_spec (hkid : ∀ v, mem v → ∀ c ∈ sb.kids v, mem c ∧ depth c = depth v + 1)
    (fuel : ℕ) (hfuel : ∀ u, mem u → depth u < fuel + depth v) (hv : mem v) (ordmap : ℕ → ℕ) :
    ∃ ordmap', orderFrom sb fuel v (depth v) ordmap = some ordmap' ∧
      (∀ u, ordmap' u = depth u ∨ ordmap' u = ordmap u) ∧
      ∀ u, Desc sb.kids v u → ordmap' u = depth u := by
  induction fuel generalizing v ordmap with
  | zero => exact absurd (hfuel v hv) (by omega)
  | succ fuel ih =>
      have hstep : ∀ c ∈ sb.kids v, ∀ s : ℕ → ℕ, True →
          ∃ s', orderFrom sb fuel c (depth v + 1) s = some s' ∧
            (∀ u, s' u = depth u ∨ s' u = s u) ∧ ∀ u, Desc sb.kids c u → s' u = depth u := by
        intro c hc s _
        obtain ⟨hcm, hcd⟩ := hkid v hv c hc
        rw [← hcd]
        exact ih (fun u hu => by have := hfuel u hu; omega) hcm s
      obtain ⟨ordmap', hfold, hkeep, hdone⟩ := foldlM_visit
        (fun s t : ℕ → ℕ => ∀ u, t u = depth u ∨ t u = s u) (fun _ => True)
        (fun c s => ∀ u, Desc sb.kids c u → s u = depth u)
        (fun s u => Or.inr rfl)
        (fun s t w h1 h2 u => (h2 u).elim Or.inl fun h => h ▸ h1 u) (fun _ _ _ _ => trivial)
        (fun c s t hst hc u hu => (hst u).elim id fun h => h.trans (hc u hu))
        hstep (show (fun _ => True) (Function.update ordmap v (depth v)) from trivial)
      refine ⟨ordmap', hfold, fun u => ?_, fun u hu => ?_⟩
      · rcases hkeep u with h | h
        · exact Or.inl h
        · by_cases huv : u = v
          · exact Or.inl (by rw [h, huv, Function.update_self])
          · exact Or.inr (by rw [h, Function.update_of_ne huv])
      · rcases desc_iff.mp hu with rfl | ⟨c, hc, hcu⟩
        · exact (hkeep u).elim id fun h => h.trans (Function.update_self u _ _)
        · exact hdone c hc u hcu

/-- The table with some `pathmap` flags cleared. -/
def Cleared (table table' : ℕ → Entry) : Prop :=
  ∀ u, table' u = table u ∨ table' u = { table u with pathmap := false }

theorem Cleared.trans {s t w : ℕ → Entry} (h1 : Cleared s t) (h2 : Cleared t w) : Cleared s w := by
  intro u
  rcases h1 u with h1 | h1 <;> rcases h2 u with h2 | h2 <;> rw [h2, h1]
  · exact Or.inl rfl
  · exact Or.inr rfl
  · exact Or.inr rfl
  · exact Or.inr rfl

/-- What stays the same in an entry whose `pathmap` flag may have been cleared. -/
structure SameEntry (e e' : Entry) : Prop where
  parent : e'.parent = e.parent
  used : e'.used = e.used
  nearmap : e'.nearmap = e.nearmap
  pathmap : e'.pathmap = true → e.pathmap = true
  marks : e'.tag = e.tag ∧ e'.ghost = e.ghost ∧ e'.present = e.present

theorem Cleared.entry {s t : ℕ → Entry} (h : Cleared s t) (u : ℕ) : SameEntry (s u) (t u) := by
  rcases h u with heq | heq
  · rw [heq]
    exact ⟨rfl, rfl, rfl, id, rfl, rfl, rfl⟩
  · rw [heq]
    exact ⟨rfl, rfl, rfl, fun hf => (nomatch hf), rfl, rfl, rfl⟩

/-- `invalidate_path` clears the `pathmap` flags of the versions below `v`. -/
theorem invalidateFrom_spec (hkid : ∀ v, mem v → ∀ c ∈ sb.kids v, mem c ∧ depth c = depth v + 1)
    (fuel : ℕ) (hfuel : ∀ u, mem u → depth u < fuel + depth v) (hv : mem v) {table : ℕ → Entry}
    (hmem : ∀ u, mem u → u < maxVersions ∧ (table u).used = true) :
    ∃ table', invalidateFrom sb fuel v table = some table' ∧ Cleared table table' ∧
      ∀ u, Desc sb.kids v u → (table' u).pathmap = false := by
  induction fuel generalizing v table with
  | zero => exact absurd (hfuel v hv) (by omega)
  | succ fuel ih =>
      have hused : ∀ s t, Cleared s t → (∀ u, mem u → u < maxVersions ∧ (s u).used = true) →
          ∀ u, mem u → u < maxVersions ∧ (t u).used = true := by
        intro s t hst hs u hu
        rcases hst u with h | h <;> rw [h] <;> exact hs u hu
      have hfirst : Cleared table (Function.update table v { table v with pathmap := false }) := by
        intro u
        by_cases huv : u = v
        · subst huv
          exact Or.inr (Function.update_self _ _ _)
        · exact Or.inl (Function.update_of_ne huv _ _)
      have hflag : ∀ u s t, Cleared s t → (s u).pathmap = false → (t u).pathmap = false := by
        intro u s t hst hs
        rcases hst u with h | h <;> rw [h]
        exact hs
      have hstep : ∀ c ∈ sb.kids v, ∀ s : ℕ → Entry,
          (∀ u, mem u → u < maxVersions ∧ (s u).used = true) →
          ∃ s', invalidateFrom sb fuel c s = some s' ∧ Cleared s s' ∧
            ∀ u, Desc sb.kids c u → (s' u).pathmap = false := by
        intro c hc s hs
        obtain ⟨hcm, hcd⟩ := hkid v hv c hc
        exact ih (fun u hu => by have := hfuel u hu; omega) hcm hs
      obtain ⟨table', hfold, hkeep, hdone⟩ := foldlM_visit Cleared
        (fun s => ∀ u, mem u → u < maxVersions ∧ (s u).used = true)
        (fun c s => ∀ u, Desc sb.kids c u → (s u).pathmap = false)
        (fun s u => Or.inl rfl) (fun s t w => Cleared.trans) hused
        (fun c s t hst hc u hu => hflag u s t hst (hc u hu))
        hstep (hused _ _ hfirst hmem)
      refine ⟨table', ?_, hfirst.trans hkeep, fun u hu => ?_⟩
      · rw [invalidateFrom, if_pos (hmem v hv)]
        exact hfold
      · rcases desc_iff.mp hu with rfl | ⟨c, hc, hcu⟩
        · refine hflag u _ _ hkeep ?_
          rw [Function.update_self]
        · exact hdone c hc u hcu

/-- The walk of `need_path` sets the bits of a version and of its ancestors. -/
theorem loadPath_spec (t : Tree 0 mem (getParent sb) depth) (hv : mem v) {fuel : ℕ}
    (hfuel : depth v ≤ fuel) (map : ℕ → Bool) : ∃ map', loadPath sb fuel v map = some map' ∧
      ∀ u, map' u = true ↔ map u = true ∨ u ≠ 0 ∧ Below 0 (getParent sb) u v := by
  induction fuel generalizing v map with
  | zero =>
      cases v with
      | zero =>
          refine ⟨map, by rw [loadPath], fun u => ⟨Or.inl, ?_⟩⟩
          rintro (h | ⟨hu, hb⟩)
          · exact h
          · cases hb with
            | refl => exact absurd rfl hu
            | step hv0 => exact absurd rfl hv0
      | succ v =>
          have := t.depth_pos hv (Nat.succ_ne_zero v)
          omega
  | succ fuel ih =>
      cases v with
      | zero =>
          refine ⟨map, by rw [loadPath], fun u => ⟨Or.inl, ?_⟩⟩
          rintro (h | ⟨hu, hb⟩)
          · exact h
          · cases hb with
            | refl => exact absurd rfl hu
            | step hv0 => exact absurd rfl hv0
      | succ v =>
          obtain ⟨hp, hd⟩ := t.up _ hv (Nat.succ_ne_zero v)
          obtain ⟨map', hload, hmap⟩ := ih hp (by omega) (Function.update map (v + 1) true)
          refine ⟨map', hload, fun u => ?_⟩
          rw [hmap u, below_iff (Nat.succ_ne_zero v)]
          by_cases huv : u = v + 1
          · subst huv
            rw [Function.update_self]
            exact ⟨fun _ => Or.inr ⟨Nat.succ_ne_zero v, Or.inl rfl⟩, fun _ => Or.inl rfl⟩
          · rw [Function.update_of_ne huv]
            constructor
            · exact Or.imp_right fun ⟨h0, h⟩ => ⟨h0, Or.inr h⟩
            · refine Or.imp_right fun ⟨h0, h⟩ => ⟨h0, h.resolve_left fun heq => huv heq.symm⟩

/-- The number of heirs of a version, counted over the present flags. -/
theorem heirsFrom_eq (hkid : ∀ v, mem v → ∀ c ∈ sb.kids v, mem c ∧ depth c = depth v + 1)
    (fuel : ℕ) (hfuel : ∀ u, mem u → depth u < fuel + depth v) (hv : mem v) :
    heirsFrom sb fuel v =
      some (heirs sb.kids (isPresent sb) (fun c => !isGhost sb c) fuel v).length := by
  induction fuel generalizing v with
  | zero => exact absurd (hfuel v hv) (by omega)
  | succ fuel ih =>
      have hloop : ∀ l : List ℕ, (∀ c ∈ l, c ∈ sb.kids v) → ∀ n,
          l.foldlM (fun heirs child =>
            if isPresent sb child then some heirs
            else do
              let below ← heirsFrom sb fuel child
              return heirs + (below + if isGhost sb child then 0 else 1)) n =
            some (n + (l.flatMap fun c => if isPresent sb c then []
              else (if !isGhost sb c then [c] else []) ++
                heirs sb.kids (isPresent sb) (fun c => !isGhost sb c) fuel c).length) := by
        intro l hl
        induction l with
        | nil => exact fun n => rfl
        | cons c l ihl =>
            intro n
            obtain ⟨hcm, hcd⟩ := hkid v hv c (hl c List.mem_cons_self)
            have hrest := ihl fun d hd => hl d (List.mem_cons_of_mem c hd)
            rw [List.foldlM_cons, List.flatMap_cons, List.length_append, ← Nat.add_assoc]
            by_cases hpres : isPresent sb c = true
            · simp only [hpres, if_true]
              exact hrest n
            · have hhere := ih (fun u hu => by have := hfuel u hu; omega) hcm
              simp only [hpres, Bool.false_eq_true, if_false, hhere]
              rw [List.length_append]
              refine (hrest _).trans ?_
              congr 2
              by_cases hg : isGhost sb c = true
              · simp only [hg, if_true, Bool.not_true, Bool.false_eq_true, if_false,
                  List.length_nil]
                omega
              · simp only [hg, Bool.false_eq_true, if_false, Bool.not_false, if_true,
                  List.length_singleton]
                omega
      rw [heirsFrom, hloop _ (fun c hc => hc) 0, Nat.zero_add, heirs]

end

end Tux3.Version
