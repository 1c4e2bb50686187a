import Tux3.VersionEdit

/-!
# Promotion and new roots

A version with one child is replaced by it, and a snapshot of the origin goes above the root. Both
invalidate the paths below and order the tree anew.
-/
namespace Tux3.Version

open Rooted

section
variable {sb sb' : Sb} {mem : ℕ → Prop} {depth : ℕ → ℕ} {p c : ℕ}

/-! ## An only child is promoted -/

/-- `replace_child` puts `c` in the place of `p`, which becomes free. -/
theorem replaceChild_spec (hpacked : Packed sb) (hp : p ∈ sb.kids (getParent sb p))
    (hlive : getParent sb p < sb.versionCount) (hused : (sb.table p).used = true) (hcp : c ≠ p) :
    ∃ sb', replaceChild sb p c = some sb' ∧ Packed sb' ∧
      (∃ table children, sb' = { sb with
        table := table
        children := children
        activeCount := sb.activeCount - 1 }) ∧
      (∀ v, sb'.table v = { sb.table v with
        parent := if v = p then 0 else if v = c then getParent sb p else (sb.table v).parent
        used := if v = p then false else (sb.table v).used
        nearmap := if v = getParent sb p then false else (sb.table v).nearmap }) ∧
      sb'.kids (getParent sb p) = ((sb.kids (getParent sb p)).erase p).orderedInsert (· < ·) c ∧
      ∀ v ≠ getParent sb p, sb'.kids v = sb.kids v := by
  have hj : (sb.kids (getParent sb p)).idxOf p < sb.childCount (getParent sb p) := by
    rw [← kids_length sb]
    exact List.idxOf_lt_length_of_mem hp
  have herase := @erase_slot sb _ (getParent sb p) _ hj rfl
  rw [replaceChild, findChild, if_pos hp]
  generalize hq : getParent sb p = q at *
  set j := (sb.kids q).idxOf p with hjdef
  set moved := vecmove sb.children (sb.childIndex q + j) (sb.childIndex q + j + 1)
    (sb.childIndex q + sb.childCount q - (sb.childIndex q + j) - 1) with hmoved
  set k := (((sb.kids q).eraseIdx j).takeWhile fun other => other ≤ c).length with hkdef
  have hpos : findChildPos { sb with children := moved } q c (sb.childCount q - 1) =
      sb.childIndex q + k := by
    rw [findChildPos, hkdef, ← herase]
    rfl
  have hk : k < sb.childCount q := by
    have hle := (List.takeWhile_sublist (fun other => decide (other ≤ c))
      (l := (sb.kids q).eraseIdx j)).length_le
    rw [List.length_eraseIdx_of_lt (by rw [kids_length]; exact hj), kids_length] at hle
    omega
  set children := Function.update (vecmove moved (sb.childIndex q + k + 1) (sb.childIndex q + k)
    (sb.childIndex q + sb.childCount q - (sb.childIndex q + k) - 1)) (sb.childIndex q + k) c
    with hchildren
  set final : Sb := (({ ({ sb with children := children }.setEntry c
      { sb.table c with parent := q } : Sb).setEntry p
        { sb.table p with parent := 0, used := false } with
      activeCount := sb.activeCount - 1 } : Sb)).setEntry q
        { (({ sb with children := children }.setEntry c
            { sb.table c with parent := q } : Sb).setEntry p
              { sb.table p with parent := 0, used := false }).table q with nearmap := false }
    with hfinal
  obtain ⟨hpacked', hkids, hrest⟩ :=
    @replace_kids sb final moved q j k c hpacked hlive hj hk rfl rfl rfl rfl rfl
  refine ⟨final, ?_, hpacked', ⟨_, _, rfl⟩, fun v => ?_, ?_, hrest⟩
  · have hself : (({ sb with children := children }.setEntry c
        { sb.table c with parent := q } : Sb).table p) = sb.table p :=
      Function.update_of_ne hcp.symm _ _
    have hfree : freeVersion ({ sb with children := children }.setEntry c
        { sb.table c with parent := q }) p = some { ({ sb with children := children }.setEntry c
          { sb.table c with parent := q } : Sb).setEntry p
            { sb.table p with parent := 0, used := false } with
          activeCount := sb.activeCount - 1 } := by
      rw [freeVersion, hself, if_pos hused]
      rfl
    simp only [Option.bind_eq_bind, Option.bind_some]
    rw [← hmoved, hpos, ← hchildren, hfree]
    rfl
  · simp only [hfinal, Sb.setEntry]
    by_cases hvq : v = q
    · subst hvq
      rw [Function.update_self, if_pos rfl]
      by_cases hvp : v = p
      · subst hvp
        rw [Function.update_self, if_pos rfl, if_pos rfl]
      · rw [Function.update_of_ne hvp, if_neg hvp, if_neg hvp]
        by_cases hvc : v = c
        · subst hvc
          rw [Function.update_self, if_pos rfl]
        · rw [Function.update_of_ne hvc, if_neg hvc]
    · rw [Function.update_of_ne hvq, if_neg hvq]
      by_cases hvp : v = p
      · subst hvp
        rw [Function.update_self, if_pos rfl, if_pos rfl]
      · rw [Function.update_of_ne hvp, if_neg hvp, if_neg hvp]
        by_cases hvc : v = c
        · subst hvc
          rw [Function.update_self, if_pos rfl]
        · rw [Function.update_of_ne hvc, if_neg hvc]
  · rw [hkids, hkdef, insert_place, hjdef, List.eraseIdx_idxOf_eq_erase]

/-- What `promote_child` of the only child `c` of `p` does. -/
structure Promoted (sb sb' : Sb) (p c : ℕ) : Prop extends Edit sb sb' where
  active : sb'.activeCount = sb.activeCount - 1
  used : ∀ v, (sb'.table v).used = if v = p then false else (sb.table v).used
  parent : ∀ v, getParent sb' v =
    if v = p then 0 else if v = c then getParent sb p else getParent sb v
  counts : ∀ v, v ≠ p → sb'.childCount v = sb.childCount v

theorem Shape.promoteChild (h : Shape sb mem depth) (h0 : sb.ordmap 0 = 0) (hp : mem p)
    (hp0 : p ≠ 0) (honly : sb.kids p = [c]) : ∃ sb', promoteChild sb c = some sb' ∧
      sb'.ordmap 0 = 0 ∧ Shape sb' (fun v => v ≠ p ∧ mem v) sb'.ordmap ∧ Promoted sb sb' p c := by
  obtain ⟨hc, hc0, hcp, -⟩ := h.kid (show c ∈ sb.kids p by rw [honly]; exact List.mem_cons_self)
  have hne : c ≠ p := fun heq => h.tree.parent_ne hc hc0 (hcp.trans heq.symm)
  have hgp := h.tree.parent_ne hp hp0
  have hgm := (h.tree.up p hp hp0).1
  obtain ⟨hpacked₁, hkids₁, hrest₁⟩ := detach_kids h hc hc0
  rw [hcp, honly, List.erase_cons_head] at hkids₁
  rw [hcp] at hrest₁
  have hpmem : p ∈ sb.kids (getParent sb p) := (h.kids.mem_iff _ _).mpr ⟨hp, hp0, rfl⟩
  have hp₁ : getParent (Version.detach sb c) p = getParent sb p := congrFun detach_parent p
  obtain ⟨sb₂, hreplace, hpacked₂, ⟨table₂, children₂, heq₂⟩, htable₂, hk, hrest₂⟩ :=
    @replaceChild_spec (Version.detach sb c) p c hpacked₁
      (by rw [hp₁, hrest₁ _ hgp]; exact hpmem) (by rw [hp₁]; exact (h.live _ hgm).1)
      (by rw [detach_table]; exact (h.live p hp).2) hne
  rw [hp₁] at hk hrest₂
  rw [hrest₁ _ hgp] at hk
  have hentry : ∀ v, sb₂.table v = { sb.table v with
      parent := if v = p then 0 else if v = c then getParent sb p else (sb.table v).parent
      used := if v = p then false else (sb.table v).used
      nearmap := if v = getParent sb p ∨ v = p then false else (sb.table v).nearmap } := by
    intro v
    rw [htable₂, detach_table, hp₁, hcp]
    by_cases hv : v = getParent sb p
    · simp only [hv, if_true, true_or]
    · simp only [hv, if_false, false_or]
  have hparent : ∀ v, getParent sb₂ v =
      if v = p then 0 else if v = c then getParent sb p else getParent sb v := fun v => by
    rw [getParent, hentry]
    rfl
  have honly' : ∀ v, mem v → v ≠ 0 → getParent sb v = p → v = c := by
    intro v hv hv0 hvp
    have hin := (h.kids.mem_iff p v).mpr ⟨hv, hv0, hvp⟩
    rw [honly] at hin
    exact List.mem_singleton.mp hin
  obtain ⟨depth', hle, htree⟩ : ∃ depth', (∀ v, depth' v ≤ depth v) ∧
      Tree 0 (fun v => v ≠ p ∧ mem v) (getParent sb₂) depth' := by
    classical
    refine ⟨_, fun v => ?_, h.tree.splice hp0 hp hc0 hc hcp honly' (fun v => Iff.rfl)
      (by rw [hparent, if_neg hne, if_pos rfl])
      fun v _ _ hvc hvp => by rw [hparent, if_neg hvp, if_neg hvc]⟩
    split
    · exact Nat.sub_le _ _
    · exact Nat.le_refl _
  have hkids : Kids 0 (fun v => v ≠ p ∧ mem v) (getParent sb₂) sb₂.kids := by
    refine h.kids.splice h.tree hp hp0 honly ((hrest₂ p hgp.symm).trans hkids₁) (fun x => ?_) ?_
      (fun v hv hvp => (hrest₂ v hv).trans (hrest₁ v hvp))
      (by rw [hparent, if_neg hne, if_pos rfl])
      fun v hvp hvc => by rw [hparent, if_neg hvp, if_neg hvc]
    · rw [hk, List.mem_orderedInsert, (h.kids.nodup _).mem_erase_iff]
    · rw [hk, (List.perm_orderedInsert _ _ _).nodup_iff, List.nodup_cons]
      refine ⟨fun hin => hgp ?_, (h.kids.nodup _).erase p⟩
      exact (h.kid (List.mem_of_mem_erase hin)).2.2.1.symm.trans hcp
  have hkid : ∀ v, v ≠ p ∧ mem v → ∀ x ∈ sb₂.kids v, (x ≠ p ∧ mem x) ∧ depth' x = depth' v + 1 := by
    intro v _ x hx
    obtain ⟨hx, hx0, hpx⟩ := (hkids.mem_iff v x).mp hx
    exact ⟨hx, hpx ▸ (htree.up x hx hx0).2⟩
  have hused : ∀ v, v ≠ p ∧ mem v → v < sb.versionCount ∧ (sb₂.table v).used = true := by
    intro v hv
    rw [hentry]
    exact ⟨(h.live v hv.2).1, (if_neg hv.1).trans (h.live v hv.2).2⟩
  obtain ⟨table', hinv, hclear, hbelow⟩ := @invalidateFrom_spec sb₂ _ depth' c hkid maxVersions
    (fun u hu => by have h₁ := hle u; have h₂ := h.depth_lt hu.2; omega) ⟨hne, hc⟩ sb₂.table
    fun u hu => ⟨Nat.lt_of_lt_of_le (hused u hu).1 h.le_max, (hused u hu).2⟩
  have hkeep := fun v => hclear.entry v
  have hparent₃ : getParent { sb₂ with table := table' } = getParent sb₂ :=
    funext fun v => (hkeep v).parent
  have hlen : ∀ v, v ≠ p → sb₂.childCount v = sb.childCount v := by
    intro v hvp
    rw [← kids_length, ← kids_length sb v]
    by_cases hv : v = getParent sb p
    · subst hv
      rw [hk, List.orderedInsert_length, List.length_erase_of_mem hpmem]
      exact Nat.sub_add_cancel (List.length_pos_of_mem hpmem)
    · rw [hrest₂ v hv, hrest₁ v hvp]
  have hcount₂ : sb₂.versionCount = sb.versionCount := by rw [heq₂]; rfl
  have hshape : Shape { sb₂ with table := table' } (fun v => v ≠ p ∧ mem v) depth' := by
    refine ⟨⟨hpacked₂.zero, hpacked₂.next, hpacked₂.beyond⟩, hcount₂ ▸ h.le_max, fun v hv => ?_,
      hparent₃ ▸ htree, hparent₃ ▸ hkids, (hlen 0 hp0.symm).trans_le h.single, fun v hv hf u => ?_,
      fun v hv hv0 hf u => ?_⟩
    · change v < sb₂.versionCount ∧ (table' v).used = true
      rw [hcount₂, (hkeep v).used]
      exact hused v hv
    · -- the cleared flags are those of the versions whose path has changed
      have hnot : ¬ Below 0 (getParent sb₂) c v := fun hb => by
        have := hbelow v (hb.desc htree hkids hv)
        rw [show ({ sb₂ with table := table' } : Sb).table v = table' v from rfl, this] at hf
        cases hf
      have hflag := (hkeep v).pathmap hf
      rw [hentry] at hflag
      have hpath : sb₂.pathmap = sb.pathmap := by rw [heq₂]; rfl
      rw [hparent₃]
      change sb₂.pathmap v u = true ↔ _
      rw [hpath]
      refine (h.path v hv.2 hflag u).trans (and_congr_right fun _ => ?_)
      refine below_congr (S := fun w => (w ≠ p ∧ mem w) ∧ ¬ Below 0 (getParent sb₂) c w)
        (fun w hw hw0 => ?_) ⟨hv, hnot⟩
      obtain ⟨⟨hwp, hwm⟩, hwb⟩ := hw
      have hwc : w ≠ c := by
        rintro rfl
        exact hwb .refl
      have heq : getParent sb₂ w = getParent sb w := by rw [hparent, if_neg hwp, if_neg hwc]
      refine ⟨heq.symm, ⟨heq ▸ (htree.up w ⟨hwp, hwm⟩ hw0).1, ?_⟩⟩
      exact fun hb => hwb (.step hw0 (heq ▸ hb))
    · have hflag : (sb₂.table v).nearmap = true := (hkeep v).nearmap ▸ hf
      rw [hentry] at hflag
      dsimp only at hflag
      split at hflag
      · cases hflag
      · next hvn =>
          obtain ⟨hvg, hvp⟩ := not_or.mp hvn
          have hnear : sb₂.nearmap = sb.nearmap := by rw [heq₂]; rfl
          change sb₂.nearmap v u = true ↔ u = v ∨ u ∈ sb₂.kids v
          rw [hnear, hrest₂ v hvg, hrest₁ v hvp]
          exact h.near v hv.2 hv0 hflag u
  obtain ⟨r, hr, hkids₀⟩ := hshape.getRoot ⟨hne, hc⟩ hc0
  have h0' : ({ sb₂ with table := table' } : Sb).ordmap 0 = 0 := by rw [heq₂]; exact h0
  obtain ⟨ordmap, hord, hzero, hshape'⟩ := hshape.orderTree h0' hkids₀
  refine ⟨_, ?_, hzero, hshape', ?_⟩
  · have hone : sb.childCount p = 1 := by rw [← kids_length, honly]; rfl
    have hremove := @removeChild_eq sb c (by rw [hcp, honly]; exact List.mem_cons_self)
    have hpath : invalidatePath sb₂ c = some { sb₂ with table := table' } := by
      rw [invalidatePath, hinv]
      rfl
    rw [Version.promoteChild]
    simp only [hcp, hone, if_true, hremove, hreplace, hpath, hr, Option.bind_eq_bind,
      Option.bind_some]
    exact hord
  · refine ⟨⟨?_, ?_, ?_, ?_, ?_, hcount₂, fun v => ?_⟩, ?_, fun v => ?_, fun v => ?_, hlen⟩
    · rw [heq₂]; rfl
    · rw [heq₂]; rfl
    · rw [heq₂]; rfl
    · rw [heq₂]; rfl
    · rw [heq₂]; rfl
    · have hm := (hkeep v).marks
      rw [hentry] at hm
      exact hm
    · rw [heq₂]; rfl
    · change (table' v).used = _
      rw [(hkeep v).used, hentry]
    · exact (hkeep v).parent.trans (hparent v)

/-! ## A new root -/

theorem patch_kids (h : Packed sb) (hone : sb.childCount 0 = 1) (r : ℕ) :
    ({ sb with children := Function.update sb.children 0 r } : Sb).kids 0 = [r] ∧
      ∀ v, v ≠ 0 →
        ({ sb with children := Function.update sb.children 0 r } : Sb).kids v = sb.kids v := by
  refine ⟨kids_eq hone fun i hi => ?_, fun v hv => kids_congr rfl fun i hi => ?_⟩
  · obtain rfl : i = 0 := by simpa using hi
    change Function.update sb.children 0 r (sb.childIndex 0 + 0) = r
    rw [h.zero, Function.update_self]
  · change Function.update sb.children 0 r (sb.childIndex v + i) = _
    rw [Function.update_of_ne]
    by_cases hvn : v < sb.versionCount
    · have hslot := h.slot_le (u := 0) (v := v) (Nat.pos_of_ne_zero hv) hvn
      omega
    · rw [h.beyond v (Nat.not_lt.mp hvn)] at hi
      cases hi

/-- `snapshot_of_origin` puts a version `r` between the origin and its child. -/
def insertRoot (sb : Sb) (r : ℕ) : Option Sb := do
  let sb ← insertChild sb r (getChild sb 0 0)
  let sb := { sb with children := Function.update sb.children 0 r }
  let sb ← invalidatePath sb r
  orderTree sb (← getRoot sb) 1

/-- What the new root changes. -/
structure Rerooted (sb sb' : Sb) (r q : ℕ) : Prop extends Edit sb sb' where
  active : sb'.activeCount = sb.activeCount
  used : ∀ v, (sb'.table v).used = (sb.table v).used
  parent : getParent sb' = Function.update (getParent sb) q r
  counts : ∀ v, v ≠ r → sb'.childCount v = sb.childCount v

theorem root_of_kids {q : ℕ} (h : Packed sb) (hkids : sb.kids 0 = [q]) :
    sb.childCount 0 = 1 ∧ getChild sb 0 0 = q ∧ getRoot sb = some q := by
  have hone : sb.childCount 0 = 1 := by
    rw [← kids_length, hkids]
    rfl
  have hchild : getChild sb 0 0 = q := by
    have hget := @kids_getElem sb 0 0 (by rw [kids_length, hone]; exact Nat.one_pos)
    rw [← hget]
    simp only [hkids, List.getElem_cons_zero]
  refine ⟨hone, hchild, ?_⟩
  rw [getChild, h.zero] at hchild
  rw [getRoot, if_neg (by rw [hone]; exact Nat.one_ne_zero)]
  exact congrArg some hchild

/-- The old root becomes a child of `r`. The order numbers are computed with it still below the
origin. -/
theorem insertChild_root (h : Shape sb mem depth) (h0 : sb.ordmap 0 = 0) {r q : ℕ} (hr : ¬ mem r)
    (hlive : r < sb.versionCount) (hroot : getRoot (attach sb r q) = some q) (hq : mem q)
    (hqd : depth q = depth 0 + 1) :
    ∃ ordmap, insertChild sb r q = some { attach sb r q with ordmap := ordmap } ∧ ordmap 0 = 0 := by
  obtain ⟨-, -, hrest⟩ := attach_kids h hlive q
  obtain ⟨ordmap, hord, hkeep, -⟩ := @orderFrom_spec (attach sb r q) mem depth q
    (fun v hv c hc => by
      rw [hrest v fun heq => hr (heq ▸ hv)] at hc
      exact ⟨(h.kid hc).1, (h.kid hc).2.2.2⟩) maxVersions
    (fun u hu => by have := h.depth_lt hu; omega) hq sb.ordmap
  rw [hqd, h.tree.depth_origin, Nat.zero_add] at hord
  refine ⟨ordmap, ?_, (hkeep 0).elim (fun heq => heq.trans h.tree.depth_origin) fun heq =>
    heq.trans h0⟩
  rw [insertChild_eq, hroot]
  simp only [Option.bind_eq_bind, Option.bind_some, orderTree]
  rw [show (attach sb r q).ordmap = sb.ordmap from rfl, hord]
  rfl

theorem insertRoot_shape (h : Shape sb mem depth) (h0 : sb.ordmap 0 = 0) {r q : ℕ} (hr : ¬ mem r)
    (hr0 : r ≠ 0) (hlive : r < sb.versionCount ∧ (sb.table r).used = true)
    (hparent : getParent sb r = 0) (hkids : sb.kids 0 = [q]) :
    ∃ sb', insertRoot sb r = some sb' ∧ sb'.ordmap 0 = 0 ∧
      Shape sb' (fun v => v = r ∨ mem v) sb'.ordmap ∧ Rerooted sb sb' r q := by
  obtain ⟨hq, hq0, hqp, hqd⟩ := h.kid (show q ∈ sb.kids 0 by rw [hkids]; exact List.mem_cons_self)
  have hqr : q ≠ r := fun heq => hr (heq ▸ hq)
  obtain ⟨-, hchild, -⟩ := root_of_kids h.packed hkids
  obtain ⟨hpacked, hkr, hrest⟩ := attach_kids h hlive.1 q
  rw [h.childless hr, List.orderedInsert_nil] at hkr
  obtain ⟨hone₁, -, hroot₁⟩ := root_of_kids hpacked ((hrest 0 hr0.symm).trans hkids)
  obtain ⟨ordmap₁, hinsert, hzero₀⟩ := insertChild_root h h0 hr hlive.1 hroot₁ hq hqd
  set sb₂ : Sb := { attach sb r q with
    ordmap := ordmap₁
    children := Function.update (attach sb r q).children 0 r } with hsb₂
  have hpacked₂ : Packed { attach sb r q with ordmap := ordmap₁ } :=
    ⟨hpacked.zero, hpacked.next, hpacked.beyond⟩
  obtain ⟨hk₀, hk⟩ : sb₂.kids 0 = [r] ∧ ∀ v, v ≠ 0 → sb₂.kids v = (attach sb r q).kids v :=
    patch_kids hpacked₂ hone₁ r
  have hparent₂ : getParent sb₂ = Function.update (getParent sb) q r := attach_parent
  have honly : ∀ v, mem v → v ≠ 0 → getParent sb v = 0 → v = q := by
    intro v hv hv0 hvp
    have hin := (h.kids.mem_iff 0 v).mpr ⟨hv, hv0, hvp⟩
    rw [hkids] at hin
    exact List.mem_singleton.mp hin
  have hpr : getParent sb₂ r = 0 := by rw [hparent₂, Function.update_of_ne hqr.symm, hparent]
  have hpq : getParent sb₂ q = r := by rw [hparent₂, Function.update_self]
  have hpo : ∀ v, v ≠ q → getParent sb₂ v = getParent sb v := fun v hv => by
    rw [hparent₂, Function.update_of_ne hv]
  obtain ⟨depth', htree⟩ : ∃ depth', Tree 0 (fun v => v = r ∨ mem v) (getParent sb₂) depth' :=
    ⟨_, h.tree.insertRoot hr (fun v => Iff.rfl) hpr (fun v hv hv0 hvp => honly v hv hv0 hvp ▸ hpq)
      fun v _ _ hvp => hpo v fun heq => hvp (heq ▸ hqp)⟩
  have hkids' : Kids 0 (fun v => v = r ∨ mem v) (getParent sb₂) sb₂.kids :=
    h.kids.insertRoot h.tree hr hkids hk₀ ((hk r hr0).trans hkr)
      (fun v hv0 hvr => (hk v hv0).trans (hrest v hvr)) hpr hpq hpo
  have hused : ∀ v, v = r ∨ mem v → v < sb.versionCount ∧ (sb₂.table v).used = true := by
    intro v hv
    rw [show sb₂.table v = (attach sb r q).table v from rfl, attach_table]
    rcases hv with rfl | hv
    · exact hlive
    · exact h.live v hv
  have hcard : ∀ v, v = r ∨ mem v → depth' v < maxVersions := by
    intro v hv
    have hnodes : ∀ u, u = r ∨ mem u → u ∈ Finset.range sb.versionCount :=
      fun u hu => Finset.mem_range.mpr (hused u hu).1
    have hlt := htree.depth_lt hnodes hv
    rw [Finset.card_range] at hlt
    exact Nat.lt_of_lt_of_le hlt h.le_max
  obtain ⟨table', hinv, hclear, hbelow⟩ := @invalidateFrom_spec sb₂ _ depth' r
    (fun v _ x hx => by
      obtain ⟨hx, hx0, hpx⟩ := (hkids'.mem_iff v x).mp hx
      exact ⟨hx, hpx ▸ (htree.up x hx hx0).2⟩) maxVersions
    (fun u hu => by have := hcard u hu; omega) (Or.inl rfl) sb₂.table
    fun u hu => ⟨Nat.lt_of_lt_of_le (hused u hu).1 h.le_max, (hused u hu).2⟩
  have hkeep := fun v => hclear.entry v
  have hparent₃ : getParent { sb₂ with table := table' } = getParent sb₂ :=
    funext fun v => (hkeep v).parent
  have hlen : ∀ v, v ≠ r → sb₂.childCount v = sb.childCount v := by
    intro v hvr
    change (attach sb r q).childCount v = _
    rw [← kids_length, hrest v hvr, kids_length]
  have hshape : Shape { sb₂ with table := table' } (fun v => v = r ∨ mem v) depth' := by
    refine ⟨⟨hpacked.zero, hpacked.next, hpacked.beyond⟩, h.le_max, fun v hv => ?_,
      hparent₃ ▸ htree, hparent₃ ▸ hkids', (hlen 0 hr0.symm).trans_le h.single, fun v hv hf u => ?_,
      fun v hv hv0 hf u => ?_⟩
    · change v < sb.versionCount ∧ (table' v).used = true
      rw [(hkeep v).used]
      exact hused v hv
    · -- only the origin keeps its flag
      have hv0 : v = 0 := by
        by_contra hv0
        have hd := (htree.below_root hkids' hk₀ hv hv0).desc htree hkids' hv
        rw [show ({ sb₂ with table := table' } : Sb).table v = table' v from rfl, hbelow v hd] at hf
        cases hf
      subst hv0
      have hflag := (hkeep 0).pathmap hf
      rw [show sb₂.table 0 = (attach sb r q).table 0 from rfl, attach_table] at hflag
      refine (h.path 0 h.tree.origin hflag u).trans (and_congr_right fun hu0 => ?_)
      exact ⟨fun hb => absurd (below_origin.mp hb) hu0, fun hb => absurd (below_origin.mp hb) hu0⟩
    · have hflag : (sb₂.table v).nearmap = true := (hkeep v).nearmap ▸ hf
      rw [show sb₂.table v = (attach sb r q).table v from rfl, attach_table] at hflag
      dsimp only at hflag
      split at hflag
      · cases hflag
      · next hvr =>
          change sb.nearmap v u = true ↔ u = v ∨ u ∈ sb₂.kids v
          rw [hk v hv0, hrest v hvr]
          exact h.near v (hv.resolve_left hvr) hv0 hflag u
  have hzero₁ : ({ sb₂ with table := table' } : Sb).ordmap 0 = 0 := hzero₀
  obtain ⟨r', hr', hkids₀⟩ := hshape.getRoot (Or.inl rfl) hr0
  obtain ⟨ordmap, hord, hzero, hshape'⟩ := hshape.orderTree hzero₁ hkids₀
  refine ⟨_, ?_, hzero, hshape', ?_⟩
  · have hpath : invalidatePath sb₂ r = some { sb₂ with table := table' } := by
      rw [invalidatePath, hinv]
      rfl
    rw [insertRoot, hchild, hinsert]
    simp only [Option.bind_eq_bind, Option.bind_some, ← hsb₂, hpath, hr']
    exact hord
  · refine ⟨⟨rfl, rfl, rfl, rfl, rfl, rfl, fun v => ?_⟩, rfl, fun v => ?_, ?_, hlen⟩
    · have hm := (hkeep v).marks
      rw [show sb₂.table v = (attach sb r q).table v from rfl, attach_table] at hm
      exact hm
    · have hu := (hkeep v).used
      rw [show sb₂.table v = (attach sb r q).table v from rfl, attach_table] at hu
      exact hu
    · exact hparent₃.trans hparent₂

end

end Tux3.Version
