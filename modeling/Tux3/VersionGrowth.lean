import Tux3.VersionTidy
import Tux3.VersionPromote

/-!
# New snapshots

A new version is a leaf below its parent or a new root. It reads what its parent reads, and the
other snapshots read what they read.
-/
namespace Tux3.Version

open Rooted

/-- What a new version changes. -/
structure Grown (sb sb' : Sb) (c tag : ℕ) : Prop where
  elements : sb'.elements = sb.elements
  snapdata : sb'.snapdata = sb.snapdata
  orgdata : sb'.orgdata = sb.orgdata
  allocmap : sb'.allocmap = sb.allocmap
  nextchunk : sb'.nextchunk = sb.nextchunk
  active : sb'.activeCount = sb.activeCount + 1
  slots : ∀ v, v < sb'.versionCount ↔ v = c ∨ v < sb.versionCount
  entry : ∀ v, v ≠ c → (sb'.table v).used = (sb.table v).used ∧
    (sb'.table v).tag = (sb.table v).tag ∧
    (sb'.table v).ghost = (sb.table v).ghost ∧ (sb'.table v).present = (sb.table v).present
  new : (sb'.table c).used = true ∧ (sb'.table c).tag = tag ∧ (sb'.table c).ghost = false ∧
    (sb'.table c).present = false
  counts : ∀ v, sb.mem v → sb.childCount v ≤ sb'.childCount v
  up : ∀ v, sb.mem v → v ≠ 0 → getParent sb' v = getParent sb v ∨
    getParent sb v = 0 ∧ getParent sb' v = c ∧ getParent sb' c = 0

section
variable {sb sb' : Sb} {v w c p tag t x : ℕ}

theorem Grown.mem_iff (g : Grown sb sb' c tag) : sb'.mem v ↔ v = c ∨ sb.mem v := by
  rw [Sb.mem, g.slots]
  by_cases hv : v = c
  · rw [hv]
    exact ⟨fun _ => Or.inl rfl, fun _ => ⟨Or.inl rfl, g.new.1⟩⟩
  · rw [or_iff_right hv, or_iff_right hv, (g.entry v hv).1]
    rfl

theorem Grown.snapshot_iff (g : Grown sb sb' c tag) (hc : ¬ sb.mem c) (hc0 : c ≠ 0) :
    sb'.snapshot v t ↔ v = c ∧ t = tag ∨ sb.snapshot v t := by
  rw [Sb.snapshot, g.mem_iff]
  by_cases hv : v = c
  · subst hv
    have hnot : ¬ sb.snapshot v t := fun hs => hc hs.1
    rw [or_iff_left hnot, isGhost, g.new.2.2.1, g.new.2.1]
    exact ⟨fun hs => ⟨rfl, hs.2.2.2.symm⟩, fun hs => ⟨Or.inl rfl, hc0, rfl, hs.2.symm⟩⟩
  · rw [or_iff_right hv, or_iff_right fun hs => hv hs.1, isGhost, (g.entry v hv).2.2.1,
      (g.entry v hv).2.1]
    rfl

theorem Grown.labels (g : Grown sb sb' c tag) : sb'.labels = sb.labels := by
  rw [Sb.labels, g.elements]
  rfl

theorem Grown.datum (g : Grown sb sb' c tag) : sb'.datum = sb.datum := by
  funext v
  rw [Sb.datum, findElement, g.elements, g.snapdata]
  rfl

theorem Grown.heir (g : Grown sb sb' c tag) (h : Tidy sb) (hc : ¬ sb.mem c) (hv0 : v ≠ 0)
    (hw : Heir sb sb.mem sb.labels v w) : Heir sb' sb'.mem sb'.labels v w := by
  obtain ⟨hwm, hwg, hin⟩ := hw
  have hwc : w ≠ c := fun heq => hc (heq ▸ hwm)
  refine ⟨g.mem_iff.mpr (Or.inr hwm), (g.entry w hwc).2.2.1.trans hwg, ?_⟩
  have hdepth := h.shape.tree.depth_pos (hin.mem_ancestor h.shape.tree hwm) hv0
  rw [g.labels]
  refine hin.congr h.shape.tree hwm (fun _ _ _ _ => id) fun u hu hu0 hlt => ?_
  rcases g.up u hu hu0 with heq | ⟨hp, -⟩
  · exact heq
  · have := (h.shape.tree.up u hu hu0).2
    rw [hp, h.shape.tree.depth_origin] at this
    omega

theorem Grown.tidy (g : Grown sb sb' c tag) (h : Tidy sb) (hc : ¬ sb.mem c) (hc0 : c ≠ 0)
    (hshape : Shape sb' (fun v => v = c ∨ sb.mem v) sb'.ordmap) (h0 : sb'.ordmap 0 = 0) :
    Tidy sb' := by
  have hmem : sb'.mem = fun v => v = c ∨ sb.mem v := funext fun v => propext g.mem_iff
  have hne : ∀ {u}, sb.mem u → u ≠ c := fun hu heq => hc (heq ▸ hu)
  refine ⟨hmem ▸ hshape, h0, ?_, fun v => ?_, ?_, fun v hv hg => ?_, fun v hv hf => ?_, ?_,
    fun v hv => ?_, fun v hv hg => ?_, ?_⟩
  · have hinsert : sb'.members = insert c sb.members := by
      ext v
      rw [mem_members, g.mem_iff, Finset.mem_insert, mem_members]
    rw [g.active, h.active, hinsert, Finset.card_insert_of_notMem (mt mem_members.mp hc)]
  · by_cases hv : v = c
    · rw [hv, g.new.2.2.2]
    · rw [(g.entry v hv).2.2.2, h.clear]
  · exact (g.entry 0 hc0.symm).2.2.1.trans h.origin
  · rcases g.mem_iff.mp hv with rfl | hv
    · rw [isGhost, g.new.2.2.1] at hg
      cases hg
    · rw [isGhost, (g.entry v (hne hv)).2.2.1] at hg
      exact (h.ghosts v hv hg).trans (g.counts v hv)
  · have hvc : v ≠ c := by
      rintro rfl
      rw [g.new.1] at hf
      cases hf
    rw [(g.entry v hvc).1] at hf
    exact (g.entry v hvc).2.2.1.trans (h.free v (((g.slots v).mp hv).resolve_left hvc) hf)
  · rw [g.labels]
    exact h.nodup
  · rw [g.labels] at hv
    exact ⟨(h.place v hv).1, g.mem_iff.mpr (Or.inr (h.place v hv).2)⟩
  · rw [g.labels] at hv
    obtain ⟨hv0, hvm⟩ := h.place v hv
    obtain ⟨w, hw⟩ := h.heirs v hv ((g.entry v (hne hvm)).2.2.1.symm.trans hg)
    exact ⟨w, g.heir h hc hv0 hw⟩
  · have hstore := h.store
    refine ⟨?_, ?_, ?_, ?_⟩
    · rw [g.elements]
      exact hstore.nodup
    · rw [g.elements, g.allocmap]
      exact hstore.alloc
    · rw [g.allocmap]
      exact hstore.lt
    · rw [g.nextchunk]
      exact hstore.next

theorem Grown.value_new (g : Grown sb sb' c tag) (h : Tidy sb) (h' : Tidy sb') (hc : ¬ sb.mem c)
    (hc0 : c ≠ 0) : sb'.value c = sb'.value (getParent sb' c) := by
  have hnone : sb'.datum c = none := by
    rw [g.datum, datum_none]
    exact fun hl => hc (h.place c hl).2
  rw [Sb.value, value_step h'.shape.tree (g.mem_iff.mpr (Or.inl rfl)) hc0, hnone]
  rfl

theorem Grown.value_old (g : Grown sb sb' c tag) (h : Tidy sb) (h' : Tidy sb') (hc : ¬ sb.mem c)
    (hc0 : c ≠ 0) (hv : sb.mem v) : sb'.value v = sb.value v := by
  have hgrow : sb'.value v = Rooted.value (getParent sb) sb.ordmap sb'.datum sb'.orgdata v := by
    refine value_grow h.shape.tree h'.shape.tree (fun v hv => g.mem_iff.mpr (Or.inr hv))
      (fun u hu hu0 => ?_) hv
    rcases g.up u hu hu0 with heq | ⟨hp, hp', hroot⟩
    · rw [heq]
    · rw [hp, hp']
      exact (g.value_new h h' hc hc0).trans (hroot ▸ rfl)
  rw [hgrow, g.datum, g.orgdata]
  rfl

theorem Grown.reads_iff (g : Grown sb sb' c tag) (h : Tidy sb) (h' : Tidy sb') (hc : ¬ sb.mem c)
    (hc0 : c ≠ 0) : sb'.reads t x ↔ t = tag ∧ x = sb'.value c ∨ sb.reads t x := by
  constructor
  · rintro ⟨v, hv, rfl⟩
    rcases (g.snapshot_iff hc hc0).mp hv with ⟨rfl, rfl⟩ | hv
    · exact Or.inl ⟨rfl, rfl⟩
    · exact Or.inr ⟨v, hv, (g.value_old h h' hc hc0 hv.1).symm⟩
  · rintro (⟨rfl, rfl⟩ | ⟨v, hv, rfl⟩)
    · exact ⟨c, (g.snapshot_iff hc hc0).mpr (Or.inl ⟨rfl, rfl⟩), rfl⟩
    · exact ⟨v, (g.snapshot_iff hc hc0).mpr (Or.inr hv), g.value_old h h' hc hc0 hv.1⟩

theorem Grown.distinct (g : Grown sb sb' c tag) (hc : ¬ sb.mem c) (hc0 : c ≠ 0)
    (hd : sb.distinct) (hfresh : ∀ v, ¬ sb.snapshot v tag) : sb'.distinct := by
  intro v w t hv hw
  rcases (g.snapshot_iff hc hc0).mp hv with ⟨rfl, rfl⟩ | hv
  · rcases (g.snapshot_iff hc hc0).mp hw with ⟨rfl, -⟩ | hw
    · rfl
    · exact absurd hw (hfresh w)
  · rcases (g.snapshot_iff hc hc0).mp hw with ⟨rfl, rfl⟩ | hw
    · exact absurd hv (hfresh v)
    · exact hd v w t hv hw

/-! ## New versions -/

/-- The slot of a new version, before it is in the tree. -/
structure Taken (sb sb₁ : Sb) (p c tag : ℕ) : Prop where
  ne_zero : c ≠ 0
  fresh : ¬ sb.mem c
  lt : c < sb₁.versionCount
  slots : ∀ v, v < sb₁.versionCount ↔ v = c ∨ v < sb.versionCount
  elements : sb₁.elements = sb.elements
  snapdata : sb₁.snapdata = sb.snapdata
  orgdata : sb₁.orgdata = sb.orgdata
  allocmap : sb₁.allocmap = sb.allocmap
  nextchunk : sb₁.nextchunk = sb.nextchunk
  active : sb₁.activeCount = sb.activeCount + 1
  entry : sb₁.table c = ⟨tag, p, true, false, false, false, false⟩
  rest : ∀ v, v ≠ c → sb₁.table v = sb.table v
  order : sb₁.ordmap = sb.ordmap
  kids : sb₁.kids = sb.kids
  shape : Shape sb₁ sb.mem sb.ordmap

theorem Tidy.newVersion (h : Tidy sb) (p tag : ℕ) (hroom : sb.members.card < maxVersions) :
    ∃ c sb₁, newVersion sb p tag = some (c, sb₁) ∧ Taken sb sb₁ p c tag := by
  obtain ⟨c, sb₁, hnew, hc0, hc, hlt, ⟨index, n, rfl, hn⟩, hkids, hshape⟩ :=
    h.shape.newVersion tag (fun _ => Iff.rfl) (h.slot hroom) (p := p)
  refine ⟨c, _, hnew, hc0, hc, hlt, fun v => ?_, rfl, rfl, rfl, rfl, rfl, rfl,
    Function.update_self _ _ _, fun v hv => Function.update_of_ne hv _ _, rfl, hkids, hshape⟩
  change v < n ↔ _
  rcases hn with rfl | ⟨rfl, rfl⟩
  · refine ⟨Or.inr, ?_⟩
    rintro (rfl | hv)
    · exact hlt
    · exact hv
  · omega

theorem Taken.grown {sb₁ : Sb} (t : Taken sb sb₁ p c tag) (e : Edit sb₁ sb')
    (ha : sb'.activeCount = sb₁.activeCount) (hu : ∀ v, (sb'.table v).used = (sb₁.table v).used)
    (hcounts : ∀ v, sb.mem v → sb.childCount v ≤ sb'.childCount v)
    (hup : ∀ v, sb.mem v → v ≠ 0 → getParent sb' v = getParent sb v ∨
      getParent sb v = 0 ∧ getParent sb' v = c ∧ getParent sb' c = 0) : Grown sb sb' c tag := by
  refine ⟨e.elements.trans t.elements, e.snapdata.trans t.snapdata, e.orgdata.trans t.orgdata,
    e.allocmap.trans t.allocmap, e.nextchunk.trans t.nextchunk, ha.trans t.active, fun v => ?_,
    fun v hv => ?_, ?_, hcounts, hup⟩
  · rw [e.count, t.slots]
  · obtain ⟨htag, hg, hp⟩ := e.marks v
    rw [hu, htag, hg, hp, t.rest v hv]
    exact ⟨rfl, rfl, rfl, rfl⟩
  · obtain ⟨htag, hg, hp⟩ := e.marks c
    rw [hu, htag, hg, hp, t.entry]
    exact ⟨rfl, rfl, rfl, rfl⟩

/-- A new leaf below `p`. -/
theorem Taken.leaf {sb₁ : Sb} (t : Taken sb sb₁ p c tag) (h : Tidy sb) (hp : sb.mem p)
    (hroot : p = 0 → sb.childCount 0 = 0) : ∃ sb', insertChild sb₁ p c = some sb' ∧
      Grown sb sb' c tag ∧ Tidy sb' ∧ getParent sb' c = p ∧
      (∀ v, v ≠ c → getParent sb' v = getParent sb v) ∧
      sb'.childCount p = sb.childCount p + 1 ∧ c ∈ sb'.kids p := by
  have hcount : sb₁.childCount = sb.childCount := funext fun v => by
    rw [← kids_length, t.kids, kids_length]
  obtain ⟨ordmap, hinsert, h0, hshape⟩ := t.shape.insertChild (t.order ▸ h.order) t.fresh t.ne_zero
    ⟨t.lt, by rw [t.entry]⟩ hp (hcount ▸ hroot) (by rw [t.entry]) (by rw [t.entry])
  have hparent : ∀ v, v ≠ c → getParent (attach sb₁ p c) v = getParent sb v := fun v hv => by
    rw [attach_parent, Function.update_of_ne hv, getParent, t.rest v hv]
    rfl
  have hself : getParent (attach sb₁ p c) c = p := by
    rw [attach_parent, Function.update_self]
  have hgrown : Grown sb { attach sb₁ p c with ordmap := ordmap } c tag := by
    refine t.grown ⟨rfl, rfl, rfl, rfl, rfl, rfl, fun v => ?_⟩ rfl (fun v => ?_) (fun v hv => ?_)
      fun v hv hv0 => Or.inl (hparent v fun heq => t.fresh (heq ▸ hv))
    · exact (attach_edit sb₁ p c).marks v
    · change ((attach sb₁ p c).table v).used = _
      rw [attach_table]
    · change _ ≤ Function.update sb₁.childCount p (sb₁.childCount p + 1) v
      rw [hcount, Function.update_apply]
      split
      · next heq =>
          rw [heq]
          exact Nat.le_succ _
      · exact Nat.le_refl _
  have htidy := hgrown.tidy h t.fresh t.ne_zero hshape h0
  refine ⟨_, hinsert, hgrown, htidy, hself, hparent, ?_, ?_⟩
  · change Function.update sb₁.childCount p (sb₁.childCount p + 1) p = _
    rw [Function.update_self, hcount]
  · exact (htidy.shape.kids.mem_iff p c).mpr ⟨hgrown.mem_iff.mpr (Or.inl rfl), t.ne_zero, hself⟩

theorem Grown.order (g : Grown sb sb' c tag) (ordmap : ℕ → ℕ) :
    Grown sb { sb' with ordmap := ordmap } c tag :=
  ⟨g.elements, g.snapdata, g.orgdata, g.allocmap, g.nextchunk, g.active, g.slots, g.entry, g.new,
    g.counts, g.up⟩

theorem Taken.childless {sb₁ : Sb} (t : Taken sb sb₁ p c tag) (h : Tidy sb) :
    sb₁.childCount c = 0 := by
  rw [← kids_length, t.kids, h.shape.childless t.fresh]
  rfl

theorem snapshotOfSnapshot_spec {parentTag : ℕ} (h : Tidy sb) (hd : sb.distinct)
    (hp : sb.snapshot p parentTag) (hfresh : ∀ v, ¬ sb.snapshot v tag)
    (hroom : sb.snapshots.card < 128) : ∃ sb', snapshotOfSnapshot sb tag parentTag = some sb' ∧
      Tidy sb' ∧ sb'.distinct ∧ sb'.orgdata = sb.orgdata ∧
      ∀ t x, sb'.reads t x ↔ t = tag ∧ x = sb.value p ∨ sb.reads t x := by
  obtain ⟨c, sb₁, hnew, t⟩ := h.newVersion p tag (h.slot_new hroom)
  obtain ⟨sb₂, hinsert, g, h₂, hself, -⟩ := t.leaf h hp.1 fun heq => absurd heq hp.2.1
  obtain ⟨r, hr, hkids⟩ := h₂.shape.getRoot (g.mem_iff.mpr (Or.inl rfl)) t.ne_zero
  obtain ⟨ordmap, hord, h0, hshape⟩ := h₂.shape.orderTree h₂.order hkids
  have hmem : sb₂.mem = fun v => v = c ∨ sb.mem v := funext fun v => propext g.mem_iff
  have g' := g.order ordmap
  have h' := g'.tidy h t.fresh t.ne_zero (hmem ▸ hshape) h0
  refine ⟨_, ?_, h', g'.distinct t.fresh t.ne_zero hd hfresh, g'.orgdata, fun u x => ?_⟩
  · rw [snapshotOfSnapshot, h.findTag hd hp]
    simp only [Option.bind_eq_bind, Option.bind_some, hnew]
    rw [if_neg (not_not.mpr (t.childless h)), hinsert]
    simp only [Option.bind_some, hr]
    exact hord
  · rw [g'.reads_iff h h' t.fresh t.ne_zero, g'.value_new h h' t.fresh t.ne_zero]
    change u = tag ∧ x = Sb.value _ (getParent sb₂ c) ∨ _ ↔ _
    rw [hself, g'.value_old h h' t.fresh t.ne_zero hp.1]

theorem snapshotOfOrigin_spec (h : Tidy sb) (hd : sb.distinct) (hfresh : ∀ v, ¬ sb.snapshot v tag)
    (hroom : sb.snapshots.card < 128) : ∃ sb', snapshotOfOrigin sb tag = some sb' ∧
      Tidy sb' ∧ sb'.distinct ∧ sb'.orgdata = sb.orgdata ∧
      ∀ t x, sb'.reads t x ↔ t = tag ∧ x = sb.orgdata ∨ sb.reads t x := by
  obtain ⟨c, sb₁, hnew, t⟩ := h.newVersion 0 tag (h.slot_new hroom)
  have hcount : sb₁.childCount = sb.childCount := funext fun v => by
    rw [← kids_length, t.kids, kids_length]
  have hgrow : ∃ sb', snapshotOfOrigin sb tag = some sb' ∧ Grown sb sb' c tag ∧ Tidy sb' ∧
      getParent sb' c = 0 := by
    rw [snapshotOfOrigin, hnew]
    simp only [Option.bind_eq_bind, Option.bind_some]
    by_cases hzero : sb₁.childCount 0 = 0
    · rw [if_pos hzero]
      obtain ⟨sb', hinsert, g, h', hself, -⟩ := t.leaf h h.zero_mem fun _ => hcount ▸ hzero
      exact ⟨sb', hinsert, g, h', hself⟩
    · rw [if_neg hzero]
      obtain ⟨q, hq⟩ : ∃ q, sb₁.kids 0 = [q] := by
        refine List.length_eq_one_iff.mp ?_
        have := t.shape.single
        rw [kids_length]
        omega
      have hparent : getParent sb₁ c = 0 := by rw [getParent, t.entry]
      obtain ⟨sb', hinsert, h0, hshape, hre⟩ := insertRoot_shape t.shape (t.order ▸ h.order)
        t.fresh t.ne_zero ⟨t.lt, by rw [t.entry]⟩ hparent hq
      obtain ⟨hqm, -, hqp, -⟩ := t.shape.kid (show q ∈ sb₁.kids 0 by
        rw [hq]
        exact List.mem_cons_self)
      have hold : ∀ v, v ≠ c → getParent sb₁ v = getParent sb v := fun v hv => by
        rw [getParent, t.rest v hv]
        rfl
      have hqc : c ≠ q := fun heq => t.fresh (heq ▸ hqm)
      have hself : getParent sb' c = 0 := by
        rw [hre.parent, Function.update_of_ne hqc, hparent]
      have g : Grown sb sb' c tag := by
        refine t.grown hre.toEdit hre.active hre.used (fun v hv => ?_) fun v hv hv0 => ?_
        · rw [hre.counts v fun heq => t.fresh (heq ▸ hv), hcount]
        · have hvc : v ≠ c := fun heq => t.fresh (heq ▸ hv)
          rw [hre.parent]
          by_cases hvq : v = q
          · rw [hvq, Function.update_self, Function.update_of_ne hqc, hparent]
            exact Or.inr ⟨hold q (Ne.symm hqc) ▸ hqp, rfl, rfl⟩
          · rw [Function.update_of_ne hvq, hold v hvc]
            exact Or.inl rfl
      exact ⟨sb', hinsert, g, g.tidy h t.fresh t.ne_zero hshape h0, hself⟩
  obtain ⟨sb', hrun, g, h', hself⟩ := hgrow
  refine ⟨sb', hrun, h', g.distinct t.fresh t.ne_zero hd hfresh, g.orgdata, fun u x => ?_⟩
  rw [g.reads_iff h h' t.fresh t.ne_zero, g.value_new h h' t.fresh t.ne_zero, hself, Sb.value,
    value_origin h'.shape.tree, g.orgdata]

/-- An implicit version takes the place of the snapshot. -/
theorem implicitVersion_spec (h : Tidy sb) (hd : sb.distinct) (hv : sb.snapshot v tag)
    (hkids : sb.childCount v ≠ 0) (hroom : sb.snapshots.card ≤ 128) :
    ∃ c sb', implicitVersion sb v tag = some (c, sb') ∧ Tidy sb' ∧ sb'.distinct ∧
      sb'.orgdata = sb.orgdata ∧ (∀ t x, sb'.reads t x ↔ sb.reads t x) ∧ sb'.snapshot c tag ∧
      c ∉ sb'.labels ∧ sb'.childCount c = 0 := by
  obtain ⟨c, sb₁, hnew, t⟩ := h.newVersion v tag
    (h.slot_implicit hroom (mem_snapshots.mpr ⟨hv.1, hv.2.1, hv.2.2.1⟩) hkids)
  obtain ⟨sb₂, hinsert, g, h₂, hself, hold, hcount, hc⟩ :=
    t.leaf h hv.1 fun heq => absurd heq hv.2.1
  have hcv : c ≠ v := fun heq => t.fresh (heq ▸ hv.1)
  have hlabel : c ∉ sb₂.labels := by
    rw [g.labels]
    exact fun hl => t.fresh (h.place c hl).2
  have h' : Tidy (hide sb₂ v (sb₂.table v).tag) :=
    h₂.hide hv.2.1 (by omega) hc g.new.2.2.1 hlabel
  have hsnap : ∀ u s, (hide sb₂ v (sb₂.table v).tag).snapshot u s ↔
      u = c ∧ s = tag ∨ u ≠ v ∧ sb.snapshot u s := by
    intro u s
    rw [hide_snapshot, g.snapshot_iff t.fresh t.ne_zero]
    constructor
    · rintro ⟨huv, hu | hu⟩
      · exact Or.inl hu
      · exact Or.inr ⟨huv, hu⟩
    · rintro (⟨rfl, rfl⟩ | ⟨huv, hu⟩)
      · exact ⟨hcv, Or.inl ⟨rfl, rfl⟩⟩
      · exact ⟨huv, Or.inr hu⟩
  have hvalue : (hide sb₂ v (sb₂.table v).tag).value c = sb.value v := by
    rw [hide_value, g.value_new h h₂ t.fresh t.ne_zero, hself, g.value_old h h₂ t.fresh t.ne_zero
      hv.1]
  refine ⟨c, _, ?_, h', fun u w s hu hw => ?_, g.orgdata, fun s x => ⟨?_, ?_⟩,
    (hsnap c tag).mpr (Or.inl ⟨rfl, rfl⟩), hlabel, ?_⟩
  · rw [implicitVersion]
    simp only [Option.bind_eq_bind, Option.bind_some, hnew, hinsert]
    rfl
  · rcases (hsnap u s).mp hu with ⟨rfl, rfl⟩ | ⟨huv, hu⟩
    · rcases (hsnap w s).mp hw with ⟨rfl, -⟩ | ⟨hwv, hw⟩
      · rfl
      · exact absurd (hd w v s hw hv) hwv
    · rcases (hsnap w s).mp hw with ⟨rfl, rfl⟩ | ⟨hwv, hw⟩
      · exact absurd (hd u v s hu hv) huv
      · exact hd u w s hu hw
  · rintro ⟨u, hu, rfl⟩
    rcases (hsnap u s).mp hu with ⟨rfl, rfl⟩ | ⟨-, hu⟩
    · exact ⟨v, hv, hvalue.symm⟩
    · exact ⟨u, hu, by rw [hide_value, g.value_old h h₂ t.fresh t.ne_zero hu.1]⟩
  · rintro ⟨u, hu, rfl⟩
    by_cases huv : u = v
    · subst huv
      have hs : s = tag := hu.2.2.2.symm.trans hv.2.2.2
      exact ⟨c, (hsnap c s).mpr (Or.inl ⟨rfl, hs⟩), hvalue⟩
    · refine ⟨u, (hsnap u s).mpr (Or.inr ⟨huv, hu⟩), ?_⟩
      rw [hide_value, g.value_old h h₂ t.fresh t.ne_zero hu.1]
  · change sb₂.childCount c = 0
    rw [← kids_length]
    refine List.length_eq_zero_iff.mpr (List.eq_nil_iff_forall_not_mem.mpr fun u hu => ?_)
    obtain ⟨hum, hu0, hup, -⟩ := h₂.shape.kid hu
    have huc : u ≠ c := fun heq => h₂.shape.tree.parent_ne hum hu0 (hup.trans heq.symm)
    refine t.fresh ?_
    rw [← hup, hold u huc]
    exact (h.shape.tree.up u ((g.mem_iff.mp hum).resolve_left huc) hu0).1

end

end Tux3.Version
