import Tux3.VersionWrites
import Tux3.VersionRemoval

/-!
# Versions as plain copies

A run over the versioned pointers and the same run over a model in which every snapshot is a
private copy. The runs that keep the bound of the fuzz test never fail, and each read returns the
value of the copy.
-/
namespace Tux3.Version

open Rooted

inductive Op where
  | ofOrigin (tag : ℕ)
  | ofSnapshot (tag parentTag : ℕ)
  | delete (tag : ℕ)
  | write (tag data : ℕ)
  | writeOrigin (data : ℕ)
  | read (tag : ℕ)

def Op.apply (sb : Sb) : Op → Option Sb
  | .ofOrigin tag => snapshotOfOrigin sb tag
  | .ofSnapshot tag parentTag => snapshotOfSnapshot sb tag parentTag
  | .delete tag => snapshotDelete sb tag
  | .write tag data => snapshotWrite sb tag data
  | .writeOrigin data => originWrite sb data
  | .read tag => Prod.snd <$> snapshotRead sb tag

/-- The origin and a private copy for each live snapshot. -/
structure Copies where
  orgdata : ℕ
  live : Finset ℕ
  copy : ℕ → ℕ

def Copies.apply (m : Copies) : Op → Copies
  | .ofOrigin tag =>
      { m with
        live := insert tag m.live
        copy := Function.update m.copy tag m.orgdata }
  | .ofSnapshot tag parentTag =>
      { m with
        live := insert tag m.live
        copy := Function.update m.copy tag (m.copy parentTag) }
  | .delete tag => { m with live := m.live.erase tag }
  | .write tag data => { m with copy := Function.update m.copy tag data }
  | .writeOrigin data => { m with orgdata := data }
  | .read _ => m

/-- The bound that the fuzz test keeps. -/
def maxLive : ℕ := 128

/-- New snapshots have fresh tags, other operations name live snapshots. -/
def Op.Allowed (m : Copies) : Op → Prop
  | .ofOrigin tag => tag ∉ m.live ∧ m.live.card < maxLive
  | .ofSnapshot tag parentTag => tag ∉ m.live ∧ parentTag ∈ m.live ∧ m.live.card < maxLive
  | .delete tag => tag ∈ m.live
  | .write tag _ => tag ∈ m.live
  | .writeOrigin _ => True
  | .read tag => tag ∈ m.live

def Allowed (m : Copies) : List Op → Prop
  | [] => True
  | op :: ops => op.Allowed m ∧ Allowed (m.apply op) ops

instance (m : Copies) (op : Op) : Decidable (op.Allowed m) :=
  match op with
  | .ofOrigin tag => inferInstanceAs (Decidable (tag ∉ m.live ∧ m.live.card < maxLive))
  | .ofSnapshot tag parentTag =>
      inferInstanceAs (Decidable (tag ∉ m.live ∧ parentTag ∈ m.live ∧ m.live.card < maxLive))
  | .delete tag => inferInstanceAs (Decidable (tag ∈ m.live))
  | .write tag _ => inferInstanceAs (Decidable (tag ∈ m.live))
  | .writeOrigin _ => inferInstanceAs (Decidable True)
  | .read tag => inferInstanceAs (Decidable (tag ∈ m.live))

instance decidableAllowed : (m : Copies) → (ops : List Op) → Decidable (Allowed m ops)
  | _, [] => inferInstanceAs (Decidable True)
  | m, op :: ops =>
      have := decidableAllowed (m.apply op) ops
      inferInstanceAs (Decidable (op.Allowed m ∧ Allowed (m.apply op) ops))

/-- The table holds what the copies hold. -/
structure Refines (sb : Sb) (m : Copies) : Prop where
  tidy : Tidy sb
  distinct : sb.distinct
  orgdata : sb.orgdata = m.orgdata
  reads : ∀ t x, sb.reads t x ↔ t ∈ m.live ∧ x = m.copy t
  bound : m.live.card ≤ maxLive

section
variable {sb sb' : Sb} {m : Copies} {v tag data : ℕ}

/-! ## Steps -/

theorem Refines.mem_live (r : Refines sb m) : tag ∈ m.live ↔ ∃ v, sb.snapshot v tag := by
  constructor
  · intro ht
    obtain ⟨v, hv, -⟩ := (r.reads tag (m.copy tag)).mpr ⟨ht, rfl⟩
    exact ⟨v, hv⟩
  · rintro ⟨v, hv⟩
    exact ((r.reads tag (sb.value v)).mp ⟨v, hv, rfl⟩).1

theorem Refines.value (r : Refines sb m) (hv : sb.snapshot v tag) : sb.value v = m.copy tag :=
  ((r.reads tag (sb.value v)).mp ⟨v, hv, rfl⟩).2

theorem Refines.card_le (r : Refines sb m) : sb.snapshots.card ≤ m.live.card := by
  have hsnap : ∀ v ∈ sb.snapshots, sb.snapshot v (sb.table v).tag := fun v hv => by
    obtain ⟨hm, hv0, hg⟩ := mem_snapshots.mp hv
    exact ⟨hm, hv0, hg, rfl⟩
  refine Finset.card_le_card_of_injOn (fun v => (sb.table v).tag) (fun v hv => ?_)
    fun v hv w hw heq => ?_
  · exact r.mem_live.mpr ⟨v, hsnap v hv⟩
  · have hw' := hsnap w hw
    rw [← show (sb.table v).tag = (sb.table w).tag from heq] at hw'
    exact r.distinct v w _ (hsnap v hv) hw'

/-- A new snapshot with the value `x`. -/
theorem Refines.insert {x : ℕ} (r : Refines sb m) (htag : tag ∉ m.live)
    (hcard : m.live.card < maxLive) (h : Tidy sb') (hd : sb'.distinct)
    (horg : sb'.orgdata = sb.orgdata)
    (hreads : ∀ t y, sb'.reads t y ↔ t = tag ∧ y = x ∨ sb.reads t y) :
    Refines sb' { m with
      live := insert tag m.live
      copy := Function.update m.copy tag x } := by
  refine ⟨h, hd, horg.trans r.orgdata, fun t y => ?_, ?_⟩
  · rw [hreads, r.reads, Finset.mem_insert]
    dsimp only
    by_cases ht : t = tag
    · subst ht
      rw [Function.update_self]
      exact ⟨fun hor => ⟨Or.inl rfl, hor.elim And.right fun hin => absurd hin.1 htag⟩,
        fun hand => Or.inl ⟨rfl, hand.2⟩⟩
    · rw [Function.update_of_ne ht, or_iff_right fun hand => ht hand.1, or_iff_right ht]
  · exact (Finset.card_insert_le _ _).trans hcard

theorem Refines.write (r : Refines sb m) (htag : tag ∈ m.live) (h : Tidy sb') (hd : sb'.distinct)
    (horg : sb'.orgdata = sb.orgdata)
    (hreads : ∀ t y, sb'.reads t y ↔ t = tag ∧ y = data ∨ t ≠ tag ∧ sb.reads t y) :
    Refines sb' { m with copy := Function.update m.copy tag data } := by
  refine ⟨h, hd, horg.trans r.orgdata, fun t y => ?_, r.bound⟩
  rw [hreads, r.reads]
  dsimp only
  by_cases ht : t = tag
  · subst ht
    rw [Function.update_self]
    exact ⟨fun hor => ⟨htag, hor.elim And.right fun hand => absurd rfl hand.1⟩,
      fun hand => Or.inl ⟨rfl, hand.2⟩⟩
  · rw [Function.update_of_ne ht, or_iff_right fun hand => ht hand.1, and_iff_right ht]

/-- Every allowed operation succeeds and does to the table what it does to the copies. -/
theorem Refines.apply (r : Refines sb m) {op : Op} (h : op.Allowed m) :
    ∃ sb', op.apply sb = some sb' ∧ Refines sb' (m.apply op) := by
  have hfresh : ∀ {tag}, tag ∉ m.live → ∀ v, ¬ sb.snapshot v tag := fun ht v hv =>
    ht (r.mem_live.mpr ⟨v, hv⟩)
  cases op with
  | ofOrigin tag =>
      obtain ⟨ht, hcard⟩ := h
      obtain ⟨sb', hrun, h', hd', horg, hreads⟩ := snapshotOfOrigin_spec r.tidy r.distinct
        (hfresh ht) (r.card_le.trans_lt hcard)
      exact ⟨sb', hrun, r.insert ht hcard h' hd' horg (r.orgdata ▸ hreads)⟩
  | ofSnapshot tag parentTag =>
      obtain ⟨ht, hp, hcard⟩ := h
      obtain ⟨p, hp⟩ := r.mem_live.mp hp
      obtain ⟨sb', hrun, h', hd', horg, hreads⟩ := snapshotOfSnapshot_spec r.tidy r.distinct hp
        (hfresh ht) (r.card_le.trans_lt hcard)
      exact ⟨sb', hrun, r.insert ht hcard h' hd' horg (r.value hp ▸ hreads)⟩
  | delete tag =>
      obtain ⟨v, hv⟩ := r.mem_live.mp h
      obtain ⟨sb', hrun, h', hd', horg, hreads⟩ := snapshotDelete_spec r.tidy r.distinct hv
      refine ⟨sb', hrun, h', hd', horg.trans r.orgdata, fun t x => ?_,
        (Finset.card_erase_le).trans r.bound⟩
      rw [hreads, r.reads, ← and_assoc]
      exact and_congr_left fun _ => Finset.mem_erase.symm
  | write tag data =>
      obtain ⟨v, hv⟩ := r.mem_live.mp h
      obtain ⟨sb', hrun, h', hd', horg, hreads⟩ := snapshotWrite_spec r.tidy r.distinct hv
        (r.card_le.trans r.bound) data
      exact ⟨sb', hrun, r.write h h' hd' horg hreads⟩
  | writeOrigin data =>
      obtain ⟨sb', hrun, h', hd', horg, hreads⟩ := originWrite_spec r.tidy r.distinct data
      exact ⟨sb', hrun, h', hd', horg, fun t x => (hreads t x).trans (r.reads t x), r.bound⟩
  | read tag =>
      obtain ⟨v, hv⟩ := r.mem_live.mp h
      obtain ⟨sb', hrun, h', hd', horg, hreads⟩ := snapshotRead_spec r.tidy r.distinct hv
      refine ⟨sb', ?_, h', hd', horg.trans r.orgdata,
        fun t x => (hreads t x).trans (r.reads t x), r.bound⟩
      rw [Op.apply, hrun]
      rfl

theorem Refines.run (r : Refines sb m) {ops : List Op} (h : Allowed m ops) :
    ∃ sb', ops.foldlM Op.apply sb = some sb' ∧ Refines sb' (ops.foldl Copies.apply m) := by
  induction ops generalizing sb m with
  | nil => exact ⟨sb, rfl, r⟩
  | cons op ops ih =>
      obtain ⟨sb', hop, r'⟩ := r.apply h.1
      obtain ⟨sb'', hops, r''⟩ := ih r' h.2
      refine ⟨sb'', ?_, r''⟩
      rw [List.foldlM_cons, hop]
      exact hops

/-! ## The empty table -/

/-- No snapshots yet. -/
def Copies.start (orgdata : ℕ) : Copies := ⟨orgdata, ∅, fun _ => 0⟩

theorem empty_mem {orgdata : ℕ} {snapdata : ℕ → ℕ} : (empty orgdata snapdata).mem v ↔ v = 0 := by
  change v < 1 ∧ decide (v = 0) = true ↔ v = 0
  rw [Nat.lt_one_iff, decide_eq_true_iff, and_self]

theorem empty_tidy (orgdata : ℕ) (snapdata : ℕ → ℕ) : Tidy (empty orgdata snapdata) := by
  have hnone : ∀ v, (empty orgdata snapdata).mem v → v ≠ 0 → False := fun v hv hv0 =>
    hv0 (empty_mem.mp hv)
  refine ⟨⟨⟨rfl, fun v hv => ?_, fun v _ => rfl⟩, show 1 ≤ maxVersions by decide, fun v hv => hv,
    ⟨empty_mem.mpr rfl, rfl, fun v hv hv0 => (hnone v hv hv0).elim⟩,
    ⟨fun v c => ⟨fun hc => (nomatch hc), fun hc => (hnone c hc.1 hc.2.1).elim⟩,
      fun v => List.nodup_nil⟩, Nat.zero_le 1, fun v _ hf => (nomatch hf),
    fun v _ _ hf => (nomatch hf)⟩, rfl, ?_, fun _ => rfl, rfl, fun v _ hg => (nomatch hg),
    fun v hv hu => ?_, List.nodup_nil, fun v hv => (nomatch hv), fun v hv => (nomatch hv),
    ⟨List.nodup_nil, fun c => ⟨fun hc => (nomatch hc), fun hc => (nomatch hc)⟩,
      fun c hc => (nomatch hc), Nat.zero_le _⟩⟩
  · change v + 1 < 1 at hv
    omega
  · have hmembers : (empty orgdata snapdata).members = {0} := by
      ext v
      rw [mem_members, empty_mem, Finset.mem_singleton]
    rw [hmembers]
    rfl
  · change v < 1 at hv
    change decide (v = 0) = false at hu
    rw [decide_eq_false_iff_not] at hu
    omega

theorem empty_refines (orgdata : ℕ) (snapdata : ℕ → ℕ) :
    Refines (empty orgdata snapdata) (Copies.start orgdata) := by
  have hnone : ∀ v tag, ¬ (empty orgdata snapdata).snapshot v tag := fun v tag hv =>
    hv.2.1 (empty_mem.mp hv.1)
  refine ⟨empty_tidy orgdata snapdata, fun v w tag hv => absurd hv (hnone v tag), rfl,
    fun t x => ⟨?_, fun hin => absurd hin.1 (Finset.notMem_empty t)⟩, Nat.zero_le _⟩
  rintro ⟨v, hv, -⟩
  exact absurd hv (hnone v t)

/-- In every run, a read of a live snapshot returns the value of its copy. -/
theorem runs_read_copies (orgdata : ℕ) (snapdata : ℕ → ℕ) (ops : List Op)
    (h : Allowed (Copies.start orgdata) ops) :
    ∃ sb, ops.foldlM Op.apply (empty orgdata snapdata) = some sb ∧
      ∀ tag ∈ (ops.foldl Copies.apply (Copies.start orgdata)).live,
        ∃ sb', snapshotRead sb tag =
          some ((ops.foldl Copies.apply (Copies.start orgdata)).copy tag, sb') := by
  obtain ⟨sb, hrun, r⟩ := (empty_refines orgdata snapdata).run h
  refine ⟨sb, hrun, fun tag ht => ?_⟩
  obtain ⟨v, hv⟩ := r.mem_live.mp ht
  obtain ⟨sb', hread, -⟩ := snapshotRead_spec r.tidy r.distinct hv
  exact ⟨sb', r.value hv ▸ hread⟩

theorem runs_read_copies_shared :
    ∃ sb, [Op.ofOrigin 1, .ofSnapshot 2 1, .write 1 5, .writeOrigin 9, .ofSnapshot 3 2,
        .delete 2].foldlM Op.apply (empty 7 fun _ => 0) = some sb ∧
      ∀ tag ∈ ([Op.ofOrigin 1, .ofSnapshot 2 1, .write 1 5, .writeOrigin 9, .ofSnapshot 3 2,
        .delete 2].foldl Copies.apply (Copies.start 7)).live,
        ∃ sb', snapshotRead sb tag = some (([Op.ofOrigin 1, .ofSnapshot 2 1, .write 1 5,
          .writeOrigin 9, .ofSnapshot 3 2, .delete 2].foldl Copies.apply (Copies.start 7)).copy tag,
          sb') :=
  runs_read_copies 7 _ _ (by decide)

/-! ## The invariants of a run -/

/-- What holds of the table, the tree and the elements after each operation. -/
structure Clean (sb : Sb) : Prop where
  origin : isGhost sb 0 = false ∧ sb.childCount 0 ≤ 1
  ghosts : ∀ v, sb.mem v → isGhost sb v = true → 2 ≤ sb.childCount v
  tree : ∃ depth, Tree 0 sb.mem (getParent sb) depth
  kids : ∀ v c, c ∈ sb.kids v ↔ sb.mem c ∧ c ≠ 0 ∧ getParent sb c = v
  size : sb.activeCount = sb.members.card
  labels : ∀ e ∈ sb.elements, e.label ≠ 0 ∧ sb.mem e.label
  unshared : (sb.elements.map Element.label).Nodup
  heirs : ∀ e ∈ sb.elements, isGhost sb e.label = true →
    ∃ heirs, countHeirs (setPresent sb true) e.label = some heirs ∧ 0 < heirs
  clear : ∀ v, isPresent sb v = false
  chunks : ∀ chunk, (sb.elements.countP fun e => e.chunk = chunk) =
    if sb.allocmap chunk then 1 else 0
  slots : sb.versionCount ≤ maxVersions

theorem Tidy.clean (h : Tidy sb) : Clean sb := by
  refine ⟨⟨h.origin, h.shape.single⟩, h.ghosts, ⟨_, h.shape.tree⟩, h.shape.kids.mem_iff, h.active,
    fun e he => h.place _ (mem_labels.mpr ⟨e, he, rfl⟩), h.nodup, fun e he hg => ?_, h.clear,
    fun chunk => ?_, h.shape.le_max⟩
  · have hl : e.label ∈ sb.labels := mem_labels.mpr ⟨e, he, rfl⟩
    obtain ⟨heirs, hcount, hzero, -⟩ := @countHeirs_spec sb sb.mem sb.ordmap e.label h.shape
      sb.labels sb.allocmap (h.place _ hl).2
    refine ⟨heirs, (setPresent_true h.clear).symm ▸ hcount, Nat.pos_of_ne_zero fun heq => ?_⟩
    obtain ⟨w, hw⟩ := h.heirs _ hl hg
    exact hzero.mp heq w hw
  · have hcount : (sb.elements.countP fun e => e.chunk = chunk) =
        (sb.elements.map Element.chunk).count chunk := by
      rw [List.count, List.countP_map]
      rfl
    rw [hcount, h.store.nodup.count]
    simp only [← h.store.alloc]

/-- Every run keeps the table within its slots and the tree, the elements and the chunks clean. -/
theorem runs_clean (orgdata : ℕ) (snapdata : ℕ → ℕ) (ops : List Op)
    (h : Allowed (Copies.start orgdata) ops) :
    ∃ sb, ops.foldlM Op.apply (empty orgdata snapdata) = some sb ∧ Clean sb := by
  obtain ⟨sb, hrun, r⟩ := (empty_refines orgdata snapdata).run h
  exact ⟨sb, hrun, r.tidy.clean⟩

theorem runs_clean_ghost :
    ∃ sb, [Op.ofOrigin 1, .ofSnapshot 2 1, .ofSnapshot 3 1, .write 1 5, .delete 2].foldlM Op.apply
      (empty 7 fun _ => 0) = some sb ∧ Clean sb :=
  runs_clean 7 _ _ (by decide)

end

end Tux3.Version
