import Tux3.Dleaf

/-!
# The contents of a file index leaf

A leaf that passes `dleaf_check`, with one extent for an entry, is a list of groups with their
entries and extents, packed. The operations are then operations on lists.
-/
namespace Tux3.Dleaf

/-- A group with the low halves of its indexes and its extents. -/
structure Bunch where
  keyhi : ℕ
  items : List (ℕ × Extent)

def size : List Bunch → ℕ
  | [] => 0
  | g :: gs => g.items.length + size gs

/-- The entries of a group from a limit on. -/
def packFrom : ℕ → List (ℕ × Extent) → List Entry
  | _, [] => []
  | limit, x :: xs => ⟨x.1, limit + 1⟩ :: packFrom (limit + 1) xs

def packEntries (gs : List Bunch) : List Entry := gs.flatMap fun g => packFrom 0 g.items

def packTable (gs : List Bunch) : List Extent := gs.flatMap fun g => g.items.map Prod.snd

def packGroups (gs : List Bunch) : List Group := gs.map fun g => ⟨g.keyhi, g.items.length⟩

def pack (blocksize : ℕ) (gs : List Bunch) : Leaf where
  groups := packGroups gs
  entries := packEntries gs
  table := packTable gs
  free := 8 + 8 * size gs
  used := entryOffset blocksize gs.length (size gs)

/-- The indexes and extents in order. -/
def Bunch.pairs (g : Bunch) : List (ℕ × Extent) := g.items.map fun x => (getIndex g.keyhi x.1, x.2)

def pairsOf (gs : List Bunch) : List (ℕ × Extent) := gs.flatMap Bunch.pairs

structure Bunch.Good (g : Bunch) : Prop where
  ne_nil : g.items ≠ []
  le_max : g.items.length ≤ MAX_GROUP_ENTRIES
  sorted : (g.items.map Prod.fst).Pairwise (· < ·)
  blocks : ∀ x ∈ g.items, x.2.block ≠ 0
  keyhi_lt : g.keyhi < 2 ^ 24
  keylo_lt : ∀ x ∈ g.items, x.1 < 2 ^ 24

structure Fits (blocksize : ℕ) (gs : List Bunch) : Prop where
  good : ∀ g ∈ gs, g.Good
  sorted : (gs.map Bunch.keyhi).Pairwise (· ≤ ·)
  room : 8 + 8 * size gs + 4 * (gs.length + size gs) ≤ blocksize

/-- The indexes and extents that the tables hold, one extent for an entry. -/
def pairsFrom : List Group → List Entry → List Extent → List (ℕ × Extent)
  | [], _, _ => []
  | g :: gs, es, xs =>
      ((es.take g.count).zip xs).map (fun p => (getIndex g.keyhi p.1.keylo, p.2)) ++
        pairsFrom gs (es.drop g.count) (xs.drop g.count)

def Leaf.pairs (leaf : Leaf) : List (ℕ × Extent) := pairsFrom leaf.groups leaf.entries leaf.table

/-- The limits of each group count its entries. -/
def OneExtent : List Group → List Entry → Prop
  | [], _ => True
  | g :: gs, es =>
      (es.take g.count).map Entry.limit = List.range' 1 g.count ∧ OneExtent gs (es.drop g.count)

/-- A leaf that passes `dleaf_check` with one extent for an entry: the tables reach up to the
offsets, which do not cross, and the keys have 24 bits. The check returns early on a leaf without
groups, which is as `dleaf_init` leaves it. -/
structure Leaf.Sound (leaf : Leaf) (blocksize : ℕ) : Prop where
  check : dleafCheck blocksize leaf = true
  one : OneExtent leaf.groups leaf.entries
  empty : leaf.groups = [] → leaf.entries = [] ∧ leaf.table = []
  keyhi_lt : ∀ g ∈ leaf.groups, g.keyhi < 2 ^ 24
  keylo_lt : ∀ e ∈ leaf.entries, e.keylo < 2 ^ 24
  free_eq : leaf.free = 8 + 8 * leaf.table.length
  used_eq : leaf.used = entryOffset blocksize leaf.groups.length leaf.entries.length
  le : leaf.free ≤ leaf.used

section
variable {blocksize : ℕ} {gs gs' : List Bunch} {items : List (ℕ × Extent)} {l m k : ℕ}

/-! ## Lists of entries -/

@[simp] theorem packFrom_length : (packFrom l items).length = items.length := by
  induction items generalizing l with
  | nil => rfl
  | cons x xs ih => rw [packFrom, List.length_cons, List.length_cons, ih]

theorem packFrom_append {items' : List (ℕ × Extent)} :
    packFrom l (items ++ items') = packFrom l items ++ packFrom (l + items.length) items' := by
  induction items generalizing l with
  | nil => rfl
  | cons x xs ih =>
      rw [List.cons_append, packFrom, packFrom, ih, List.cons_append, List.length_cons,
        Nat.add_right_comm, Nat.add_assoc]

theorem packFrom_take : (packFrom l items).take k = packFrom l (items.take k) := by
  induction items generalizing l k with
  | nil => rw [packFrom, List.take_nil, List.take_nil, packFrom]
  | cons x xs ih =>
      cases k with
      | zero => rfl
      | succ k => rw [packFrom, List.take_succ_cons, List.take_succ_cons, packFrom, ih]

theorem packFrom_drop : (packFrom l items).drop k = packFrom (l + k) (items.drop k) := by
  induction items generalizing l k with
  | nil => rw [packFrom, List.drop_nil, List.drop_nil, packFrom]
  | cons x xs ih =>
      cases k with
      | zero => rfl
      | succ k =>
          rw [packFrom, List.drop_succ_cons, List.drop_succ_cons, ih, Nat.add_right_comm,
            Nat.add_assoc]

theorem packFrom_getElem {j : ℕ} (h : j < items.length) :
    (packFrom l items)[j]? = some ⟨items[j].1, l + j + 1⟩ := by
  induction items generalizing l j with
  | nil => cases h
  | cons x xs ih =>
      cases j with
      | zero => rfl
      | succ j =>
          rw [packFrom, List.getElem?_cons_succ, ih (Nat.lt_of_succ_lt_succ h),
            List.getElem_cons_succ]
          congr 2
          omega

theorem packFrom_shift {n : ℤ} (h : (l : ℤ) + n = m) (hlt : m + items.length < 2 ^ 8) :
    (packFrom l items).map (fun e => incEntryLimit e n) = packFrom m items := by
  induction items generalizing l m with
  | nil => rfl
  | cons x xs ih =>
      rw [List.length_cons] at hlt
      rw [packFrom, packFrom, List.map_cons, ih (m := m + 1) (by push_cast; omega) (by omega)]
      congr 1
      rw [incEntryLimit, inc8]
      congr 1
      push_cast
      omega

theorem packFrom_limits :
    (packFrom l items).map Entry.limit = List.range' (l + 1) items.length := by
  induction items generalizing l with
  | nil => rfl
  | cons x xs ih => rw [packFrom, List.map_cons, ih, List.length_cons, List.range'_succ]

/-! ## Lists of groups -/

@[simp] theorem size_append : size (gs ++ gs') = size gs + size gs' := by
  induction gs with
  | nil => rw [List.nil_append, size, Nat.zero_add]
  | cons g gs ih => rw [List.cons_append, size, size, ih, Nat.add_assoc]

theorem size_concat {g : Bunch} : size (gs ++ [g]) = size gs + g.items.length := by
  rw [size_append, size, size, Nat.add_zero]

@[simp] theorem packEntries_append : packEntries (gs ++ gs') = packEntries gs ++ packEntries gs' :=
  List.flatMap_append

@[simp] theorem packTable_append : packTable (gs ++ gs') = packTable gs ++ packTable gs' :=
  List.flatMap_append

@[simp] theorem packGroups_append : packGroups (gs ++ gs') = packGroups gs ++ packGroups gs' :=
  List.map_append

@[simp] theorem pairsOf_append : pairsOf (gs ++ gs') = pairsOf gs ++ pairsOf gs' :=
  List.flatMap_append

@[simp] theorem packEntries_cons {g : Bunch} :
    packEntries (g :: gs) = packFrom 0 g.items ++ packEntries gs := rfl

@[simp] theorem packTable_cons {g : Bunch} :
    packTable (g :: gs) = g.items.map Prod.snd ++ packTable gs := rfl

@[simp] theorem packGroups_cons {g : Bunch} :
    packGroups (g :: gs) = ⟨g.keyhi, g.items.length⟩ :: packGroups gs := rfl

@[simp] theorem pairsOf_cons {g : Bunch} : pairsOf (g :: gs) = g.pairs ++ pairsOf gs := rfl

@[simp] theorem packGroups_length : (packGroups gs).length = gs.length := List.length_map _

@[simp] theorem packEntries_length : (packEntries gs).length = size gs := by
  induction gs with
  | nil => rfl
  | cons g gs ih => rw [packEntries_cons, List.length_append, packFrom_length, ih, size]

@[simp] theorem packTable_length : (packTable gs).length = size gs := by
  induction gs with
  | nil => rfl
  | cons g gs ih => rw [packTable_cons, List.length_append, List.length_map, ih, size]

@[simp] theorem pairsOf_length : (pairsOf gs).length = size gs := by
  induction gs with
  | nil => rfl
  | cons g gs ih => rw [pairsOf_cons, List.length_append, Bunch.pairs, List.length_map, ih, size]

/-! ## Packed leaves pass the check -/

theorem checkEntries_packFrom {keylo : ℤ} (hkey : ∀ x ∈ items, keylo < (x.1 : ℤ))
    (hsorted : (items.map Prod.fst).Pairwise (· < ·)) :
    checkEntries keylo l (packFrom l items) = true := by
  induction items generalizing keylo l with
  | nil => rfl
  | cons x xs ih =>
      rw [List.map_cons] at hsorted
      obtain ⟨hx, hxs⟩ := List.pairwise_cons.mp hsorted
      rw [packFrom, checkEntries, ih (fun y hy => ?_) hxs,
        decide_eq_true (hkey x List.mem_cons_self), decide_eq_true (Nat.lt_succ_self l)]
      · rfl
      · exact Int.ofNat_lt.mpr (hx y.1 (List.mem_map.mpr ⟨y, hy, rfl⟩))

theorem packFrom_last (h : items ≠ []) :
    ((packFrom l items).getLast?.map Entry.limit).getD 0 = l + items.length := by
  have hpos := List.length_pos_of_ne_nil h
  have hlt : items.length - 1 < items.length := Nat.sub_lt hpos Nat.one_pos
  rw [List.getLast?_eq_getElem?, packFrom_length, packFrom_getElem hlt]
  change l + (items.length - 1) + 1 = l + items.length
  omega

theorem checkGroups_pack {keyhi : ℕ} {es : List Entry} {xs : List Extent}
    (hgood : ∀ g ∈ gs, g.Good) (hkey : ∀ g ∈ gs, keyhi ≤ g.keyhi)
    (hsorted : (gs.map Bunch.keyhi).Pairwise (· ≤ ·)) :
    checkGroups keyhi (packGroups gs) (packEntries gs ++ es) (packTable gs ++ xs) =
      some (size gs, size gs) := by
  induction gs generalizing keyhi with
  | nil => rfl
  | cons g gs ih =>
      have hg := hgood g List.mem_cons_self
      rw [List.map_cons] at hsorted
      obtain ⟨hle, hrest⟩ := List.pairwise_cons.mp hsorted
      have hpos := List.length_pos_of_ne_nil hg.ne_nil
      rw [packGroups_cons, packEntries_cons, packTable_cons, checkGroups]
      dsimp only
      rw [List.append_assoc, List.append_assoc, List.take_left' packFrom_length,
        List.drop_left' packFrom_length, packFrom_last hg.ne_nil, Nat.zero_add,
        List.take_left' (List.length_map _), List.drop_left' (List.length_map _), if_pos]
      · rw [ih (fun x hx => hgood x (List.mem_cons_of_mem g hx))
          (fun x hx => hle x.keyhi (List.mem_map.mpr ⟨x, hx, rfl⟩)) hrest, Option.map_some, size,
          Nat.add_comm]
      · refine ⟨hkey g List.mem_cons_self, hpos, hg.le_max, ?_, ?_, ?_, ?_⟩
        · rw [List.length_append, packFrom_length]
          exact Nat.le_add_right _ _
        · exact checkEntries_packFrom (fun x _ => by omega) hg.sorted
        · rw [List.length_append, List.length_map]
          exact Nat.le_add_right _ _
        · rw [List.all_eq_true]
          intro x hx
          obtain ⟨y, hy, rfl⟩ := List.mem_map.mp hx
          exact decide_eq_true (hg.blocks y hy)

theorem Fits.check (h : Fits blocksize gs) : dleafCheck blocksize (pack blocksize gs) = true := by
  have hgroups := @checkGroups_pack gs 0 [] [] h.good (fun _ _ => Nat.zero_le _) h.sorted
  rw [List.append_nil, List.append_nil] at hgroups
  rw [dleafCheck]
  split
  · rfl
  · rw [pack]
    dsimp only
    rw [hgroups]
    dsimp only
    rw [packGroups_length, decide_eq_true rfl, decide_eq_true rfl]
    rfl

theorem oneExtent_pack {es : List Entry} : OneExtent (packGroups gs) (packEntries gs ++ es) := by
  induction gs with
  | nil => trivial
  | cons g gs ih =>
      rw [packGroups_cons, packEntries_cons, OneExtent]
      dsimp only
      rw [List.append_assoc, List.take_left' packFrom_length, List.drop_left' packFrom_length,
        packFrom_limits]
      exact ⟨rfl, ih⟩

theorem zip_packFrom {keyhi : ℕ} {xs : List Extent} :
    ((packFrom l items).zip (items.map Prod.snd ++ xs)).map
        (fun p => (getIndex keyhi p.1.keylo, p.2)) =
      items.map fun x => (getIndex keyhi x.1, x.2) := by
  induction items generalizing l with
  | nil => rfl
  | cons x rest ih =>
      rw [packFrom, List.map_cons, List.cons_append, List.zip_cons_cons, List.map_cons, ih,
        List.map_cons]

theorem pairsFrom_pack {es : List Entry} {xs : List Extent} :
    pairsFrom (packGroups gs) (packEntries gs ++ es) (packTable gs ++ xs) = pairsOf gs := by
  induction gs with
  | nil => rfl
  | cons g gs ih =>
      rw [packGroups_cons, packEntries_cons, packTable_cons, pairsFrom]
      dsimp only
      rw [List.append_assoc, List.append_assoc, List.take_left' packFrom_length,
        List.drop_left' packFrom_length, List.drop_left' (List.length_map _), ih, pairsOf_cons,
        zip_packFrom]
      rfl

theorem pack_pairs : (pack blocksize gs).pairs = pairsOf gs := by
  have h := @pairsFrom_pack gs [] []
  rw [List.append_nil, List.append_nil] at h
  exact h

theorem mem_packFrom {e : Entry} (h : e ∈ packFrom l items) : ∃ x ∈ items, e.keylo = x.1 := by
  induction items generalizing l with
  | nil => cases h
  | cons x xs ih =>
      rw [packFrom] at h
      cases List.mem_cons.mp h with
      | inl h => exact ⟨x, List.mem_cons_self, congrArg Entry.keylo h⟩
      | inr h =>
          obtain ⟨y, hy, he⟩ := ih h
          exact ⟨y, List.mem_cons_of_mem x hy, he⟩

/-- A packed leaf is sound. -/
theorem Fits.sound (h : Fits blocksize gs) : (pack blocksize gs).Sound blocksize where
  check := h.check
  one := by
    have hone := @oneExtent_pack gs []
    rw [List.append_nil] at hone
    exact hone
  empty := by
    intro hnil
    have hgs : gs = [] := List.map_eq_nil_iff.mp hnil
    subst hgs
    exact ⟨rfl, rfl⟩
  keyhi_lt := by
    intro g hg
    obtain ⟨b, hb, rfl⟩ := List.mem_map.mp hg
    exact (h.good b hb).keyhi_lt
  keylo_lt := by
    intro e he
    obtain ⟨b, hb, he⟩ := List.mem_flatMap.mp he
    obtain ⟨x, hx, he⟩ := mem_packFrom he
    exact he ▸ (h.good b hb).keylo_lt x hx
  free_eq := by
    rw [pack]
    dsimp only
    rw [packTable_length]
  used_eq := by
    rw [pack]
    dsimp only
    rw [packGroups_length, packEntries_length]
  le := by
    have hroom := h.room
    rw [pack]
    dsimp only
    rw [entryOffset]
    omega

/-! ## Sound leaves are packed -/

theorem checkEntries_sorted {keylo : ℤ} {limit : ℕ} {own : List Entry}
    (h : checkEntries keylo limit own = true) :
    (own.map Entry.keylo).Pairwise (· < ·) ∧ ∀ e ∈ own, keylo < (e.keylo : ℤ) := by
  induction own generalizing keylo limit with
  | nil => exact ⟨List.Pairwise.nil, fun e he => by cases he⟩
  | cons e es ih =>
      rw [checkEntries, Bool.and_eq_true, Bool.and_eq_true] at h
      obtain ⟨⟨hkey, -⟩, hrest⟩ := h
      obtain ⟨hsorted, hmem⟩ := ih hrest
      have hkey := of_decide_eq_true hkey
      refine ⟨List.pairwise_cons.mpr ⟨?_, hsorted⟩, ?_⟩
      · intro k hk
        obtain ⟨e', he', rfl⟩ := List.mem_map.mp hk
        exact Int.ofNat_lt.mp (hmem e' he')
      · intro e' he'
        cases List.mem_cons.mp he' with
        | inl he' => exact he' ▸ hkey
        | inr he' => exact Int.lt_trans hkey (hmem e' he')

theorem packFrom_zip {own : List Entry} {xs : List Extent} (hlen : own.length ≤ xs.length)
    (hone : own.map Entry.limit = List.range' (l + 1) own.length) :
    packFrom l ((own.map Entry.keylo).zip xs) = own := by
  induction own generalizing l xs with
  | nil => rfl
  | cons e es ih =>
      cases xs with
      | nil => cases hlen
      | cons x xs =>
          rw [List.map_cons, List.length_cons, List.range'_succ] at hone
          obtain ⟨he, hone⟩ := List.cons.inj hone
          rw [List.map_cons, List.zip_cons_cons, packFrom, ih (Nat.le_of_succ_le_succ hlen) hone,
            ← he]

theorem exists_pack {keyhi excount encount : ℕ} {groups : List Group} {es : List Entry}
    {xs : List Extent} (h : checkGroups keyhi groups es xs = some (excount, encount))
    (hone : OneExtent groups es) (hhi : ∀ g ∈ groups, g.keyhi < 2 ^ 24)
    (hlo : ∀ e ∈ es, e.keylo < 2 ^ 24) :
    ∃ gs, (∀ g ∈ gs, g.Good) ∧ (gs.map Bunch.keyhi).Pairwise (· ≤ ·) ∧
      (∀ g ∈ gs, keyhi ≤ g.keyhi) ∧ packGroups gs = groups ∧ packEntries gs = es.take encount ∧
      packTable gs = xs.take excount ∧ size gs = encount ∧ size gs = excount := by
  induction groups generalizing keyhi es xs excount encount with
  | nil =>
      cases h
      refine ⟨[], ?_, List.Pairwise.nil, ?_, rfl, rfl, rfl, rfl, rfl⟩
      · intro b hb
        cases hb
      · intro b hb
        cases hb
  | cons g groups ih =>
      rw [checkGroups] at h
      split at h
      case isFalse => cases h
      case isTrue hcond =>
        obtain ⟨hkeyhi, hpos, hmax, hcount, hown, hlimit, hblocks⟩ := hcond
        obtain ⟨hrange, hone⟩ := hone
        -- the last limit of the group is its count
        have hlast : ((es.take g.count).getLast?.map Entry.limit).getD 0 = g.count := by
          rw [← List.getLast?_map, hrange, List.getLast?_range']
          rw [if_neg (Nat.ne_of_gt hpos)]
          dsimp only [Option.getD_some]
          omega
        rw [hlast] at hlimit hblocks h
        obtain ⟨⟨excount', encount'⟩, hrec, hsum⟩ := Option.map_eq_some_iff.mp h
        cases hsum
        obtain ⟨gs, hgood, hsorted, hle, hgroups, hentries, htable, hsize, hsize'⟩ := ih hrec hone
          (fun x hx => hhi x (List.mem_cons_of_mem g hx))
          (fun e he => hlo e (List.mem_of_mem_drop he))
        have hownlen : (es.take g.count).length = g.count := by
          rw [List.length_take, Nat.min_eq_left hcount]
        have hxslen : (xs.take g.count).length = g.count := by
          rw [List.length_take, Nat.min_eq_left hlimit]
        have hkeyslen : ((es.take g.count).map Entry.keylo).length = (xs.take g.count).length := by
          rw [List.length_map, hownlen, hxslen]
        let b : Bunch := ⟨g.keyhi, ((es.take g.count).map Entry.keylo).zip (xs.take g.count)⟩
        have hbfst : b.items.map Prod.fst = (es.take g.count).map Entry.keylo :=
          List.map_fst_zip (Nat.le_of_eq hkeyslen)
        have hbsnd : b.items.map Prod.snd = xs.take g.count :=
          List.map_snd_zip (Nat.le_of_eq hkeyslen.symm)
        have hblen : b.items.length = g.count := by
          rw [← List.length_map (f := Prod.snd), hbsnd, hxslen]
        have hbpack : packFrom 0 b.items = es.take g.count :=
          packFrom_zip (Nat.le_of_eq (hownlen.trans hxslen.symm)) (by rw [hownlen]; exact hrange)
        have hb : b.Good := by
          refine ⟨?_, hblen ▸ hmax, ?_, ?_, hhi g List.mem_cons_self, ?_⟩
          · apply List.ne_nil_of_length_pos
            rw [hblen]
            exact hpos
          · rw [hbfst]
            exact (checkEntries_sorted hown).1
          · intro x hx
            have hmem : x.2 ∈ xs.take g.count := hbsnd ▸ List.mem_map.mpr ⟨x, hx, rfl⟩
            exact of_decide_eq_true (List.all_eq_true.mp hblocks x.2 hmem)
          · intro x hx
            have hmem : x.1 ∈ (es.take g.count).map Entry.keylo :=
              hbfst ▸ List.mem_map.mpr ⟨x, hx, rfl⟩
            obtain ⟨e, he, heq⟩ := List.mem_map.mp hmem
            exact heq ▸ hlo e (List.mem_of_mem_take he)
        refine ⟨b :: gs, ?_, ?_, ?_, ?_, ?_, ?_, ?_, ?_⟩
        · exact List.forall_mem_cons.mpr ⟨hb, hgood⟩
        · refine List.pairwise_cons.mpr ⟨?_, hsorted⟩
          intro k hk
          obtain ⟨x, hx, rfl⟩ := List.mem_map.mp hk
          exact hle x hx
        · exact List.forall_mem_cons.mpr ⟨hkeyhi, fun x hx => Nat.le_trans hkeyhi (hle x hx)⟩
        · rw [packGroups_cons, hblen, hgroups]
        · rw [packEntries_cons, hbpack, hentries, Nat.add_comm, List.take_add]
        · rw [packTable_cons, hbsnd, htable, Nat.add_comm, List.take_add]
        · rw [size, hblen, hsize, Nat.add_comm]
        · rw [size, hblen, hsize', Nat.add_comm]

/-- A sound leaf is a packed one. -/
theorem Leaf.Sound.packed {leaf : Leaf} (h : leaf.Sound blocksize) :
    ∃ gs, Fits blocksize gs ∧ leaf = pack blocksize gs := by
  obtain ⟨groups, entries, table, free, used⟩ := leaf
  have hfree := h.free_eq
  have hused := h.used_eq
  have hle := h.le
  dsimp only at hfree hused hle
  subst hfree hused
  cases Nat.eq_zero_or_pos groups.length with
  | inl hzero =>
      have hnil := List.length_eq_zero_iff.mp hzero
      obtain ⟨hentries, htable⟩ := h.empty hnil
      dsimp only at hentries htable
      subst hnil hentries htable
      exact ⟨[], ⟨fun g hg => (List.not_mem_nil hg).elim, List.Pairwise.nil, hle⟩, rfl⟩
  | inr hpos =>
      have hcheck := h.check
      rw [dleafCheck, if_neg (Nat.ne_of_gt hpos)] at hcheck
      split at hcheck
      case h_1 => cases hcheck
      case h_2 excount encount hsome =>
        rw [Bool.and_eq_true] at hcheck
        obtain ⟨hused, hfree⟩ := hcheck
        have hused := of_decide_eq_true hused
        have hfree := of_decide_eq_true hfree
        obtain ⟨gs, hgood, hsorted, -, hgs, hentries, htable, hsize, hsize'⟩ :=
          exists_pack hsome h.one h.keyhi_lt h.keylo_lt
        dsimp only at hused hfree hgs hentries htable
        rw [entryOffset] at hle hused
        rw [entryOffset] at hused
        have hlen : gs.length = groups.length := by rw [← hgs, packGroups_length]
        have hencount : encount = entries.length := by omega
        have hexcount : excount = table.length := by omega
        rw [hencount, List.take_length] at hentries
        rw [hexcount, List.take_length] at htable
        refine ⟨gs, ⟨hgood, hsorted, ?_⟩, ?_⟩
        · rw [hsize, hlen, hencount]
          omega
        · rw [pack, hgs, hentries, htable, hlen, hsize, hencount, ← hexcount, ← hsize', hsize,
            hencount]

end

end Tux3.Dleaf
