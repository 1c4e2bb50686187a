import Tux3.MapAtomic

/-!
# How far a call reaches

A call of `map_region` stops at the end of its region, at the end of its leaf, or when it has no
segment left: every edge of an extent begins a segment.
-/
namespace Tux3.MapRegion

open Btree Dleaf TreeChop

/-! ## Edges -/

/-- Where extents begin and end. -/
def edges (l : List (ℕ × Extent)) : List ℕ := l.flatMap fun p => [p.1, p.1 + p.2.count]

/-- The number of edges behind an index, up to another index. -/
def edgesIn (l : List (ℕ × Extent)) (low high : ℕ) : ℕ :=
  (List.range' (low + 1) (high - low)).countP fun j => j ∈ edges l

section
variable {l l' : List (ℕ × Extent)} {low mid high limit left index i j : ℕ} {p : ℕ × Extent}

theorem mem_edges : j ∈ edges l ↔ ∃ p ∈ l, j = p.1 ∨ j = p.1 + p.2.count := by
  simp [edges]

theorem edges_cons : j ∈ edges (p :: l) ↔ (j = p.1 ∨ j = p.1 + p.2.count) ∨ j ∈ edges l := by
  simp [edges, or_assoc]

theorem edgesIn_split (hlow : low ≤ mid) (hhigh : mid ≤ high) :
    edgesIn l low high = edgesIn l low mid + edgesIn l mid high := by
  have hrange : List.range' (low + 1) (high - low) =
      List.range' (low + 1) (mid - low) ++ List.range' (mid + 1) (high - mid) := by
    rw [show mid + 1 = low + 1 + (mid - low) by omega, List.range'_append_1]
    congr 1
    omega
  rw [edgesIn, hrange, List.countP_append]
  rfl

theorem edgesIn_congr (h : ∀ j, low < j → j ≤ high → (j ∈ edges l ↔ j ∈ edges l')) :
    edgesIn l low high = edgesIn l' low high := by
  refine List.countP_congr fun j hj => ?_
  obtain ⟨hge, hlt⟩ := List.mem_range'_1.mp hj
  rw [decide_eq_true_eq, decide_eq_true_eq]
  exact h j (by omega) (by omega)

theorem edgesIn_none (h : ∀ j, low < j → j ≤ high → j ∉ edges l) : edgesIn l low high = 0 := by
  refine List.countP_eq_zero.mpr fun j hj => ?_
  obtain ⟨hge, hlt⟩ := List.mem_range'_1.mp hj
  rw [decide_eq_true_eq]
  exact h j (by omega) (by omega)

theorem edgesIn_last (hlt : low < high) (hin : high ∈ edges l)
    (h : ∀ j, low < j → j < high → j ∉ edges l) : edgesIn l low high = 1 := by
  obtain ⟨high, rfl⟩ := Nat.exists_eq_succ_of_ne_zero (Nat.ne_of_gt (Nat.zero_lt_of_lt hlt))
  rw [edgesIn_split (Nat.le_of_lt_succ hlt) (Nat.le_succ high),
    edgesIn_none fun j hj hle => h j hj (Nat.lt_succ_of_le hle), edgesIn,
    Nat.succ_sub (Nat.le_refl _), Nat.sub_self, List.range'_one,
    List.countP_singleton, if_pos (decide_eq_true hin)]

theorem Laid.edges_tail (h : Laid (p :: l)) (hj : j ∈ edges l) : p.1 + p.2.count ≤ j := by
  obtain ⟨q, hq, hj⟩ := mem_edges.mp hj
  have hle := (List.pairwise_cons.mp h.apart).1 q hq
  omega

theorem reach_step {stop : ℕ} (hlt : index < mid) (hlimit : mid ≤ limit) (hstop : mid ≤ stop)
    (hnone : ∀ j, index < j → j < mid → j ∉ edges l) (hin : mid < limit → mid ∈ edges l)
    (hsame : ∀ j, mid < j → (j ∈ edges l ↔ j ∈ edges l'))
    (hrest : mid ≤ i → (i < stop ↔ i < limit ∧ edgesIn l' mid i < left)) :
    i < stop ↔ i < limit ∧ edgesIn l index i < left + 1 := by
  rcases Nat.lt_or_ge i mid with hbefore | hge
  · rw [edgesIn_none fun j hj hji => hnone j hj (Nat.lt_of_le_of_lt hji hbefore)]
    exact iff_of_true (Nat.lt_of_lt_of_le hbefore hstop)
      ⟨Nat.lt_of_lt_of_le hbefore hlimit, left.succ_pos⟩
  · rw [hrest hge]
    refine and_congr_right fun hi => ?_
    rw [edgesIn_split (Nat.le_of_lt hlt) hge,
      edgesIn_last hlt (hin (Nat.lt_of_le_of_lt hge hi)) hnone, Nat.add_comm,
      edgesIn_congr fun j hj _ => hsame j hj]
    exact Nat.succ_lt_succ_iff.symm

/-- A cut reaches an index when there are fewer edges up to it than segments. -/
theorem cut_reach (hlaid : Laid l) (hat : ∀ p ∈ l.head?, index < p.1 + p.2.count)
    (hle : index ≤ i) :
    i < (cut limit left index l).stop ↔ i < limit ∧ edgesIn l index i < left := by
  induction left generalizing index l with
  | zero => exact iff_of_false (Nat.not_lt.mpr hle) fun h => Nat.not_lt_zero _ h.2
  | succ left ih =>
      by_cases hlt : index < limit
      · cases l with
        | nil =>
            rw [cut, if_pos hlt, cut_stop (Nat.le_refl _),
              edgesIn_none fun j _ _ => List.not_mem_nil]
            exact (and_iff_left left.succ_pos).symm
        | cons p l =>
            have hpos := hlaid.counts p List.mem_cons_self
            rw [cut, if_pos hlt]
            by_cases hgap : index < p.1
            · rw [if_pos hgap]
              have hafter : ∀ j ∈ edges (p :: l), p.1 ≤ j := by
                intro j hj
                rcases edges_cons.mp hj with hj | hj
                · omega
                · have hge := hlaid.edges_tail hj
                  omega
              have hat' : ∀ q ∈ (p :: l).head?, min p.1 limit < q.1 + q.2.count := by
                intro q hq
                cases hq
                omega
              have hspec : CutSpec limit _ _ (cut limit left (min p.1 limit) (p :: l)) :=
                cut_spec hlaid hat' (Nat.min_le_right _ _) (.inl fun q hq => by
                  cases hq
                  exact Nat.min_le_left _ _)
              refine reach_step (Nat.lt_min.mpr ⟨hgap, hlt⟩) (Nat.min_le_right _ _)
                (hspec.stop ▸ Nat.le_add_right _ _) (fun j _ hj hin => ?_) (fun hmin => ?_)
                (fun j _ => Iff.rfl) fun hge => ih hlaid hat' hge
              · have hge := hafter j hin
                omega
              · rw [Nat.min_eq_left (by omega)]
                exact edges_cons.mpr (.inl (.inl rfl))
            · rw [if_neg hgap]
              have hend := hat p rfl
              by_cases hcross : limit < p.1 + p.2.count
              · rw [if_pos hcross]
                refine (and_iff_left_of_imp fun hi => ?_).symm
                have hi : i < limit := hi
                rw [edgesIn_none fun j hj hji hin => ?_]
                · exact left.succ_pos
                · rcases edges_cons.mp hin with hin | hin
                  · omega
                  · have hge := hlaid.edges_tail hin
                    omega
              · rw [if_neg hcross]
                have hspec : CutSpec limit _ _ (cut limit left (p.1 + p.2.count) l) :=
                  cut_spec hlaid.tail hlaid.next (Nat.not_lt.mp hcross)
                    (.inl fun q hq => (List.pairwise_cons.mp hlaid.apart).1 q
                      (List.mem_of_mem_head? hq))
                refine reach_step hend (Nat.not_lt.mp hcross) (hspec.stop ▸ Nat.le_add_right _ _)
                  (fun j hj hjend hin => ?_) (fun _ => edges_cons.mpr (.inl (.inr rfl)))
                  (fun j hj => ?_) fun hge => ih hlaid.tail hlaid.next hge
                · rcases edges_cons.mp hin with hin | hin
                  · omega
                  · have hge := hlaid.edges_tail hin
                    omega
                · exact edges_cons.trans (or_iff_right (by omega))
      · rw [cut_stop (Nat.not_lt.mp hlt)]
        exact iff_of_false (Nat.not_lt.mpr hle) fun h => hlt (Nat.lt_of_le_of_lt hle h.1)

end

/-! ## Calls -/

/-- The extents of a file: none without a btree. -/
def fileExtents (t : Dtree) : List (ℕ × Extent) := if t.hasRoot = true then extents t else []

/-- Where the leaf of an index ends, if there is one. -/
def fileEnd (t : Dtree) (index : ℕ) : ℕ :=
  if t.hasRoot = true then leafEnd t index else 2 ^ 64 - 1

/-- A call reaches an index of its region: in the leaf of its start, and with fewer edges up to it
than segments. -/
def Reached (t : Dtree) (start count maxSegs i : ℕ) : Prop :=
  start ≤ i ∧ i < min (start + count) (fileEnd t start) ∧
    edgesIn (fileExtents t) start i < maxSegs

/-- What a file maps an index to. -/
def fileBlock (t : Dtree) (index : ℕ) : Option ℕ := (contents t).lookup index

/-- The btree that a call writes to. -/
def rooted (blocksize : ℕ) (supply : Supply) (t : Dtree) : Dtree :=
  if t.hasRoot = true then t
  else
    match supply.root with
    | root :: leaf :: _ => emptyBtree blocksize root leaf t
    | _ => t

/-- The segments of a call in its region. -/
structure Spans (t : Dtree) (start count maxSegs : ℕ) (segs : List Seg) : Prop where
  nonempty : segs ≠ []
  counts : ∀ s ∈ segs, 0 < s.count
  reach : ∀ i, start ≤ i ∧ i < start + total segs ↔ Reached t start count maxSegs i

/-- A file maps a region as the segments say. -/
def Maps (t : Dtree) (start : ℕ) (segs : List Seg) : Prop :=
  ∀ x ∈ placed start segs, ∀ i < x.2.count,
    fileBlock t (x.1 + i) = if x.2.state = .hole then none else some (x.2.block + i)

/-- No extent of a lower range of `2 ^ 24` indexes reaches over the start of a call, which would not
find it. -/
def Seen (t : Dtree) (start : ℕ) : Prop :=
  ∀ p ∈ fileExtents t, p.1 / 2 ^ 24 < start / 2 ^ 24 → p.1 + p.2.count ≤ start

section
variable {t : Dtree} {blocksize n start count limit maxSegs low k l : ℕ} {cursor : Cursor}
  {a b : List (ℕ × ℕ)} {gs : List Bunch} {c : Cut} {ok : ℕ × Extent → Prop} {p : ℕ × Extent}

theorem mem_extents : p ∈ extents t ↔ ∃ x ∈ t.leafList, p ∈ (t.leaf x.2).pairs :=
  List.mem_flatMap

theorem seen_iff (hroot : t.hasRoot = true) : Seen t start ↔ Clear t start := by
  rw [Seen, fileExtents, if_pos hroot]
  constructor
  · exact fun h x hx p hp => h p (mem_extents.mpr ⟨x, hx, hp⟩)
  · intro h p hp
    obtain ⟨x, hx, hp⟩ := mem_extents.mp hp
    exact h x hx p hp

theorem CutAt.edges_iff (h : CutAt t blocksize cursor start limit maxSegs b a low gs k l c)
    (hgood : t.GoodFor ok blocksize n) {j : ℕ} (hj : start < j) (hlt : j < limit) :
    j ∈ edges ((pairsOf gs).drop k) ↔ j ∈ edges (extents t) := by
  obtain ⟨left, right, heq, hleft, hright⟩ := h.extents_eq hgood
  rw [heq, mem_edges, mem_edges]
  refine ⟨fun ⟨p, hp, hedge⟩ =>
    ⟨p, List.mem_append_left _ (List.mem_append_right _ hp), hedge⟩, ?_⟩
  rintro ⟨p, hp, hedge⟩
  rcases List.mem_append.mp hp with hp | hp
  · rcases List.mem_append.mp hp with hp | hp
    · have hend := hleft p hp
      omega
    · exact ⟨p, hp, hedge⟩
  · have hge := hright p hp
    omega

theorem CutAt.reach (h : CutAt t blocksize cursor start limit maxSegs b a low gs k l c)
    (hgood : t.GoodFor ok blocksize n) {i : ℕ} (hi : start ≤ i) :
    i < c.stop ↔ i < limit ∧ edgesIn (extents t) start i < maxSegs := by
  rw [h.cut_eq, cut_reach (h.laid hgood) h.first hi]
  refine and_congr_right fun hlt => ?_
  rw [edgesIn_congr fun j hj hle => h.edges_iff hgood hj (Nat.lt_of_le_of_lt hle hlt)]

theorem fileBlock_eq (hroot : t.hasRoot = true) : fileBlock t = t.read := by
  funext index
  rw [fileBlock, contents, if_pos hroot, Dtree.read]

theorem fileBlock_inj (h : t.GoodFor ok blocksize n) {i j block : ℕ}
    (hi : fileBlock t i = some block) (hj : fileBlock t j = some block) : i = j := by
  rw [fileBlock_eq (hasRoot_of_good h), h.wellFormed.read_iff] at hi hj
  have hnodup := (List.nodup_append.mp h.wellFormed.nodup).2.1
  rw [Dtree.dataBlocks_eq] at hnodup
  exact congrArg Prod.fst (List.inj_on_of_nodup_map hnodup hi hj rfl)

section
variable {create : ℕ} {supply : Supply} {m : Mapped} {segs : List Seg}

/-- A call on a btree. -/
theorem mapProbed_spans (hn : 15 ≤ n) (hblocksize : 256 ≤ blocksize) (hfour : 4 ∣ blocksize)
    (h : t.GoodFor (fun _ => True) blocksize n) (hclear : Clear t start)
    (hstart : start < 2 ^ 56) (hpos : 1 ≤ count) (hcount : count ≤ 64) (hmax : 0 < maxSegs)
    (hcall : mapProbed blocksize n t supply start count maxSegs create = some m)
    (hsegs : m.map = some segs)
    (hhanded : create ≠ 0 → Handed t m.allocated supply.leaves) :
    Spans t start count maxSegs segs ∧ (create = 0 → m.tree = t ∧ Maps t start segs) ∧
      (create ≠ 0 → start + count < 2 ^ 48 → m.tree.GoodFor (fun _ => True) blocksize n ∧
        Maps m.tree start segs ∧ (∀ s ∈ segs, s.state ≠ .hole) ∧
        ∀ i, i < start ∨ start + total segs ≤ i → fileBlock m.tree i = fileBlock t i) := by
  have hroot := hasRoot_of_good h
  obtain ⟨cursor, b, a, low, gs, k, l, c, hprobe, hcut, hcase⟩ :=
    mapProbed_cases h hclear hstart hpos hmax hcall hsegs
  obtain ⟨-, -, -, -, -, -, hnext, -⟩ := probed_leaf h hprobe
  have hne : c.segs ≠ [] := hcut.cut_eq ▸ cut_ne_nil hcut.lt_limit hmax
  have hstop := hcut.spec.stop
  have hle := hcut.spec.le
  have hreach : ∀ i, start ≤ i ∧ i < start + total c.segs ↔
      Reached t start count maxSegs i := by
    intro i
    rw [Reached, fileEnd, fileExtents, if_pos hroot, if_pos hroot, ← hnext, ← hstop]
    exact and_congr_right fun hi => hcut.reach h hi
  rcases hcase with ⟨rfl, rfl, rfl⟩ | ⟨hcreate, hfilled, s, hrun, htree⟩
  · refine ⟨⟨hne, hcut.spec.counts, hreach⟩, fun _ => ⟨rfl, ?_⟩, fun hno => absurd rfl hno⟩
    rw [Maps, fileBlock_eq hroot]
    exact (hcut.around h).agrees
  · have hmap := hcut.filled h hmax (hhanded hcreate) hfilled
    have htotal := hmap.total
    refine ⟨⟨?_, hmap.counts, htotal ▸ hreach⟩, fun hno => absurd hno hcreate,
      fun _ hlast => ?_⟩
    · rintro rfl
      obtain ⟨s', segs', heq⟩ := List.exists_cons_of_ne_nil hne
      have hs := hcut.spec.counts s' (heq ▸ List.mem_cons_self)
      rw [heq, total_cons] at htotal
      change 0 = _ at htotal
      omega
    · obtain ⟨hgood, haround⟩ := hcut.around_written hn hblocksize hfour h
        (true_inherited (by omega)) hmax (by omega) (by omega) (hhanded hcreate) hfilled
        (fun _ _ => trivial) hrun
      rw [← htree] at hgood haround
      refine ⟨hgood, ?_, hfilled.no_hole, fun i hout => ?_⟩
      · rw [Maps, fileBlock_eq (hasRoot_of_good hgood)]
        exact haround.agrees
      · rw [fileBlock_eq (hasRoot_of_good hgood), fileBlock_eq hroot]
        exact (hcut.around h).outside haround htotal hout

theorem extents_emptyBtree {root leaf : ℕ} : extents (emptyBtree blocksize root leaf t) = [] := by
  rw [extents, emptyBtree_leafList, List.flatMap_singleton, emptyBtree]
  dsimp only
  rw [Function.update_self]
  rfl

/-- A call on a file, whose btree is made when it is written the first time. -/
theorem mapRegion_spans (hn : 15 ≤ n) (hblocksize : 256 ≤ blocksize) (hfour : 4 ∣ blocksize)
    (h : t.hasRoot = true → t.GoodFor (fun _ => True) blocksize n) (hseen : Seen t start)
    (hkey : start < 2 ^ 56) (hpos : 1 ≤ count) (hcount : count ≤ 64)
    (hmax : 0 < maxSegs) (hroots : supply.root.Nodup)
    (hcall : mapRegion blocksize n t supply start count maxSegs create = some m)
    (hsegs : m.map = some segs)
    (hhanded : create ≠ 0 → Handed (rooted blocksize supply t) m.allocated supply.leaves) :
    Spans t start count maxSegs segs ∧ (create = 0 → m.tree = t ∧ Maps t start segs) ∧
      (create ≠ 0 → start + count < 2 ^ 48 → m.tree.GoodFor (fun _ => True) blocksize n ∧
        Maps m.tree start segs ∧ (∀ s ∈ segs, s.state ≠ .hole) ∧
        ∀ i, i < start ∨ start + total segs ≤ i → fileBlock m.tree i = fileBlock t i) := by
  have hstart : start + count < 2 ^ 64 - 1 := by omega
  by_cases hroot : t.hasRoot = true
  · rw [mapRegion, if_pos hroot] at hcall
    rw [rooted, if_pos hroot] at hhanded
    exact mapProbed_spans hn hblocksize hfour (h hroot) ((seen_iff hroot).mp hseen) hkey hpos
      hcount hmax hcall hsegs hhanded
  · rw [mapRegion, if_neg hroot] at hcall
    rw [rooted, if_neg hroot] at hhanded
    have hreach : ∀ i, start ≤ i ∧ i < start + count ↔ Reached t start count maxSegs i := by
      intro i
      rw [Reached, fileEnd, fileExtents, if_neg hroot, if_neg hroot,
        edgesIn_none fun j _ _ => List.not_mem_nil, Nat.min_eq_left (Nat.le_of_lt hstart)]
      exact and_congr_right fun _ => (and_iff_left hmax).symm
    by_cases hcreate : create = 0
    · rw [if_pos hcreate, if_neg (by omega)] at hcall
      cases hcall
      cases hsegs
      refine ⟨⟨List.cons_ne_nil _ _, fun s hs => ?_, hreach⟩, fun _ => ⟨rfl, fun x hx i _ => ?_⟩,
        fun hno => absurd hcreate hno⟩
      · rw [List.mem_singleton.mp hs]
        exact hpos
      · rw [placed_cons] at hx
        rw [List.mem_singleton.mp hx, if_pos rfl, fileBlock, contents, if_neg hroot]
        rfl
    · rw [if_neg hcreate] at hcall
      split at hcall
      · next root leaf rest heq =>
          rw [heq] at hhanded hroots
          have hne : root ≠ leaf := fun hsame =>
            (List.nodup_cons.mp hroots).1 (hsame ▸ List.mem_cons_self)
          have hgood : (emptyBtree blocksize root leaf t).GoodFor (fun _ => True) blocksize n :=
            (emptyBtree_good hne (by omega) (by omega)).goodFor.mono fun _ _ => trivial
          have hnone : ∀ p, p ∉ extents (emptyBtree blocksize root leaf t) := by
            rw [extents_emptyBtree]
            exact fun p => List.not_mem_nil
          obtain ⟨hspans, -, hwrites⟩ := mapProbed_spans hn hblocksize hfour hgood
            (fun x hx p hp => absurd (mem_extents.mpr ⟨x, hx, hp⟩) (hnone p)) hkey hpos hcount
            hmax hcall hsegs hhanded
          refine ⟨⟨hspans.nonempty, hspans.counts, fun i => (hspans.reach i).trans ?_⟩,
            fun hno => absurd hno hcreate, fun hcreate hlast => ?_⟩
          · rw [← hreach i, Reached, fileEnd, fileExtents, if_pos (hasRoot_of_good hgood),
              if_pos (hasRoot_of_good hgood), extents_emptyBtree,
              edgesIn_none fun j _ _ => List.not_mem_nil, leafEnd, emptyBtree_leafList]
            refine and_congr_right fun _ => ?_
            rw [List.find?_cons_of_neg (by simp)]
            change i < min _ (2 ^ 64 - 1) ∧ _ ↔ _
            rw [Nat.min_eq_left (Nat.le_of_lt hstart)]
            exact and_iff_left hmax
          · obtain ⟨hgood', hmaps, hholes, houtside⟩ := hwrites hcreate hlast
            refine ⟨hgood', hmaps, hholes, fun i hout => (houtside i hout).trans ?_⟩
            rw [fileBlock_eq (hasRoot_of_good hgood), Dtree.read, emptyBtree_mapping, fileBlock,
              contents, if_neg hroot]
      · cases hcall
        cases hsegs

theorem reached_start (hstart : start < 2 ^ 64 - 1) (hpos : 1 ≤ count) (hmax : 0 < maxSegs) :
    Reached t start count maxSegs start := by
  refine ⟨Nat.le_refl _, Nat.lt_min.mpr ⟨by omega, ?_⟩, ?_⟩
  · rw [fileEnd]
    split
    · exact lt_leafEnd hstart
    · exact hstart
  · rw [edgesIn_none fun j hj hle => absurd hj (Nat.not_lt.mpr hle)]
    exact hmax

/-! ## Extents that are not found -/

theorem extents_pairwise (h : t.WellFormed blocksize n) :
    (extents t).Pairwise fun p q => p.1 + p.2.count ≤ q.1 := by
  rw [extents, List.pairwise_flatMap]
  refine ⟨fun x hx => (h.ordered x hx).apart, h.below.imp_of_mem fun _ hy hxy p hp q hq => ?_⟩
  exact Nat.le_trans (hxy p hp) (h.above _ hy q hq)

theorem extents_same {q : ℕ × Extent} {i : ℕ} (h : t.WellFormed blocksize n) (hp : p ∈ extents t)
    (hq : q ∈ extents t) (hpi : p.1 ≤ i ∧ i < p.1 + p.2.count)
    (hqi : q.1 ≤ i ∧ i < q.1 + q.2.count) : p = q := by
  by_contra hne
  have hall := List.pairwise_iff_getElem.mp (extents_pairwise h)
  obtain ⟨j, hj, rfl⟩ := List.getElem_of_mem hp
  obtain ⟨k, hk, rfl⟩ := List.getElem_of_mem hq
  rcases Nat.lt_trichotomy j k with hlt | rfl | hlt
  · have hle := hall j k hj hk hlt
    omega
  · exact hne rfl
  · have hle := hall k j hk hj hlt
    omega

/-- Without an extent that covers its start and is found there, a region is cut from a hole on. -/
theorem mapLeaf_hole {cursor : Cursor} (h : t.GoodFor ok blocksize n) (hkey : start < 2 ^ 56)
    (hprobe : probeFrom t.node t.depth t.root start = some cursor)
    (hlt : start < min (start + count) (nextKey t.node cursor.path)) (hmax : 0 < maxSegs)
    (hnone : ∀ p ∈ extents t, Reaches start p → start < p.1) :
    ∃ l, Laid l ∧ (∀ p ∈ l.head?, start < p.1) ∧
      mapLeaf blocksize n t cursor supply start count maxSegs 0 =
        some ⟨some (cut (min (start + count) (nextKey t.node cursor.path)) maxSegs start l).segs, t,
          [], []⟩ := by
  obtain ⟨b, a, low, hlist, -⟩ := probed_leaf h hprobe
  have hmem : (low, cursor.leaf) ∈ t.leafList := by
    rw [hlist]
    exact List.mem_append_right b List.mem_cons_self
  have hordered := h.wellFormed.ordered _ hmem
  obtain ⟨gs, hfits, hleaf⟩ := (h.wellFormed.sound _ hmem).packed
  dsimp only at hordered hleaf
  have hpairs : ∀ p ∈ pairsOf gs, p ∈ extents t := fun p hp =>
    mem_extents.mpr ⟨_, hmem, by rw [hleaf, pack_pairs]; exact hp⟩
  have hapart := hordered.apart
  have hcounts := hordered.counts
  rw [hleaf, pack_pairs] at hapart hcounts
  have hlaid : Laid (pairsOf gs) := ⟨hapart, fun p hp => (hcounts p hp).1⟩
  have hwalk := congrArg Prod.fst
    (@dwalkProbe_reaches blocksize start gs hkey hfits.good hfits.sorted hapart)
  have hk : (pairsOf gs).findIdx (fun p => decide (Reaches start p)) ≤ size gs :=
    pairsOf_length ▸ List.findIdx_le_length
  have hat := fun x => @List.findIdx_of_getElem?_eq_some _ (fun p => decide (Reaches start p)) x
    (pairsOf gs)
  generalize (pairsOf gs).findIdx (fun p => decide (Reaches start p)) = k at hwalk hk hat
  have hgap : ∀ p ∈ ((pairsOf gs).drop k).head?, start < p.1 := by
    intro p hp
    rw [List.head?_drop] at hp
    exact hnone p (hpairs p (List.mem_of_getElem? hp)) (of_decide_eq_true (hat p hp))
  have hdrop : Laid ((pairsOf gs).drop k) := ⟨hlaid.apart.sublist (List.drop_sublist _ _),
    fun p hp => hlaid.counts p (List.mem_of_mem_drop hp)⟩
  obtain ⟨hsegs, -, habove, -⟩ := @walkSegs_cut blocksize _ maxSegs start k gs hfits.good hlaid hk
    (Nat.le_of_lt hlt) fun p hp => Nat.lt_add_right _ (hgap p hp)
  refine ⟨_, hdrop, hgap, ?_⟩
  rw [mapLeaf]
  dsimp only at hwalk ⊢
  rw [hleaf, hwalk, segStart_eq hfits.good hk, hsegs, if_neg (cut_ne_nil hlt hmax), if_pos rfl]

/-- A call that reads from an extent of a lower range begins with a hole. -/
theorem mapRegion_hidden (h : t.hasRoot = true → t.GoodFor ok blocksize n)
    (hunseen : ¬ Seen t start) (hstart : start < 2 ^ 56) (hpos : 1 ≤ count) (hmax : 0 < maxSegs)
    (hcall : mapRegion blocksize n t supply start count maxSegs 0 = some m)
    (hsegs : m.map = some segs) :
    (∃ s map, segs = s :: map ∧ s.state = .hole) ∧ (∀ s ∈ segs, 0 < s.count) ∧
      total segs ≤ count ∧ m.tree = t ∧ fileBlock t start ≠ none := by
  have hroot : t.hasRoot = true := by
    by_contra hroot
    refine hunseen fun p hp => ?_
    rw [fileExtents, if_neg hroot] at hp
    cases hp
  have hgood := h hroot
  rw [Seen, fileExtents, if_pos hroot] at hunseen
  push Not at hunseen
  obtain ⟨p, hp, hrange, hend⟩ := hunseen
  have hlow : p.1 ≤ start := by omega
  rw [mapRegion, if_pos hroot, mapProbed] at hcall
  cases hprobe : probeFrom t.node t.depth t.root start with
  | none =>
      rw [hprobe] at hcall
      cases hcall
  | some cursor =>
      rw [hprobe] at hcall
      obtain ⟨-, -, -, -, -, -, hnext, -⟩ := probed_leaf hgood hprobe
      have hlt : start < min (start + count) (nextKey t.node cursor.path) :=
        Nat.lt_min.mpr ⟨by omega, hnext ▸ lt_leafEnd (by omega)⟩
      -- an extent in the range of the start is behind the one that covers the start
      obtain ⟨l, hlaid, hgap, heq⟩ := @mapLeaf_hole t blocksize n start count maxSegs ok supply
        cursor hgood hstart hprobe hlt hmax fun q hq hreach => by
          by_contra hle
          have hsame := extents_same hgood.wellFormed hp hq ⟨hlow, hend⟩
            ⟨Nat.not_lt.mp hle, hreach.2⟩
          rw [← hsame] at hreach
          exact absurd hreach.1 (Nat.not_le.mpr hrange)
      dsimp only at hcall
      rw [heq] at hcall
      cases hcall
      cases hsegs
      have hspec := cut_spec hlaid (fun p hp => Nat.lt_add_right _ (hgap p hp)) (Nat.le_of_lt hlt)
        (.inr ⟨hmax, hlt⟩)
      have hstop := hspec.stop
      have hle := Nat.le_trans hspec.le (Nat.min_le_left _ _)
      refine ⟨?_, hspec.counts, by omega, rfl, ?_⟩
      · obtain ⟨left, rfl⟩ := Nat.exists_eq_succ_of_ne_zero (Nat.ne_of_gt hmax)
        cases l with
        | nil =>
            rw [cut, if_pos hlt]
            exact ⟨_, _, rfl, rfl⟩
        | cons q l =>
            rw [cut, if_pos hlt, if_pos (hgap q rfl)]
            exact ⟨_, _, rfl, rfl⟩
      · rw [fileBlock_eq hroot]
        obtain ⟨x, hx, hp⟩ := mem_extents.mp hp
        have hin : (start, p.2.block + (start - p.1)) ∈ t.mapping := by
          rw [Dtree.mapping, leavesMapping]
          refine List.mem_flatMap.mpr ⟨x, hx, List.mem_flatMap.mpr ⟨p, hp, ?_⟩⟩
          exact mem_indexBlocks.mpr ⟨start - p.1, by omega, by omega, rfl⟩
        rw [hgood.wellFormed.read_iff.mpr hin]
        exact Option.some_ne_none _

end

end

end Tux3.MapRegion
