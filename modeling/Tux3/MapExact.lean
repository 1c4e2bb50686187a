import Tux3.MapPack
import Tux3.MapSegs

/-!
# What `map_region` does

The leaf of the region is cut around it, and the pieces and the rest go behind what is left. A call
then maps what the segments say in the region, and what was mapped outside of it.
-/
namespace Tux3.MapRegion

open Btree Dleaf TreeChop

section
variable {blocksize n k m low next : ℕ} {t : Dtree} {gs : List Bunch} {a b : List (ℕ × ℕ)}
  {ps : List Piece} {cursor : Cursor} {leaves : List (ℕ × List ℕ)} {stock : List ℕ} {s : PackState}
  {ok : ℕ × Extent → Prop}

/-- The state behind the chop of the leaf. -/
theorem front_of_chop (h : t.GoodFor ok blocksize n)
    (hlist : t.leafList = b ++ (low, cursor.leaf) :: a)
    (hpath : OnPath t.node t.depth t.root cursor.path cursor.leaf)
    (hleaf : t.leaf cursor.leaf = pack blocksize gs) (hfits : Fits blocksize gs) (hk : k ≤ size gs)
    {chopped : Leaf} {walk : Dwalk}
    (hchop : dwalkChop blocksize (pack blocksize gs) (spot gs k) = some (chopped, walk))
    (hlow : low ≤ next) (hends : ∀ q ∈ (pairsOf gs).take k, q.1 + q.2.count ≤ next)
    (hnodup : ((t.blocks ++ (leavesMapping t.leaf b ++ ((pairsOf gs).take k).flatMap indexBlocks ++
        leavesMapping t.leaf a).map Prod.snd) ++
      (ps.flatMap (fun p => extentBlocks p.pair) ++ (stock ++ leafStock leaves))).Nodup) :
    Front ok blocksize n a (leavesMapping t.leaf a) stock
      (leavesMapping t.leaf b ++ ((pairsOf gs).take k).flatMap indexBlocks) next ps
      ⟨t.setLeaf cursor.leaf chopped, cursor, walk, leaves⟩ := by
  have hmem : (low, cursor.leaf) ∈ t.leafList := by
    rw [hlist]
    exact List.mem_append_right b List.mem_cons_self
  obtain ⟨chopped', walk', hchop', hpairs, hsound, hat, -⟩ := chop_partition hfits hk
  rw [hchop] at hchop'
  cases hchop'
  have hspare : (pack blocksize gs).Spare := hleaf ▸ h.spare _ hmem
  have hsub : ∀ q ∈ chopped.pairs, q ∈ (t.leaf cursor.leaf).pairs := by
    rw [hpairs, hleaf, pack_pairs]
    exact fun q hq => List.mem_of_mem_take hq
  have hmapping : chopped.mapping = ((pairsOf gs).take k).flatMap indexBlocks := by
    rw [Leaf.mapping, hpairs]
  have hset := @setLeaf_mapping t blocksize n low cursor.leaf chopped a b h.wellFormed hlist
  rw [hmapping] at hset
  have hself : (t.setLeaf cursor.leaf chopped).leaf cursor.leaf = chopped :=
    Function.update_self _ _ _
  obtain ⟨hb, ha⟩ := h.wellFormed.others hlist
  have hother : ∀ l : List (ℕ × ℕ), (∀ x ∈ l, x.2 ≠ cursor.leaf) →
      leavesMapping (t.setLeaf cursor.leaf chopped).leaf l = leavesMapping t.leaf l :=
    fun l hl => leavesMapping_congr fun x hx => Function.update_of_ne (hl x hx) _ _
  have hordered : (pack blocksize gs).Ordered := hleaf ▸ h.wellFormed.ordered _ hmem
  refine ⟨h.setLeaf hlist hsound ?_ ?_ (chop_spare hfits hspare hk hchop) ?_ ?_ ?_,
    ⟨b, low, hlist, hlow, ?_⟩, hother a ha, ?_, ?_, .inl hpath, ?_⟩
  · have hapart := hordered.apart
    rw [pack_pairs] at hapart
    refine ordered_of_apart ?_ fun q hq => h.wellFormed.ordered _ hmem |>.counts q (hsub q hq)
    rw [hpairs]
    exact hapart.sublist (List.take_sublist _ _)
  · exact fun q hq => h.extents _ hmem q (hsub q hq)
  · exact fun q hq => h.wellFormed.above _ hmem q (hsub q hq)
  · intro q hq y hy
    have hbelow := h.wellFormed.below
    rw [hlist] at hbelow
    exact (List.pairwise_cons.mp (List.pairwise_append.mp hbelow).2.1).1 y hy q (hsub q hq)
  · rw [hset]
    exact (List.nodup_append.mp hnodup).1
  · rw [leavesMapping_append, hother b hb, leavesMapping_cons]
    dsimp only
    rw [hself, hmapping]
    simp only [leavesMapping, List.flatMap_nil, List.append_nil]
  · dsimp only
    rw [hself, hpairs]
    exact hends
  · dsimp only
    rw [hself]
    exact hat
  · rw [hset]
    exact hnodup

theorem Packable.next_le (h : Packable ok a next ps) (hne : ps ≠ []) {key : ℕ}
    (hkey : ∀ p ∈ ps, p.index + p.extent.count ≤ key) : next ≤ key := by
  obtain ⟨p, ps, rfl⟩ := List.exists_cons_of_ne_nil hne
  have hstart := h.start p List.mem_cons_self
  have hend := hkey p List.mem_cons_self
  omega

theorem drop_spot (hm : m < size gs) :
    (pairsOf gs).drop m = (dwalkIndex (pack blocksize gs) (spot gs m),
      (pack blocksize gs).extentAt (spot gs m).extent) :: (pairsOf gs).drop (m + 1) := by
  have hread := @spot_reads blocksize gs m hm
  have hlen : m < (pairsOf gs).length := pairsOf_length ▸ hm
  rw [List.getElem?_eq_getElem hlen, Option.some_inj] at hread
  rw [List.drop_eq_getElem_cons hlen, hread]

/-- The extents behind the region, as the contents of a leaf. -/
theorem tail_fitting (h : t.GoodFor ok blocksize n)
    (hlist : t.leafList = b ++ (low, cursor.leaf) :: a)
    (hleaf : t.leaf cursor.leaf = pack blocksize gs) (hfits : Fits blocksize gs) (hm : m < size gs)
    {tail : Leaf}
    (hcopy : dwalkCopy blocksize (pack blocksize gs) (spot gs m) (dleafInit blocksize) =
      some tail) :
    Fitting ok blocksize (dwalkIndex (pack blocksize gs) (spot gs m)) a tail ∧
      tail.pairs = (pairsOf gs).drop m := by
  have hmem : (low, cursor.leaf) ∈ t.leafList := by
    rw [hlist]
    exact List.mem_append_right b List.mem_cons_self
  obtain ⟨tail', hcopy', hpairs, hsound⟩ := copy_partition hfits (Nat.le_of_lt hm)
    (dleafInit_sound (Nat.le_trans (by omega) hfits.room)) rfl
  rw [hcopy] at hcopy'
  cases hcopy'
  have hsub : ∀ q ∈ tail.pairs, q ∈ (t.leaf cursor.leaf).pairs := by
    rw [hpairs, hleaf, pack_pairs]
    exact fun q hq => List.mem_of_mem_drop hq
  have hordered : (t.leaf cursor.leaf).Ordered := h.wellFormed.ordered _ hmem
  have hfirst := @drop_spot blocksize m gs hm
  have hapart : ((pairsOf gs).drop m).Pairwise fun p q => p.1 + p.2.count ≤ q.1 := by
    have hapart := hordered.apart
    rw [hleaf, pack_pairs] at hapart
    exact hapart.sublist (List.drop_sublist _ _)
  have hbelow : ∀ q ∈ tail.pairs, ∀ y ∈ a, q.1 + q.2.count ≤ y.1 := by
    have hbelow := h.wellFormed.below
    rw [hlist] at hbelow
    exact fun q hq y hy =>
      (List.pairwise_cons.mp (List.pairwise_append.mp hbelow).2.1).1 y hy q (hsub q hq)
  refine ⟨⟨hsound, ?_, fun q hq => h.extents _ hmem q (hsub q hq),
    copy_spare hfits (hleaf ▸ h.spare _ hmem) (Nat.le_of_lt hm) hcopy, fun y hy => ?_, ?_, hbelow⟩,
    hpairs⟩
  · refine ordered_of_apart ?_ fun q hq => hordered.counts q (hsub q hq)
    rw [hpairs]
    exact hapart
  · have hin : (dwalkIndex (pack blocksize gs) (spot gs m),
        (pack blocksize gs).extentAt (spot gs m).extent) ∈ tail.pairs := by
      rw [hpairs, hfirst]
      exact List.mem_cons_self
    have hle := hbelow _ hin y hy
    have hpos := (hordered.counts _ (hsub _ hin)).1
    dsimp only at hle hpos
    omega
  · rw [hpairs, hfirst]
    rw [hfirst] at hapart
    intro q hq
    rcases List.mem_cons.mp hq with rfl | hq
    · exact Nat.le_refl _
    · exact Nat.le_trans (Nat.le_add_right _ _) ((List.pairwise_cons.mp hapart).1 q hq)

/-- Pieces for the place of the extents `k` to `m` of the leaf of the cursor. -/
structure Repackable (ok : ℕ × Extent → Prop) (blocksize n : ℕ) (t : Dtree) (cursor : Cursor)
    (b a : List (ℕ × ℕ)) (low : ℕ) (gs : List Bunch) (k m next : ℕ) (ps : List Piece)
    (leaves : List (ℕ × List ℕ)) : Prop where
  leafList : t.leafList = b ++ (low, cursor.leaf) :: a
  path : OnPath t.node t.depth t.root cursor.path cursor.leaf
  leaf_eq : t.leaf cursor.leaf = pack blocksize gs
  fits : Fits blocksize gs
  k_le : k ≤ m
  m_le : m ≤ size gs
  nonempty : ps ≠ []
  short : (n + 1) / 2 + ps.length / 15 + 2 ≤ n
  packable : Packable ok a next ps
  low_le : low ≤ next
  ends : ∀ q ∈ (pairsOf gs).take k, q.1 + q.2.count ≤ next
  behind : ∀ p ∈ ps, ∀ q ∈ (pairsOf gs).drop m, p.index + p.extent.count ≤ q.1
  keys : ∀ p ∈ ps.tail, p.key = p.index
  first : (∀ p ∈ ps.head?, p.key = p.index) ∨ k < size gs
  nodup : ((t.blocks ++ (leavesMapping t.leaf b ++ ((pairsOf gs).take k).flatMap indexBlocks ++
      leavesMapping t.leaf a).map Prod.snd) ++
    (ps.flatMap (fun p => extentBlocks p.pair) ++
      ((((pairsOf gs).drop m).flatMap indexBlocks).map Prod.snd ++ leafStock leaves))).Nodup

section
variable {r : Packed} (hr : Repackable ok blocksize n t cursor b a low gs k m next ps leaves)
  (h : t.GoodFor ok blocksize n)
include hr h

/-- The chop, the rounds and the tail: the rounds start at a front, and the tail comes after
them. -/
theorem Repackable.split
    (hrun : repack blocksize n ps (spot gs m) (spot gs k) leaves t cursor = some r) :
    ∃ tail s₀,
      dwalkCopy blocksize (pack blocksize gs) (spot gs m) (dleafInit blocksize) = some tail ∧
      s₀.tree.leafList = t.leafList ∧
      Front ok blocksize n a (leavesMapping t.leaf a)
        ((((pairsOf gs).drop m).flatMap indexBlocks).map Prod.snd)
        (leavesMapping t.leaf b ++ ((pairsOf gs).take k).flatMap indexBlocks) next ps s₀ ∧
      (∀ p ∈ ps.head?, p.key = p.index ∨
        DLEAF_MAX_EXTENT_SIZE ≤ dleafFree (s₀.tree.leaf s₀.cursor.leaf)) ∧
      ((∃ s₁, packAll blocksize n ps s₀ = some (.done s₁) ∧
          (if m = size gs then some (.done s₁)
            else packTail blocksize n (dwalkIndex (pack blocksize gs) (spot gs m)) tail s₁) =
              some r) ∨
        packAll blocksize n ps s₀ = some r ∧ ∀ s₁, r ≠ .done s₁) := by
  unfold repack at hrun
  dsimp only at hrun
  rw [hr.leaf_eq] at hrun
  split at hrun
  · next tail chopped walk hcopy hchop =>
      have hfront := front_of_chop h hr.leafList hr.path hr.leaf_eq hr.fits
        (Nat.le_trans hr.k_le hr.m_le) hchop hr.low_le hr.ends hr.nodup
      have hmem : (low, cursor.leaf) ∈ t.leafList := by
        rw [hr.leafList]
        exact List.mem_append_right b List.mem_cons_self
      have hspare : (pack blocksize gs).Spare := hr.leaf_eq ▸ h.spare _ hmem
      refine ⟨tail, _, hcopy, rfl, hfront, ?_, ?_⟩
      · -- the part below the region is packed into the leaf that it was cut from
        intro p hp
        rcases hr.first with hkey | hlt
        · exact .inl (hkey p hp)
        · refine .inr ?_
          rw [show (t.setLeaf cursor.leaf chopped).leaf cursor.leaf = chopped from
            Function.update_self _ _ _]
          exact chop_room hr.fits hspare hlt hchop
      · split at hrun
        · next s₁ hpacked =>
            refine .inl ⟨s₁, hpacked, ?_⟩
            rw [spot_end hr.m_le hr.fits.good] at hrun
            simpa only [decide_eq_true_eq] using hrun
        · next hother => exact .inr ⟨hrun, fun s₁ hdone => hother s₁ (hdone ▸ hrun)⟩
  · cases hrun

theorem Repackable.tail_fits (hlt : m < size gs) {tail : Leaf}
    (hcopy : dwalkCopy blocksize (pack blocksize gs) (spot gs m) (dleafInit blocksize) =
      some tail) :
    Fitting ok blocksize (dwalkIndex (pack blocksize gs) (spot gs m)) a tail ∧
      tail.pairs = (pairsOf gs).drop m ∧
      tail.mapping = ((pairsOf gs).drop m).flatMap indexBlocks ∧
      next ≤ dwalkIndex (pack blocksize gs) (spot gs m) ∧
      ∀ p ∈ ps, p.index + p.extent.count ≤ dwalkIndex (pack blocksize gs) (spot gs m) := by
  obtain ⟨hfit, hpairs⟩ := tail_fitting h hr.leafList hr.leaf_eq hr.fits hlt hcopy
  have hends : ∀ p ∈ ps, p.index + p.extent.count ≤
      dwalkIndex (pack blocksize gs) (spot gs m) := fun p hp =>
    hr.behind p hp _ (@drop_spot blocksize m gs hlt ▸ List.mem_cons_self)
  refine ⟨hfit, hpairs, ?_, hr.packable.next_le hr.nonempty hends, hends⟩
  rw [Leaf.mapping, hpairs]

/-- The packing in the leaf of the region: what it maps and every leaf behind it stay. -/
theorem repack_mapping (hn : 15 ≤ n) (hblocksize : 256 ≤ blocksize) (hfour : 4 ∣ blocksize)
    (hrun : repack blocksize n ps (spot gs m) (spot gs k) leaves t cursor = some (.done s)) :
    s.tree.GoodFor ok blocksize n ∧
      s.tree.mapping = leavesMapping t.leaf b ++ ((pairsOf gs).take k).flatMap indexBlocks ++
        (ps.flatMap fun p => indexBlocks p.pair) ++ ((pairsOf gs).drop m).flatMap indexBlocks ++
        leavesMapping t.leaf a := by
  obtain ⟨tail, s₀, hcopy, -, hfront, hstart, hcase⟩ := hr.split h hrun
  rcases hcase with ⟨s₁, hpacked, hrun⟩ | ⟨-, hother⟩
  · obtain ⟨next', hfront', hne', hle⟩ := hfront.rounds hn hblocksize hr.packable hr.short hstart
      hr.keys hpacked
    split at hrun
    · next heq =>
        cases hrun
        obtain ⟨b', low', hlist', -, hdone⟩ := hfront'.place
        refine ⟨hfront'.good, ?_⟩
        rw [Dtree.mapping, hlist', List.append_cons, leavesMapping_append, hdone, hfront'.rest,
          List.drop_of_length_le (Nat.le_of_eq (pairsOf_length.trans heq.symm)), List.flatMap_nil,
          List.append_nil]
    · next hlt =>
        obtain ⟨hfit, -, hmapping, hnext, hends⟩ :=
          hr.tail_fits h (Nat.lt_of_le_of_ne hr.m_le hlt) hcopy
        have hdone := hfront'.tail hn hfour hfit (hle _ hnext hends) (hne' hr.nonempty) (r := [])
          (by rw [hmapping, List.append_nil]) hrun
        rw [hmapping] at hdone
        exact hdone
  · exact absurd rfl (hother s)

end

end

end Tux3.MapRegion
