import Tux3.Accounting

/-!
# What the search finds

`balloc_from_range` and `balloc` against the runs of clear bits that there are: when the search is
exact, when `balloc` misses a run, and when `bfree` gets to the bits that `balloc` set.
-/
namespace Tux3.Balloc

/-- A clear run in a range, inside one block of the bitmap. -/
structure Sb.Inside (sb : Sb) (start count blocks f : ℕ) : Prop where
  low : start ≤ f
  high : f + blocks ≤ start + count
  fits : sb.Fits blocks f

/-- The range is inside the bitmap: the blocks of the bitmap file for it can be read. -/
def Sb.Mapped (sb : Sb) (start count : ℕ) : Prop :=
  ∀ m, start / sb.mapsize ≤ m → m * sb.mapsize < start + count → sb.readable m = true

/-- The run at `f` is taken, and nothing else changes. -/
structure Sb.Takes (sb : Sb) (blocks f : ℕ) (sb' : Sb) : Prop where
  bits : ∀ b, sb'.bit b = (sb.bit b || decide (f ≤ b ∧ b < f + blocks))
  behind : ∀ m p, sb.blocksize ≤ p → sb'.bitmap m p = sb.bitmap m p
  nextalloc : sb'.nextalloc = f + blocks
  freeblocks : sb'.freeblocks = sb.freeblocks - blocks
  same : sb'.blockbits = sb.blockbits ∧ sb'.volblocks = sb.volblocks ∧ sb'.readable = sb.readable

/-- The least run of the range is taken, or there is none and nothing changes. -/
def Sb.ExactFit (sb : Sb) (start count blocks : ℕ) (r : Option (ℤ × Sb)) : Prop :=
  (∃ (f : ℕ) (sb' : Sb), sb.Inside start count blocks f ∧
    (∀ g < f, ¬ sb.Inside start count blocks g) ∧ r = some ((f : ℤ), sb') ∧ sb.Takes blocks f sb') ∨
  ((∀ f, ¬ sb.Inside start count blocks f) ∧ r = some (-1, sb))

/-- Behind the bytes that the search looks at. -/
def Sb.searchEnd (sb : Sb) (start count : ℕ) : ℕ :=
  8 * (sb.cut start / 8 + searchTail start count)

/-- There is a run in the bytes that the search looks at, and it ends in the range, or behind block
`2 ^ 32`: the number of its last block is cut and compares as if it were in the range. -/
def Sb.Finds (sb : Sb) (start count blocks : ℕ) : Prop :=
  sb.Sees start count ∧
    ∃ f, sb.Reach blocks (sb.cut start) (sb.searchEnd start count) f ∧
      (f + blocks ≤ start + count ∨ 2 ^ 32 < f + blocks)

/-- The number that is returned for the block `f`. -/
def Sb.number (sb : Sb) (f : ℕ) : ℕ := f % sb.mapsize + u32 (f / sb.mapsize * sb.mapsize)

/-- A volume of free blocks of 256 bytes. -/
def clearVolume (volblocks nextalloc : ℕ) : Sb where
  blockbits := 8
  volblocks := volblocks
  freeblocks := volblocks
  nextalloc := nextalloc
  bitmap := fun _ _ => 0
  readable := fun _ => true

theorem clearVolume_fits {volblocks nextalloc blocks f : ℕ} (h : f % 2048 + blocks ≤ 2048) :
    (clearVolume volblocks nextalloc).Fits blocks f := by
  have hms : (clearVolume volblocks nextalloc).mapsize = 2048 := by
    change 2 ^ 11 = 2048
    decide
  refine ⟨by rw [hms]; exact h, fun b _ _ => ?_⟩
  rw [Sb.bit, bitAt]
  exact BitVec.getLsbD_zero

section
variable {sb : Sb} {start count blocks f : ℕ}

theorem mapsize_le (hbits : sb.blockbits ≤ 27) : sb.mapsize ≤ 2 ^ 30 :=
  Nat.pow_le_pow_right (by omega) (by omega)

theorem mapsize_dvd (hbits : sb.blockbits ≤ 27) : sb.mapsize ∣ 2 ^ 32 :=
  Nat.pow_dvd_pow 2 (by omega)

theorem number_of_lt (h : f < 2 ^ 32) : sb.number f = f := by
  have hle := Nat.div_mul_le_self f sb.mapsize
  rw [Sb.number, u32_of_lt (by omega), Nat.mul_comm, Nat.mod_add_div]

/-- A run in one block of the bitmap does not lie on both sides of `2 ^ 32`. -/
theorem fits_below (hdvd : sb.mapsize ∣ 2 ^ 32) (hfit : sb.Fits blocks f) (h : f < 2 ^ 32) :
    f + blocks ≤ 2 ^ 32 := by
  obtain ⟨d, hd⟩ := hdvd
  have hdm := Nat.div_add_mod f sb.mapsize
  have hlt : f / sb.mapsize < d := by
    rw [Nat.div_lt_iff_lt_mul sb.mapsize_pos, Nat.mul_comm, ← hd]
    exact h
  have hmul := Nat.mul_le_mul_left sb.mapsize hlt
  have hone := hfit.oneBlock
  rw [Nat.mul_succ] at hmul
  omega

theorem searchEnd_le (start count : ℕ) :
    sb.searchEnd start count ≤ 8 * ((start + count + 7) / 8) := by
  have hcut := @cut_le sb start
  have htail := u32_le (count + start % 8 + 7)
  have hdiv : searchTail start count ≤ (count + start % 8 + 7) / 8 := Nat.div_le_div_right htail
  unfold Sb.searchEnd
  omega

theorem searchEnd_eq (hstart : start / sb.mapsize < 2 ^ 32) (hwrap : count + start % 8 + 7 < 2 ^ 32) :
    sb.searchEnd start count = 8 * ((start + count + 7) / 8) := by
  rw [Sb.searchEnd, cut_of_lt hstart, searchTail, u32_of_lt hwrap]
  omega

theorem last_mapblock {limit : ℕ} (hb : 0 < blocks) (hfit : sb.Fits blocks f)
    (hlimit : limit < f + blocks) (hend : f + blocks ≤ 8 * ((limit + 7) / 8))
    (h32 : limit < 2 ^ 32) :
    f / sb.mapsize = u32 ((limit + (sb.mapsize - 1)) / sb.mapsize) - 1 := by
  have hpos := sb.mapsize_pos
  have h8 := sb.mapsize_eq
  have hbpos := sb.blocksize_pos
  have hdm := Nat.div_add_mod f sb.mapsize
  have hone := hfit.oneBlock
  have hlow : sb.mapsize * (f / sb.mapsize) < limit := by
    have hmul : sb.mapsize * (f / sb.mapsize) = 8 * (sb.blocksize * (f / sb.mapsize)) := by
      rw [h8, Nat.mul_assoc]
    omega
  have hdiv : (limit + (sb.mapsize - 1)) / sb.mapsize = f / sb.mapsize + 1 := by
    rw [Nat.div_eq_iff hpos, Nat.add_mul, Nat.mul_comm (f / sb.mapsize)]
    omega
  have hle : f / sb.mapsize ≤ sb.mapsize * (f / sb.mapsize) := Nat.le_mul_of_pos_left _ hpos
  rw [hdiv, u32_of_lt (by omega)]
  rfl

/-- What `balloc_from_range` does: it takes the least run that it sees, or nothing. -/
theorem search_spec (hbits : sb.blockbits ≤ 27) (hb : 0 < blocks) (start : ℕ)
    (hcount : count < 2 ^ 32) :
    (∃ f, sb.Reach blocks (sb.cut start) (sb.searchEnd start count) f ∧
      (∀ g < f, ¬ sb.Reach blocks (sb.cut start) (sb.searchEnd start count) g) ∧
      (f + blocks ≤ start + count ∨ 2 ^ 32 < f + blocks) ∧ sb.Finds start count blocks ∧
      ballocFromRange sb start count blocks = some ((sb.number f : ℤ), sb.taken blocks f)) ∨
    (¬ sb.Finds start count blocks ∧ ballocFromRange sb start count blocks = some (-1, sb)) := by
  have hdvd := mapsize_dvd hbits
  obtain ⟨hfirst, hblind⟩ := ballocFromRange_search (mapsize_le hbits) hb start hcount
  have hend := @searchEnd_le sb start count
  by_cases hsees : sb.Sees start count
  case neg => exact Or.inr ⟨fun h => hsees h.1, hblind hsees⟩
  rcases hfirst hsees with ⟨f, hf, hleast, htake⟩ | ⟨hnone, hr⟩
  case inr => exact Or.inr ⟨fun ⟨_, f, hf, _⟩ => hnone f hf, hr⟩
  have hhigh : f + blocks ≤ sb.searchEnd start count := hf.high
  rw [take_eq hdvd] at htake
  by_cases hf32 : f < 2 ^ 32
  · have hbelow := fits_below hdvd hf.fits hf32
    have hlast := @lastFound_eq sb blocks f hb hf32
    by_cases hlim : start + count ≤ sb.lastFound blocks f
    · -- the run ends in the partial byte behind the range
      have hblock := last_mapblock hb hf.fits (by omega : start + count < f + blocks)
        (Nat.le_trans hhigh hend) (by omega)
      rw [if_pos hlim, if_pos hblock] at htake
      refine Or.inr ⟨fun ⟨_, g, hg, hin⟩ => ?_, htake⟩
      have hghigh : g + blocks ≤ sb.searchEnd start count := hg.high
      have hfg : f ≤ g := Nat.le_of_not_lt fun hlt => hleast g hlt hg
      omega
    · rw [if_neg hlim] at htake
      have hin : f + blocks ≤ start + count ∨ 2 ^ 32 < f + blocks := Or.inl (by omega)
      exact Or.inl ⟨f, hf, hleast, hin, ⟨hsees, f, hf, hin⟩, htake⟩
  · have hlast := lastFound_lt hdvd hb hf.fits
    rw [if_neg (by omega)] at htake
    have hin : f + blocks ≤ start + count ∨ 2 ^ 32 < f + blocks := Or.inr (by omega)
    exact Or.inl ⟨f, hf, hleast, hin, ⟨hsees, f, hf, hin⟩, htake⟩

/-- A run of blocks below `2 ^ 32` is taken with its own number. -/
theorem taken_takes (hbits : sb.blockbits ≤ 27) (hfit : sb.Fits blocks f) (h32 : f < 2 ^ 32) :
    sb.Takes blocks f (sb.taken blocks f) := by
  have hms := mapsize_le hbits
  have hone := hfit.oneBlock
  refine ⟨fun b => ?_, fun m p hp => ?_, ?_, rfl, rfl, rfl, rfl⟩
  · have hbit := bit_setBits (f / sb.mapsize) hone hms b
    rw [Nat.mul_comm, Nat.div_add_mod] at hbit
    exact hbit
  · change Function.update sb.bitmap _ _ m p = _
    by_cases hm : m = f / sb.mapsize
    · rw [hm, Function.update_self]
      refine byte_ext fun j hj => ?_
      have h8 := sb.mapsize_eq
      have hset := @bitAt_setBits (sb.bitmap (f / sb.mapsize)) (f % sb.mapsize) blocks (by omega)
        (8 * p + j)
      rw [decide_eq_false (by omega), Bool.or_false, bitAt, bitAt,
        show (8 * p + j) / 8 = p by omega, show (8 * p + j) % 8 = j by omega] at hset
      exact hset
    · rw [Function.update_of_ne hm]
  · change sb.number f + blocks = _
    rw [number_of_lt h32]

/-! ## First fit -/

/-- The search is an exact first fit unless the number of bits, with the padding to whole bytes,
wraps: then it finds nothing. -/
theorem ballocFromRange_exact_iff (hbits : sb.blockbits ≤ 27) (hb : 0 < blocks)
    (hcount : count < 2 ^ 32) (hlimit : start + count ≤ 2 ^ 32) (hmap : sb.Mapped start count) :
    sb.ExactFit start count blocks (ballocFromRange sb start count blocks) ↔
      count + start % 8 + 7 < 2 ^ 32 ∨ ∀ f, ¬ sb.Inside start count blocks f := by
  have h8 := sb.mapsize_eq
  have hbpos := sb.blocksize_pos
  have hstart : start / sb.mapsize < 2 ^ 32 := by
    rw [Nat.div_lt_iff_lt_mul sb.mapsize_pos]
    omega
  have hend := @searchEnd_le sb start count
  have hcut := cut_of_lt hstart
  -- what the search sees below the end of the range is a run of the range
  have hinside : ∀ f, sb.Reach blocks (sb.cut start) (sb.searchEnd start count) f →
      (f + blocks ≤ start + count ∨ 2 ^ 32 < f + blocks) → sb.Inside start count blocks f := by
    intro f hf hin
    have hhigh := hf.high
    exact ⟨hcut ▸ hf.low, by omega, hf.fits⟩
  rcases search_spec hbits hb start hcount with ⟨f, hf, hleast, hin, -, hr⟩ | ⟨hfinds, hr⟩
  · by_cases hwrap : count + start % 8 + 7 < 2 ^ 32
    · have hrun := hinside f hf hin
      have hhigh := hrun.high
      refine iff_of_true (Or.inl ⟨f, _, hrun, fun g hg hg' => hleast g hg ?_, ?_,
        taken_takes hbits hf.fits (by omega)⟩) (Or.inl hwrap)
      · have hghigh := hg'.high
        refine ⟨Nat.le_trans (Nat.le_of_eq hcut) hg'.low, ?_, hg'.fits,
          fun m hm hm' => hf.readable m hm ?_⟩
        · rw [searchEnd_eq hstart hwrap]
          omega
        · exact Nat.le_trans hm' (Nat.div_le_div_right (Nat.le_of_lt hg))
      · rw [hr, number_of_lt (by omega)]
    · -- the wrapped number of bits is below one byte
      have htail : searchTail start count = 0 := by
        rw [searchTail]
        unfold u32
        omega
      have hlow := hf.low
      have hhigh := hf.high
      rw [Sb.searchEnd, htail, Nat.add_zero] at hhigh
      omega
  · constructor
    · rintro (⟨f, sb', -, -, hf, -⟩ | ⟨hnone, -⟩)
      · rw [hr, Option.some_inj, Prod.mk.injEq] at hf
        omega
      · exact Or.inr hnone
    · intro h
      refine Or.inr ⟨fun f hf => ?_, hr⟩
      rcases h with hwrap | hnone
      · have hhigh := hf.high
        refine hfinds ⟨?_, f, ⟨Nat.le_trans (Nat.le_of_eq hcut) hf.low, ?_, hf.fits,
          fun m hm hm' => hmap m ?_ ?_⟩,
          Or.inl hhigh⟩
        · have hlt : (start + count + (sb.mapsize - 1)) / sb.mapsize < 2 ^ 32 := by
            rw [Nat.div_lt_iff_lt_mul sb.mapsize_pos]
            omega
          rw [Sb.Sees, u32_of_lt hstart, u32_of_lt hlt]
          exact Nat.div_le_div_right (by omega)
        · rw [searchEnd_eq hstart hwrap]
          omega
        · rw [hcut] at hm
          exact hm
        · have hle := Nat.div_mul_le_self f sb.mapsize
          have hmul := Nat.mul_le_mul_right sb.mapsize hm'
          omega
      · exact hnone f hf

/-- One bit less than `2 ^ 32`, all clear: the padding to whole bytes wraps, and no byte is looked
at. -/
theorem ballocFromRange_wraps :
    (clearVolume (2 ^ 32 - 1) 0).blockbits ≤ 27 ∧ 0 + (2 ^ 32 - 1) ≤ 2 ^ 32 ∧
      (clearVolume (2 ^ 32 - 1) 0).Mapped 0 (2 ^ 32 - 1) ∧
      ¬ (clearVolume (2 ^ 32 - 1) 0).ExactFit 0 (2 ^ 32 - 1) 1
        (ballocFromRange (clearVolume (2 ^ 32 - 1) 0) 0 (2 ^ 32 - 1) 1) := by
  have hnothing : ballocFromRange (clearVolume (2 ^ 32 - 1) 0) 0 (2 ^ 32 - 1) 1 =
      some (-1, clearVolume (2 ^ 32 - 1) 0) := by
    rw [ballocFromRange, if_neg (by decide)]
    exact searchMap_no_tail _ _ _ _
  refine ⟨by decide, by decide, fun _ _ _ => rfl, ?_⟩
  rw [hnothing]
  rintro (⟨f, sb', -, -, hf, -⟩ | ⟨hnone, -⟩)
  · have heq := (Prod.mk.inj (Option.some.inj hf)).1
    omega
  · exact hnone 0 ⟨Nat.le_refl 0, by decide, clearVolume_fits (by decide)⟩

theorem ballocFromRange_exact_clear :
    (clearVolume 16 0).ExactFit 3 9 4 (ballocFromRange (clearVolume 16 0) 3 9 4) :=
  (ballocFromRange_exact_iff (by decide) (by decide) (by decide) (by decide)
    fun _ _ _ => rfl).mpr (Or.inl (by decide))

/-! ## No space -/

theorem remaining_lt : sb.remaining < 2 ^ 32 := by
  unfold Sb.remaining
  omega

/-- The two searches of `balloc`. -/
theorem balloc_spec (hbits : sb.blockbits ≤ 27) (hb : 0 < blocks) :
    (∃ f, sb.Finds sb.nextalloc sb.remaining blocks ∧
      sb.Reach blocks (sb.cut sb.nextalloc) (sb.searchEnd sb.nextalloc sb.remaining) f ∧
      (∀ g < f, ¬ sb.Reach blocks (sb.cut sb.nextalloc)
        (sb.searchEnd sb.nextalloc sb.remaining) g) ∧
      balloc sb blocks = some (0, (sb.number f : ℤ), sb.taken blocks f)) ∨
    (∃ f, ¬ sb.Finds sb.nextalloc sb.remaining blocks ∧ sb.Finds 0 (u32 sb.nextalloc) blocks ∧
      sb.Reach blocks (sb.cut 0) (sb.searchEnd 0 (u32 sb.nextalloc)) f ∧
      balloc sb blocks = some (0, (sb.number f : ℤ), sb.taken blocks f)) ∨
    (¬ sb.Finds sb.nextalloc sb.remaining blocks ∧ ¬ sb.Finds 0 (u32 sb.nextalloc) blocks ∧
      balloc sb blocks = some (-enospc, -1, sb)) := by
  have hneg : ¬ (0 : ℤ) ≤ -1 := by decide
  rw [balloc_eq hb]
  rcases search_spec hbits hb sb.nextalloc remaining_lt with ⟨f, hf, hleast, -, hfinds, hr⟩ |
    ⟨hno, hr⟩
  · rw [hr, Option.bind_some, if_pos (Int.natCast_nonneg _)]
    exact Or.inl ⟨f, hfinds, hf, hleast, rfl⟩
  · rw [hr, Option.bind_some, if_neg hneg]
    dsimp only
    rcases search_spec hbits hb 0 (u32_lt sb.nextalloc) with ⟨f, hf, -, -, hfinds, hr₂⟩ |
      ⟨hno₂, hr₂⟩
    · rw [hr₂, Option.bind_some, if_pos (Int.natCast_nonneg _)]
      exact Or.inr (Or.inl ⟨f, hno, hfinds, hf, rfl⟩)
    · rw [hr₂, Option.bind_some, if_neg hneg]
      exact Or.inr (Or.inr ⟨hno, hno₂, rfl⟩)

/-- `balloc` reports no space only when there is none, exactly when some run of the volume, if there
is one, can be found by one of the two searches. -/
theorem balloc_noSpace_iff (hbits : sb.blockbits ≤ 27) (hb : 0 < blocks) :
    (∀ block sb', balloc sb blocks = some (-enospc, block, sb') →
      ∀ f, ¬ sb.Inside 0 sb.volblocks blocks f) ↔
    ((∃ f, sb.Inside 0 sb.volblocks blocks f) →
      sb.Finds sb.nextalloc sb.remaining blocks ∨ sb.Finds 0 (u32 sb.nextalloc) blocks) := by
  have hne : ∀ {block : ℤ} {sb₁ sb₂ : Sb} {n : ℤ},
      (some (0, n, sb₁) : Option (ℤ × ℤ × Sb)) ≠ some (-enospc, block, sb₂) := by
    intro block sb₁ sb₂ n heq
    have hzero := (Prod.mk.inj (Option.some.inj heq)).1
    cases hzero
  rcases balloc_spec hbits hb with ⟨f, hfinds, -, -, hr⟩ | ⟨f, -, hfinds, -, hr⟩ | ⟨hno, hno₂, hr⟩
  · rw [hr]
    exact iff_of_true (fun block sb' h => absurd h hne) fun _ => Or.inl hfinds
  · rw [hr]
    exact iff_of_true (fun block sb' h => absurd h hne) fun _ => Or.inr hfinds
  · constructor
    · rintro h ⟨f, hf⟩
      exact absurd hf (h _ _ hr f)
    · intro h block sb' _ f hf
      rcases h ⟨f, hf⟩ with hfinds | hfinds
      · exact hno hfinds
      · exact hno₂ hfinds

/-- Sixteen free blocks with the goal at block 1: the only run of sixteen blocks goes over it. -/
theorem balloc_misses :
    (clearVolume 16 1).blockbits ≤ 27 ∧ (clearVolume 16 1).nextalloc ≤ 16 ∧
      balloc (clearVolume 16 1) 16 = some (-enospc, -1, clearVolume 16 1) ∧
      (clearVolume 16 1).Inside 0 16 16 0 :=
  ⟨by decide, by decide, rfl, Nat.le_refl 0, by decide, clearVolume_fits (by decide)⟩

/-- A volume of sixteen blocks that were all allocated has no space. -/
theorem balloc_noSpace_full : ∃ sb, balloc (clearVolume 16 0) 16 = some (0, 0, sb) ∧
    balloc sb 1 = some (-enospc, -1, sb) ∧ ∀ f, ¬ sb.Inside 0 sb.volblocks 1 f := by
  obtain ⟨sb, hballoc, hbits, hfull, hvol, hagain⟩ : ∃ sb,
      balloc (clearVolume 16 0) 16 = some (0, 0, sb) ∧ sb.blockbits ≤ 27 ∧
        (∀ f < 16, sb.bit f = true) ∧ sb.volblocks = 16 ∧ balloc sb 1 = some (-enospc, -1, sb) :=
    ⟨_, rfl, by decide, by decide, rfl, rfl⟩
  refine ⟨sb, hballoc, hagain, (balloc_noSpace_iff hbits Nat.one_pos).mpr ?_ _ _ hagain⟩
  rintro ⟨f, hf⟩
  have hclear := hf.fits.clear f (Nat.le_refl f) (Nat.lt_succ_self f)
  have hhigh := hf.high
  rw [hfull f (by omega)] at hclear
  cases hclear

/-! ## Freeing what was allocated -/

/-- The bits that `bfree` looks at. -/
def Sb.Addressed (sb : Sb) (block blocks b : ℕ) : Prop :=
  b / sb.mapsize = u32 (block / sb.mapsize) ∧ block % sb.mapsize ≤ b % sb.mapsize ∧
    b % sb.mapsize < block % sb.mapsize + blocks

/-- The bits that changed are those that `bfree` addresses, and it restores them and the count. -/
structure Sb.Undone (sb sb' : Sb) (block blocks : ℕ) : Prop where
  addressed : ∀ b, sb'.bit b ≠ sb.bit b ↔ sb.Addressed block blocks b
  freed : ∃ sb'', bfree sb' block blocks = some (0, sb'') ∧ sb''.bitmap = sb.bitmap ∧
    sb''.freeblocks = sb.freeblocks

theorem taken_bit (hbits : sb.blockbits ≤ 27) (hfit : sb.Fits blocks f) (b : ℕ) :
    (sb.taken blocks f).bit b ≠ sb.bit b ↔ f ≤ b ∧ b < f + blocks := by
  have hbit := bit_setBits (f / sb.mapsize) hfit.oneBlock (mapsize_le hbits) b
  rw [Nat.mul_comm, Nat.div_add_mod] at hbit
  change (sb.taken blocks f).bit b = _ at hbit
  rw [hbit]
  by_cases hin : f ≤ b ∧ b < f + blocks
  · rw [decide_eq_true hin, Bool.or_true, hfit.clear b hin.1 hin.2]
    exact iff_of_true Bool.noConfusion hin
  · rw [decide_eq_false hin, Bool.or_false]
    exact iff_of_false (fun h => h rfl) hin

theorem clear_set {bitmap : Bytes} {start count : ℕ} (h : start + count < 2 ^ 32)
    (hclear : ∀ i, start ≤ i → i < start + count → bitAt bitmap i = false) :
    clearBits (setBits bitmap start count) start count = bitmap := by
  funext p
  refine byte_ext fun j hj => ?_
  have hbit : bitAt (clearBits (setBits bitmap start count) start count) (8 * p + j) =
      bitAt bitmap (8 * p + j) := by
    rw [bitAt_clearBits h, bitAt_setBits h]
    by_cases hin : start ≤ 8 * p + j ∧ 8 * p + j < start + count
    · rw [decide_eq_true hin, Bool.not_true, Bool.and_false, hclear _ hin.1 hin.2]
    · rw [decide_eq_false hin, Bool.not_false, Bool.and_true, Bool.or_false]
  rwa [bitAt, bitAt, show (8 * p + j) / 8 = p by omega, show (8 * p + j) % 8 = j by omega] at hbit

/-- A run below `2 ^ 32` is freed again. -/
theorem taken_undone (hbits : sb.blockbits ≤ 27) (hb : 0 < blocks) (hfit : sb.Fits blocks f)
    (hread : sb.readable (f / sb.mapsize) = true) (h32 : f < 2 ^ 32) :
    sb.Undone (sb.taken blocks f) f blocks := by
  have hone := hfit.oneBlock
  have hms := mapsize_le hbits
  have hdiv : u32 (f / sb.mapsize) = f / sb.mapsize :=
    u32_of_lt (Nat.lt_of_le_of_lt (Nat.div_le_self _ _) h32)
  constructor
  · intro b
    rw [taken_bit hbits hfit, Sb.Addressed, hdiv, in_block hone, Nat.mul_comm, Nat.div_add_mod]
  · have hset : (sb.taken blocks f).bitmap (f / sb.mapsize) =
        setBits (sb.bitmap (f / sb.mapsize)) (f % sb.mapsize) blocks := Function.update_self _ _ _
    have hclear : ∀ i, f % sb.mapsize ≤ i → i < f % sb.mapsize + blocks →
        bitAt (sb.bitmap (f / sb.mapsize)) i = false := by
      intro i h1 h2
      rw [← sb.bit_block _ (by omega : i < sb.mapsize)]
      have hdm := Nat.div_add_mod f sb.mapsize
      rw [Nat.mul_comm] at hdm
      exact hfit.clear _ (by omega) (by omega)
    have hall : allSet ((sb.taken blocks f).bitmap (f / sb.mapsize)) (f % sb.mapsize) blocks =
        true := by
      rw [hset, allSet_iff (by omega)]
      intro i h1 h2
      rw [bitAt_setBits (by omega), decide_eq_true ⟨h1, h2⟩, Bool.or_true]
    have hfrees : Frees (sb.taken blocks f) f blocks := by
      constructor
      · change sb.readable (u32 (f / sb.mapsize)) = true
        rw [hdiv, hread]
      · change allSet ((sb.taken blocks f).bitmap (u32 (f / sb.mapsize))) (f % sb.mapsize)
          blocks = true
        rw [hdiv, hall]
    refine ⟨_, bfree_of_frees hb hfrees, ?_, ?_⟩
    · change Function.update (sb.taken blocks f).bitmap (u32 (f / sb.mapsize))
        (clearBits ((sb.taken blocks f).bitmap (u32 (f / sb.mapsize))) (f % sb.mapsize) blocks) = _
      rw [hdiv, hset, clear_set (by omega) hclear]
      change Function.update (Function.update sb.bitmap _ _) _ _ = sb.bitmap
      rw [Function.update_idem, Function.update_eq_self]
    · change sb.freeblocks - blocks + blocks = sb.freeblocks
      omega

/-- What `balloc` set is what `bfree` clears, exactly when the first search, if it finds a run, sees
one below block `2 ^ 32`. -/
theorem balloc_bfree_iff (hbits : sb.blockbits ≤ 27) (hb : 0 < blocks) :
    (∀ (block : ℤ) (sb' : Sb), balloc sb blocks = some (0, block, sb') →
      ∃ b : ℕ, block = b ∧ sb.Undone sb' b blocks) ↔
    (sb.Finds sb.nextalloc sb.remaining blocks →
      ∃ f < 2 ^ 32, sb.Reach blocks (sb.cut sb.nextalloc)
        (sb.searchEnd sb.nextalloc sb.remaining) f) := by
  have hread : ∀ {lo hi f : ℕ}, sb.Reach blocks lo hi f → sb.readable (f / sb.mapsize) = true :=
    fun h => h.readable _ (Nat.div_le_div_right h.low) (Nat.le_refl _)
  have hundone : ∀ {lo hi f : ℕ}, sb.Reach blocks lo hi f → f < 2 ^ 32 →
      balloc sb blocks = some (0, (sb.number f : ℤ), sb.taken blocks f) →
      ∀ (block : ℤ) (sb' : Sb), balloc sb blocks = some (0, block, sb') →
        ∃ b : ℕ, block = b ∧ sb.Undone sb' b blocks := by
    intro lo hi f hf h32 hr block sb' h
    rw [hr, Option.some_inj, Prod.mk.injEq, Prod.mk.injEq, number_of_lt h32] at h
    obtain ⟨-, rfl, rfl⟩ := h
    exact ⟨f, rfl, taken_undone hbits hb hf.fits (hread hf) h32⟩
  rcases balloc_spec hbits hb with ⟨f, hfinds, hf, hleast, hr⟩ | ⟨f, hno, -, hf, hr⟩ |
    ⟨hno, -, hr⟩
  · constructor
    · intro h _
      refine ⟨f, ?_, hf⟩
      -- the returned number is below `2 ^ 32`, and so are the bits that are freed
      obtain ⟨b, hnum, hundo⟩ := h _ _ hr
      have hpos := sb.mapsize_pos
      have hdm := Nat.div_add_mod f sb.mapsize
      have hset := (hundo.addressed f).mp
        ((taken_bit hbits hf.fits f).mpr ⟨Nat.le_refl f, Nat.lt_add_of_pos_right hb⟩)
      have hlast := lastFound_lt (mapsize_dvd hbits) hb hf.fits
      have hb32 : b < 2 ^ 32 := by
        have hnum' : sb.number f = b := by exact_mod_cast hnum
        rw [← hnum', Sb.number]
        unfold Sb.lastFound at hlast
        omega
      obtain ⟨d, hd⟩ := mapsize_dvd hbits
      have hblk := u32_le (b / sb.mapsize)
      have hlt : f / sb.mapsize < d := by
        have hbd : b / sb.mapsize < d := by
          rw [Nat.div_lt_iff_lt_mul hpos, Nat.mul_comm, ← hd]
          exact hb32
        have heq := hset.1
        omega
      rw [Nat.div_lt_iff_lt_mul hpos, Nat.mul_comm, ← hd] at hlt
      exact hlt
    · intro h
      obtain ⟨g, hg32, hg⟩ := h hfinds
      have hfg : f ≤ g := Nat.le_of_not_lt fun hlt => hleast g hlt hg
      exact hundone hf (by omega) hr
  · refine iff_of_true (hundone hf ?_ hr) fun h => absurd h hno
    have hend := @searchEnd_le sb 0 (u32 sb.nextalloc)
    have hlt := u32_lt sb.nextalloc
    have hhigh := hf.high
    omega
  · refine iff_of_true (fun block sb' h => ?_) fun h => absurd h hno
    rw [hr] at h
    cases h

/-- The block with number `2 ^ 32` is returned as block 0, which is free. -/
theorem balloc_cuts :
    (clearVolume (2 ^ 32 + 1) (2 ^ 32)).blockbits ≤ 27 ∧
      ¬ ∀ (block : ℤ) (sb' : Sb),
        balloc (clearVolume (2 ^ 32 + 1) (2 ^ 32)) 1 = some (0, block, sb') →
          ∃ b : ℕ, block = b ∧ (clearVolume (2 ^ 32 + 1) (2 ^ 32)).Undone sb' b 1 := by
  refine ⟨by decide, fun h => ?_⟩
  obtain ⟨b, hb, hundo⟩ := h 0 _ rfl
  obtain rfl : b = 0 := by omega
  -- `bfree` finds the bit of block 0 clear
  obtain ⟨sb'', hfree, -⟩ := hundo.freed
  cases hfree

theorem balloc_bfree_clear :
    (∀ (block : ℤ) (sb' : Sb), balloc (clearVolume 16 0) 3 = some (0, block, sb') →
      ∃ b : ℕ, block = b ∧ (clearVolume 16 0).Undone sb' b 3) ↔
    ((clearVolume 16 0).Finds 0 16 3 →
      ∃ f < 2 ^ 32, (clearVolume 16 0).Reach 3 ((clearVolume 16 0).cut 0)
        ((clearVolume 16 0).searchEnd 0 16) f) :=
  @balloc_bfree_iff (clearVolume 16 0) _ (by decide) (by decide)

end

end Tux3.Balloc
