import Tux3.Balloc

/-!
# The search of `balloc_from_range` is a first fit

The nested byte and bit loops are one scan over bit positions; the scan stops at
the end of the first run of `blocks` clear bits that lies inside one bitmap block.
-/
namespace Tux3.Balloc

/-! ## One scan over bit positions -/

section Scan
variable (bit : ℕ → Bool) (blocks : ℕ)

def scanFlat : List ℕ → ℕ → Scan
  | [], run => .run run
  | i :: is, run =>
      if bit i then scanFlat is 0
      else if run + 1 < blocks then scanFlat is (run + 1)
      else .hit (run + 1) i

def Scan.andThen (s : Scan) (f : ℕ → Scan) : Scan :=
  match s with
  | .run r => f r
  | .hit r at' => .hit r at'

theorem scanFlat_append (is js : List ℕ) (run : ℕ) :
    scanFlat bit blocks (is ++ js) run =
      (scanFlat bit blocks is run).andThen (scanFlat bit blocks js) := by
  induction is generalizing run with
  | nil => rfl
  | cons i is ih =>
      simp only [List.cons_append, scanFlat, ih]
      split
      · rfl
      · split <;> rfl

variable {bit blocks}

/-- A full byte resets the run, which is what the `0xff` shortcut does. -/
theorem scanFlat_full {is : List ℕ} (hne : is ≠ []) (h : ∀ i ∈ is, bit i = true) (run : ℕ) :
    scanFlat bit blocks is run = .run 0 := by
  induction is generalizing run with
  | nil => exact absurd rfl hne
  | cons i is ih =>
      rw [scanFlat, if_pos (h i List.mem_cons_self)]
      cases is with
      | nil => rfl
      | cons j js => exact ih (List.cons_ne_nil _ _) (fun k hk => h k (List.mem_cons_of_mem _ hk)) 0

theorem scanBits_flat {data : Bytes} {p : ℕ} {is : List ℕ} (h : ∀ i ∈ is, i < 8) (run : ℕ) :
    scanFlat (bitAt data) blocks (is.map (· + 8 * p)) run =
      match scanBits (data p) blocks is run with
      | .run run => .run run
      | .hit run i => .hit run (i + 8 * p) := by
  induction is generalizing run with
  | nil => rfl
  | cons i is ih =>
      have hi := h i List.mem_cons_self
      have ih := fun run => ih (fun k hk => h k (List.mem_cons_of_mem _ hk)) run
      have hbit : bitAt data (i + 8 * p) = (data p).getLsbD i := by
        rw [bitAt, show (i + 8 * p) / 8 = p by omega, show (i + 8 * p) % 8 = i by omega]
      simp only [List.map_cons, scanFlat, scanBits, hbit, ih]
      split
      · rfl
      · split <;> rfl

theorem range'_map_add (s n k : ℕ) :
    (List.range' s n).map (· + k) = List.range' (s + k) n := by
  rw [show (fun x => x + k) = (k + ·) from funext fun x => Nat.add_comm x k,
    List.map_add_range', Nat.add_comm]

theorem scanBytes_flat (data : Bytes) (n offset : ℕ) {startbit : ℕ} (hs : startbit < 8) (run : ℕ) :
    scanBytes data blocks (List.range' offset n) startbit run =
      scanFlat (bitAt data) blocks (List.range' (8 * offset + startbit) (8 * n - startbit)) run := by
  induction n generalizing offset startbit run with
  | zero => simp only [Nat.mul_zero, Nat.zero_sub, List.range'_zero, scanBytes, scanFlat]
  | succ n ih =>
      have hsplit : List.range' (8 * offset + startbit) (8 * (n + 1) - startbit) =
          (List.range' startbit (8 - startbit)).map (· + 8 * offset) ++
            List.range' (8 * (offset + 1) + 0) (8 * n - 0) := by
        rw [range'_map_add, show 8 * (offset + 1) + 0 = startbit + 8 * offset + (8 - startbit) by omega,
          List.range'_append_1, Nat.add_comm startbit]
        congr 1
        omega
      rw [hsplit, scanFlat_append, List.range'_succ, scanBytes]
      by_cases hff : data offset = 0xff#8
      · have hfull : scanFlat (bitAt data) blocks
            ((List.range' startbit (8 - startbit)).map (· + 8 * offset)) run = .run 0 := by
          refine scanFlat_full ?_ ?_ run
          · intro hnil
            have := congrArg List.length hnil
            simp only [List.length_map, List.length_range', List.length_nil] at this
            omega
          · intro i hi
            rw [range'_map_add, List.mem_range'_1] at hi
            rw [bitAt, show i / 8 = offset by omega, hff]
            exact getLsbD_ff _ (Nat.mod_lt _ (by omega))
        rw [if_pos hff, hfull, ih (offset + 1) (by omega : 0 < 8)]
        rfl
      · rw [if_neg hff, scanBits_flat (fun i hi => by rw [List.mem_range'_1] at hi; omega)]
        cases scanBits (data offset) blocks (List.range' startbit (8 - startbit)) run with
        | run r => exact ih (offset + 1) (by omega : 0 < 8) r
        | hit r i => rfl

/-- `[f, f + blocks)` is clear. -/
def ClearRun (bit : ℕ → Bool) (blocks f : ℕ) : Prop :=
  ∀ b, f ≤ b → b < f + blocks → bit b = false

/-- What the scan of `[lo, lo + n)` finds, when the `run` bits below `lo` are clear and
nothing before them can start a run. -/
def ScanResult (bit : ℕ → Bool) (blocks low high : ℕ) : Scan → Prop
  | .run _ => ∀ f, low ≤ f → f + blocks ≤ high → ¬ ClearRun bit blocks f
  | .hit run at' => run = blocks ∧ low + blocks ≤ at' + 1 ∧ at' < high ∧
      ClearRun bit blocks (at' + 1 - blocks) ∧
      ∀ f, low ≤ f → f + blocks ≤ at' → ¬ ClearRun bit blocks f

theorem ScanResult.lower {low low' high : ℕ} {s : Scan} (hle : low' ≤ low)
    (hno : ∀ f, low' ≤ f → f < low → ¬ ClearRun bit blocks f)
    (h : ScanResult bit blocks low high s) : ScanResult bit blocks low' high s := by
  cases s with
  | run r =>
      intro f hf hh
      by_cases hlow : low ≤ f
      · exact h f hlow hh
      · exact hno f hf (by omega)
  | hit r at' =>
      obtain ⟨hr, hl, hh, hc, hf⟩ := h
      refine ⟨hr, by omega, hh, hc, fun f hf1 hf2 => ?_⟩
      by_cases hlow : low ≤ f
      · exact hf f hlow hf2
      · exact hno f hf1 (by omega)

/-- The scan invariant: the `run` bits below the position are clear, so a run may start
`run` bits back, and nowhere further down. -/
theorem scanFlat_result (hb : 0 < blocks) (n lo : ℕ) {run : ℕ} (hlt : run < blocks)
    (hrun : run ≤ lo) (hclear : ∀ b, lo - run ≤ b → b < lo → bit b = false) :
    ScanResult bit blocks (lo - run) (lo + n) (scanFlat bit blocks (List.range' lo n) run) := by
  induction n generalizing lo run with
  | zero =>
      intro f hf hh
      omega
  | succ n ih =>
      rw [List.range'_succ, scanFlat]
      by_cases hbit : bit lo = true
      · rw [if_pos hbit]
        have hnext := ih (lo + 1) hb (Nat.zero_le _) (fun b h1 h2 => by omega)
        rw [show lo + 1 + n = lo + (n + 1) by omega] at hnext
        refine hnext.lower (by omega) (fun f h1 h2 hc => ?_)
        -- every run that starts at or below `lo` is too long to end before it
        have := hc lo (by omega) (by omega)
        rw [hbit] at this
        cases this
      · rw [if_neg hbit]
        have hlo : bit lo = false := Bool.eq_false_iff.mpr hbit
        have hclear' : ∀ b, lo - run ≤ b → b < lo + 1 → bit b = false := by
          intro b h1 h2
          by_cases hb' : b = lo
          · exact hb' ▸ hlo
          · exact hclear b h1 (by omega)
        by_cases hmore : run + 1 < blocks
        · rw [if_pos hmore]
          have hnext := ih (lo + 1) hmore (by omega)
            (fun b h1 h2 => hclear' b (by omega) h2)
          rwa [show lo + 1 - (run + 1) = lo - run by omega,
            show lo + 1 + n = lo + (n + 1) by omega] at hnext
        · rw [if_neg hmore]
          have hr : run + 1 = blocks := by omega
          refine ⟨hr, by omega, by omega, fun b h1 h2 => hclear' b (by omega) (by omega),
            fun f h1 h2 => ?_⟩
          omega

/-- The scan of one bitmap block, from bit `8 * offset + startbit` on. -/
theorem scanBytes_result {data : Bytes} (hb : 0 < blocks) (n offset : ℕ) {startbit : ℕ}
    (hs : startbit < 8) :
    ScanResult (bitAt data) blocks (8 * offset + startbit)
      (max (8 * (offset + n)) (8 * offset + startbit))
      (scanBytes data blocks (List.range' offset n) startbit 0) := by
  rw [scanBytes_flat data n offset hs]
  have h : ScanResult (bitAt data) blocks (8 * offset + startbit - 0) _ (scanFlat _ _ _ 0) :=
    scanFlat_result hb (8 * n - startbit) (8 * offset + startbit) hb (Nat.zero_le _)
      fun b h1 h2 => by omega
  rw [Nat.sub_zero] at h
  rwa [show max (8 * (offset + n)) (8 * offset + startbit) =
    8 * offset + startbit + (8 * n - startbit) by omega]

end Scan

/-! ## The search of the whole map -/

/-- Bit `b` of the allocation bitmap. -/
def Sb.bit (sb : Sb) (b : ℕ) : Bool := bitAt (sb.bitmap (b / sb.mapsize)) (b % sb.mapsize)

theorem Sb.mapsize_eq (sb : Sb) : sb.mapsize = 8 * sb.blocksize := by
  rw [Sb.mapsize, Sb.blocksize, Nat.pow_add, Nat.mul_comm]

theorem Sb.blocksize_pos (sb : Sb) : 0 < sb.blocksize := Nat.two_pow_pos _

theorem Sb.mapsize_pos (sb : Sb) : 0 < sb.mapsize := Nat.two_pow_pos _

theorem Sb.bit_block (sb : Sb) (m : ℕ) {j : ℕ} (hj : j < sb.mapsize) :
    sb.bit (m * sb.mapsize + j) = bitAt (sb.bitmap m) j := by
  rw [Sb.bit, Nat.mul_comm, Nat.mul_add_div sb.mapsize_pos, Nat.div_eq_of_lt hj, Nat.add_zero,
    Nat.mul_add_mod, Nat.mod_eq_of_lt hj]

/-- A run of clear bits inside one bitmap block. -/
structure Sb.Fits (sb : Sb) (blocks f : ℕ) : Prop where
  oneBlock : f % sb.mapsize + blocks ≤ sb.mapsize
  clear : ClearRun sb.bit blocks f

/-- A fit inside `[lo, hi)` that the search can get to. -/
structure Sb.Reach (sb : Sb) (blocks lo hi f : ℕ) : Prop where
  low : lo ≤ f
  high : f + blocks ≤ hi
  fits : sb.Fits blocks f
  readable : ∀ m, lo / sb.mapsize ≤ m → m ≤ f / sb.mapsize → sb.readable m = true

/-- What `balloc_from_range` does with the run it stops at. -/
def Sb.take (sb : Sb) (blocks limit mapblocks f : ℕ) : Option (ℤ × Sb) :=
  let found := f % sb.mapsize + (blocks - 1) + u32 (f / sb.mapsize * sb.mapsize)
  if limit ≤ found then
    if f / sb.mapsize = mapblocks - 1 then some (-1, sb) else none
  else
    let found := found - (blocks - 1)
    some (found, { sb with
      bitmap := Function.update sb.bitmap (f / sb.mapsize)
        (setBits (sb.bitmap (f / sb.mapsize)) (found % sb.mapsize) blocks)
      nextalloc := found + blocks
      freeblocks := sb.freeblocks - blocks })

/-- The search takes the least reachable fit, and fails when there is none. -/
def FirstFit (sb : Sb) (blocks limit mapblocks lo hi : ℕ) (r : Option (ℤ × Sb)) : Prop :=
  (∃ f, sb.Reach blocks lo hi f ∧ (∀ g, g < f → ¬ sb.Reach blocks lo hi g) ∧
    r = sb.take blocks limit mapblocks f) ∨
  ((∀ f, ¬ sb.Reach blocks lo hi f) ∧ r = some (-1, sb))

section Search
variable {sb : Sb} {blocks limit mapblocks : ℕ}

theorem searchMap_no_tail (n mapblock offset startbit : ℕ) :
    searchMap sb blocks limit mapblocks n mapblock offset startbit 0 = some (-1, sb) := by
  induction n generalizing mapblock offset startbit with
  | zero => rfl
  | succ n ih =>
      simp only [searchMap, Nat.min_zero, List.range'_zero, scanBytes, Nat.zero_sub, ih]
      split <;> rfl

theorem fits_iff_block {m j : ℕ} (hb : 0 < blocks) (hj : j + blocks ≤ sb.mapsize) :
    sb.Fits blocks (m * sb.mapsize + j) ↔ ClearRun (bitAt (sb.bitmap m)) blocks j := by
  constructor
  · intro h b h1 h2
    rw [← sb.bit_block m (by omega : b < sb.mapsize)]
    exact h.clear _ (by omega) (by omega)
  · intro h
    refine ⟨?_, fun b h1 h2 => ?_⟩
    · rw [Nat.mul_comm, Nat.mul_add_mod, Nat.mod_eq_of_lt (by omega : j < sb.mapsize)]
      exact hj
    · obtain ⟨k, rfl⟩ := Nat.exists_eq_add_of_le (show m * sb.mapsize ≤ b by omega)
      rw [sb.bit_block m (by omega)]
      exact h k (by omega) (by omega)

theorem block_split (m : ℕ) {j : ℕ} (hj : j < sb.mapsize) :
    (m * sb.mapsize + j) / sb.mapsize = m ∧ (m * sb.mapsize + j) % sb.mapsize = j := by
  rw [Nat.mul_comm, Nat.mul_add_div sb.mapsize_pos, Nat.div_eq_of_lt hj, Nat.add_zero,
    Nat.mul_add_mod, Nat.mod_eq_of_lt hj]
  exact ⟨rfl, rfl⟩

/-- The loop over the bitmap blocks is a first fit of the bits from
`8 * offset + startbit` of block `mapblock` to the end of the `tail` bytes. -/
theorem searchMap_first (hb : 0 < blocks) (n mapblock offset startbit tail : ℕ)
    (ho : offset < sb.blocksize) (hs : startbit < 8) (ht : offset + tail ≤ n * sb.blocksize) :
    FirstFit sb blocks limit mapblocks (mapblock * sb.mapsize + (8 * offset + startbit))
      (mapblock * sb.mapsize + 8 * (offset + tail))
      (searchMap sb blocks limit mapblocks n mapblock offset startbit tail) := by
  have hms := sb.mapsize_eq
  induction n generalizing mapblock offset startbit tail with
  | zero =>
      refine Or.inr ⟨fun f h => ?_, rfl⟩
      have h1 := h.low
      have h2 := h.high
      omega
  | succ n ih =>
      have hlo : (mapblock * sb.mapsize + (8 * offset + startbit)) / sb.mapsize = mapblock :=
        (block_split mapblock (by omega)).1
      rw [searchMap]
      by_cases hread : sb.readable mapblock = true
      case neg =>
        rw [if_pos (by simpa only [Bool.not_eq_true'] using Bool.eq_false_iff.mpr hread)]
        refine Or.inr ⟨fun f h => hread (h.readable mapblock (Nat.le_of_eq hlo) ?_), rfl⟩
        exact Nat.le_trans (Nat.le_of_eq hlo.symm) (Nat.div_le_div_right h.low)
      rw [if_neg (by simp only [hread, Bool.not_true, Bool.false_eq_true, not_false_eq_true])]
      generalize hbytes : min (sb.blocksize - offset) tail = bytes
      have hscan : ScanResult (bitAt (sb.bitmap mapblock)) _ _ _ _ :=
        scanBytes_result hb bytes offset hs
      cases hres : scanBytes (sb.bitmap mapblock) blocks (List.range' offset bytes) startbit 0 with
      | run r =>
          rw [hres] at hscan
          -- no fit of this block ends inside the bytes just scanned
          have hno : ∀ j, 8 * offset + startbit ≤ j → j + blocks ≤ 8 * (offset + bytes) →
              ¬ sb.Fits blocks (mapblock * sb.mapsize + j) := by
            intro j h1 h2 hfit
            rw [fits_iff_block hb (by omega)] at hfit
            exact hscan j h1 (by omega) hfit
          by_cases hfull : tail ≤ sb.blocksize - offset
          · -- the range ends in this block
            have hbt : bytes = tail := by omega
            have hzero : tail - bytes = 0 := by omega
            simp only [hres, hzero, searchMap_no_tail]
            refine Or.inr ⟨fun f h => ?_, rfl⟩
            obtain ⟨j, rfl⟩ := Nat.exists_eq_add_of_le
              (show mapblock * sb.mapsize ≤ f from by have := h.low; omega)
            have h1 := h.low
            have h2 := h.high
            exact hno j (by omega) (by omega) h.fits
          · have hbb : bytes = sb.blocksize - offset := by omega
            have hne : bytes ≠ 0 := by omega
            simp only [hres, if_neg hne]
            have hnext := ih (mapblock + 1) 0 0 (tail - bytes) sb.blocksize_pos (by omega)
              (by rw [Nat.succ_mul] at ht; omega)
            rw [Nat.succ_mul, Nat.mul_zero, Nat.add_zero, Nat.add_zero, Nat.zero_add] at hnext
            have hhi : mapblock * sb.mapsize + sb.mapsize + 8 * (tail - bytes) =
                mapblock * sb.mapsize + 8 * (offset + tail) := by omega
            rw [hhi] at hnext
            have hlo' : (mapblock * sb.mapsize + sb.mapsize) / sb.mapsize = mapblock + 1 := by
              rw [← Nat.succ_mul, Nat.mul_div_cancel _ sb.mapsize_pos]
            -- a fit of the whole range starts in a later block
            have hmove : ∀ f, sb.Reach blocks (mapblock * sb.mapsize + (8 * offset + startbit))
                  (mapblock * sb.mapsize + 8 * (offset + tail)) f ↔
                sb.Reach blocks (mapblock * sb.mapsize + sb.mapsize)
                  (mapblock * sb.mapsize + 8 * (offset + tail)) f := by
              intro f
              constructor
              · intro h
                have hge : mapblock * sb.mapsize + sb.mapsize ≤ f := by
                  by_contra hlt
                  obtain ⟨j, rfl⟩ := Nat.exists_eq_add_of_le
                    (show mapblock * sb.mapsize ≤ f from by have := h.low; omega)
                  have hj := h.fits.oneBlock
                  rw [(block_split mapblock (by omega)).2] at hj
                  have h1 := h.low
                  exact hno j (by omega) (by omega) h.fits
                refine ⟨hge, h.high, h.fits, fun m h1 h2 => h.readable m ?_ h2⟩
                rw [hlo]
                rw [hlo'] at h1
                omega
              · intro h
                have hge := h.low
                refine ⟨by omega, h.high, h.fits, fun m h1 h2 => ?_⟩
                rw [hlo] at h1
                by_cases hm : m = mapblock
                · exact hm ▸ hread
                · exact h.readable m (by rw [hlo']; omega) h2
            rcases hnext with ⟨f, hf, hleast, hr⟩ | ⟨hnone, hr⟩
            · exact Or.inl ⟨f, (hmove f).mpr hf, fun g hg h => hleast g hg ((hmove g).mp h), hr⟩
            · exact Or.inr ⟨fun f h => hnone f ((hmove f).mp h), hr⟩
      | hit r at' =>
          rw [hres] at hscan
          obtain ⟨rfl, hlow, hhigh, hclear, hleast⟩ := hscan
          have hat : at' < 8 * (offset + bytes) := by omega
          obtain ⟨hd, hm⟩ := block_split mapblock (by omega : at' + 1 - r < sb.mapsize)
          refine Or.inl ⟨mapblock * sb.mapsize + (at' + 1 - r), ⟨by omega, by omega,
            (fits_iff_block hb (by omega)).mpr hclear, fun m h1 h2 => ?_⟩, ?_, ?_⟩
          · rw [hlo] at h1
            rw [hd] at h2
            exact (Nat.le_antisymm h1 h2) ▸ hread
          · intro g hg h
            obtain ⟨j, rfl⟩ := Nat.exists_eq_add_of_le
              (show mapblock * sb.mapsize ≤ g from by have := h.low; omega)
            have h1 := h.low
            refine hleast j (by omega) (by omega) ?_
            exact (fits_iff_block hb (by omega)).mp h.fits
          · simp only [hres, Sb.take, hd, hm, ne_eq, not_true_eq_false, if_false,
              show at' + 1 - r + (r - 1) = at' by omega]

end Search

end Tux3.Balloc
