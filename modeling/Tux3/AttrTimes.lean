import Tux3.AttrRoundTrip
import Mathlib.Tactic.Linarith
import Mathlib.Logic.Function.Iterate

/-!
# Times of an inode over open and save

A stored time has 16 bits below the second. It is rounded to the nearest nanosecond when the inode
is opened and cut to 16 bits again when it is saved, which gives the time or one tick less.
-/
namespace Tux3.Iattr

open Segment

/-- The stored time after one open and save. -/
def resaveTime (v : ℕ) : ℕ := tuxtime (spectime (v <<< timeAttrShift)) >>> timeAttrShift

/-- The fraction of the second, in units of `2 ^ -7` nanoseconds above a whole one, is rounded up,
or is so little above that the cut does not lose it. -/
def Steady (v : ℕ) : Prop :=
  let fraction := v % 2 ^ 16
  let above := fraction * 5 ^ 9 % 2 ^ 7
  2 ^ 6 ≤ above ∨ above * (2 ^ 63 / 10 ^ 9) + 1669484 * fraction ≤ 3 * 2 ^ 36

instance : DecidablePred Steady := fun _ => inferInstanceAs (Decidable (_ ∨ _))

/-! ## One time -/

theorem spectime_stored (v : ℕ) : spectime (v <<< timeAttrShift) =
    ⟨v / 2 ^ 16, (v % 2 ^ 16 * 5 ^ 9 + 2 ^ 6) / 2 ^ 7⟩ := by
  have hmask : (0xffffffff : ℕ) = 2 ^ 32 - 1 := by norm_num
  simp only [spectime, high32, billionths, timeAttrShift, hmask, Nat.and_two_pow_sub_one_eq_mod,
    Nat.shiftRight_eq_div_pow, Nat.shiftLeft_eq, Timespec.mk.injEq]
  constructor <;> omega

theorem fixed_cut {s x f : ℕ} (hs : s < 2 ^ 32) (hf : f < 2 ^ 16) (hle : f * 2 ^ 47 ≤ x)
    (hlt : x < (f + 1) * 2 ^ 47) :
    (s * 2 ^ 32 + x % 2 ^ 64 / 2 ^ 31) % 2 ^ 64 / 2 ^ 16 = s * 2 ^ 16 + f := by
  rw [Nat.mod_eq_of_lt (show x < 2 ^ 64 by omega), Nat.mod_eq_of_lt (by omega)]
  omega

theorem tuxtime_stored {s n f : ℕ} (hs : s < 2 ^ 32) (hf : f < 2 ^ 16)
    (hle : f * 2 ^ 47 ≤ n * 9223372036 + 3 * 2 ^ 29)
    (hlt : n * 9223372036 + 3 * 2 ^ 29 < (f + 1) * 2 ^ 47) :
    tuxtime ⟨s, n⟩ >>> timeAttrShift = s * 2 ^ 16 + f := by
  have hmult : 2 ^ 63 / 1000000000 = 9223372036 := by norm_num
  simp only [tuxtime, timeAttrShift, Nat.shiftRight_eq_div_pow, Nat.shiftLeft_eq, hmult]
  exact fixed_cut hs hf hle hlt

theorem tuxtime_rounded {s f n above : ℕ} (hs : s < 2 ^ 32) (hf : f < 2 ^ 16)
    (hn : n = (f * 5 ^ 9 + 2 ^ 6) / 2 ^ 7) (habove : above = f * 5 ^ 9 % 2 ^ 7) :
    tuxtime ⟨s, n⟩ >>> timeAttrShift =
      if 2 ^ 6 ≤ above ∨ above * 9223372036 + 1669484 * f ≤ 3 * 2 ^ 36 then s * 2 ^ 16 + f
      else s * 2 ^ 16 + (f - 1) := by
  by_cases hup : 2 ^ 6 ≤ above
  · have hnsec : 2 ^ 7 * n + above = f * 5 ^ 9 + 2 ^ 7 := by omega
    have habove' : above < 2 ^ 7 := by omega
    clear hn habove
    rw [if_pos (Or.inl hup), tuxtime_stored hs hf (by linarith) (by linarith)]
  · have hnsec : 2 ^ 7 * n + above = f * 5 ^ 9 := by omega
    clear hn habove
    by_cases hsmall : above * 9223372036 + 1669484 * f ≤ 3 * 2 ^ 36
    · rw [if_pos (Or.inr hsmall), tuxtime_stored hs hf (by linarith) (by linarith)]
    · have hpos : 1 ≤ f := by omega
      obtain ⟨g, rfl⟩ := Nat.exists_eq_add_of_le' hpos
      rw [if_neg (not_or.mpr ⟨hup, hsmall⟩), Nat.add_sub_cancel,
        tuxtime_stored (f := g) hs (by omega) (by linarith) (by linarith)]

theorem resaveTime_eq {v : ℕ} (hv : v < 2 ^ 48) :
    resaveTime v = if Steady v then v else v - 1 := by
  have hs : v / 2 ^ 16 < 2 ^ 32 := by omega
  have hmult : 2 ^ 63 / 10 ^ 9 = 9223372036 := by norm_num
  rw [resaveTime, spectime_stored, tuxtime_rounded hs (Nat.mod_lt _ (Nat.two_pow_pos 16)) rfl rfl,
    ← hmult]
  by_cases h : Steady v
  · rw [if_pos h]
    exact (if_pos h).trans (by omega)
  · have hpos : v % 2 ^ 16 ≠ 0 := by
      intro hz
      refine h (Or.inr ?_)
      rw [hz]
      norm_num
    rw [if_neg h]
    exact (if_neg h).trans (by omega)

theorem resaveTime_iff {v : ℕ} (hv : v < 2 ^ 48) : resaveTime v = v ↔ Steady v := by
  rw [resaveTime_eq hv]
  by_cases h : Steady v
  · rw [if_pos h]
    exact iff_of_true rfl h
  · rw [if_neg h]
    refine iff_of_false (fun heq => h ?_) h
    have hz : v = 0 := by omega
    rw [hz]
    decide

theorem stored_time {v : ℕ} (hv : v < 2 ^ 48) :
    ∃ t, t.sec < 2 ^ 32 ∧ t.nsec < 10 ^ 9 ∧ tuxtime t >>> timeAttrShift = v := by
  have hf : v % 2 ^ 16 < 2 ^ 16 := Nat.mod_lt _ (Nat.two_pow_pos 16)
  -- the first nanosecond that is not before the fraction
  obtain ⟨n, hn⟩ : ∃ n, n = (v % 2 ^ 16 * 5 ^ 9 + (2 ^ 7 - 1)) / 2 ^ 7 := ⟨_, rfl⟩
  have hle : 2 ^ 7 * n ≤ v % 2 ^ 16 * 5 ^ 9 + 127 := by omega
  have hge : v % 2 ^ 16 * 5 ^ 9 ≤ 2 ^ 7 * n := by omega
  clear hn
  refine ⟨⟨v / 2 ^ 16, n⟩, by dsimp only; omega, by dsimp only; omega, ?_⟩
  rw [tuxtime_stored (f := v % 2 ^ 16) (by omega) hf (by linarith) (by linarith)]
  omega

/-! ## One inode -/

/-- `open_inode` of the record at `base`, and `store_attrs` of the inode. -/
def resave (fresh : Inode) (version base size : ℕ) (data : Bytes) : Option Bytes := do
  let (inode, _) ← openAttrs fresh version data base size
  storeAttrs inode version data base

/-- So many opens and saves. -/
def resaves (fresh : Inode) (version base size : ℕ) : ℕ → Bytes → Option Bytes
  | 0, data => some data
  | cycles + 1, data =>
      (resave fresh version base size data).bind (resaves fresh version base size cycles)

/-- The times of the record come back. -/
def SteadyTimes (inode : Inode) : Prop :=
  (inode.present.testBit ctimeSizeAttr = true →
      Steady (tuxtime inode.ctime >>> timeAttrShift)) ∧
    (inode.present.testBit mtimeAttr = true → Steady (tuxtime inode.mtime >>> timeAttrShift))

section
variable {inode final fresh : Inode} {version base kind : ℕ} {data : Bytes}

theorem Restored.kinds (h : Restored inode final) : kinds final = kinds inode := by
  refine List.filter_congr fun k hk => ?_
  have hk : k ≠ xattrAttr := by
    have := List.mem_range.mp hk
    simp only [varAttrs, xattrAttr] at *
    omega
  rw [h.present, Nat.testBit_or]
  split
  · rw [Nat.zero_testBit, Bool.or_false]
  · rw [testBit_one_shiftLeft, decide_eq_false hk, Bool.or_false]

theorem Restored.encodeAttr (h : Restored inode final) (hk : inode.present.testBit kind = true)
    (hc : kind ≠ ctimeSizeAttr) (hm : kind ≠ mtimeAttr) :
    encodeAttr final kind = encodeAttr inode kind := by
  unfold Iattr.encodeAttr
  by_cases h0 : kind = rdevAttr
  · rw [if_pos h0, if_pos h0, h.rdev (h0 ▸ hk)]
  rw [if_neg h0, if_neg h0]
  by_cases h1 : kind = modeOwnerAttr
  · obtain ⟨hmode, huid, hgid⟩ := h.owner (h1 ▸ hk)
    rw [if_pos h1, if_pos h1, hmode, huid, hgid]
  rw [if_neg h1, if_neg h1, if_neg hc, if_neg hc]
  by_cases h3 : kind = dataBtreeAttr
  · rw [if_pos h3, if_pos h3, h.root (h3 ▸ hk)]
  rw [if_neg h3, if_neg h3]
  by_cases h4 : kind = linkCountAttr
  · rw [if_pos h4, if_pos h4, h.nlink (h4 ▸ hk)]
  rw [if_neg h4, if_neg h4, if_neg hm, if_neg hm]

theorem encode48_inj {a b : ℕ} (ha : a < 2 ^ 48) (hb : b < 2 ^ 48)
    (h : encode48 a = encode48 b) : a = b := by
  have h1 : decode48 (put (fun _ => 0) 0 (encode48 a)) 0 = a := decode48_encode48 holds_put ha
  have h2 : decode48 (put (fun _ => 0) 0 (encode48 b)) 0 = b := decode48_encode48 holds_put hb
  rw [← h1, h, h2]

/-- The times of the record are stored again as they were. -/
theorem Restored.encodeTimes (h : Restored inode final) :
    (inode.present.testBit ctimeSizeAttr = true →
      (Iattr.encodeAttr final ctimeSizeAttr = Iattr.encodeAttr inode ctimeSizeAttr ↔
        Steady (tuxtime inode.ctime >>> timeAttrShift))) ∧
      (inode.present.testBit mtimeAttr = true →
        (Iattr.encodeAttr final mtimeAttr = Iattr.encodeAttr inode mtimeAttr ↔
          Steady (tuxtime inode.mtime >>> timeAttrShift))) := by
  have hlt := tuxtime_lt
  constructor
  · intro hc
    obtain ⟨hctime, hsize⟩ := h.ctimeSize hc
    have hfinal : Iattr.encodeAttr final ctimeSizeAttr =
        encode48 (resaveTime (tuxtime inode.ctime >>> timeAttrShift)) ++
          encode64 inode.size.toNat := by
      rw [← hsize, resaveTime, show timeAttrShift = 16 from rfl, ← hctime]
      rfl
    have hinode : Iattr.encodeAttr inode ctimeSizeAttr =
        encode48 (tuxtime inode.ctime >>> timeAttrShift) ++ encode64 inode.size.toNat := rfl
    rw [hfinal, hinode, ← resaveTime_iff (hlt _), List.append_left_inj]
    exact ⟨encode48_inj (hlt _) (hlt _), congrArg encode48⟩
  · intro hm
    have hmtime := h.mtime hm
    have hfinal : Iattr.encodeAttr final mtimeAttr =
        encode48 (resaveTime (tuxtime inode.mtime >>> timeAttrShift)) := by
      rw [resaveTime, show timeAttrShift = 16 from rfl, ← hmtime]
      rfl
    have hinode : Iattr.encodeAttr inode mtimeAttr =
        encode48 (tuxtime inode.mtime >>> timeAttrShift) := rfl
    rw [hfinal, hinode, ← resaveTime_iff (hlt _)]
    exact ⟨encode48_inj (hlt _) (hlt _), congrArg encode48⟩

theorem flatMap_eq_iff {α β : Type} {f g : α → List β} {l : List α}
    (h : ∀ a ∈ l, (f a).length = (g a).length) :
    l.flatMap f = l.flatMap g ↔ ∀ a ∈ l, f a = g a := by
  induction l with
  | nil => exact ⟨fun _ a ha => (nomatch ha), fun _ => rfl⟩
  | cons a l ih =>
      rw [List.flatMap_cons, List.flatMap_cons, List.forall_mem_cons,
        ← ih fun b hb => h b (List.mem_cons_of_mem a hb)]
      constructor
      · exact fun heq => List.append_inj heq (h a List.mem_cons_self)
      · rintro ⟨h1, h2⟩
        rw [h1, h2]

theorem Restored.inodeBytes (hpresent : inode.present < 2 ^ 6) (h : Restored inode final) :
    (inodeBytes final version).length = (inodeBytes inode version).length ∧
      (inodeBytes final version = inodeBytes inode version ↔ SteadyTimes inode) := by
  have hlen : ∀ k ∈ Iattr.kinds inode,
      (attrRecord final version k).length = (attrRecord inode version k).length := fun k hk => by
    rw [attrRecord_length (kinds_lt hpresent hk), attrRecord_length (kinds_lt hpresent hk)]
  have hsum : ((Iattr.kinds inode).flatMap (attrRecord final version)).length =
      ((Iattr.kinds inode).flatMap (attrRecord inode version)).length := by
    rw [List.length_flatMap, List.length_flatMap]
    exact congrArg List.sum (List.map_congr_left hlen)
  have hrecord : ∀ k, attrRecord final version k = attrRecord inode version k ↔
      Iattr.encodeAttr final k = Iattr.encodeAttr inode k := fun k => List.append_right_inj _
  obtain ⟨hctime, hmtime⟩ := h.encodeTimes
  rw [Iattr.inodeBytes, Iattr.inodeBytes, h.kinds, h.xattrs, attrBytes, attrBytes]
  refine ⟨by rw [List.length_append, List.length_append, hsum], ?_⟩
  rw [List.append_left_inj, flatMap_eq_iff hlen]
  constructor
  · intro hall
    refine ⟨fun hc => ?_, fun hm => ?_⟩
    · exact (hctime hc).mp ((hrecord _).mp (hall _ ((mem_kinds hpresent).mpr hc)))
    · exact (hmtime hm).mp ((hrecord _).mp (hall _ ((mem_kinds hpresent).mpr hm)))
  · rintro ⟨hc, hm⟩ k hk
    have hbit := (mem_kinds hpresent).mp hk
    rw [hrecord]
    by_cases h2 : k = ctimeSizeAttr
    · rw [h2] at hbit ⊢
      exact (hctime hbit).mpr (hc hbit)
    by_cases h5 : k = mtimeAttr
    · rw [h5] at hbit ⊢
      exact (hmtime hbit).mpr (hm hbit)
    exact h.encodeAttr hbit h2 h5

/-- One open and save writes the record with the times stored again. -/
theorem resave_eq (hversion : version < 2 ^ 12) (hpresent : inode.present < 2 ^ 6)
    (hfits : Fits inode) (hcache : ∀ c, inode.xcache = some c → c.WellFormed)
    (hfresh : fresh.present = 0) (hsize : (inodeBytes inode version).length ≠ 0)
    (h : Holds data base (inodeBytes inode version)) :
    ∃ final, Restored inode final ∧
      resave fresh version base (inodeBytes inode version).length data =
        some (put data base (inodeBytes final version)) := by
  have hlt : ∀ k ∈ kinds inode, k < 6 := fun k hk => kinds_lt hpresent hk
  have hlen := @inodeBytes_length inode version hlt
  obtain ⟨final, hopen, hrestored, -⟩ :=
    openAttrs_eq hversion hpresent hfits hcache hfresh h
  have hlt' : ∀ k ∈ kinds final, k < 6 := hrestored.kinds ▸ hlt
  have hlen' := @inodeBytes_length final version hlt'
  rw [(hrestored.inodeBytes hpresent).1, hlen] at hlen'
  refine ⟨final, hrestored, ?_⟩
  rw [resave, hlen, hopen]
  dsimp only [Option.bind_eq_bind, Option.bind_some]
  rw [storeAttrs]
  dsimp only
  rw [if_neg (by rw [← hlen', ← hlen]; exact hsize), encodeInode_eq hlt']
  dsimp only
  rw [if_pos rfl]

/-- A stored time of 48 bits comes back from every number of opens and saves exactly when it is
steady, and so does the record of an inode exactly when its times are. -/
theorem times_come_back (hversion : version < 2 ^ 12) (hpresent : inode.present < 2 ^ 6)
    (hfits : Fits inode) (hcache : ∀ c, inode.xcache = some c → c.WellFormed)
    (hfresh : fresh.present = 0) (hsize : (inodeBytes inode version).length ≠ 0)
    (h : Holds data base (inodeBytes inode version)) :
    (∀ v < 2 ^ 48, (∃ t, t.sec < 2 ^ 32 ∧ t.nsec < 10 ^ 9 ∧ tuxtime t >>> timeAttrShift = v) ∧
      ((∀ cycles, resaveTime^[cycles] v = v) ↔ Steady v)) ∧
    ((∀ cycles, resaves fresh version base (inodeBytes inode version).length cycles data =
      some data) ↔ SteadyTimes inode) := by
  refine ⟨fun v hv => ⟨stored_time hv, ?_⟩, ?_⟩
  · rw [← resaveTime_iff hv]
    refine ⟨fun hall => ?_, fun hone cycles => Function.iterate_fixed hone cycles⟩
    have hone := hall 1
    rwa [Function.iterate_one] at hone
  · obtain ⟨final, hrestored, hresave⟩ :=
      resave_eq hversion hpresent hfits hcache hfresh hsize h
    obtain ⟨hlen, hsteady⟩ := @Restored.inodeBytes inode final version hpresent hrestored
    rw [← hsteady, ← h.put_eq_iff hlen]
    constructor
    · intro hall
      have hone := hall 1
      rw [resaves, hresave, Option.bind_some] at hone
      exact Option.some.inj hone
    · intro hsame cycles
      rw [hsame] at hresave
      induction cycles with
      | zero => rfl
      | succ cycles ih => rw [resaves, hresave, Option.bind_some, ih]

theorem times_come_back_device : ∃ data : Bytes,
    (∀ cycles, resaves { deviceInode with present := 0 } 3 8 79 cycles data = some data) ↔
      SteadyTimes deviceInode := by
  have hlen : (inodeBytes deviceInode 3).length = 79 := by decide
  obtain ⟨-, h⟩ := @times_come_back deviceInode { deviceInode with present := 0 } 3 8
    (put (fun _ => 0) 8 (inodeBytes deviceInode 3)) (by decide) (by decide)
    ⟨by decide, by decide, by decide⟩ (fun c hc => by cases hc; exact ⟨by decide, by decide⟩) rfl
    (by rw [hlen]; decide) holds_put
  rw [hlen] at h
  exact ⟨_, h⟩

end

/-- Three ticks after a second are two ticks after one open and save. -/
theorem time_falls_back : ∃ v < 2 ^ 48, resaveTime v ≠ v := ⟨3, by decide, by decide⟩

end Tux3.Iattr
