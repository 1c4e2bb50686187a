import Tux3.DleafWalk
import Mathlib.Logic.Function.Iterate

/-!
# Probing a file index leaf

Where `dwalk_probe` leaves the walk. The loop over the groups stops at the last group whose range
holds the key, and reads only that group: an extent that begins in an earlier range of `2 ^ 24`
indexes and covers the key is passed over.
-/
namespace Tux3.Dleaf

/-- The low half of the first index. -/
def Bunch.firstLo (g : Bunch) : ℕ := (g.items.head?.map Prod.fst).getD 0

/-- The state of `dwalk_probe` in a group, before the entries. -/
def opened (b : List Bunch) (g : Bunch) (a : List Bunch) : Dwalk where
  group := b.length + 1
  gstop := b.length + 1 + a.length
  entry := size b + 1
  estop := size b + g.items.length
  exbase := size b
  extent := 0
  exstop := 0

/-- The loop over the groups goes on after the group. -/
def Skipped (keyhi keylo : ℕ) (g : Bunch) (a : List Bunch) : Prop :=
  g.keyhi < keyhi ∨
    g.keyhi = keyhi ∧ ∃ g' a', a = g' :: a' ∧ g'.keyhi ≤ keyhi ∧ g'.firstLo ≤ keylo

/-- Extents of 1 to 64 blocks at increasing indexes, none over the next one. -/
structure Leaf.Ordered (leaf : Leaf) : Prop where
  increasing : (leaf.pairs.map Prod.fst).Pairwise (· < ·)
  apart : leaf.pairs.Pairwise fun p q => p.1 + p.2.count ≤ q.1
  counts : ∀ p ∈ leaf.pairs, 1 ≤ p.2.count ∧ p.2.count ≤ 64

/-- The state that `dwalk_next` reaches from the start of the leaf. -/
def walkTo (leaf : Leaf) (k : ℕ) : Dwalk :=
  (fun walk => (dwalkNext leaf walk).1)^[k] (dwalkProbe leaf 0).1

/-- The probe is at the first extent whose last block is at or above the key, or at the end. -/
def ProbeExact (leaf : Leaf) (key : ℕ) : Prop :=
  let k := leaf.pairs.findIdx fun p => key < p.1 + p.2.count
  dwalkProbe leaf key = (walkTo leaf k, decide (k < leaf.pairs.length)) ∧
    dwalkEnd (walkTo leaf k) = decide (k = leaf.pairs.length) ∧
    ∀ p, leaf.pairs[k]? = some p → dwalkIndex leaf (walkTo leaf k) = p.1 ∧
      leaf.extentAt (walkTo leaf k).extent = p.2

section
variable {blocksize keyhi keylo key : ℕ} {gs a b : List Bunch} {g : Bunch} {j k : ℕ}

theorem Bunch.Good.firstLo (hg : g.Good) :
    ∃ h : 0 < g.items.length, g.firstLo = g.items[0].1 := by
  have hpos := List.length_pos_of_ne_nil hg.ne_nil
  refine ⟨hpos, ?_⟩
  rw [Bunch.firstLo, List.head?_eq_getElem?, List.getElem?_eq_getElem hpos]
  rfl

theorem entryAt_first (hg : g.Good) :
    ((pack blocksize (b ++ g :: a)).entryAt (size b + 1)).keylo = g.firstLo := by
  obtain ⟨hpos, hfirst⟩ := hg.firstLo
  have hentry := @entryAt_pack blocksize a b g 0 hpos
  rw [Nat.zero_add] at hentry
  rw [hentry, hfirst]

theorem atFirst_opened (hg : g.Good) :
    atFirst (pack blocksize (b ++ g :: a)) (opened b g a) = here b g a 0 := by
  obtain ⟨hpos, -⟩ := hg.firstLo
  have hentry := @entryAt_pack blocksize a b g 0 hpos
  rw [Nat.zero_add] at hentry
  rw [atFirst, opened, here]
  dsimp only
  rw [hentry, Nat.zero_add, Nat.min_eq_left (Nat.succ_le_of_lt hpos), Nat.add_zero]
  rfl

theorem entryAt_next {g' : Bunch} (hg' : g'.Good) :
    ((pack blocksize (b ++ g :: g' :: a)).entryAt (size b + g.items.length + 1)).keylo =
      g'.firstLo := by
  rw [List.append_cons, ← size_concat]
  exact entryAt_first hg'

theorem groupAt_next {g' : Bunch} :
    (pack blocksize (b ++ g :: g' :: a)).groupAt (b.length + 1 + 1) =
      ⟨g'.keyhi, g'.items.length⟩ := by
  have hlen : (b ++ [g]).length = b.length + 1 := List.length_append
  rw [List.append_cons, ← hlen]
  exact groupAt_pack

/-- The loop over the groups, with the groups that it passes. -/
theorem probeGroups_cases (r : List Bunch) {c : List Bunch} (hgs : gs = c ++ r)
    (hgood : ∀ g ∈ gs, g.Good) (P : Bunch → Prop)
    (hP : ∀ b g a, gs = b ++ g :: a → Skipped keyhi keylo g a → P g) (hc : ∀ x ∈ c, P x)
    (entry : ℕ) :
    (∃ entry', probeGroups (pack blocksize gs) keyhi keylo r.length
          ⟨c.length, gs.length, entry, size c, size c, 0, 0⟩ =
        .after ⟨gs.length, gs.length, entry', size gs, size gs, 0, 0⟩ ∧ ∀ x ∈ gs, P x) ∨
      (∃ b g a, gs = b ++ g :: a ∧ (∀ x ∈ b, P x) ∧
        probeGroups (pack blocksize gs) keyhi keylo r.length
            ⟨c.length, gs.length, entry, size c, size c, 0, 0⟩ = .noGroup (opened b g a) ∧
        (keyhi < g.keyhi ∨ g.keyhi = keyhi ∧ keylo < g.firstLo)) ∨
      ∃ b g a, gs = b ++ g :: a ∧ (∀ x ∈ b, P x) ∧
        probeGroups (pack blocksize gs) keyhi keylo r.length
            ⟨c.length, gs.length, entry, size c, size c, 0, 0⟩ = .probeEntry (opened b g a) ∧
        g.keyhi = keyhi ∧ g.firstLo ≤ keylo ∧
        ∀ g' a', a = g' :: a' → keyhi < g'.keyhi ∨ keylo < g'.firstLo := by
  induction r generalizing c entry with
  | nil =>
      rw [List.append_nil] at hgs
      subst hgs
      exact .inl ⟨entry, rfl, hc⟩
  | cons g r ih =>
      subst hgs
      have hg : g.Good := hgood g (by simp)
      have hlen : (c ++ g :: r).length = c.length + 1 + r.length := by
        rw [List.length_append, List.length_cons]
        omega
      have hopened : (⟨c.length + 1, (c ++ g :: r).length, size c + 1, size c + g.items.length,
          size c, 0, 0⟩ : Dwalk) = opened c g r := by
        rw [opened, hlen]
      rw [List.length_cons, probeGroups]
      dsimp only
      rw [groupAt_pack, entryAt_first hg]
      dsimp only
      by_cases hlt : keyhi < g.keyhi
      · rw [if_pos hlt, hopened]
        exact .inr (.inl ⟨c, g, r, rfl, hc, rfl, .inl hlt⟩)
      · rw [if_neg hlt]
        by_cases hfirst : g.keyhi = keyhi ∧ keylo < g.firstLo
        · rw [if_pos hfirst, hopened]
          exact .inr (.inl ⟨c, g, r, rfl, hc, rfl, .inr hfirst⟩)
        · rw [if_neg hfirst]
          split
          case isTrue hstop =>
            rw [hopened]
            refine .inr (.inr ⟨c, g, r, rfl, hc, rfl, hstop.1, ?_, ?_⟩)
            · exact Nat.le_of_not_lt fun h => hfirst ⟨hstop.1, h⟩
            · rintro g' r rfl
              rw [groupAt_next, entryAt_next (hgood g' (by simp))] at hstop
              rcases hstop.2 with h | h | h
              · rw [hlen, List.length_cons] at h
                omega
              · exact .inl h
              · exact .inr h
          case isFalse hstop =>
            have hskip : Skipped keyhi keylo g r := by
              by_cases heq : g.keyhi = keyhi
              · refine .inr ⟨heq, ?_⟩
                cases r with
                | nil => exact absurd ⟨heq, .inl hlen.symm⟩ hstop
                | cons g' r =>
                    rw [groupAt_next, entryAt_next (hgood g' (by simp))] at hstop
                    refine ⟨g', r, rfl, Nat.le_of_not_lt fun h => ?_, Nat.le_of_not_lt fun h => ?_⟩
                    · exact hstop ⟨heq, .inr (.inl h)⟩
                    · exact hstop ⟨heq, .inr (.inr h)⟩
              · exact .inl (by omega)
            have hlen' : (c ++ [g]).length = c.length + 1 := List.length_append
            have hc' : ∀ x ∈ c ++ [g], P x := by
              intro x hx
              cases List.mem_append.mp hx with
              | inl hx => exact hc x hx
              | inr hx => exact List.mem_singleton.mp hx ▸ hP c g r rfl hskip
            rw [limit_last hg, ← hlen', ← size_concat]
            exact ih (List.append_cons _ _ _) hc' (size c + 1)

/-- The loop over the entries stops at the last one of the group that is not above the key. -/
theorem probeEntries_here (left : ℕ) {j : ℕ} (hj : j < g.items.length)
    (hleft : j + 1 + left = g.items.length) (hle : g.items[j].1 ≤ keylo) :
    ∃ i, ∃ h : i < g.items.length, g.items[i].1 ≤ keylo ∧
      (∀ h' : i + 1 < g.items.length, keylo < g.items[i + 1].1) ∧
      probeEntries (pack blocksize (b ++ g :: a)) keylo left (here b g a j) = here b g a i := by
  induction left generalizing j with
  | zero => exact ⟨j, hj, hle, fun h' => absurd h' (by omega), rfl⟩
  | succ left ih =>
      have hj' : j + 1 < g.items.length := by omega
      have hentry : (here b g a j).entry + 1 = size b + (j + 1 + 1) := by
        rw [here, Nat.min_eq_left hj]
        rfl
      rw [probeEntries, hentry, entryAt_pack hj']
      dsimp only
      by_cases hlt : keylo < g.items[j + 1].1
      · rw [if_pos hlt]
        exact ⟨j, hj, hle, fun _ => hlt, rfl⟩
      · have hnext : (⟨(here b g a j).group, (here b g a j).gstop, size b + (j + 1 + 1),
            (here b g a j).estop, (here b g a j).exbase, (here b g a j).exstop,
            (here b g a j).exbase + (j + 1 + 1)⟩ : Dwalk) = here b g a (j + 1) := by
          simp only [here, Nat.min_eq_left hj, Nat.min_eq_left hj', Nat.succ_eq_add_one]
        rw [if_neg hlt, hnext]
        exact ih hj' (by omega) (Nat.le_of_not_lt hlt)

/-- Where a probe ends: at the end, before a group that begins above the key, or at the last entry
of its group that is not above the key or after it. -/
theorem dwalkProbe_cases (hgood : ∀ g ∈ gs, g.Good) (P : Bunch → Prop)
    (hP : ∀ b g a, gs = b ++ g :: a → Skipped (u32 (key / 2 ^ 24)) (key % 2 ^ 24) g a → P g) :
    (dwalkProbe (pack blocksize gs) key = (spot gs (size gs), false) ∧ ∀ x ∈ gs, P x) ∨
      (∃ b g a, gs = b ++ g :: a ∧ (∀ x ∈ b, P x) ∧
        dwalkProbe (pack blocksize gs) key = (spot gs (size b), true) ∧
        (u32 (key / 2 ^ 24) < g.keyhi ∨ g.keyhi = u32 (key / 2 ^ 24) ∧ key % 2 ^ 24 < g.firstLo)) ∨
      ∃ (b : List Bunch) (g : Bunch) (a : List Bunch) (i : ℕ) (h : i < g.items.length),
        gs = b ++ g :: a ∧ g.keyhi = u32 (key / 2 ^ 24) ∧
        g.items[i].1 ≤ key % 2 ^ 24 ∧
        (∀ h' : i + 1 < g.items.length, key % 2 ^ 24 < g.items[i + 1].1) ∧
        (∀ (g' : Bunch) a', a = g' :: a' → u32 (key / 2 ^ 24) < g'.keyhi ∨ key % 2 ^ 24 < g'.firstLo) ∧
        dwalkProbe (pack blocksize gs) key =
          if key < getIndex g.keyhi g.items[i].1 + g.items[i].2.count then
            (spot gs (size b + i), true)
          else (spot gs (size b + i + 1), decide (size b + i + 1 < size gs)) := by
  cases gs with
  | nil =>
      refine .inl ⟨?_, fun x hx => (List.not_mem_nil hx).elim⟩
      rw [dwalkProbe]
      rfl
  | cons first rest =>
      have hne : (pack blocksize (first :: rest)).groups.length ≠ 0 := by
        rw [pack]
        exact Nat.succ_ne_zero _
      have hlen : (pack blocksize (first :: rest)).groups.length = (first :: rest).length := by
        rw [pack]
        exact packGroups_length
      generalize hgs : first :: rest = gs at *
      have hcases := @probeGroups_cases blocksize _ _ gs gs [] rfl hgood P hP (by simp) 0
      simp only [List.length_nil, size] at hcases
      rw [dwalkProbe, if_neg hne, hlen]
      rcases hcases with ⟨e, hafter, hall⟩ | ⟨b, g, a, hsplit, hb, hno, hlt⟩ |
        ⟨b, g, a, hsplit, hb, hentry, heq, hfirst, hnext⟩
      · refine .inl ⟨?_, hall⟩
        obtain ⟨b, g, hbg⟩ : ∃ b g, gs = b ++ [g] :=
          ⟨gs.dropLast, gs.getLast (by rw [← hgs]; exact List.cons_ne_nil _ _),
            (List.dropLast_append_getLast _).symm⟩
        rw [hafter]
        subst hbg
        have hlimit := @limit_last blocksize [] b g (hgood g (by simp))
        dsimp only
        rw [spot_size, size_concat, hlimit, Nat.add_sub_cancel, here,
          Nat.min_eq_right (Nat.le_succ _), List.length_append]
        rfl
      · refine .inr (.inl ⟨b, g, a, hsplit, hb, ?_, hlt⟩)
        rw [hno]
        subst hsplit
        have hg : g.Good := hgood g (by simp)
        have hspot := @spot_split a b g 0 (.inl (List.length_pos_of_ne_nil hg.ne_nil))
        dsimp only
        rw [atFirst_opened hg, ← hspot, Nat.add_zero]
      · rw [hentry]
        subst hsplit
        have hg : g.Good := hgood g (by simp)
        obtain ⟨hpos, hlo⟩ := hg.firstLo
        have hleft : (opened b g a).estop - (opened b g a).entry = g.items.length - 1 := by
          rw [opened]
          dsimp only
          omega
        obtain ⟨i, hi, hle, hstop, hprobe⟩ := @probeEntries_here blocksize _ a b g
          (g.items.length - 1) 0 hpos (by omega) (hlo ▸ hfirst)
        refine .inr (.inr ⟨b, g, a, i, hi, rfl, heq, hle, hstop, hnext, ?_⟩)
        have hspot := @spot_split a b g i (.inl hi)
        have hlt : size b + i < size (b ++ g :: a) := by
          rw [size_append, size]
          omega
        have hread := @spot_reads blocksize _ _ hlt
        rw [pairs_getElem hi, Option.some_inj, Prod.mk.injEq] at hread
        dsimp only
        rw [atFirst_opened hg, hleft, hprobe, ← hspot, ← hread.1, ← hread.2,
          next_spot hgood hlt, spot_end hlt hgood, ← decide_not]
        congr 2
        exact decide_eq_decide.mpr ⟨fun h => Nat.lt_of_le_of_ne hlt h, Nat.ne_of_lt⟩

theorem dwalkProbe_spot (hgood : ∀ g ∈ gs, g.Good) :
    ∃ k ≤ size gs, dwalkProbe (pack blocksize gs) key = (spot gs k, decide (k < size gs)) := by
  rcases @dwalkProbe_cases blocksize key gs hgood (fun _ => True) (fun _ _ _ _ _ => trivial) with
    ⟨h, -⟩ | ⟨b, g, a, hgs, -, h, -⟩ | ⟨b, g, a, i, hi, hgs, -, -, -, -, h⟩
  · exact ⟨size gs, Nat.le_refl _, by rw [h, decide_eq_false (Nat.lt_irrefl _)]⟩
  · have hg : g.Good := hgood g (by simp [hgs])
    have hlt : size b < size gs := by
      rw [hgs, size_append, size]
      have := List.length_pos_of_ne_nil hg.ne_nil
      omega
    exact ⟨size b, Nat.le_of_lt hlt, by rw [h, decide_eq_true hlt]⟩
  · have hlt : size b + i < size gs := by
      rw [hgs, size_append, size]
      omega
    rw [h]
    split
    · exact ⟨size b + i, Nat.le_of_lt hlt, by rw [decide_eq_true hlt]⟩
    · exact ⟨size b + i + 1, hlt, rfl⟩

/-! ## Exactness -/

theorem findIdx_at {α : Type*} {l : List α} {f : α → Bool} (hk : k ≤ l.length)
    (hbefore : ∀ i x, i < k → l[i]? = some x → f x = false)
    (hat : ∀ x, l[k]? = some x → f x = true) : l.findIdx f = k := by
  cases Nat.lt_or_eq_of_le hk with
  | inl hlt =>
      refine (List.findIdx_eq hlt).mpr ⟨hat _ (List.getElem?_eq_getElem hlt), fun i hi => ?_⟩
      exact hbefore i _ hi (List.getElem?_eq_getElem (Nat.lt_trans hi hlt))
  | inr heq =>
      rw [heq, List.findIdx_eq_length]
      intro x hx
      obtain ⟨i, hi, rfl⟩ := List.getElem_of_mem hx
      exact hbefore i _ (heq ▸ hi) (List.getElem?_eq_getElem hi)

theorem getIndex_div {hi lo : ℕ} (hlo : lo < 2 ^ 24) : getIndex hi lo / 2 ^ 24 = hi := by
  rw [getIndex]
  omega

/-- The first extent of its own range that reaches over the key. -/
def Reaches (key : ℕ) (p : ℕ × Extent) : Prop :=
  key / 2 ^ 24 ≤ p.1 / 2 ^ 24 ∧ key < p.1 + p.2.count

instance (p : ℕ × Extent) : Decidable (Reaches key p) :=
  inferInstanceAs (Decidable (_ ∧ _))

theorem mem_pairs {g : Bunch} (hg : g.Good) {p : ℕ × Extent} (hp : p ∈ g.pairs) :
    p.1 / 2 ^ 24 = g.keyhi := by
  obtain ⟨x, hx, rfl⟩ := List.mem_map.mp hp
  exact getIndex_div (hg.keylo_lt x hx)

theorem Skipped.not_reaches (hgood : ∀ g ∈ gs, g.Good)
    (hapart : (pairsOf gs).Pairwise fun p q => p.1 + p.2.count ≤ q.1) (hgs : gs = b ++ g :: a)
    (h : Skipped (key / 2 ^ 24) (key % 2 ^ 24) g a) : ∀ p ∈ g.pairs, ¬Reaches key p := by
  intro p hp hreach
  cases h with
  | inl hlt => exact absurd hreach.1 (by rw [mem_pairs (hgood g (by simp [hgs])) hp]; omega)
  | inr h =>
      obtain ⟨-, g', a', rfl, hhi, hlo⟩ := h
      obtain ⟨hpos, hfirst⟩ := (hgood g' (by simp [hgs])).firstLo
      have hq : (getIndex g'.keyhi g'.items[0].1, g'.items[0].2) ∈ g'.pairs :=
        List.mem_map.mpr ⟨g'.items[0], List.getElem_mem hpos, rfl⟩
      rw [hgs, pairsOf_append, pairsOf_cons, pairsOf_cons] at hapart
      have hpq := (List.pairwise_append.mp (List.pairwise_append.mp hapart).2.1).2.2 p hp _
        (List.mem_append_left _ hq)
      have hindex : getIndex g'.keyhi g'.items[0].1 ≤ key := by
        rw [getIndex, ← hfirst]
        omega
      exact absurd hreach.2 (Nat.not_lt.mpr (Nat.le_trans hpq hindex))

theorem size_lt {i : ℕ} (hi : i < g.items.length) :
    size b + i < (pairsOf (b ++ g :: a)).length := by
  rw [pairsOf_length, size_append, size]
  omega

/-- The groups before are passed, and the group begins above the key. -/
theorem findIdx_group (hgood : ∀ x ∈ b ++ g :: a, x.Good)
    (hb : ∀ x ∈ b, ∀ p ∈ x.pairs, ¬Reaches key p)
    (hlt : key / 2 ^ 24 < g.keyhi ∨ g.keyhi = key / 2 ^ 24 ∧ key % 2 ^ 24 < g.firstLo) :
    (pairsOf (b ++ g :: a)).findIdx (fun p => Reaches key p) = size b := by
  have hg : g.Good := hgood g (by simp)
  obtain ⟨hpos, hfirst⟩ := hg.firstLo
  refine findIdx_at (Nat.le_of_lt (size_lt hpos)) (fun j p hj hp => ?_) fun p hp => ?_
  · rw [pairsOf_append, List.getElem?_append_left (pairsOf_length ▸ hj)] at hp
    obtain ⟨x, hx, hpx⟩ := List.mem_flatMap.mp (List.mem_of_getElem? hp)
    exact decide_eq_false (hb x hx p hpx)
  · have hread := @pairs_getElem a b g 0 hpos
    rw [Nat.add_zero, hp, Option.some_inj] at hread
    have hlo := hg.keylo_lt _ (List.getElem_mem hpos)
    rw [hfirst] at hlt
    rw [hread]
    refine decide_eq_true ⟨?_, ?_⟩
    · rw [getIndex_div hlo]
      omega
    · dsimp only
      rw [getIndex]
      omega

section
variable (hapart : (pairsOf (b ++ g :: a)).Pairwise fun p q => p.1 + p.2.count ≤ q.1)
include hapart

theorem before_entry {i : ℕ} (hi : i < g.items.length) (hle : getIndex g.keyhi g.items[i].1 ≤ key)
    {j : ℕ} {p : ℕ × Extent} (hj : j < size b + i) (hp : (pairsOf (b ++ g :: a))[j]? = some p) :
    decide (Reaches key p) = false := by
  obtain ⟨hj', rfl⟩ := List.getElem?_eq_some_iff.mp hp
  obtain ⟨hi', hq⟩ := List.getElem?_eq_some_iff.mp (@pairs_getElem a b g i hi)
  have hpq := List.pairwise_iff_getElem.mp hapart j (size b + i) hj' hi' hj
  rw [hq] at hpq
  exact decide_eq_false fun hreach => absurd hreach.2 (Nat.not_lt.mpr (Nat.le_trans hpq hle))

variable (hgood : ∀ x ∈ b ++ g :: a, x.Good)
include hgood

theorem findIdx_entry {i : ℕ} (hi : i < g.items.length) (heq : g.keyhi = key / 2 ^ 24)
    (hle : getIndex g.keyhi g.items[i].1 ≤ key)
    (hcovers : key < getIndex g.keyhi g.items[i].1 + g.items[i].2.count) :
    (pairsOf (b ++ g :: a)).findIdx (fun p => Reaches key p) = size b + i := by
  have hg : g.Good := hgood g (by simp)
  refine findIdx_at (Nat.le_of_lt (size_lt hi))
    (fun j p hj hp => before_entry hapart hi hle hj hp) fun p hp => ?_
  rw [pairs_getElem hi, Option.some_inj] at hp
  rw [← hp]
  refine decide_eq_true ⟨?_, hcovers⟩
  rw [getIndex_div (hg.keylo_lt _ (List.getElem_mem hi))]
  exact Nat.le_of_eq heq.symm

/-- The entry ends at or below the key, and the one after it begins above the key. -/
theorem findIdx_after (hsorted : ((b ++ g :: a).map Bunch.keyhi).Pairwise (· ≤ ·)) {i : ℕ}
    (hi : i < g.items.length) (heq : g.keyhi = key / 2 ^ 24)
    (hle : getIndex g.keyhi g.items[i].1 ≤ key)
    (hstop : ∀ h' : i + 1 < g.items.length, key % 2 ^ 24 < g.items[i + 1].1)
    (hnext : ∀ (g' : Bunch) a', a = g' :: a' → key / 2 ^ 24 < g'.keyhi ∨ key % 2 ^ 24 < g'.firstLo)
    (hcovers : ¬key < getIndex g.keyhi g.items[i].1 + g.items[i].2.count) :
    (pairsOf (b ++ g :: a)).findIdx (fun p => Reaches key p) = size b + i + 1 := by
  have hg : g.Good := hgood g (by simp)
  refine findIdx_at (size_lt hi) (fun j p hj hp => ?_) fun p hp => ?_
  · cases Nat.lt_or_eq_of_le (Nat.le_of_lt_succ hj) with
    | inl hlt => exact before_entry hapart hi hle hlt hp
    | inr hj =>
        rw [hj, pairs_getElem hi, Option.some_inj] at hp
        rw [← hp]
        exact decide_eq_false fun hreach => hcovers hreach.2
  · by_cases hlast : i + 1 < g.items.length
    · have hread := @pairs_getElem a b g (i + 1) hlast
      rw [← Nat.add_assoc, hp, Option.some_inj] at hread
      have hlt := hstop hlast
      rw [hread]
      refine decide_eq_true ⟨?_, ?_⟩
      · rw [getIndex_div (hg.keylo_lt _ (List.getElem_mem hlast))]
        exact Nat.le_of_eq heq.symm
      · dsimp only
        rw [getIndex]
        omega
    · have hlen : size b + i + 1 = size (b ++ [g]) + 0 := by
        rw [size_concat]
        omega
      cases a with
      | nil =>
          rw [List.getElem?_eq_none (Nat.le_of_eq (pairsOf_length.trans hlen.symm))] at hp
          cases hp
      | cons g' a =>
          have hg' : g'.Good := hgood g' (by simp)
          obtain ⟨hpos, hfirst⟩ := hg'.firstLo
          have hread := @pairs_getElem a (b ++ [g]) g' 0 hpos
          rw [← hlen, ← List.append_cons, hp, Option.some_inj] at hread
          have hkeyhi : g.keyhi ≤ g'.keyhi := by
            rw [List.map_append, List.map_cons] at hsorted
            exact (List.pairwise_cons.mp (List.pairwise_append.mp hsorted).2.1).1 _
              (List.mem_map.mpr ⟨g', List.mem_cons_self, rfl⟩)
          have hlt := hnext g' a rfl
          rw [hfirst] at hlt
          rw [hread]
          refine decide_eq_true ⟨?_, ?_⟩
          · rw [getIndex_div (hg'.keylo_lt _ (List.getElem_mem hpos))]
            omega
          · dsimp only
            rw [getIndex]
            omega

end

/-- The probe finds the first extent that reaches over the key from the key's range or a later
one. -/
theorem dwalkProbe_reaches (hkey : key < 2 ^ 56) (hgood : ∀ g ∈ gs, g.Good)
    (hsorted : (gs.map Bunch.keyhi).Pairwise (· ≤ ·))
    (hapart : (pairsOf gs).Pairwise fun p q => p.1 + p.2.count ≤ q.1) :
    dwalkProbe (pack blocksize gs) key =
      (spot gs ((pairsOf gs).findIdx fun p => Reaches key p),
        decide ((pairsOf gs).findIdx (fun p => Reaches key p) < size gs)) := by
  have hcases := @dwalkProbe_cases blocksize key gs hgood fun g => ∀ p ∈ g.pairs, ¬Reaches key p
  rw [u32_of_lt (show key / 2 ^ 24 < 2 ^ 32 by omega)] at hcases
  rcases hcases (fun b g a hgs h => h.not_reaches hgood hapart hgs) with
    ⟨h, hall⟩ | ⟨b, g, a, rfl, hb, h, hlt⟩ | ⟨b, g, a, i, hi, rfl, heq, hle, hstop, hnext, h⟩
  · -- every group is passed
    have hidx : (pairsOf gs).findIdx (fun p => decide (Reaches key p)) = size gs := by
      refine pairsOf_length ▸ List.findIdx_eq_length_of_false fun p hp => ?_
      obtain ⟨x, hx, hpx⟩ := List.mem_flatMap.mp hp
      exact decide_eq_false (hall x hx p hpx)
    rw [h, hidx, decide_eq_false (Nat.lt_irrefl _)]
  · have hsize := @size_lt a b g 0 (hgood g (by simp)).firstLo.1
    rw [pairsOf_length, Nat.add_zero] at hsize
    rw [h, findIdx_group hgood hb hlt, decide_eq_true hsize]
  · have hsize := @size_lt a b g i hi
    rw [pairsOf_length] at hsize
    have hindex : getIndex g.keyhi g.items[i].1 ≤ key := by
      rw [getIndex]
      omega
    rw [h]
    split
    case isTrue hcovers =>
      rw [findIdx_entry hapart hgood hi heq hindex hcovers, decide_eq_true hsize]
    case isFalse hcovers =>
      rw [findIdx_after hapart hgood hsorted hi heq hindex hstop hnext hcovers]

theorem walkTo_spot (hgood : ∀ g ∈ gs, g.Good)
    (hstart : (dwalkProbe (pack blocksize gs) 0).1 = spot gs 0) (hk : k ≤ size gs) :
    walkTo (pack blocksize gs) k = spot gs k := by
  induction k with
  | zero => exact hstart
  | succ k ih =>
      have hrec := ih (Nat.le_of_lt hk)
      rw [walkTo] at hrec ⊢
      rw [Function.iterate_succ_apply', hrec, next_spot hgood hk]

theorem dwalkProbe_zero (h : Fits blocksize gs) (hordered : (pack blocksize gs).Ordered) :
    (dwalkProbe (pack blocksize gs) 0).1 = spot gs 0 := by
  have hapart := hordered.apart
  have hcounts := hordered.counts
  rw [pack_pairs] at hapart hcounts
  have hzero : (pairsOf gs).findIdx (fun p => decide (Reaches 0 p)) = 0 := by
    refine findIdx_at (Nat.zero_le _) (fun j _ hj _ => absurd hj (Nat.not_lt_zero j)) ?_
    intro p hp
    have hcount := (hcounts p (List.mem_of_getElem? hp)).1
    exact decide_eq_true ⟨Nat.zero_le _, by omega⟩
  rw [dwalkProbe_reaches (by decide) h.good h.sorted hapart, hzero]

end

/-- The probe is exact when no extent that covers the key begins in an earlier range. -/
theorem probeExact_iff {blocksize key : ℕ} {leaf : Leaf} (h : leaf.Sound blocksize)
    (hordered : leaf.Ordered) (hkey : key < 2 ^ 56) :
    ProbeExact leaf key ↔
      ∀ p ∈ leaf.pairs, key < p.1 + p.2.count → key / 2 ^ 24 ≤ p.1 / 2 ^ 24 := by
  obtain ⟨gs, hfits, rfl⟩ := h.packed
  have hapart := hordered.apart
  rw [pack_pairs] at hapart ⊢
  have hgood := hfits.good
  have hprobe := @dwalkProbe_reaches blocksize key gs hkey hgood hfits.sorted hapart
  have hstart := dwalkProbe_zero hfits hordered
  have hle : ∀ f : ℕ × Extent → Bool, (pairsOf gs).findIdx f ≤ size gs :=
    fun f => pairsOf_length ▸ List.findIdx_le_length
  rw [ProbeExact, pack_pairs]
  rw [walkTo_spot hgood hstart (hle _), hprobe, pairsOf_length]
  constructor
  · rintro ⟨heq, -, -⟩ p hp hcovers
    have hextent := congrArg (fun r => r.1.extent) heq
    dsimp only at hextent
    rw [spot_extent (hle _), spot_extent (hle _)] at hextent
    -- the extent found reaches over the key, and it is not after the covering one
    obtain ⟨i, hi, rfl⟩ := List.getElem_of_mem hp
    have hki : (pairsOf gs).findIdx (fun p => decide (Reaches key p)) ≤ i := by
      rw [hextent]
      exact Nat.le_of_not_lt fun hlt =>
        of_decide_eq_false (List.not_of_lt_findIdx hlt) hcovers
    have hk := Nat.lt_of_le_of_lt hki hi
    have hreach := of_decide_eq_true (@List.findIdx_getElem _ _ _ hk)
    cases Nat.lt_or_eq_of_le hki with
    | inl hlt =>
        have hpq := List.pairwise_iff_getElem.mp hapart _ i hk hi hlt
        exact Nat.le_trans hreach.1 (Nat.div_le_div_right (by omega))
    | inr heq =>
        have hreach := hreach.1
        simp only [heq] at hreach
        exact hreach
  · intro hall
    have hidx : (pairsOf gs).findIdx (fun p => decide (Reaches key p)) =
        (pairsOf gs).findIdx fun p => decide (key < p.1 + p.2.count) := by
      apply Nat.le_antisymm
      · apply List.findIdx_le_findIdx
        intro p hp hcovers
        have hcovers := of_decide_eq_true hcovers
        exact decide_eq_true ⟨hall p hp hcovers, hcovers⟩
      · apply List.findIdx_le_findIdx
        intro p _ hreach
        exact decide_eq_true (of_decide_eq_true hreach).2
    rw [hidx]
    refine ⟨rfl, spot_end (hle _) hgood, fun p hp => ?_⟩
    have hlt := (List.getElem?_eq_some_iff.mp hp).1
    rw [pairsOf_length] at hlt
    have hread := @spot_reads blocksize gs _ hlt
    rw [hp, Option.some_inj] at hread
    rw [hread]
    exact ⟨rfl, rfl⟩

/-- An extent of two blocks at the last index of the first range, and the second of them. -/
def straddling : Leaf :=
  pack 4096 [⟨0, [(2 ^ 24 - 1, ⟨100, 2⟩)]⟩]

theorem straddling_fits : Fits 4096 [⟨0, [(2 ^ 24 - 1, ⟨100, 2⟩)]⟩] where
  good := by
    intro g hg
    cases List.mem_singleton.mp hg
    exact ⟨by simp, by decide, by simp, by simp, by decide, by simp⟩
  sorted := List.pairwise_singleton _ _
  room := by decide

theorem straddling_ordered : straddling.Ordered where
  increasing := List.pairwise_singleton _ _
  apart := List.pairwise_singleton _ _
  counts := by
    intro p hp
    cases List.mem_singleton.mp hp
    exact ⟨by decide, by decide⟩

theorem probeExact_straddling :
    ProbeExact straddling (2 ^ 24 - 1) ↔
      ∀ p ∈ straddling.pairs, 2 ^ 24 - 1 < p.1 + p.2.count →
        (2 ^ 24 - 1) / 2 ^ 24 ≤ p.1 / 2 ^ 24 :=
  probeExact_iff straddling_fits.sound straddling_ordered (by decide)

/-- The probe for the second block misses the extent. -/
theorem probe_misses :
    straddling.Sound 4096 ∧ straddling.Ordered ∧
      dwalkIndex straddling (walkTo straddling 0) = 2 ^ 24 - 1 ∧
      (straddling.extentAt (walkTo straddling 0).extent).count = 2 ∧
      (dwalkProbe straddling (2 ^ 24)).2 = false ∧ ¬ProbeExact straddling (2 ^ 24) := by
  refine ⟨straddling_fits.sound, straddling_ordered, by decide, by decide, by decide, ?_⟩
  intro h
  exact absurd (congrArg Prod.snd h.1) (by decide)

end Tux3.Dleaf
